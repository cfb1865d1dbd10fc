/-
  EvenChroma/Proofs/DoubleQuotients.lean
  ======================================
  **Comparisons, quotients, roots and powers of two**, by the values of the doubles.  Finite
  doubles compare as their values do.  A quotient is close to the exact one, as sums and
  products are; a root is only bounded from below, by half the exact one.  Scaling by a power
  of two changes the value by that power, up to two roundings.
-/
import EvenChroma.Proofs.DoubleErrors

namespace EvenChroma.Double

open Float.Model Float.Model.UnpackedFloat

/-! ### Comparisons -/

theorem rankOf_neg_le_iff {e e' m m' : ℤ} :
    rankOf (-1) (-e) (-m) ≤ rankOf (-1) (-e') (-m') ↔ rankOf 1 e' m' ≤ rankOf 1 e m := by
  rw [rankOf_le_iff, rankOf_le_iff]
  omega

/-- Finite doubles are ordered as their values. -/
theorem rank_le_iff_value {x y : Float} (hx : x.isFinite = true) (hy : y.isFinite = true) :
    rank x ≤ rank y ↔ value x ≤ value y := by
  change x.toModel.unpack.isFinite = true at hx
  change y.toModel.unpack.isFinite = true at hy
  rw [rank, rank, value, value]
  cases hu : x.toModel.unpack with
  | infinity s =>
    rw [hu] at hx
    cases hx
  | notANumber =>
    rw [hu] at hx
    cases hx
  | zero s =>
    cases hv : y.toModel.unpack with
    | infinity s' =>
      rw [hv] at hy
      cases hy
    | notANumber =>
      rw [hv] at hy
      cases hy
    | zero s' => exact rank_le_iff (.zero s) (.zero s')
    | finite s' m' e' hm' =>
      cases s' with
      | positive => exact rank_le_iff (.zero s) (.positive hm' (canonical_of_unpack hv))
      | negative =>
        refine iff_of_false (fun h => ?_) (not_le.mpr ?_)
        · rcases rankOf_le_iff.mp h with h | h <;> omega
        · exact neg_neg_of_pos (mul_pos (Nat.cast_pos.mpr hm') (two_zpow_pos e'))
  | finite s m e hm =>
    have hpos : (0 : ℚ) < m * 2 ^ e := mul_pos (Nat.cast_pos.mpr hm) (two_zpow_pos e)
    cases hv : y.toModel.unpack with
    | infinity s' =>
      rw [hv] at hy
      cases hy
    | notANumber =>
      rw [hv] at hy
      cases hy
    | zero s' =>
      cases s with
      | positive => exact rank_le_iff (.positive hm (canonical_of_unpack hu)) (.zero s')
      | negative =>
        have hrank : rankOf (-1) (-e) (-m) ≤ rankOf 0 0 0 :=
          rankOf_le_iff.mpr (.inl (by norm_num))
        exact iff_of_true hrank (neg_nonpos_of_nonneg hpos.le)
    | finite s' m' e' hm' =>
      have hpos' : (0 : ℚ) < m' * 2 ^ e' := mul_pos (Nat.cast_pos.mpr hm') (two_zpow_pos e')
      have hstands := Stands.positive hm (canonical_of_unpack hu)
      have hstands' := Stands.positive hm' (canonical_of_unpack hv)
      cases s with
      | positive =>
        cases s' with
        | positive => exact rank_le_iff hstands hstands'
        | negative =>
          refine iff_of_false (fun h => ?_) (not_le.mpr ((neg_neg_of_pos hpos').trans hpos))
          rcases rankOf_le_iff.mp h with h | h <;> omega
      | negative =>
        cases s' with
        | positive =>
          have hrank : rankOf (-1) (-e) (-m) ≤ rankOf 1 e' m' :=
            rankOf_le_iff.mpr (.inl (by norm_num))
          exact iff_of_true hrank ((neg_neg_of_pos hpos).trans hpos').le
        | negative =>
          change rankOf (-1) (-e) (-m) ≤ rankOf (-1) (-e') (-m') ↔
            -((m : ℚ) * 2 ^ e) ≤ -(m' * 2 ^ e')
          rw [rankOf_neg_le_iff, neg_le_neg_iff]
          exact rank_le_iff hstands' hstands

theorem isNaN_of_isFinite {x : Float} (hx : x.isFinite = true) : x.isNaN = false :=
  (isFinite_iff.mp hx).1

theorem le_iff_value {x y : Float} (hx : x.isFinite = true) (hy : y.isFinite = true) :
    x ≤ y ↔ value x ≤ value y := by
  rw [le_iff, rank_le_iff_value hx hy]
  exact ⟨fun h => h.2.2, fun h => ⟨isNaN_of_isFinite hx, isNaN_of_isFinite hy, h⟩⟩

theorem lt_iff_value {x y : Float} (hx : x.isFinite = true) (hy : y.isFinite = true) :
    x < y ↔ value x < value y := by
  rw [lt_iff, ← not_le, rank_le_iff_value hy hx, not_le]
  exact ⟨fun h => h.2.2, fun h => ⟨isNaN_of_isFinite hx, isNaN_of_isFinite hy, h⟩⟩

/-! ### Magnitudes -/

theorem unpack_abs (x : Float) : x.abs.toModel.unpack = x.toModel.unpack.abs := by
  change (pack x.toModel.unpack.abs).unpack = _
  cases h : x.toModel.unpack with
  | infinity s => cases s <;> rfl
  | notANumber => rfl
  | zero s => cases s <;> rfl
  | finite s m e hm => exact unpack_pack_finite hm (canonical_of_unpack h)

theorem isFinite_abs (x : Float) : x.abs.isFinite = x.isFinite := by
  change x.abs.toModel.unpack.isFinite = x.toModel.unpack.isFinite
  rw [unpack_abs]
  rcases x.toModel.unpack with _ | _ | _ | _ <;> rfl

theorem value_abs (x : Float) : value x.abs = |value x| := by
  rw [value, value, unpack_abs]
  rcases x.toModel.unpack with _ | _ | _ | ⟨s, m, e, hm⟩
  · exact abs_zero.symm
  · exact abs_zero.symm
  · exact abs_zero.symm
  · rw [unpackedValue_finite, abs_withSign]
    exact (abs_of_nonneg (mul_nonneg (Nat.cast_nonneg m) (two_zpow_pos e).le)).symm

theorem isFinite_copySign (x y : Float) : (copySign x y).isFinite = x.isFinite := by
  rw [copySign]
  split
  · rw [isFinite_neg, isFinite_abs]
  · exact isFinite_abs x

theorem abs_value_copySign (x y : Float) : |value (copySign x y)| = |value x| := by
  rw [copySign]
  split
  · rw [value_neg, abs_neg, value_abs, abs_abs]
  · rw [value_abs, abs_abs]

theorem bounded_copySign_iff {b : ℚ} {x y : Float} : Bounded b (copySign x y) ↔ Bounded b x := by
  rw [Bounded, Bounded, isFinite_copySign, abs_value_copySign]

theorem bounded_abs_iff {b : ℚ} {x : Float} : Bounded b x.abs ↔ Bounded b x := by
  rw [Bounded, Bounded, isFinite_abs, value_abs, abs_abs]

theorem Bounded.of_le {b : ℚ} {x : Float} (hx : x.isFinite = true) (hlow : -b ≤ value x)
    (hhigh : value x ≤ b) : Bounded b x :=
  ⟨hx, abs_le.mpr ⟨hlow, hhigh⟩⟩

/-! ### Quotients -/

theorem withSign_div (s s' : Sign) (p q : ℚ) :
    withSign s p / withSign s' q = withSign (s / s') (p / q) := by
  cases s <;> cases s'
  · exact neg_div_neg_eq p q
  · exact neg_div q p
  · exact div_neg p
  · rfl

/-- **Quotients are close to the exact quotients.** -/
theorem approximates_div {x y : Float} (hx : x.isFinite = true) (hy : y.isFinite = true)
    (hne : value y ≠ 0) : Approximates (x / y) (value x / value y) := by
  change x.toModel.unpack.isFinite = true at hx
  change y.toModel.unpack.isFinite = true at hy
  change unpackedValue y.toModel.unpack ≠ 0 at hne
  change Approximates (Float.ofModel (pack (UnpackedFloat.div .binary64 x.toModel.unpack
    y.toModel.unpack))) (unpackedValue x.toModel.unpack / unpackedValue y.toModel.unpack)
  generalize x.toModel.unpack = u at hx ⊢
  generalize y.toModel.unpack = v at hy hne ⊢
  cases v with
  | infinity s' => cases hy
  | notANumber => cases hy
  | zero s' => exact absurd rfl hne
  | finite s' m' e' hm' =>
    cases u with
    | infinity s => cases hx
    | notANumber => cases hx
    | zero s =>
      rw [show unpackedValue (.zero s) = 0 from rfl, zero_div]
      exact approximates_zero _
    | finite s m e hm =>
      obtain ⟨n, grid, accuracy, hdiv, hhalves, hfine⟩ := exists_div s s' e e' hm hm'
      rw [unpackedValue_finite, unpackedValue_finite, withSign_div, hdiv]
      exact approximates_roundWithAccuracy hhalves.toCovers hfine
        (div_nonneg (mul_nonneg (Nat.cast_nonneg m) (two_zpow_pos e).le)
          (mul_nonneg (Nat.cast_nonneg m') (two_zpow_pos e').le))

/-! ### Roots -/

theorem log2_div_two_le_log2_sqrt {n : ℕ} (hn : 0 < n) : n.log2 / 2 ≤ n.sqrt.log2 := by
  rw [Nat.le_log2 (Nat.sqrt_pos.mpr hn).ne', Nat.le_sqrt, ← pow_add]
  calc 2 ^ (n.log2 / 2 + n.log2 / 2) ≤ 2 ^ n.log2 := Nat.pow_le_pow_right two_pos (by omega)
    _ ≤ n := Nat.log2_self_le hn.ne'

/-- A number between two whole ones is rounded like the half between them, or exactly. -/
theorem exists_covers_ofAccuracy (n : ℕ) (accuracy : Accuracy) :
    ∃ q : ℚ, n ≤ q ∧ Covers (ExtendedMantissa.ofMantissaAndAccuracy n accuracy) q := by
  cases accuracy with
  | exact => exact ⟨_, le_refl _, covers_exact _⟩
  | inexact o =>
    refine ⟨n + 1 / 2, by linarith, ?_⟩
    cases o <;> exact ⟨by norm_num [ExtendedMantissa.ofMantissaAndAccuracy],
      by norm_num [ExtendedMantissa.ofMantissaAndAccuracy],
      by norm_num [ExtendedMantissa.ofMantissaAndAccuracy]⟩

/-- What is rounded to a root: it has the digits of the whole root, and is half way to the next
    one if the root is not exact. -/
theorem exists_sqrtCore {m : ℕ} (e : ℤ) (hm : 0 < m) :
    ∃ (n : ℕ) (grid : ℤ) (accuracy : Accuracy) (q : ℚ),
      sqrtCore .binary64 m e = (n, grid, accuracy) ∧
      Covers (ExtendedMantissa.ofMantissaAndAccuracy n accuracy) (q / 2 ^ grid) ∧
      grid ≤ Format.binary64.targetExponent (totalExponent n grid) ∧
      (n : ℚ) * 2 ^ grid ≤ q ∧ 0 < n ∧ ((n : ℚ) * 2 ^ grid) ^ 2 ≤ m * 2 ^ e ∧
      (m : ℚ) * 2 ^ e < ((n + 1) * 2 ^ grid) ^ 2 := by
  obtain ⟨grid, hgrid⟩ : ∃ grid, grid = min (e.ediv 2)
      (Format.binary64.targetExponent ((totalExponent m e + 1).ediv 2)) := ⟨_, rfl⟩
  obtain ⟨k, hk⟩ := Int.le.dest (show 2 * grid ≤ e by
    have : e.ediv 2 = e / 2 := rfl
    omega)
  have hshift : (e - 2 * grid).toNat = k := by omega
  obtain ⟨whole, hwhole⟩ : ∃ whole, whole = m * 2 ^ k := ⟨_, rfl⟩
  have hpos : 0 < whole := hwhole ▸ Nat.mul_pos hm (Nat.two_pow_pos k)
  have hlow : whole.sqrt * whole.sqrt ≤ whole := Nat.sqrt_le whole
  have hhigh : whole < (whole.sqrt + 1) * (whole.sqrt + 1) := Nat.lt_succ_sqrt whole
  have hroot : 0 < whole.sqrt := Nat.sqrt_pos.mpr hpos
  have hgridpos := two_zpow_pos grid
  have hvalue : (m : ℚ) * 2 ^ e = whole * (2 ^ grid) ^ 2 := by
    rw [hwhole, ← hk, zpow_add₀ (by norm_num), zpow_natCast, two_mul, zpow_add₀ (by norm_num)]
    push_cast
    ring
  obtain ⟨accuracy, haccuracy⟩ : ∃ accuracy, accuracy =
      if whole - whole.sqrt * whole.sqrt = 0 then Accuracy.exact
      else .inexact (if whole - whole.sqrt * whole.sqrt ≤ whole.sqrt then .lt else .gt) :=
    ⟨_, rfl⟩
  obtain ⟨q, hq, hcovers⟩ := exists_covers_ofAccuracy whole.sqrt accuracy
  refine ⟨whole.sqrt, grid, accuracy, q * 2 ^ grid, ?_, ?_, ?_, ?_, hroot, ?_, ?_⟩
  · rw [sqrtCore, ← hgrid, hshift, Nat.shiftLeft_eq, ← hwhole, haccuracy]
  · rwa [mul_div_cancel_right₀ _ hgridpos.ne']
  · have hlog := log2_div_two_le_log2_sqrt hpos
    have hdigits : whole.log2 = m.log2 + k := by rw [hwhole, log2_mul_two_pow hm.ne']
    have hhalf : ∀ n : ℤ, n.ediv 2 = n / 2 := fun _ => rfl
    rw [hhalf, hhalf] at hgrid
    rw [targetExponent_eq] at hgrid ⊢
    simp only [totalExponent] at hgrid ⊢
    omega
  · exact mul_le_mul_of_nonneg_right hq hgridpos.le
  · rw [hvalue, mul_pow]
    refine mul_le_mul_of_nonneg_right ?_ (pow_pos hgridpos 2).le
    rw [pow_two]
    exact_mod_cast hlow
  · rw [hvalue, mul_pow]
    refine mul_lt_mul_of_pos_right ?_ (pow_pos hgridpos 2)
    rw [pow_two]
    exact_mod_cast hhigh

/-- A finite double from one on is a positive mantissa with an exponent. -/
theorem exists_finite_of_one_le {x : Float} (hx : x.isFinite = true) (hone : 1 ≤ value x) :
    ∃ m e, ∃ hm : 0 < m, x.toModel.unpack = .finite .positive m e hm := by
  rw [value] at hone
  change x.toModel.unpack.isFinite = true at hx
  generalize x.toModel.unpack = u at hx hone
  rcases u with s | _ | s | ⟨_ | _, m, e, hm⟩
  · cases hx
  · cases hx
  · exact absurd hone (not_le.mpr one_pos)
  · have hpos : (0 : ℚ) < m * 2 ^ e := mul_pos (Nat.cast_pos.mpr hm) (two_zpow_pos e)
    exact absurd hone (not_le.mpr ((neg_neg_of_pos hpos).trans one_pos))
  · exact ⟨m, e, hm, rfl⟩

/-- **The root of a number from one on is at least a quarter.** -/
theorem quarter_le_sqrt {x : Float} (hx : x.isFinite = true) (hone : 1 ≤ value x) :
    x.sqrt.isFinite = true ∧ 1 / 4 ≤ value x.sqrt := by
  obtain ⟨m, e, hm, hu⟩ := exists_finite_of_one_le hx hone
  have hcanonical := canonical_of_unpack hu
  obtain ⟨n, grid, accuracy, q, hcore, hcovers, hfine, hge, hn, hlow, hhigh⟩ :=
    exists_sqrtCore e hm
  rw [value, hu] at hone
  have hgridpos := two_zpow_pos grid
  have hunit : (2 : ℚ) ^ grid ≤ n * 2 ^ grid :=
    le_mul_of_one_le_left hgridpos.le (Nat.one_le_cast.mpr hn)
  have hhalf : 1 / 2 ≤ q := by
    have hnext : (1 : ℚ) < (n + 1) * 2 ^ grid := by
      by_contra hsmall
      have hle : ((n + 1 : ℚ) * 2 ^ grid) ^ 2 ≤ 1 :=
        pow_le_one₀ (by positivity) (not_lt.mp hsmall)
      exact absurd (hone.trans_lt (hhigh.trans_le hle)) (lt_irrefl _)
    linarith
  have htop : q < 2 ^ 513 := by
    have hroot : (n : ℚ) * 2 ^ grid < 2 ^ 512 := by
      refine lt_of_pow_lt_pow_left₀ 2 (by positivity) (hlow.trans_lt ?_)
      rw [← pow_mul]
      exact (Stands.positive hm hcanonical).lt_top
    have hq := hcovers.high
    rw [mantissa_ofMantissaAndAccuracy, div_lt_iff₀ hgridpos] at hq
    rw [pow_succ]
    generalize (2 : ℚ) ^ 512 = top at hroot ⊢
    linarith
  have happrox : Approximates x.sqrt q := by
    change Approximates (Float.ofModel (pack (UnpackedFloat.sqrt .binary64 x.toModel.unpack))) q
    rw [hu, UnpackedFloat.sqrt]
    dsimp only
    rw [hcore]
    exact approximates_roundWithAccuracy hcovers hfine (by linarith)
  rw [← abs_of_nonneg (a := q) (by linarith)] at htop
  cases happrox with
  | overflow _ hlarge =>
    have hlt : (2 : ℚ) ^ 513 < 2 ^ 1023 := pow_lt_pow_right₀ one_lt_two (by norm_num)
    exact absurd (htop.trans (hlt.trans_le hlarge)) (lt_irrefl _)
  | close hfinite hclose =>
    have htiny : (1 : ℚ) / 2 ^ 1074 ≤ 1 / 2 ^ 4 :=
      one_div_le_one_div_of_le (by positivity) (pow_le_pow_right₀ one_le_two (by norm_num))
    rw [abs_of_nonneg (a := q) (by linarith)] at hclose
    have hclose' := (abs_le.mp hclose).1
    generalize (1 : ℚ) / 2 ^ 1074 = tiny at htiny hclose'
    norm_num at htiny hclose'
    exact ⟨hfinite, by linarith⟩

theorem not_lt_of_not_isFinite {x y : Float} (hy : y.isFinite = true)
    (hx : x.isNaN = true ∨ x = infinity) : ¬ x < y := by
  intro h
  obtain ⟨hnan, -, hlt⟩ := lt_iff.mp h
  rcases hx with hx | rfl
  · rw [hx] at hnan
    cases hnan
  · exact absurd (hlt.trans (isFinite_iff.mp hy).2.2) (lt_irrefl _)

theorem sqrt_of_not_isFinite {x : Float} (hx : x.isFinite = false) :
    x.sqrt.isNaN = true ∨ x.sqrt = infinity := by
  change x.toModel.unpack.isFinite = false at hx
  change (pack (UnpackedFloat.sqrt .binary64 x.toModel.unpack)).unpack.isNaN = true ∨
    Float.ofModel (pack (UnpackedFloat.sqrt .binary64 x.toModel.unpack)) = infinity
  generalize x.toModel.unpack = u at hx ⊢
  rcases u with (_ | _) | _ | _ | _
  · exact .inl rfl
  · exact .inr rfl
  · exact .inl rfl
  · cases hx
  · cases hx

/-- A number with a small root is small. -/
theorem lt_one_of_sqrt_lt {x y : Float} (hy : Bounded (1 / 4) y) (h : x.sqrt < y) :
    x.isFinite = true ∧ value x < 1 := by
  cases hx : x.isFinite with
  | false => exact absurd h (not_lt_of_not_isFinite hy.1 (sqrt_of_not_isFinite hx))
  | true =>
    refine ⟨rfl, not_le.mp fun hone => ?_⟩
    obtain ⟨hfinite, hroot⟩ := quarter_le_sqrt hx hone
    rw [lt_iff_value hfinite hy.1] at h
    linarith [(abs_le.mp hy.2).2]

/-! ### Powers of two -/

theorem value_of_stands {x : Float} {q : ℚ} (h : Stands x.toModel.unpack q) : value x = q := by
  rw [value]
  obtain ⟨u, hu⟩ : ∃ u, u = x.toModel.unpack := ⟨_, rfl⟩
  rw [← hu] at h ⊢
  cases h with
  | zero s => rfl
  | positive hm h => rfl

theorem value_twoPow {e : ℤ} (hlow : -1022 ≤ e) (hhigh : e ≤ 1023) :
    (twoPow e).isFinite = true ∧ value (twoPow e) = 2 ^ e :=
  have hstands := stands_twoPow hlow hhigh
  ⟨isFinite_of_stands hstands, value_of_stands hstands⟩

/-- The size of a finite double is that of its parts. -/
theorem magnitude_parts {x : Float} (hx : x.isFinite = true) :
    (parts x).magnitude = |value x| := by
  have hfraction : (@unpackMantissa .binary64 x.toBits.toBitVec).toNat = fractionField x := by
    rw [fractionField_eq]
    simp [unpackMantissa]
  have hexponent := toNat_unpackExponent x
  have hfinite : @unpackExponent .binary64 x.toBits.toBitVec ≠ -1#11 := by
    intro hones
    change x.toModel.unpack.isFinite = true at hx
    rw [unpack_eq, UnpackedFloat.unpack] at hx
    dsimp only at hx
    rw [if_pos hones] at hx
    split_ifs at hx <;> cases hx
  rw [Parts.magnitude, value, parts_eq, unpack_eq, UnpackedFloat.unpack]
  dsimp only
  rw [if_neg hfinite]
  by_cases hzero : exponentField x = 0
  · rw [if_pos hzero, if_pos ((unpackExponent_eq_zero_iff x).mpr hzero)]
    have hleast : ((0 : ℕ) : ℤ) - (Format.binary64.exponentBias +
        Format.binary64.mantissaBitsWithoutImplicit) + 1 = -1074 := rfl
    split
    · next hmantissa =>
      rw [unpackMantissa_eq_zero_iff] at hmantissa
      rw [hmantissa, Nat.cast_zero, zero_mul]
      exact abs_zero.symm
    · rw [unpackedValue_finite, abs_withSign, abs_of_nonneg (by positivity), hfraction, hexponent,
        hzero, hleast]
  · have hnonzero := mt (unpackExponent_eq_zero_iff x).mp hzero
    have hwhole : (1#1 ++ @unpackMantissa .binary64 x.toBits.toBitVec).toNat =
        fractionField x + 2 ^ 52 := by
      rw [BitVec.toNat_append, ← Nat.shiftLeft_add_eq_or_of_lt (BitVec.isLt _), hfraction,
        Nat.add_comm]
      rfl
    have hbias : (exponentField x : ℤ) - (Format.binary64.exponentBias +
        Format.binary64.mantissaBitsWithoutImplicit) = exponentField x - 1075 := rfl
    rw [if_neg hzero, if_neg hnonzero, unpackedValue_finite, abs_withSign,
      abs_of_nonneg (by positivity), hwhole, hexponent, hbias]

/-! ### Finite results -/

theorem isFinite_of_mul {x y : Float} (h : (x * y).isFinite = true) :
    x.isFinite = true ∧ y.isFinite = true := by
  rw [← Bool.not_eq_false, ← Bool.not_eq_false, ← not_or]
  intro hinfinite
  rw [not_isFinite_mul hinfinite] at h
  cases h

theorem isFinite_of_add {x y : Float} (h : (x + y).isFinite = true) :
    x.isFinite = true ∧ y.isFinite = true := by
  rw [← Bool.not_eq_false, ← Bool.not_eq_false, ← not_or]
  intro hinfinite
  rw [not_isFinite_add hinfinite] at h
  cases h

theorem isFinite_of_sub {x y : Float} (h : (x - y).isFinite = true) :
    x.isFinite = true ∧ y.isFinite = true := by
  rw [float_sub_eq_add_neg] at h
  rw [← isFinite_neg y]
  exact isFinite_of_add h

/-- Only a finite number has a finite quotient by something. -/
theorem isFinite_of_div {x y : Float} (h : (x / y).isFinite = true) : x.isFinite = true := by
  by_contra hinfinite
  rw [Bool.not_eq_true] at hinfinite
  refine absurd h (Bool.eq_false_iff.mp (not_isFinite_pack
    (u := UnpackedFloat.div .binary64 x.toModel.unpack y.toModel.unpack) ?_))
  change x.toModel.unpack.isFinite = false at hinfinite
  generalize x.toModel.unpack = u at hinfinite ⊢
  generalize y.toModel.unpack = v
  rcases u with s | _ | s | _ <;> rcases v with s' | _ | s' | _ <;>
    first
      | rfl
      | cases hinfinite

/-- A finite result is close to the exact one, however large it is. -/
theorem close_of_isFinite {x : Float} {q : ℚ} (h : Approximates x q) (hx : x.isFinite = true) :
    |value x - q| ≤ |q| / 2 ^ 52 + 1 / 2 ^ 1074 := by
  cases h with
  | close _ hclose => exact hclose
  | overflow hinfinite =>
    rw [hx] at hinfinite
    cases hinfinite

theorem Approximates.close_of_abs_le {x : Float} {q b : ℚ} (h : Approximates x q)
    (hx : x.isFinite = true) (hq : |q| ≤ b) : |value x - q| ≤ b / 2 ^ 52 + 1 / 2 ^ 30 := by
  have htiny : (1 : ℚ) / 2 ^ 1074 ≤ 1 / 2 ^ 30 :=
    one_div_le_one_div_of_le (by positivity) (pow_le_pow_right₀ one_le_two (by norm_num))
  exact (close_of_isFinite h hx).trans
    (add_le_add (div_le_div_of_nonneg_right hq (by positivity)) htiny)

/-! ### Scaling -/

theorem bounded_twoPow {e : ℤ} (hlow : -1022 ≤ e) (hhigh : e ≤ 1023) :
    Bounded (2 ^ e) (twoPow e) := by
  obtain ⟨hfinite, hvalue⟩ := value_twoPow hlow hhigh
  rw [Bounded, hvalue, abs_of_pos (two_zpow_pos e)]
  exact ⟨hfinite, le_refl _⟩

theorem isFinite_scale {x : Float} {e : ℤ} (hx : Bounded (2 ^ 70) x) (hlow : -2000 ≤ e)
    (hhigh : e ≤ 100) : (scale x e).isFinite = true := by
  have hpow : ∀ d : ℤ, -1022 ≤ d → d ≤ 50 → Bounded (2 ^ 50) (twoPow d) := by
    intro d hd hd'
    refine (bounded_twoPow hd (by omega)).mono ?_
    rw [← zpow_natCast]
    exact zpow_le_zpow_right₀ one_le_two hd'
  have hfirst := hx.mul (hpow (e / 2) (by omega) (by omega)) (c := 2 ^ 121) (by norm_num)
    (by norm_num)
  exact (hfirst.mul (hpow (e - e / 2) (by omega) (by omega)) (c := 2 ^ 172) (by norm_num)
    (by norm_num)).1

theorem abs_mul_two_zpow (q : ℚ) (e : ℤ) : |q * 2 ^ e| = |q| * 2 ^ e := by
  rw [abs_mul, abs_of_pos (two_zpow_pos e)]

/-- What is lost below the smallest double stays tiny when it is scaled up. -/
theorem least_mul_two_zpow_le {e : ℤ} (h : e ≤ 651) :
    (1 : ℚ) / 2 ^ 1074 * 2 ^ e ≤ 1 / 2 ^ 402 := by
  have htop : (2 : ℚ) ^ e ≤ 2 ^ 651 := by
    rw [← zpow_natCast]
    exact zpow_le_zpow_right₀ one_le_two h
  rw [div_mul_eq_mul_div, one_mul, div_le_div_iff₀ (by positivity) (by positivity), one_mul]
  calc (2 : ℚ) ^ e * 2 ^ 402 ≤ 2 ^ 651 * 2 ^ 402 := mul_le_mul_of_nonneg_right htop (by positivity)
    _ = 2 ^ 1053 := (pow_add 2 651 402).symm
    _ ≤ 2 ^ 1074 := pow_le_pow_right₀ one_le_two (by norm_num)

/-- The error of two products in a row: the first error is scaled by the second factor. -/
theorem abs_sub_mul_mul_le {v first result p p' tiny least : ℚ} (hp : 0 < p) (hp' : 0 < p')
    (hfirst : |first - v * p| ≤ |v| * p / 2 ^ 52 + tiny)
    (hresult : |result - first * p'| ≤ |first| * p' / 2 ^ 52 + tiny)
    (htiny : tiny ≤ least) (hscaled : tiny * p' ≤ least) (hleast : 0 < least) :
    |result - v * p * p'| ≤ |v| * p * p' / 2 ^ 50 + 4 * least := by
  have herror : |first * p' - v * p * p'| ≤ |v| * p * p' / 2 ^ 52 + tiny * p' := by
    rw [← sub_mul, abs_mul, abs_of_pos hp']
    calc |first - v * p| * p' ≤ (|v| * p / 2 ^ 52 + tiny) * p' :=
          mul_le_mul_of_nonneg_right hfirst hp'.le
      _ = |v| * p * p' / 2 ^ 52 + tiny * p' := by ring
  have hsize : |first| * p' ≤ |v| * p * p' + (|v| * p * p' / 2 ^ 52 + tiny * p') := by
    have htriangle : |first * p'| ≤ |first * p' - v * p * p'| + |v * p * p'| := by
      simpa using abs_add_le (first * p' - v * p * p') (v * p * p')
    rw [abs_mul, abs_of_pos hp', abs_mul, abs_mul, abs_of_pos hp, abs_of_pos hp'] at htriangle
    linarith
  have htriangle := abs_sub_le result (first * p') (v * p * p')
  have hnonneg : 0 ≤ |v| * p * p' := by positivity
  norm_num at hresult herror hsize ⊢
  linarith

/-- **Scaling multiplies the value by a power of two**, up to rounding. -/
theorem close_scale {x : Float} {e : ℤ} (hlow : -2000 ≤ e) (hhigh : e ≤ 1300)
    (h : (scale x e).isFinite = true) :
    |value (scale x e) - value x * 2 ^ e| ≤ |value x| * 2 ^ e / 2 ^ 50 + 1 / 2 ^ 400 := by
  obtain ⟨first, hfirst⟩ : ∃ first, first = x * twoPow (e / 2) := ⟨_, rfl⟩
  have hscale : scale x e = first * twoPow (e - e / 2) := by rw [hfirst]; rfl
  rw [hscale] at h ⊢
  obtain ⟨hfinite, -⟩ := isFinite_of_mul h
  obtain ⟨hpow, hvalue⟩ := value_twoPow (e := e / 2) (by omega) (by omega)
  obtain ⟨hpow', hvalue'⟩ := value_twoPow (e := e - e / 2) (by omega) (by omega)
  have hx : x.isFinite = true := (isFinite_of_mul (hfirst ▸ hfinite)).1
  have hclose := close_of_isFinite (approximates_mul hx hpow) (hfirst ▸ hfinite)
  have hclose' := close_of_isFinite (approximates_mul hfinite hpow') h
  rw [← hfirst, hvalue, abs_mul_two_zpow] at hclose
  rw [hvalue', abs_mul_two_zpow] at hclose'
  have hsplit : (2 : ℚ) ^ e = 2 ^ (e / 2) * 2 ^ (e - e / 2) := by
    rw [← zpow_add₀ (by norm_num)]
    congr 1
    omega
  have htiny : (1 : ℚ) / 2 ^ 1074 ≤ 1 / 2 ^ 402 :=
    one_div_le_one_div_of_le (by positivity) (pow_le_pow_right₀ one_le_two (by norm_num))
  have hfour : (1 : ℚ) / 2 ^ 400 = 4 * (1 / 2 ^ 402) := by
    rw [pow_add 2 400 2, one_div, one_div, mul_inv]
    generalize ((2 : ℚ) ^ 400)⁻¹ = z
    ring
  rw [hsplit, ← mul_assoc, ← mul_assoc, hfour]
  exact abs_sub_mul_mul_le (two_zpow_pos _) (two_zpow_pos _) hclose hclose' htiny
    (least_mul_two_zpow_le (by omega)) (by positivity)

/-- A rough bound of a scaled double. -/
theorem bounded_scale {x : Float} {e k : ℤ} {b c : ℚ} (hx : Bounded b x) (hb : b ≤ 2 ^ 70)
    (hlow : -2000 ≤ e) (hk : e ≤ k) (hhigh : k ≤ 100) (hc : 2 * b * 2 ^ k + 1 ≤ c) :
    Bounded c (scale x e) := by
  have hfinite := isFinite_scale (hx.mono hb) hlow (hk.trans hhigh)
  have hclose := close_scale hlow (by omega) hfinite
  have hpow : (2 : ℚ) ^ e ≤ 2 ^ k := zpow_le_zpow_right₀ one_le_two hk
  have hproduct : |value x| * 2 ^ e ≤ b * 2 ^ k :=
    mul_le_mul hx.2 hpow (two_zpow_pos e).le ((abs_nonneg _).trans hx.2)
  have htriangle := abs_add_le (value (scale x e) - value x * 2 ^ e) (value x * 2 ^ e)
  rw [sub_add_cancel, abs_mul_two_zpow] at htriangle
  have htiny : (1 : ℚ) / 2 ^ 400 ≤ 1 := (div_le_one₀ (by positivity)).mpr (one_le_pow₀ one_le_two)
  have hnonneg : 0 ≤ |value x| * 2 ^ e := mul_nonneg (abs_nonneg _) (two_zpow_pos e).le
  refine ⟨hfinite, ?_⟩
  generalize (1 : ℚ) / 2 ^ 400 = tiny at *
  norm_num at hclose
  linarith

/-- The exact product is bounded by what is scaled. -/
theorem mul_le_of_bounded_scale {x : Float} {e : ℤ} {b : ℚ} (h : Bounded b (scale x e)) (hb : 1 ≤ b)
    (hlow : -2000 ≤ e) (hhigh : e ≤ 1300) : |value x| * 2 ^ e ≤ 2 * b := by
  have hclose := close_scale hlow hhigh h.1
  have htriangle := abs_sub_abs_le_abs_sub (value x * 2 ^ e) (value (scale x e))
  rw [abs_sub_comm, abs_mul_two_zpow] at htriangle
  have htiny : (1 : ℚ) / 2 ^ 400 ≤ 1 / 2 ^ 10 :=
    one_div_le_one_div_of_le (by positivity) (pow_le_pow_right₀ one_le_two (by norm_num))
  have hbound := h.2
  generalize (1 : ℚ) / 2 ^ 400 = tiny at *
  norm_num at hclose htiny
  linarith

end EvenChroma.Double
