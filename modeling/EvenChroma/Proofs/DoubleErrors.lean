/-
  EvenChroma/Proofs/DoubleErrors.lean
  ===================================
  **Rounding errors of sums, differences and products.**  A finite double has a value, and the
  result of an operation on finite doubles is close to the exact result, or infinite because
  the exact result is too large (`Approximates`).  The bound is two units of the last place,
  which is enough to follow a formula through a few dozen operations.

  Whatever is computed from a number that is not finite by these operations is not finite
  either.
-/
import EvenChroma.Proofs.DoubleMidpoints

namespace EvenChroma.Double

open Float.Model Float.Model.UnpackedFloat

/-! ### Values -/

/-- The number that an unpacked double stands for; zero for infinities and NaN. -/
def unpackedValue : UnpackedFloat → ℚ
  | .finite .positive m e _ => m * 2 ^ e
  | .finite .negative m e _ => -(m * 2 ^ e)
  | _ => 0

/-- The number that a finite double stands for. -/
def value (x : Float) : ℚ := unpackedValue x.toModel.unpack

/-- The mantissa of an unpacked double; zero if it has none. -/
def unpackedMantissa : UnpackedFloat → ℕ
  | .finite _ m _ _ => m
  | _ => 0

/-- The mantissa that a finite double has. -/
def mantissa (x : Float) : ℕ := unpackedMantissa x.toModel.unpack

/-- A magnitude with a sign. -/
def withSign : Sign → ℚ → ℚ
  | .positive, q => q
  | .negative, q => -q

theorem abs_withSign (s : Sign) (q : ℚ) : |withSign s q| = |q| := by
  cases s
  · exact abs_neg q
  · rfl

theorem unpackedValue_finite (s : Sign) {m : ℕ} (e : ℤ) (hm : 0 < m) :
    unpackedValue (.finite s m e hm) = withSign s (m * 2 ^ e) := by
  cases s <;> rfl

/-- The double is what a number is rounded to: close to it, or infinite as it is too large. -/
inductive Approximates (x : Float) (q : ℚ) : Prop
  | close (hfinite : x.isFinite = true) (h : |value x - q| ≤ |q| / 2 ^ 52 + 1 / 2 ^ 1074)
  | overflow (h : x.isFinite = false) (hq : 2 ^ 1023 ≤ |q|)

theorem isFinite_ofModel_pack {u : UnpackedFloat} (h : (pack u).unpack = u) :
    (Float.ofModel (pack u)).isFinite = u.isFinite := by
  change (pack u).unpack.isFinite = _
  rw [h]

theorem value_ofModel_pack {u : UnpackedFloat} (h : (pack u).unpack = u) :
    value (Float.ofModel (pack u)) = unpackedValue u := by
  change unpackedValue (pack u).unpack = _
  rw [h]

/-- Packing a number whose exponent is too large gives infinity. -/
theorem pack_of_large {s : Sign} {m : ℕ} {e : ℤ} (hm : 0 < m) (he : 971 < e) :
    Float.Model.pack (.finite s m e hm) = Float.Model.pack (.infinity s) := by
  have hfield : (e + Format.binary64.exponentBias + Format.binary64.mantissaBitsWithoutImplicit)
      = e + 1075 := by
    change e + 1023 + 52 = _
    ring
  have hinfinite : 2 ^ Format.binary64.exponentBits ≤ (e + 1075).toNat + 1 := by
    change 2 ^ 11 ≤ (e + 1075).toNat + 1
    omega
  have hpacked : UnpackedFloat.pack .binary64 (.finite s m e hm) =
      packedInfinity .binary64 s := by
    rw [UnpackedFloat.pack]
    dsimp only
    rw [hfield, if_pos hinfinite]
  simp only [Float.Model.pack, hpacked]
  rfl

/-- What packing makes of a mantissa on a grid: the double with this value, or infinity if the
    exponent is too large for a double. -/
inductive PacksOnGrid (s : Sign) (n : ℕ) (grid : ℤ) (x : Float) : Prop
  | finite (hfinite : x.isFinite = true) (hvalue : value x = withSign s (n * 2 ^ grid))
    (heven : Even n → Even (mantissa x))
    (hle : grid ≤ 971) (hlt : grid = 971 → n < 2 ^ 53)
  | infinite (hx : x = Float.ofModel (pack (.infinity s))) (hge : 971 ≤ grid)
    (hfull : grid = 971 → n = 2 ^ 53)

theorem packsOnGrid (s : Sign) {n : ℕ} {grid : ℤ} (hle : n ≤ 2 ^ 53) (hge : -1074 ≤ grid)
    (hhidden : -1074 < grid → 2 ^ 52 ≤ n) :
    PacksOnGrid s n grid (Float.ofModel (pack (onGrid s n grid))) := by
  have hfinite : ∀ {m : ℕ} {e : ℤ} (hm : 0 < m), (⟨false, m, e⟩ : Parts).Canonical →
      (m : ℚ) * 2 ^ e = n * 2 ^ grid → (Even n → Even m) → grid ≤ 971 →
      (grid = 971 → n < 2 ^ 53) →
      PacksOnGrid s n grid (Float.ofModel (pack (.finite s m e hm))) := by
    intro m e hm h hvalue heven hle hlt
    have hpacked := unpack_pack_finite (s := s) hm h
    refine .finite ?_ ?_ ?_ hle hlt
    · rw [isFinite_ofModel_pack hpacked]
      rfl
    · rw [value_ofModel_pack hpacked, unpackedValue_finite, hvalue]
    · change Even n → Even (unpackedMantissa (pack (.finite s m e hm)).unpack)
      rwa [hpacked]
  rcases Nat.eq_zero_or_pos n with rfl | hn
  · have hpacked : (pack (.zero s)).unpack = .zero s := unpack_packedZero
    have hsmall : ¬ -1074 < grid := fun hgt => absurd (hhidden hgt) (by norm_num)
    rw [onGrid_zero s hge]
    refine .finite ?_ ?_ ?_ (by omega) (by omega)
    · rw [isFinite_ofModel_pack hpacked]
      rfl
    · rw [value_ofModel_pack hpacked, Nat.cast_zero, zero_mul]
      cases s
      · exact neg_zero.symm
      · rfl
    · change Even 0 → Even (unpackedMantissa (pack (.zero s)).unpack)
      rw [hpacked]
      exact id
  rcases Nat.lt_or_eq_of_le hle with hlt | rfl
  · rw [onGrid_of_lt s hn hlt hge]
    rcases le_or_gt grid 971 with hsmall | hbig
    · exact hfinite hn ⟨hn, hlt, hge, hsmall, hhidden⟩ rfl id hsmall fun _ => hlt
    · exact .infinite (by rw [pack_of_large hn hbig]) hbig.le fun heq => by omega
  · rw [onGrid_full s hge]
    rcases le_or_gt (grid + 1) 971 with hsmall | hbig
    · exact hfinite (Nat.two_pow_pos 52)
        ⟨Nat.two_pow_pos 52, by norm_num, by dsimp only; omega, hsmall, fun _ => le_refl _⟩
        (two_pow_53_mul grid).symm (fun _ => by decide) (by omega) (by omega)
    · exact .infinite (by rw [pack_of_large _ hbig]) (by omega) fun _ => rfl

/-! ### Rounding -/

theorem Covers.abs_sub_le {em : ExtendedMantissa} {t : ℚ} (h : Covers em t) :
    |em.roundedMantissa - t| ≤ 1 := by
  have hlow := h.low
  have hhigh := h.high
  rw [abs_le]
  rcases roundedMantissa_cases em with heq | ⟨heq, -⟩
  · rw [heq]
    constructor <;> linarith
  · rw [heq]
    push_cast
    constructor <;> linarith

/-- A mantissa next to a number on its grid. -/
theorem approximates_onGrid {s : Sign} {n : ℕ} {grid : ℤ} {q : ℚ} (hq : 0 ≤ q)
    (hnear : |n - q / 2 ^ grid| ≤ 1) (hle : n ≤ 2 ^ 53) (hge : -1074 ≤ grid)
    (hhidden : -1074 < grid → 2 ^ 52 ≤ n)
    (hfull : -1074 < grid → (2 ^ 52 : ℕ) ≤ q / 2 ^ grid) :
    Approximates (Float.ofModel (pack (onGrid s n grid))) (withSign s q) := by
  have hpos := two_zpow_pos grid
  cases packsOnGrid s hle hge hhidden with
  | infinite hx hgrid _ =>
    refine .overflow ?_ ?_
    · rw [hx]
      cases s <;> rfl
    · rw [abs_withSign, abs_of_nonneg hq]
      by_contra hsmall
      exact absurd (grid_lt hfull (not_le.mp hsmall)) (by omega)
  | finite hfinite hvalue _ _ _ =>
    -- the grid is finer than the bound
    have hspacing : (2 : ℚ) ^ grid ≤ q / 2 ^ 52 + 1 / 2 ^ 1074 := by
      rcases eq_or_lt_of_le hge with rfl | hgt
      · have hsmallest : (2 : ℚ) ^ (-1074 : ℤ) = 1 / 2 ^ 1074 := by
          rw [zpow_neg, zpow_ofNat, one_div]
        rw [hsmallest]
        exact le_add_of_nonneg_left (by positivity)
      · have hlarge := hfull hgt
        rw [le_div_iff₀ hpos] at hlarge
        have hspaced : (2 : ℚ) ^ grid ≤ q / 2 ^ 52 := by
          rw [le_div_iff₀ (by positivity), mul_comm]
          exact_mod_cast hlarge
        exact hspaced.trans (le_add_of_nonneg_right (by positivity))
    have herror : |(n : ℚ) * 2 ^ grid - q| ≤ q / 2 ^ 52 + 1 / 2 ^ 1074 := by
      have hscaled : (n : ℚ) * 2 ^ grid - q = (n - q / 2 ^ grid) * 2 ^ grid := by
        field_simp
      rw [hscaled, abs_mul, abs_of_pos hpos]
      exact (mul_le_of_le_one_left hpos.le hnear).trans hspacing
    have hsub : withSign s (n * 2 ^ grid) - withSign s q = withSign s (n * 2 ^ grid - q) := by
      cases s
      · change -(n * 2 ^ grid : ℚ) - -q = -(n * 2 ^ grid - q)
        ring
      · rfl
    refine .close hfinite ?_
    rw [hvalue, hsub, abs_withSign, abs_withSign, abs_of_nonneg hq]
    exact herror

/-- **What a number is rounded to approximates it.** -/
theorem approximates_roundWithAccuracy {s : Sign} {m : ℕ} {e : ℤ} {accuracy : Accuracy} {q : ℚ}
    (hcovers : Covers (ExtendedMantissa.ofMantissaAndAccuracy m accuracy) (q / 2 ^ e))
    (hfine : e ≤ Format.binary64.targetExponent (totalExponent m e)) (hq : 0 ≤ q) :
    Approximates (Float.ofModel (pack (roundWithAccuracy .binary64 s m e accuracy)))
      (withSign s q) := by
  obtain ⟨-, em, grid, -, -, hgridcovers, hge, hle, hfull, hresult⟩ :=
    roundWithAccuracy_cases (s := s) hcovers hfine
  rw [hresult]
  exact approximates_onGrid hq hgridcovers.abs_sub_le hle hge
    (fun h => hgridcovers.natCast_le (hfull h)) hfull

theorem approximates_round (s : Sign) {m : ℕ} (hm : m ≠ 0) (e : ℤ) :
    Approximates (Float.ofModel (pack (UnpackedFloat.round .binary64 s m e)))
      (withSign s (m * 2 ^ e)) := by
  obtain ⟨k, hround, hvalue, hfine⟩ := round_eq s hm e
  have hcovers := covers_exact (m * 2 ^ k)
  rw [← hvalue] at hcovers
  rw [hround]
  exact approximates_roundWithAccuracy hcovers hfine (by positivity)

theorem Approximates.refl {u : UnpackedFloat} (hu : u.isFinite = true)
    (hpacked : (pack u).unpack = u) :
    Approximates (Float.ofModel (pack u)) (unpackedValue u) := by
  refine .close ((isFinite_ofModel_pack hpacked).trans hu) ?_
  rw [value_ofModel_pack hpacked, sub_self, abs_zero]
  positivity

theorem approximates_zero (s : Sign) : Approximates (Float.ofModel (pack (.zero s))) 0 :=
  Approximates.refl (u := .zero s) rfl (by cases s <;> rfl)

theorem approximates_normalize (n : ℤ) (e : ℤ) (s : Sign) :
    Approximates (Float.ofModel (pack (UnpackedFloat.normalize .binary64 n e s))) (n * 2 ^ e) := by
  rcases lt_trichotomy n 0 with hneg | rfl | hpos
  · have hnat : ((-n).toNat : ℚ) = -n := by
      have : ((-n).toNat : ℤ) = -n := Int.toNat_of_nonneg (by omega)
      exact_mod_cast this
    have hround := approximates_round .negative (m := (-n).toNat) (by omega) e
    rw [UnpackedFloat.normalize, compare_lt_iff_lt.mpr hneg]
    rw [hnat, withSign] at hround
    rwa [neg_mul, neg_neg] at hround
  · rw [UnpackedFloat.normalize, compare_eq_iff_eq.mpr rfl, Int.cast_zero, zero_mul]
    exact approximates_zero s
  · have hnat : (n.toNat : ℚ) = n := by
      have : (n.toNat : ℤ) = n := Int.toNat_of_nonneg hpos.le
      exact_mod_cast this
    have hround := approximates_round .positive (m := n.toNat) (by omega) e
    rw [UnpackedFloat.normalize, compare_gt_iff_gt.mpr hpos]
    rwa [hnat] at hround

/-! ### Operations -/

theorem unpack_pack_unpack (x : Float) : (pack x.toModel.unpack).unpack = x.toModel.unpack :=
  congrArg (fun y : Float => y.toModel.unpack) (ofModel_pack_unpack x)

/-- Changing the sign changes nothing else. -/
theorem unpack_neg (x : Float) : (-x).toModel.unpack = x.toModel.unpack.neg := by
  change (pack x.toModel.unpack.neg).unpack = _
  cases h : x.toModel.unpack with
  | infinity s => cases s <;> rfl
  | notANumber => rfl
  | zero s => cases s <;> rfl
  | finite s m e hm => exact unpack_pack_finite hm (canonical_of_unpack h)

theorem value_neg (x : Float) : value (-x) = -value x := by
  rw [value, value, unpack_neg]
  rcases x.toModel.unpack with _ | _ | _ | ⟨_ | _, m, e, hm⟩
  · exact neg_zero.symm
  · exact neg_zero.symm
  · exact neg_zero.symm
  · exact (neg_neg _).symm
  · rfl

theorem mantissa_neg (x : Float) : mantissa (-x) = mantissa x := by
  rw [mantissa, mantissa, unpack_neg]
  rcases x.toModel.unpack with _ | _ | _ | _ <;> rfl

theorem neg_neg_eq (x : Float) : - -x = x := by
  have hsign : ∀ s : Sign, - -s = s := by
    intro s
    cases s <;> rfl
  apply eq_of_unpack_eq
  rw [unpack_neg, unpack_neg]
  rcases x.toModel.unpack with _ | _ | _ | _ <;> simp [UnpackedFloat.neg, hsign]

theorem isFinite_neg (x : Float) : (-x).isFinite = x.isFinite := by
  change (-x).toModel.unpack.isFinite = x.toModel.unpack.isFinite
  rw [unpack_neg]
  rcases x.toModel.unpack with _ | _ | _ | _ <;> rfl

theorem apply_shiftLeft (s : Sign) (m : ℕ) {least e : ℤ} (he : least ≤ e) :
    ((s.apply (m <<< (e - least).toNat : ℕ) : ℤ) : ℚ) * 2 ^ least = withSign s (m * 2 ^ e) := by
  have hshift := shiftLeft_mul_two_zpow m he
  cases s
  · simp only [Sign.apply, withSign, Int.cast_neg, Int.cast_natCast, neg_mul, hshift]
  · simp only [Sign.apply, withSign, Int.cast_natCast, hshift]

/-- Both summands are written with the smaller exponent, and the sum of the mantissas is exact. -/
theorem approximates_add_finite {s s' : Sign} {m m' : ℕ} {e e' : ℤ} (hm : 0 < m)
    (hm' : 0 < m') :
    Approximates (Float.ofModel (pack (UnpackedFloat.add .binary64 (.finite s m e hm)
      (.finite s' m' e' hm')))) (withSign s (m * 2 ^ e) + withSign s' (m' * 2 ^ e')) := by
  rw [UnpackedFloat.add]
  dsimp only [decreaseExponent]
  rw [← apply_shiftLeft s m (min_le_left e e'), ← apply_shiftLeft s' m' (min_le_right e e'),
    ← add_mul, ← Int.cast_add]
  exact approximates_normalize _ _ _

/-- **Sums are close to the exact sums.** -/
theorem approximates_add {x y : Float} (hx : x.isFinite = true) (hy : y.isFinite = true) :
    Approximates (x + y) (value x + value y) := by
  have hpacked := unpack_pack_unpack x
  have hpacked' := unpack_pack_unpack y
  change x.toModel.unpack.isFinite = true at hx
  change y.toModel.unpack.isFinite = true at hy
  change Approximates (Float.ofModel (pack (UnpackedFloat.add .binary64 x.toModel.unpack
    y.toModel.unpack))) (unpackedValue x.toModel.unpack + unpackedValue y.toModel.unpack)
  generalize x.toModel.unpack = u at hx hpacked ⊢
  generalize y.toModel.unpack = v at hy hpacked' ⊢
  have hu := Approximates.refl hx hpacked
  have hv := Approximates.refl hy hpacked'
  have hzero : ∀ s, unpackedValue (.zero s) = 0 := fun _ => rfl
  cases u with
  | infinity s => cases hx
  | notANumber => cases hx
  | zero s =>
    rw [hzero, Rat.zero_add]
    cases v with
    | infinity s' => cases hy
    | notANumber => cases hy
    | zero s' => cases s <;> cases s' <;> exact approximates_zero _
    | finite s' m' e' hm' => exact hv
  | finite s m e hm =>
    cases v with
    | infinity s' => cases hy
    | notANumber => cases hy
    | zero s' =>
      rw [hzero, Rat.add_zero]
      exact hu
    | finite s' m' e' hm' =>
      rw [unpackedValue_finite, unpackedValue_finite]
      exact approximates_add_finite hm hm'

theorem unpacked_sub_eq_add_neg (u v : UnpackedFloat) :
    UnpackedFloat.sub .binary64 u v = UnpackedFloat.add .binary64 u v.neg := by
  have happly : ∀ (s : Sign) (n : ℤ), (-s).apply n = -s.apply n := by
    rintro (_ | _) n
    · exact (neg_neg n).symm
    · rfl
  rcases u with s | _ | s | ⟨s, m, e, hm⟩ <;> rcases v with s' | _ | s' | ⟨s', m', e', hm'⟩ <;>
    first
      | rfl
      | (rw [UnpackedFloat.sub, UnpackedFloat.neg, UnpackedFloat.add]
         dsimp only
         rw [happly, sub_eq_add_neg])

theorem float_sub_eq_add_neg (x y : Float) : x - y = x + -y := by
  change Float.ofModel (pack (UnpackedFloat.sub .binary64 x.toModel.unpack y.toModel.unpack)) =
    Float.ofModel (pack (UnpackedFloat.add .binary64 x.toModel.unpack (-y).toModel.unpack))
  rw [unpack_neg, unpacked_sub_eq_add_neg]

/-- **Differences are close to the exact differences.** -/
theorem approximates_sub {x y : Float} (hx : x.isFinite = true) (hy : y.isFinite = true) :
    Approximates (x - y) (value x - value y) := by
  rw [float_sub_eq_add_neg, sub_eq_add_neg, ← value_neg]
  exact approximates_add hx ((isFinite_neg y).trans hy)

theorem withSign_mul (s s' : Sign) (p q : ℚ) :
    withSign s p * withSign s' q = withSign (s * s') (p * q) := by
  cases s <;> cases s'
  · exact neg_mul_neg p q
  · exact neg_mul p q
  · exact mul_neg p q
  · rfl

/-- The product of two mantissas is exact. -/
theorem halves_product (m m' : ℕ) (e e' : ℤ) :
    Halves (ExtendedMantissa.ofMantissaAndAccuracy (m * m') .exact)
      (m * 2 ^ e * (m' * 2 ^ e') / 2 ^ (e + e')) := by
  have hvalue : (m : ℚ) * 2 ^ e * (m' * 2 ^ e') / 2 ^ (e + e') = (m * m' : ℕ) := by
    have := (two_zpow_pos e).ne'
    have := (two_zpow_pos e').ne'
    rw [zpow_add₀ (by norm_num)]
    push_cast
    field_simp
  rw [hvalue]
  exact halves_exact (m * m')

/-- The product of two mantissas has more digits than fit. -/
theorem product_fine {m m' : ℕ} {e e' : ℤ} (h : (⟨false, m, e⟩ : Parts).Canonical)
    (h' : (⟨false, m', e'⟩ : Parts).Canonical) :
    e + e' ≤ Format.binary64.targetExponent (totalExponent (m * m') (e + e')) := by
  obtain ⟨hpos, -, hge, hle, hhidden⟩ := h
  obtain ⟨hpos', -, hge', hle', hhidden'⟩ := h'
  dsimp only at hpos hpos' hge hge' hle hle' hhidden hhidden'
  have hlog : ∀ {a b : ℕ}, 2 ^ 52 ≤ a → 0 < b → 52 ≤ (a * b).log2 := by
    intro a b ha hb
    rw [Nat.le_log2 (by positivity)]
    exact ha.trans (Nat.le_mul_of_pos_right a hb)
  rw [targetExponent_eq, totalExponent]
  by_cases hnormal : -1074 < e
  · have := hlog (hhidden hnormal) hpos'
    omega
  · by_cases hnormal' : -1074 < e'
    · have := hlog (hhidden' hnormal') hpos
      rw [Nat.mul_comm] at this
      omega
    · omega

/-- **Products are close to the exact products.** -/
theorem approximates_mul {x y : Float} (hx : x.isFinite = true) (hy : y.isFinite = true) :
    Approximates (x * y) (value x * value y) := by
  change x.toModel.unpack.isFinite = true at hx
  change y.toModel.unpack.isFinite = true at hy
  change Approximates (Float.ofModel (pack (UnpackedFloat.mul .binary64 x.toModel.unpack
    y.toModel.unpack))) (unpackedValue x.toModel.unpack * unpackedValue y.toModel.unpack)
  have hzero : ∀ s, unpackedValue (.zero s) = 0 := fun _ => rfl
  cases hu : x.toModel.unpack with
  | infinity s =>
    rw [hu] at hx
    cases hx
  | notANumber =>
    rw [hu] at hx
    cases hx
  | zero s =>
    rw [hzero, zero_mul]
    cases hv : y.toModel.unpack with
    | infinity s' =>
      rw [hv] at hy
      cases hy
    | notANumber =>
      rw [hv] at hy
      cases hy
    | zero s' => exact approximates_zero _
    | finite s' m' e' hm' => exact approximates_zero _
  | finite s m e hm =>
    cases hv : y.toModel.unpack with
    | infinity s' =>
      rw [hv] at hy
      cases hy
    | notANumber =>
      rw [hv] at hy
      cases hy
    | zero s' =>
      rw [hzero, mul_zero]
      exact approximates_zero _
    | finite s' m' e' hm' =>
      rw [unpackedValue_finite, unpackedValue_finite, withSign_mul]
      exact approximates_roundWithAccuracy (halves_product m m' e e').toCovers
        (product_fine (canonical_of_unpack hu) (canonical_of_unpack hv)) (by positivity)

/-! ### What is not finite -/

theorem not_isFinite_pack {u : UnpackedFloat} (h : u.isFinite = false) :
    (Float.ofModel (pack u)).isFinite = false := by
  rcases u with (_ | _) | _ | _ | _
  · rfl
  · rfl
  · rfl
  · cases h
  · cases h

theorem not_isFinite_add {x y : Float} (h : x.isFinite = false ∨ y.isFinite = false) :
    (x + y).isFinite = false := by
  refine not_isFinite_pack (u := UnpackedFloat.add .binary64 x.toModel.unpack y.toModel.unpack) ?_
  change x.toModel.unpack.isFinite = false ∨ y.toModel.unpack.isFinite = false at h
  generalize x.toModel.unpack = u at h ⊢
  generalize y.toModel.unpack = v at h ⊢
  rcases u with (_ | _) | _ | s | _ <;> rcases v with (_ | _) | _ | s' | _ <;>
    first
      | rfl
      | (rcases h with h | h <;> cases h)

theorem not_isFinite_mul {x y : Float} (h : x.isFinite = false ∨ y.isFinite = false) :
    (x * y).isFinite = false := by
  refine not_isFinite_pack (u := UnpackedFloat.mul .binary64 x.toModel.unpack y.toModel.unpack) ?_
  change x.toModel.unpack.isFinite = false ∨ y.toModel.unpack.isFinite = false at h
  generalize x.toModel.unpack = u at h ⊢
  generalize y.toModel.unpack = v at h ⊢
  rcases u with s | _ | s | _ <;> rcases v with s' | _ | s' | _ <;>
    first
      | rfl
      | (rcases h with h | h <;> cases h)

/-! ### Bounds -/

/-- The double is finite and at most `b` in size. -/
def Bounded (b : ℚ) (x : Float) : Prop := x.isFinite = true ∧ |value x| ≤ b

instance (b : ℚ) (x : Float) : Decidable (Bounded b x) := inferInstanceAs (Decidable (_ ∧ _))

theorem Approximates.of_small {x : Float} {q : ℚ} (h : Approximates x q) (hq : |q| ≤ 2 ^ 200) :
    x.isFinite = true ∧ |value x - q| ≤ |q| / 2 ^ 52 + 1 / 2 ^ 200 := by
  have htiny : (1 : ℚ) / 2 ^ 1074 ≤ 1 / 2 ^ 200 :=
    one_div_le_one_div_of_le (by positivity) (pow_le_pow_right₀ one_le_two (by norm_num))
  have htop : (2 : ℚ) ^ 200 < 2 ^ 1023 := pow_lt_pow_right₀ one_lt_two (by norm_num)
  cases h with
  | close hfinite h => exact ⟨hfinite, h.trans (add_le_add_right htiny _)⟩
  | overflow _ hlarge => exact absurd (hlarge.trans hq) (not_le.mpr htop)

theorem Approximates.bounded {x : Float} {q b c : ℚ} (h : Approximates x q) (hq : |q| ≤ b)
    (hb : b ≤ 2 ^ 200) (hc : b + b / 2 ^ 52 + 1 / 2 ^ 200 ≤ c) : Bounded c x := by
  obtain ⟨hfinite, hclose⟩ := h.of_small (hq.trans hb)
  refine ⟨hfinite, ?_⟩
  have htriangle : |value x| ≤ |value x - q| + |q| := by
    calc |value x| = |value x - q + q| := by rw [sub_add_cancel]
      _ ≤ |value x - q| + |q| := abs_add_le _ _
  have hdiv : |q| / 2 ^ 52 ≤ b / 2 ^ 52 := div_le_div_of_nonneg_right hq (by positivity)
  linarith

theorem Bounded.mono {x : Float} {b c : ℚ} (h : Bounded b x) (hbc : b ≤ c) : Bounded c x :=
  ⟨h.1, h.2.trans hbc⟩

theorem Bounded.neg {x : Float} {b : ℚ} (h : Bounded b x) : Bounded b (-x) := by
  refine ⟨(isFinite_neg x).trans h.1, ?_⟩
  rw [value_neg, abs_neg]
  exact h.2

theorem Bounded.add {x y : Float} {a b c : ℚ} (hx : Bounded a x) (hy : Bounded b y)
    (htop : a + b ≤ 2 ^ 200) (hc : a + b + (a + b) / 2 ^ 52 + 1 / 2 ^ 200 ≤ c) :
    Bounded c (x + y) :=
  (approximates_add hx.1 hy.1).bounded ((abs_add_le _ _).trans (add_le_add hx.2 hy.2)) htop hc

theorem Bounded.sub {x y : Float} {a b c : ℚ} (hx : Bounded a x) (hy : Bounded b y)
    (htop : a + b ≤ 2 ^ 200) (hc : a + b + (a + b) / 2 ^ 52 + 1 / 2 ^ 200 ≤ c) :
    Bounded c (x - y) :=
  (approximates_sub hx.1 hy.1).bounded ((abs_sub _ _).trans (add_le_add hx.2 hy.2)) htop hc

theorem Bounded.mul {x y : Float} {a b c : ℚ} (hx : Bounded a x) (hy : Bounded b y)
    (htop : a * b ≤ 2 ^ 200) (hc : a * b + a * b / 2 ^ 52 + 1 / 2 ^ 200 ≤ c) :
    Bounded c (x * y) := by
  refine (approximates_mul hx.1 hy.1).bounded ?_ htop hc
  rw [abs_mul]
  exact mul_le_mul hx.2 hy.2 (abs_nonneg _) ((abs_nonneg _).trans hx.2)

/-! ### Absolute errors -/

/-- A number of moderate size is rounded by less than a millionth. -/
theorem Approximates.close_of_le {x : Float} {q : ℚ} (h : Approximates x q) (hlow : -2 ^ 30 ≤ q)
    (hhigh : q ≤ 2 ^ 30) :
    x.isFinite = true ∧ q - 1 / 2 ^ 20 ≤ value x ∧ value x ≤ q + 1 / 2 ^ 20 := by
  have hq : |q| ≤ 2 ^ 30 := abs_le.mpr ⟨hlow, hhigh⟩
  obtain ⟨hfinite, hclose⟩ := h.of_small (hq.trans (by norm_num))
  have hdiv : |q| / 2 ^ 52 ≤ 2 ^ 30 / 2 ^ 52 := div_le_div_of_nonneg_right hq (by positivity)
  have hwithin : |value x - q| ≤ 1 / 2 ^ 20 :=
    hclose.trans ((add_le_add_left hdiv _).trans (by norm_num))
  obtain ⟨hbelow, habove⟩ := abs_le.mp hwithin
  exact ⟨hfinite, by linarith, by linarith⟩

section

variable {x y : Float} (hx : x.isFinite = true) (hy : y.isFinite = true)

include hx hy

theorem close_add (hlow : -2 ^ 30 ≤ value x + value y) (hhigh : value x + value y ≤ 2 ^ 30) :
    (x + y).isFinite = true ∧ value x + value y - 1 / 2 ^ 20 ≤ value (x + y) ∧
      value (x + y) ≤ value x + value y + 1 / 2 ^ 20 :=
  (approximates_add hx hy).close_of_le hlow hhigh

theorem close_sub (hlow : -2 ^ 30 ≤ value x - value y) (hhigh : value x - value y ≤ 2 ^ 30) :
    (x - y).isFinite = true ∧ value x - value y - 1 / 2 ^ 20 ≤ value (x - y) ∧
      value (x - y) ≤ value x - value y + 1 / 2 ^ 20 :=
  (approximates_sub hx hy).close_of_le hlow hhigh

theorem close_mul (hlow : -2 ^ 30 ≤ value x * value y) (hhigh : value x * value y ≤ 2 ^ 30) :
    (x * y).isFinite = true ∧ value x * value y - 1 / 2 ^ 20 ≤ value (x * y) ∧
      value (x * y) ≤ value x * value y + 1 / 2 ^ 20 :=
  (approximates_mul hx hy).close_of_le hlow hhigh

end

/-! ### Whole numbers -/

theorem toNat_roundToInt (m : ℕ) (e : ℤ) :
    (roundToInt .positive m e).toNat = ⌊(m : ℚ) * 2 ^ e⌋₊ := by
  obtain ⟨up, hup⟩ : ∃ up, up = (e - 0).toNat := ⟨_, rfl⟩
  obtain ⟨down, hdown⟩ : ∃ down, down = (0 - (e - up)).toNat := ⟨_, rfl⟩
  have hcovers := (covers_exact (m <<< up)).shiftRight down
  have hvalue : ((m <<< up : ℕ) : ℚ) / 2 ^ down = m * 2 ^ e := by
    have he : e = up - down := by omega
    rw [he, zpow_sub₀ (by norm_num), zpow_natCast, zpow_natCast, Nat.shiftLeft_eq]
    push_cast
    ring
  rw [hvalue] at hcovers
  have hfloor : ⌊(m : ℚ) * 2 ^ e⌋₊ =
      (ExtendedMantissa.ofMantissaAndAccuracy (m <<< up) .exact >>> down).mantissa :=
    (Nat.floor_eq_iff (by positivity)).mpr ⟨hcovers.low, hcovers.high⟩
  rw [hfloor, roundToInt, decreaseExponent]
  dsimp only [shiftToExponent]
  rw [← hup, ← hdown]
  rfl

/-- A double that fits is cut to the whole number below it. -/
theorem toNat_toUInt64 {x : Float} (hx : x.isFinite = true) (hnonneg : 0 ≤ value x)
    (htop : value x < 2 ^ 64) : x.toUInt64.toNat = ⌊value x⌋₊ := by
  have hclamp : ∀ n : ℕ, n < 2 ^ 64 → (UInt64.ofNatClamp n).toNat = n := by
    intro n hn
    rw [UInt64.ofNatClamp, dif_pos (show n < UInt64.size from hn)]
    rfl
  change (UInt64.ofNatClamp (x.toModel.unpack.toInt 0 (UInt64.size - 1)).toNat).toNat =
    ⌊unpackedValue x.toModel.unpack⌋₊
  change x.toModel.unpack.isFinite = true at hx
  change 0 ≤ unpackedValue x.toModel.unpack at hnonneg
  change unpackedValue x.toModel.unpack < 2 ^ 64 at htop
  generalize x.toModel.unpack = u at hx hnonneg htop ⊢
  rcases u with s | _ | s | ⟨_ | _, m, e, hm⟩
  · cases hx
  · cases hx
  · exact (Nat.floor_zero (R := ℚ)).symm
  · have hpos : (0 : ℚ) < m * 2 ^ e := by positivity
    exact absurd hnonneg (not_le.mpr (neg_neg_of_pos hpos))
  · change (UInt64.ofNatClamp (roundToInt .positive m e).toNat).toNat = ⌊(m : ℚ) * 2 ^ e⌋₊
    rw [toNat_roundToInt]
    exact hclamp _ ((Nat.floor_lt hnonneg).mpr (by exact_mod_cast htop))

theorem approximates_toFloat (n : UInt64) : Approximates n.toFloat n.toNat := by
  have h := approximates_normalize n.toNat 0 .positive
  rw [zpow_zero, mul_one] at h
  exact_mod_cast h

end EvenChroma.Double
