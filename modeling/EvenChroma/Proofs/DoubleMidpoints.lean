/-
  EvenChroma/Proofs/DoubleMidpoints.lean
  ======================================
  **The midpoint of two doubles lies between them.**  It is rounded twice, as a sum and as its
  half, and neither rounding jumps over one of the two (`midpoint_between`).  The powers of two
  that brackets of chromas are compared with are exact (`stands_twoPow`).
-/
import EvenChroma.Proofs.DoubleRounding

namespace EvenChroma.Double

open Float.Model Float.Model.UnpackedFloat

/-! ### Sums, differences and halves -/

theorem RoundsTo.refl (q : ℚ) : RoundsTo q q := ⟨fun _ h => h, fun _ h => h⟩

theorem log2_mul_two_pow {m : ℕ} (hm : m ≠ 0) (k : ℕ) : (m * 2 ^ k).log2 = m.log2 + k := by
  obtain ⟨hlow, hhigh⟩ := (Nat.log2_eq_iff hm).mp rfl
  rw [Nat.log2_eq_iff (Nat.mul_ne_zero hm (Nat.two_pow_pos k).ne'), pow_add, Nat.add_right_comm,
    pow_add 2 (m.log2 + 1)]
  exact ⟨Nat.mul_le_mul_right _ hlow, Nat.mul_lt_mul_of_pos_right hhigh (Nat.two_pow_pos k)⟩

/-- A number is rounded with as many digits as it needs. -/
theorem round_eq (s : Sign) {m : ℕ} (hm : m ≠ 0) (e : ℤ) :
    ∃ k : ℕ, UnpackedFloat.round .binary64 s m e =
        roundWithAccuracy .binary64 s (m * 2 ^ k) (e - k) .exact ∧
      (m : ℚ) * 2 ^ e / 2 ^ (e - k) = (m * 2 ^ k : ℕ) ∧
      e - k ≤ Format.binary64.targetExponent (totalExponent (m * 2 ^ k) (e - k)) := by
  obtain ⟨k, hk⟩ : ∃ k, k = (e - Format.binary64.targetExponent (totalExponent m e)).toNat :=
    ⟨_, rfl⟩
  have htotal : totalExponent (m * 2 ^ k) (e - k) = totalExponent m e := by
    rw [totalExponent, totalExponent, log2_mul_two_pow hm k]
    push_cast
    ring
  refine ⟨k, ?_, ?_, by rw [htotal]; omega⟩
  · rw [UnpackedFloat.round, decreaseExponent]
    dsimp only
    rw [← hk, Nat.shiftLeft_eq]
  · have := (two_zpow_pos e).ne'
    rw [zpow_sub₀ (by norm_num), zpow_natCast]
    push_cast
    field_simp

theorem exists_round {m : ℕ} {e : ℤ} (hm : m ≠ 0) (hq : (m : ℚ) * 2 ^ e < 2 ^ 1023) :
    ∃ r, Stands (UnpackedFloat.round .binary64 .positive m e) r ∧ RoundsTo (m * 2 ^ e) r := by
  obtain ⟨k, hround, hvalue, hfine⟩ := round_eq .positive hm e
  have hcovers := covers_exact (m * 2 ^ k)
  rw [← hvalue] at hcovers
  rw [hround]
  exact exists_roundWithAccuracy hcovers hfine hq

/-- A mantissa written with a smaller exponent. -/
theorem shiftLeft_mul_two_zpow (n : ℕ) {least d : ℤ} (hd : least ≤ d) :
    ((n <<< (d - least).toNat : ℕ) : ℚ) * 2 ^ least = n * 2 ^ d := by
  obtain ⟨k, rfl⟩ := Int.le.dest hd
  rw [show (least + (k : ℤ) - least).toNat = k by omega, Nat.shiftLeft_eq,
    zpow_add₀ (by norm_num), zpow_natCast]
  push_cast
  ring

/-- The sum is rounded from the exact sum. -/
theorem Stands.add {u v : UnpackedFloat} {p q : ℚ} (hu : Stands u p) (hv : Stands v q)
    (hsum : p + q < 2 ^ 1023) :
    ∃ r, Stands (UnpackedFloat.add .binary64 u v) r ∧ RoundsTo (p + q) r := by
  cases hu with
  | zero s =>
    cases hv with
    | zero s' =>
      rw [add_zero]
      refine ⟨0, ?_, .refl 0⟩
      rw [UnpackedFloat.add]
      split
      · exact .zero _
      · exact .zero _
    | positive hm' h' =>
      rw [zero_add]
      exact ⟨_, .positive hm' h', .refl _⟩
  | @positive m e hm h =>
    cases hv with
    | zero s' =>
      rw [add_zero]
      exact ⟨_, .positive hm h, .refl _⟩
    | @positive m' e' hm' h' =>
      -- both are written with the smaller exponent, and the sum of the mantissas is exact
      obtain ⟨least, hleast⟩ : ∃ least, least = min e e' := ⟨_, rfl⟩
      obtain ⟨n, hn⟩ : ∃ n, n = m <<< (e - least).toNat := ⟨_, rfl⟩
      obtain ⟨n', hn'⟩ : ∃ n', n' = m' <<< (e' - least).toNat := ⟨_, rfl⟩
      have hexact : ((n + n' : ℕ) : ℚ) * 2 ^ least = m * 2 ^ e + m' * 2 ^ e' := by
        rw [Nat.cast_add, add_mul, hn, hn', shiftLeft_mul_two_zpow m (by omega),
          shiftLeft_mul_two_zpow m' (by omega)]
      have hpos : 0 < n := by
        rw [hn, Nat.shiftLeft_eq]
        exact Nat.mul_pos hm (Nat.two_pow_pos _)
      have hround := exists_round (m := n + n') (e := least) (by omega) (by rwa [hexact])
      rw [hexact] at hround
      rw [UnpackedFloat.add]
      dsimp only [decreaseExponent, Sign.apply]
      rw [← hleast, ← hn, ← hn', UnpackedFloat.normalize, compare_gt_iff_gt.mpr (by omega)]
      exact hround

/-- The difference is rounded from the exact difference. -/
theorem Stands.sub {u v : UnpackedFloat} {p q : ℚ} (hu : Stands u p) (hv : Stands v q)
    (hle : q ≤ p) (hsmall : p < 2 ^ 1023) :
    ∃ r, Stands (UnpackedFloat.sub .binary64 u v) r ∧ RoundsTo (p - q) r := by
  cases hu with
  | zero s =>
    cases hv with
    | zero s' =>
      rw [sub_zero]
      refine ⟨0, ?_, .refl 0⟩
      rw [UnpackedFloat.sub]
      split
      · exact .zero _
      · exact .zero _
    | positive hm' h' => exact absurd hle (not_le.mpr (by positivity))
  | @positive m e hm h =>
    cases hv with
    | zero s' =>
      rw [sub_zero]
      exact ⟨_, .positive hm h, .refl _⟩
    | @positive m' e' hm' h' =>
      obtain ⟨least, hleast⟩ : ∃ least, least = min e e' := ⟨_, rfl⟩
      obtain ⟨n, hn⟩ : ∃ n, n = m <<< (e - least).toNat := ⟨_, rfl⟩
      obtain ⟨n', hn'⟩ : ∃ n', n' = m' <<< (e' - least).toNat := ⟨_, rfl⟩
      have hvalue : (n : ℚ) * 2 ^ least = m * 2 ^ e := by
        rw [hn, shiftLeft_mul_two_zpow m (by omega)]
      have hvalue' : (n' : ℚ) * 2 ^ least = m' * 2 ^ e' := by
        rw [hn', shiftLeft_mul_two_zpow m' (by omega)]
      have hnle : n' ≤ n := by
        rwa [← hvalue, ← hvalue', mul_le_mul_iff_left₀ (two_zpow_pos least), Nat.cast_le] at hle
      have hexact : ((n - n' : ℕ) : ℚ) * 2 ^ least = m * 2 ^ e - m' * 2 ^ e' := by
        rw [Nat.cast_sub hnle, sub_mul, hvalue, hvalue']
      rw [UnpackedFloat.sub]
      dsimp only [decreaseExponent, Sign.apply]
      rw [← hleast, ← hn, ← hn', UnpackedFloat.normalize, ← hexact]
      rcases Nat.eq_or_lt_of_le hnle with heq | hlt
      · rw [compare_eq_iff_eq.mpr (by omega), heq, Nat.sub_self, Nat.cast_zero, zero_mul]
        exact ⟨0, .zero _, .refl 0⟩
      · have hdiff : (n - n' : ℕ) * (2 : ℚ) ^ least < 2 ^ 1023 := by
          have hnonneg : (0 : ℚ) ≤ m' * 2 ^ e' := by positivity
          rw [hexact]
          generalize (2 : ℚ) ^ 1023 = top at hsmall ⊢
          linarith
        have hround := exists_round (m := n - n') (e := least) (by omega) hdiff
        rw [compare_gt_iff_gt.mpr (by omega)]
        have hnat : ((n : ℤ) - (n' : ℤ)).toNat = n - n' := by omega
        dsimp only
        rw [hnat]
        exact hround

/-- A quotient has at most one digit less than the difference of the digits says. -/
theorem le_log2_div {a b : ℕ} (ha : a ≠ 0) (hb : b ≠ 0) :
    (a.log2 : ℤ) - b.log2 - 1 ≤ (a / b).log2 := by
  obtain ⟨hlow, -⟩ := (Nat.log2_eq_iff ha).mp rfl
  obtain ⟨-, hhigh⟩ := (Nat.log2_eq_iff hb).mp rfl
  rcases Nat.lt_or_ge b.log2 a.log2 with hlt | hge
  · obtain ⟨d, hd⟩ : ∃ d, a.log2 = d + (b.log2 + 1) := ⟨a.log2 - (b.log2 + 1), by omega⟩
    have hquotient : 2 ^ d ≤ a / b := by
      rw [Nat.le_div_iff_mul_le (Nat.pos_of_ne_zero hb)]
      calc 2 ^ d * b ≤ 2 ^ d * 2 ^ (b.log2 + 1) := Nat.mul_le_mul_left _ hhigh.le
        _ = 2 ^ a.log2 := by rw [hd, ← pow_add]
        _ ≤ a := hlow
    have hne : a / b ≠ 0 := ((Nat.two_pow_pos d).trans_le hquotient).ne'
    have hlog : d ≤ (a / b).log2 := (Nat.le_log2 hne).mpr hquotient
    omega
  · omega

/-- The quotient of two mantissas has enough digits, and what is left of the division says
    whether it is exact. -/
theorem exists_div {m m' : ℕ} (s s' : Sign) (e e' : ℤ) (hm : 0 < m) (hm' : 0 < m') :
    ∃ (n : ℕ) (grid : ℤ) (accuracy : Accuracy),
      UnpackedFloat.div .binary64 (.finite s m e hm) (.finite s' m' e' hm') =
        roundWithAccuracy .binary64 (s / s') n grid accuracy ∧
      Halves (ExtendedMantissa.ofMantissaAndAccuracy n accuracy)
        (m * 2 ^ e / (m' * 2 ^ e') / 2 ^ grid) ∧
      grid ≤ Format.binary64.targetExponent (totalExponent n grid) := by
  obtain ⟨grid, hgrid⟩ : ∃ grid, grid = min (e - e')
      (Format.binary64.targetExponent (totalExponent m e - totalExponent m' e')) := ⟨_, rfl⟩
  obtain ⟨k, hk⟩ := Int.le.dest (show grid ≤ e - e' by omega)
  have hshift : (e - e' - grid).toNat = k := by omega
  refine ⟨_, _, _, rfl, ?_, ?_⟩
  · rw [← hgrid, hshift, Nat.shiftLeft_eq]
    have hvalue : (m : ℚ) * 2 ^ e / (m' * 2 ^ e') / 2 ^ grid = (m * 2 ^ k : ℕ) / (m' : ℕ) := by
      have hsplit : (2 : ℚ) ^ e = 2 ^ e' * 2 ^ grid * 2 ^ k := by
        rw [← zpow_natCast, ← zpow_add₀ (by norm_num), ← zpow_add₀ (by norm_num)]
        congr 1
        omega
      have := (two_zpow_pos e').ne'
      have := (two_zpow_pos grid).ne'
      have : (m' : ℚ) ≠ 0 := Nat.cast_ne_zero.mpr hm'.ne'
      rw [hsplit]
      push_cast
      field_simp
    rw [hvalue]
    exact halves_quotient _ _ hm'
  · rw [← hgrid, hshift, Nat.shiftLeft_eq]
    have hlog := le_log2_div (Nat.mul_ne_zero hm.ne' (Nat.two_pow_pos k).ne') hm'.ne'
    rw [log2_mul_two_pow hm.ne'] at hlog
    rw [targetExponent_eq] at hgrid ⊢
    simp only [totalExponent] at hgrid ⊢
    push_cast at hlog
    omega
/-- The double 2. -/
theorem unpack_two : (2 : Float).toModel.unpack = .finite .positive (2 ^ 52) (-51) (by decide) :=
  rfl

/-- The half is rounded from the exact half. -/
theorem Stands.half {u : UnpackedFloat} {q : ℚ} (hu : Stands u q) (hq : q / 2 < 2 ^ 1023) :
    ∃ r, Stands (UnpackedFloat.div .binary64 u (2 : Float).toModel.unpack) r ∧
      RoundsTo (q / 2) r := by
  rw [unpack_two]
  cases hu with
  | zero s =>
    rw [zero_div]
    exact ⟨0, .zero _, .refl 0⟩
  | @positive m e hm h =>
    obtain ⟨n, grid, accuracy, hdiv, hhalves, hfine⟩ :=
      exists_div .positive .positive e (-51) hm (Nat.two_pow_pos 52)
    have htwo : ((2 ^ 52 : ℕ) : ℚ) * 2 ^ (-51 : ℤ) = 2 := by norm_num
    rw [htwo] at hhalves
    rw [hdiv]
    exact exists_roundWithAccuracy hhalves.toCovers hfine hq

/-! ### Midpoints -/

/-- Twice a double is a double, unless it is too large. -/
theorem Stands.exists_double {u : UnpackedFloat} {q : ℚ} (hu : Stands u q) (hq : q ≤ 2 ^ 1022) :
    ∃ v, Stands v (2 * q) := by
  cases hu with
  | zero s => exact ⟨.zero s, by rw [mul_zero]; exact .zero s⟩
  | @positive m e hm h =>
    obtain ⟨-, hlt, hge, hle, hhidden⟩ := h
    dsimp only at hlt hge hle hhidden
    rcases Nat.lt_or_ge m (2 ^ 52) with hsmall | hlarge
    · refine ⟨.finite .positive (2 * m) e (by omega), ?_⟩
      have hvalue : (2 : ℚ) * (m * 2 ^ e) = (2 * m : ℕ) * 2 ^ e := by
        push_cast
        ring
      rw [hvalue]
      exact .positive _ ⟨by dsimp only; omega, by dsimp only; omega, hge, hle,
        fun hgt => by have := hhidden hgt; omega⟩
    · refine ⟨.finite .positive m (e + 1) hm, ?_⟩
      have hvalue : (2 : ℚ) * (m * 2 ^ e) = m * 2 ^ (e + 1) := by
        rw [two_zpow_succ]
        ring
      have hbound : e < 971 := by
        by_contra hge
        have hm52 : (2 : ℚ) ^ (52 : ℤ) ≤ m := by exact_mod_cast hlarge
        have hpow : (2 : ℚ) ^ (1023 : ℤ) ≤ m * 2 ^ e := by
          calc (2 : ℚ) ^ (1023 : ℤ) ≤ 2 ^ (52 + e) :=
                zpow_le_zpow_right₀ (by norm_num) (by omega)
            _ = 2 ^ (52 : ℤ) * 2 ^ e := zpow_add₀ (by norm_num) _ _
            _ ≤ m * 2 ^ e := mul_le_mul_of_nonneg_right hm52 (two_zpow_pos e).le
        have hstrict : (2 : ℚ) ^ (1022 : ℕ) < 2 ^ (1023 : ℤ) := by
          rw [← zpow_natCast]
          exact zpow_lt_zpow_right₀ (by norm_num) (by norm_num)
        exact absurd (hstrict.trans_le (hpow.trans hq)) (lt_irrefl _)
      rw [hvalue]
      exact .positive _ ⟨hm, hlt, by dsimp only; omega, by dsimp only; omega, fun _ => hlarge⟩

/-- The double 1. -/
theorem stands_one : Stands (1 : Float).toModel.unpack 1 := by
  have hunpack : (1 : Float).toModel.unpack = .finite .positive (2 ^ 52) (-52) (by decide) := rfl
  have hvalue : (1 : ℚ) = (2 ^ 52 : ℕ) * 2 ^ (-52 : ℤ) := by norm_num
  rw [hunpack, hvalue]
  exact .positive _ ⟨by decide, by norm_num, by norm_num, by norm_num, fun _ => le_refl _⟩

/-- The double 200. -/
theorem stands_twoHundred : Stands (200 : Float).toModel.unpack 200 := by
  have hunpack : (200 : Float).toModel.unpack =
      .finite .positive 7036874417766400 (-45) (by decide) := rfl
  have hvalue : (200 : ℚ) = (7036874417766400 : ℕ) * 2 ^ (-45 : ℤ) := by norm_num
  rw [hunpack, hvalue]
  exact .positive _ ⟨by decide, by norm_num, by norm_num, by norm_num, fun _ => by norm_num⟩

theorem twoHundred_lt : (200 : ℚ) < 2 ^ 1022 := by
  have hpow : (2 : ℚ) ^ 8 ≤ 2 ^ 1022 := pow_le_pow_right₀ one_le_two (by norm_num)
  exact lt_of_lt_of_le (by norm_num) hpow

theorem Stands.isNaN_eq {x : Float} {q : ℚ} (h : Stands x.toModel.unpack q) :
    x.isNaN = false := by
  change x.toModel.unpack.isNaN = false
  cases h' : x.toModel.unpack with
  | notANumber =>
    rw [h'] at h
    cases h
  | _ => rfl

theorem le_iff_of_stands {x y : Float} {p q : ℚ} (hx : Stands x.toModel.unpack p)
    (hy : Stands y.toModel.unpack q) : x ≤ y ↔ p ≤ q := by
  rw [le_iff, rank, rank, rank_le_iff hx hy]
  exact ⟨fun h => h.2.2, fun h => ⟨hx.isNaN_eq, hy.isNaN_eq, h⟩⟩

/-- **The midpoint of two doubles lies between them**, though their sum and its half are
    rounded: doubled, both of them are doubles again and bound the rounded sum. -/
theorem exists_midpoint {x y : Float} {p q : ℚ} (hp : Stands x.toModel.unpack p)
    (hq : Stands y.toModel.unpack q) (hpq : p ≤ q) (hqsmall : q < 2 ^ 1022) :
    ∃ sum mid, Stands ((x + y) / 2).toModel.unpack mid ∧ RoundsTo (p + q) sum ∧
      RoundsTo (sum / 2) mid ∧ p ≤ mid ∧ mid ≤ q := by
  have hdouble : p + q < 2 ^ 1023 := by
    rw [pow_succ (2 : ℚ) 1022]
    generalize (2 : ℚ) ^ 1022 = top at hqsmall ⊢
    linarith
  have htop : (2 : ℚ) ^ 1022 ≤ 2 ^ 1023 := pow_le_pow_right₀ one_le_two (Nat.le_succ 1022)
  obtain ⟨sum, hsum, hroundsum⟩ := hp.add hq hdouble
  obtain ⟨v, hv⟩ := hp.exists_double (hpq.trans hqsmall.le)
  obtain ⟨w, hw⟩ := hq.exists_double hqsmall.le
  have hlow : 2 * p ≤ sum := hroundsum.le_of_le hv (by linarith)
  have hhigh : sum ≤ 2 * q := hroundsum.ge_of_ge hw (by linarith)
  have hhalf : sum / 2 ≤ q := by linarith
  obtain ⟨mid, hmid, hroundmid⟩ := hsum.half (hhalf.trans_lt (hqsmall.trans_le htop))
  have hunpacksum : (x + y).toModel.unpack =
      UnpackedFloat.add .binary64 x.toModel.unpack y.toModel.unpack := hsum.unpack_pack
  have hunpack : ((x + y) / 2).toModel.unpack =
      UnpackedFloat.div .binary64 (x + y).toModel.unpack (2 : Float).toModel.unpack := by
    rw [← hunpacksum] at hmid
    exact hmid.unpack_pack
  rw [← hunpacksum, ← hunpack] at hmid
  exact ⟨sum, mid, hmid, hroundsum, hroundmid, hroundmid.le_of_le hp (by linarith),
    hroundmid.ge_of_ge hq (by linarith)⟩

theorem Stands.lt_top {u : UnpackedFloat} {q : ℚ} (h : Stands u q) : q < 2 ^ 1024 := by
  cases h with
  | zero s => positivity
  | @positive m e hm h =>
    have hlt : (m : ℚ) < 2 ^ 53 := by exact_mod_cast h.mantissa_lt
    have hpow : (2 : ℚ) ^ e ≤ 2 ^ (971 : ℤ) := zpow_le_zpow_right₀ (by norm_num) h.exponent_le
    calc (m : ℚ) * 2 ^ e < 2 ^ 53 * 2 ^ e := mul_lt_mul_of_pos_right hlt (two_zpow_pos e)
      _ ≤ 2 ^ 53 * 2 ^ (971 : ℤ) := mul_le_mul_of_nonneg_left hpow (by positivity)
      _ = 2 ^ 1024 := by rw [zpow_ofNat, ← pow_add]

theorem Stands.zero_add {u : UnpackedFloat} {q : ℚ} (h : Stands u q) :
    Stands (UnpackedFloat.add .binary64 (.zero .positive) u) q := by
  cases h with
  | zero s =>
    cases s
    · exact .zero _
    · exact .zero _
  | positive hm h => exact .positive hm h

/-- Half a double is its midpoint with zero, however large it is. -/
theorem exists_half {y : Float} {q : ℚ} (hq : Stands y.toModel.unpack q) :
    ∃ mid, Stands ((0.0 + y) / 2.0).toModel.unpack mid ∧ RoundsTo (q / 2) mid := by
  have hsum : Stands (UnpackedFloat.add .binary64 (0.0 : Float).toModel.unpack y.toModel.unpack)
      q := hq.zero_add
  have htop : q / 2 < 2 ^ 1023 := by
    have hlt := hq.lt_top
    rw [pow_succ] at hlt
    exact (div_lt_iff₀ two_pos).mpr hlt
  obtain ⟨mid, hmid, hround⟩ := hsum.half htop
  have hunpacksum : (0.0 + y).toModel.unpack =
      UnpackedFloat.add .binary64 (0.0 : Float).toModel.unpack y.toModel.unpack :=
    hsum.unpack_pack
  rw [← hunpacksum] at hmid
  have hunpack : ((0.0 + y) / 2.0).toModel.unpack =
      UnpackedFloat.div .binary64 (0.0 + y).toModel.unpack (2 : Float).toModel.unpack :=
    hmid.unpack_pack
  rw [← hunpack] at hmid
  exact ⟨mid, hmid, hround⟩

theorem add_infinity {u : UnpackedFloat} (hnan : u.isNaN = false)
    (hle : rankOf 0 0 0 ≤ unpackedRank u) :
    UnpackedFloat.add .binary64 u (.infinity .positive) = .infinity .positive := by
  rcases u with (_ | _) | _ | _ | _
  · exact absurd hle (by decide)
  · rfl
  · cases hnan
  · rfl
  · rfl

/-- Infinity is its own midpoint with everything that is not below zero. -/
theorem midpoint_infinity {x : Float} (hx : 0 ≤ x) : (x + infinity) / 2.0 = infinity := by
  obtain ⟨-, hnan, hle⟩ := le_iff.mp hx
  have hadd : x + infinity = infinity := by
    change Float.ofModel (pack (UnpackedFloat.add .binary64 x.toModel.unpack
      (.infinity .positive))) = _
    rw [add_infinity hnan hle]
    rfl
  rw [hadd]
  rfl

theorem midpoint_between {x y : Float} (hx : 0 ≤ x) (hxy : x ≤ y) (hy : y ≤ 200) :
    x ≤ (x + y) / 2 ∧ (x + y) / 2 ≤ y := by
  have hy' : 0 ≤ y := Double.le_trans hx hxy
  have hzero : (0 : Float).isFinite = true := rfl
  have htwoHundred : (200 : Float).isFinite = true := rfl
  have hfinite := isFinite_of_le_of_le hx (Double.le_trans hxy hy) hzero htwoHundred
  have hfinite' := isFinite_of_le_of_le hy' hy hzero htwoHundred
  obtain ⟨p, hp⟩ := exists_stands hfinite (le_iff.mp hx).2.2
  obtain ⟨q, hq⟩ := exists_stands hfinite' (le_iff.mp hy').2.2
  have hpq : p ≤ q := (le_iff_of_stands hp hq).mp hxy
  have hq200 : q ≤ 200 := (le_iff_of_stands hq stands_twoHundred).mp hy
  obtain ⟨sum, mid, hmid, -, -, hlow, hhigh⟩ :=
    exists_midpoint hp hq hpq (hq200.trans_lt twoHundred_lt)
  rw [le_iff_of_stands hp hmid, le_iff_of_stands hmid hq]
  exact ⟨hlow, hhigh⟩

/-! ### Powers of two -/

theorem isFinite_of_stands {x : Float} {q : ℚ} (h : Stands x.toModel.unpack q) :
    x.isFinite = true := by
  change x.toModel.unpack.isFinite = true
  obtain ⟨u, hu⟩ : ∃ u, u = x.toModel.unpack := ⟨_, rfl⟩
  rw [← hu] at h ⊢
  cases h <;> rfl

/-- The power of two with exponent field `k`. -/
theorem unpack_ofBits_shiftLeft {k : ℕ} (hpos : 0 < k) (hlt : k < 2047) :
    (Float.ofBits (k.toUInt64 <<< 52)).toModel.unpack =
      .finite .positive (2 ^ 52) (k - 1075) (by decide) := by
  have hfield : (BitVec.ofNat 11 k).toNat = k := by
    rw [BitVec.toNat_ofNat, Nat.mod_eq_of_lt (by omega)]
  have hbits : (k.toUInt64 <<< 52).toBitVec =
      packComponents .binary64 .positive (BitVec.ofNat 11 k) 0#52 := by
    apply BitVec.eq_of_toNat_eq
    have hleft : (k.toUInt64 <<< 52).toBitVec.toNat = k * 2 ^ 52 := by
      have hshift : (k.toUInt64 <<< 52).toNat = k.toUInt64.toNat <<< 52 % 2 ^ 64 :=
        UInt64.toNat_shiftLeft _ _
      have hround : k.toUInt64.toNat = k := Nat.mod_eq_of_lt (by norm_num; omega)
      rw [hround, Nat.shiftLeft_eq] at hshift
      exact hshift.trans (Nat.mod_eq_of_lt (by omega))
    have hright : (packComponents .binary64 .positive (BitVec.ofNat 11 k) 0#52).toNat =
        k * 2 ^ 52 := by
      change ((0#1 ++ BitVec.ofNat 11 k) ++ 0#52).toNat = _
      rw [BitVec.toNat_append, BitVec.toNat_append, hfield]
      simp [Nat.shiftLeft_eq]
    rw [hleft, hright]
  have hunpack : UnpackedFloat.unpack .binary64 (k.toUInt64 <<< 52).toBitVec =
      .finite .positive (2 ^ 52) (k - 1075) (by decide) := by
    have hmantissa : 0#52 = BitVec.ofNat 52 (2 ^ 52) := by decide
    rw [hbits, hmantissa]
    exact unpack_packComponents_normal (by decide) (le_refl _) (by norm_num) hpos hlt
  change (pack (UnpackedFloat.unpack .binary64 (k.toUInt64 <<< 52).toBitVec)).unpack = _
  rw [hunpack]
  exact unpack_pack_finite (by decide) ⟨Nat.two_pow_pos 52, by norm_num, by dsimp only; omega,
    by dsimp only; omega, fun _ => le_refl _⟩

/-- A power of two that is not subnormal. -/
theorem stands_twoPow {e : ℤ} (hlow : -1022 ≤ e) (hhigh : e ≤ 1023) :
    Stands (twoPow e).toModel.unpack (2 ^ e) := by
  obtain ⟨k, hk⟩ : ∃ k : ℕ, e + 1023 = k := ⟨(e + 1023).toNat, by omega⟩
  have hunpack : (twoPow e).toModel.unpack = .finite .positive (2 ^ 52) (k - 1075) (by decide) := by
    rw [twoPow, if_neg (by omega), if_neg (by omega), if_pos hhigh, hk]
    exact unpack_ofBits_shiftLeft (by omega) (by omega)
  have hvalue : (2 : ℚ) ^ e = (2 ^ 52 : ℕ) * 2 ^ ((k : ℤ) - 1075) := by
    rw [Nat.cast_pow, Nat.cast_ofNat, ← zpow_natCast, ← zpow_add₀ (by norm_num)]
    congr 1
    push_cast
    omega
  rw [hunpack, hvalue]
  exact .positive _ ⟨Nat.two_pow_pos 52, by norm_num, by dsimp only; omega,
    by dsimp only; omega, fun _ => le_refl _⟩

end EvenChroma.Double
