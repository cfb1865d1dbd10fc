/-
  EvenChroma/Proofs/DoubleRounding.lean
  =====================================
  **Rounding never jumps over a double.**  A double stands for an exact number (`Stands`).
  The result of an operation is rounded to a grid on which every double of that size lies, so
  what was below or above a double stays there (`exists_roundWithAccuracy`).  Only the whole
  neighbours of a mantissa matter for this, not which of the two is nearer.
-/
import EvenChroma.Proofs.DoubleOrder
import EvenChroma.Proofs.RoundingInterval

namespace EvenChroma.Double

open Float.Model Float.Model.UnpackedFloat

/-! ### What a mantissa with its two last bits tells -/

/-- The number that is being rounded begins with the mantissa, and is the mantissa exactly if the
    two bits behind it are clear. -/
structure Covers (em : ExtendedMantissa) (t : ℚ) : Prop where
  low : em.mantissa ≤ t
  high : t < em.mantissa + 1
  exact_iff : t = em.mantissa ↔ em.roundBit = false ∧ em.stickyBit = false

namespace Covers

variable {em : ExtendedMantissa} {t : ℚ}

theorem shiftRightOne (h : Covers em t) : Covers em.shiftRightOne (t / 2) := by
  obtain ⟨hlow, hhigh, hexact⟩ := h
  have hmod := Nat.mod_two_eq_zero_or_one em.mantissa
  have hdiv := Nat.div_add_mod em.mantissa 2
  have hcast : (em.mantissa : ℚ) = 2 * (em.mantissa / 2 : ℕ) + (em.mantissa % 2 : ℕ) := by
    exact_mod_cast hdiv.symm
  change Covers ⟨em.mantissa / 2, em.mantissa % 2 != 0, em.roundBit || em.stickyBit⟩ (t / 2)
  rcases hmod with hmod | hmod
  · rw [hmod] at hcast ⊢
    constructor
    · dsimp only
      push_cast at hcast
      linarith
    · dsimp only
      push_cast at hcast
      linarith
    · rw [Bool.or_eq_false_iff, ← hexact]
      push_cast at hcast
      constructor
      · intro h
        dsimp only at h
        exact ⟨rfl, by linarith⟩
      · rintro ⟨-, h⟩
        dsimp only
        linarith
  · rw [hmod] at hcast ⊢
    push_cast at hcast
    constructor
    · dsimp only
      linarith
    · dsimp only
      linarith
    · constructor
      · intro h
        dsimp only at h
        linarith
      · rintro ⟨h, -⟩
        cases h

theorem shiftRight (h : Covers em t) (k : ℕ) : Covers (em >>> k) (t / 2 ^ k) := by
  change Covers (Nat.repeat ExtendedMantissa.shiftRightOne k em) _
  induction k with
  | zero => simpa [Nat.repeat] using h
  | succ k ih =>
    rw [Nat.repeat, pow_succ, ← div_div]
    exact ih.shiftRightOne

/-- The mantissa is rounded to one of its two whole neighbours, and not at all if it is exact. -/
theorem roundedMantissa_cases (em : ExtendedMantissa) :
    em.roundedMantissa = em.mantissa ∨ em.roundedMantissa = em.mantissa + 1 ∧
      ¬ (em.roundBit = false ∧ em.stickyBit = false) := by
  obtain ⟨m, r, s⟩ := em
  have hmod := Nat.mod_two_eq_zero_or_one m
  cases r <;> cases s <;>
    simp [ExtendedMantissa.roundedMantissa, ExtendedMantissa.accuracy,
      Accuracy.roundToNearestEven, hmod]

theorem natCast_le (h : Covers em t) {n : ℕ} (hn : n ≤ t) : n ≤ em.roundedMantissa := by
  have hlt : (n : ℚ) < (em.mantissa + 1 : ℕ) := by
    push_cast
    exact hn.trans_lt h.high
  have hle := Nat.cast_lt.mp hlt
  rcases roundedMantissa_cases em with heq | ⟨heq, -⟩
  · omega
  · omega

theorem le_natCast (h : Covers em t) {n : ℕ} (hn : t ≤ n) : em.roundedMantissa ≤ n := by
  have hle : em.mantissa ≤ n := Nat.cast_le.mp (h.low.trans hn)
  rcases roundedMantissa_cases em with heq | ⟨heq, hinexact⟩
  · omega
  · -- the number is more than its mantissa, which is whole
    have hne : em.mantissa ≠ n := by
      rintro rfl
      exact hinexact (h.exact_iff.mp (hn.antisymm h.low))
    omega

end Covers

theorem covers_exact (m : ℕ) : Covers (ExtendedMantissa.ofMantissaAndAccuracy m .exact) m :=
  ⟨le_refl _, lt_add_one _, iff_of_true rfl ⟨rfl, rfl⟩⟩

theorem mantissa_ofMantissaAndAccuracy (n : ℕ) (a : Accuracy) :
    (ExtendedMantissa.ofMantissaAndAccuracy n a).mantissa = n := by
  cases a with
  | exact => rfl
  | inexact o => cases o <;> rfl

/-- A quotient and the accuracy that its remainder gives. -/
theorem covers_quotient (m d : ℕ) (hd : 0 < d) :
    Covers (ExtendedMantissa.ofMantissaAndAccuracy (m / d) (accuracyOfFraction (m % d) d))
      (m / d) := by
  have hdiv : (m : ℚ) = d * (m / d : ℕ) + (m % d : ℕ) := by
    exact_mod_cast (Nat.div_add_mod m d).symm
  have hlt : ((m % d : ℕ) : ℚ) < d := by exact_mod_cast Nat.mod_lt m hd
  have hpos : (0 : ℚ) < d := by exact_mod_cast hd
  have hmantissa := mantissa_ofMantissaAndAccuracy (m / d) (accuracyOfFraction (m % d) d)
  have hbits : (ExtendedMantissa.ofMantissaAndAccuracy (m / d)
        (accuracyOfFraction (m % d) d)).roundBit = false ∧
      (ExtendedMantissa.ofMantissaAndAccuracy (m / d)
        (accuracyOfFraction (m % d) d)).stickyBit = false ↔ m % d = 0 := by
    unfold accuracyOfFraction
    split
    · next h => exact iff_of_true ⟨rfl, rfl⟩ h
    · next h =>
      refine iff_of_false ?_ h
      cases compare (2 * (m % d)) d <;> simp [ExtendedMantissa.ofMantissaAndAccuracy]
  constructor
  · rw [hmantissa, le_div_iff₀ hpos]
    have : (0 : ℚ) ≤ (m % d : ℕ) := by positivity
    linarith
  · rw [hmantissa, div_lt_iff₀ hpos]
    linarith
  · rw [hbits, hmantissa, div_eq_iff hpos.ne']
    constructor
    · intro h
      have : ((m % d : ℕ) : ℚ) = 0 := by linarith
      exact_mod_cast this
    · intro h
      rw [h] at hdiv
      push_cast at hdiv
      linarith

/-! ### Which neighbour is nearer -/

/-- The number begins with the mantissa, and the two bits behind it tell on which side of the half
    it lies. -/
structure Halves (em : ExtendedMantissa) (t : ℚ) : Prop extends Covers em t where
  half_le_iff : em.mantissa + 1 / 2 ≤ t ↔ em.roundBit = true
  eq_half_iff : t = em.mantissa + 1 / 2 ↔ em.roundBit = true ∧ em.stickyBit = false

/-- The last bit of a mantissa is the one behind half of it. -/
theorem Covers.halves {em : ExtendedMantissa} {t : ℚ} (h : Covers em t) :
    Halves em.shiftRightOne (t / 2) := by
  have hhalf := h.shiftRightOne
  obtain ⟨hlow, hhigh, hexact⟩ := h
  have hcast : (em.mantissa : ℚ) = 2 * (em.mantissa / 2 : ℕ) + (em.mantissa % 2 : ℕ) := by
    exact_mod_cast (Nat.div_add_mod em.mantissa 2).symm
  refine ⟨hhalf, ?_, ?_⟩
  · change ((em.mantissa / 2 : ℕ) : ℚ) + 1 / 2 ≤ t / 2 ↔ (em.mantissa % 2 != 0) = true
    rcases Nat.mod_two_eq_zero_or_one em.mantissa with hmod | hmod
    · rw [hmod] at hcast ⊢
      refine iff_of_false (fun hle => ?_) nofun
      push_cast at hcast
      linarith
    · rw [hmod] at hcast ⊢
      refine iff_of_true ?_ rfl
      push_cast at hcast
      linarith
  · change t / 2 = ((em.mantissa / 2 : ℕ) : ℚ) + 1 / 2 ↔
      (em.mantissa % 2 != 0) = true ∧ (em.roundBit || em.stickyBit) = false
    rw [Bool.or_eq_false_iff, ← hexact]
    rcases Nat.mod_two_eq_zero_or_one em.mantissa with hmod | hmod
    · rw [hmod] at hcast ⊢
      refine iff_of_false (fun heq => ?_) fun h => nomatch h.1
      push_cast at hcast
      linarith
    · rw [hmod] at hcast ⊢
      push_cast at hcast
      constructor
      · intro heq
        exact ⟨rfl, by linarith⟩
      · rintro ⟨-, heq⟩
        linarith

namespace Halves

variable {em : ExtendedMantissa} {t : ℚ}

theorem shiftRight (h : Halves em t) (k : ℕ) : Halves (em >>> k) (t / 2 ^ k) := by
  cases k with
  | zero => simpa [HShiftRight.hShiftRight, Nat.repeat] using h
  | succ k =>
    rw [pow_succ, ← div_div]
    exact (h.toCovers.shiftRight k).halves

/-- **A mantissa is rounded to the nearest whole number, and of two that are equally near to the
    even one.** -/
theorem roundedMantissa_nearest (h : Halves em t) :
    |em.roundedMantissa - t| ≤ 1 / 2 ∧
      (|em.roundedMantissa - t| = 1 / 2 → Even em.roundedMantissa) := by
  obtain ⟨⟨hlow, hhigh, hexact⟩, hhalf, heq⟩ := h
  obtain ⟨m, r, s⟩ := em
  cases r with
  | false =>
    -- less than the half is left, and it is cut off
    have hrounded : (ExtendedMantissa.mk m false s).roundedMantissa = m := by
      cases s <;> rfl
    have hless : t < m + 1 / 2 := by
      rw [← not_le, hhalf]
      exact Bool.false_ne_true
    rw [hrounded, abs_sub_comm, abs_of_nonneg (sub_nonneg.mpr hlow)]
    refine ⟨by linarith, fun htie => ?_⟩
    linarith
  | true =>
    have hmore : (m : ℚ) + 1 / 2 ≤ t := hhalf.mpr rfl
    cases s with
    | false =>
      have htie : t = m + 1 / 2 := heq.mpr ⟨rfl, rfl⟩
      have hrounded : (ExtendedMantissa.mk m true false).roundedMantissa = m + m % 2 := rfl
      rw [hrounded, htie]
      rcases Nat.mod_two_eq_zero_or_one m with hmod | hmod
      · rw [hmod, Nat.add_zero]
        refine ⟨?_, fun _ => Nat.even_iff.mpr hmod⟩
        rw [abs_sub_comm, add_sub_cancel_left, abs_of_pos one_half_pos]
      · rw [hmod]
        refine ⟨?_, fun _ => by rw [Nat.even_add_one, Nat.even_iff, hmod]; exact one_ne_zero⟩
        push_cast
        rw [add_sub_add_left_eq_sub, abs_of_pos (by norm_num)]
        norm_num
    | true =>
      have hrounded : (ExtendedMantissa.mk m true true).roundedMantissa = m + 1 := rfl
      have hne : t ≠ m + 1 / 2 := by
        rw [Ne, heq]
        rintro ⟨-, hsticky⟩
        cases hsticky
      have hgt : (m : ℚ) + 1 / 2 < t := lt_of_le_of_ne hmore hne.symm
      have hhigh' : t < m + 1 := hhigh
      rw [hrounded]
      push_cast
      rw [abs_of_pos (by linarith)]
      refine ⟨by linarith, fun htie => ?_⟩
      linarith

end Halves

theorem halves_exact (m : ℕ) : Halves (ExtendedMantissa.ofMantissaAndAccuracy m .exact) m := by
  refine ⟨covers_exact m, iff_of_false ?_ nofun, iff_of_false ?_ fun h => nomatch h.1⟩
  · change ¬ (m : ℚ) + 1 / 2 ≤ m
    linarith
  · change (m : ℚ) ≠ m + 1 / 2
    linarith

/-- The bits that the remainder of a division gives. -/
theorem bits_accuracyOfFraction (n : ℕ) {r d : ℕ} (hd : 0 < d) :
    ((ExtendedMantissa.ofMantissaAndAccuracy n (accuracyOfFraction r d)).roundBit = true ↔
      d ≤ 2 * r) ∧
    ((ExtendedMantissa.ofMantissaAndAccuracy n (accuracyOfFraction r d)).roundBit = true ∧
      (ExtendedMantissa.ofMantissaAndAccuracy n (accuracyOfFraction r d)).stickyBit = false ↔
        2 * r = d) := by
  unfold accuracyOfFraction
  split
  · next hzero =>
    refine ⟨iff_of_false nofun (by omega), iff_of_false (fun h => nomatch h.1) (by omega)⟩
  · cases hcompare : compare (2 * r) d with
    | lt =>
      have hlt := compare_lt_iff_lt.mp hcompare
      exact ⟨iff_of_false nofun (by omega), iff_of_false (fun h => nomatch h.1) (by omega)⟩
    | eq =>
      have heq := compare_eq_iff_eq.mp hcompare
      exact ⟨iff_of_true rfl (by omega), iff_of_true ⟨rfl, rfl⟩ heq⟩
    | gt =>
      have hgt := compare_gt_iff_gt.mp hcompare
      exact ⟨iff_of_true rfl (by omega), iff_of_false (fun h => nomatch h.2) (by omega)⟩

theorem halves_quotient (m d : ℕ) (hd : 0 < d) :
    Halves (ExtendedMantissa.ofMantissaAndAccuracy (m / d) (accuracyOfFraction (m % d) d))
      (m / d) := by
  have hpos : (0 : ℚ) < d := by exact_mod_cast hd
  have hvalue : (m : ℚ) / d = (m / d : ℕ) + (m % d : ℕ) / d := by
    have hdiv : (m : ℚ) = d * (m / d : ℕ) + (m % d : ℕ) := by
      exact_mod_cast (Nat.div_add_mod m d).symm
    rw [div_eq_iff hpos.ne', add_mul, div_mul_cancel₀ _ hpos.ne', mul_comm]
    exact hdiv
  obtain ⟨hround, hhalf⟩ := bits_accuracyOfFraction (m / d) (r := m % d) hd
  refine ⟨covers_quotient m d hd, ?_, ?_⟩
  · rw [hround, mantissa_ofMantissaAndAccuracy, hvalue, add_le_add_iff_left, le_div_iff₀ hpos,
      one_div_mul_eq_div, div_le_iff₀' two_pos]
    exact_mod_cast Iff.rfl
  · rw [hhalf, mantissa_ofMantissaAndAccuracy, hvalue, add_right_inj, div_eq_iff hpos.ne',
      one_div_mul_eq_div, eq_div_iff two_ne_zero, mul_comm]
    exact_mod_cast Iff.rfl

/-! ### Doubles and the numbers they stand for -/

/-- Zero, or a positive finite double, and the number it stands for. -/
inductive Stands : UnpackedFloat → ℚ → Prop
  | zero (s : Sign) : Stands (.zero s) 0
  | positive {m : ℕ} {e : ℤ} (hm : 0 < m) (h : (⟨false, m, e⟩ : Parts).Canonical) :
    Stands (.finite .positive m e hm) (m * 2 ^ e)

theorem Stands.nonneg {u : UnpackedFloat} {q : ℚ} (h : Stands u q) : 0 ≤ q := by
  cases h with
  | zero s => exact le_refl _
  | positive hm h => positivity

theorem two_zpow_pos (e : ℤ) : (0 : ℚ) < 2 ^ e := by positivity

theorem two_zpow_succ (e : ℤ) : (2 : ℚ) ^ (e + 1) = 2 * 2 ^ e := by
  rw [zpow_add₀ (by norm_num), zpow_one, mul_comm]

/-- The magnitude of a whole number by its binary logarithm. -/
theorem two_zpow_log2 {m : ℕ} (e : ℤ) (hm : m ≠ 0) :
    (2 : ℚ) ^ (totalExponent m e - 1) ≤ m * 2 ^ e ∧
      ((m : ℚ) + 1) * 2 ^ e ≤ 2 ^ totalExponent m e := by
  have hlow : ((2 ^ m.log2 : ℕ) : ℚ) ≤ m := Nat.cast_le.mpr (Nat.log2_self_le hm)
  have hhigh : ((m + 1 : ℕ) : ℚ) ≤ (2 ^ (m.log2 + 1) : ℕ) :=
    Nat.cast_le.mpr Nat.lt_log2_self
  have hpos := two_zpow_pos e
  push_cast at hlow hhigh
  constructor
  · rw [totalExponent, show (m.log2 : ℤ) + 1 + e - 1 = (m.log2 : ℕ) + e by ring,
      zpow_add₀ (by norm_num), zpow_natCast]
    exact mul_le_mul_of_nonneg_right hlow hpos.le
  · rw [totalExponent, show (m.log2 : ℤ) + 1 + e = (m.log2 + 1 : ℕ) + e by push_cast; ring,
      zpow_add₀ (by norm_num), zpow_natCast]
    exact mul_le_mul_of_nonneg_right hhigh hpos.le

theorem targetExponent_eq (t : ℤ) : Format.binary64.targetExponent t = max (t - 53) (-1074) := rfl

/-- Where a number that begins with the mantissa `m` is rounded: on a grid of at most `2 ^ 53`
    numbers, and of less than `2 ^ 52` only with the smallest spacing. -/
theorem rounding_grid {m : ℕ} {e grid : ℤ} {q : ℚ} (hlow : m * 2 ^ e ≤ q)
    (hhigh : q < (m + 1) * 2 ^ e) (hfine : e ≤ grid)
    (hgrid : grid = Format.binary64.targetExponent (totalExponent m e)) :
    -1074 ≤ grid ∧ q / 2 ^ grid ≤ (2 ^ 53 : ℕ) ∧
      (-1074 < grid → (2 ^ 52 : ℕ) ≤ q / 2 ^ grid) := by
  have hpos := two_zpow_pos grid
  rw [targetExponent_eq] at hgrid
  rcases eq_or_ne m 0 with rfl | hm
  · -- less than one unit is left, and only the smallest spacing is that coarse
    have hsmallest : grid = -1074 := by
      rw [totalExponent, show Nat.log2 0 = 0 from rfl] at hgrid
      omega
    have hone : q / 2 ^ grid ≤ 1 := by
      rw [div_le_one hpos]
      rw [Nat.cast_zero, zero_add, one_mul] at hhigh
      exact hhigh.le.trans (zpow_le_zpow_right₀ (by norm_num) hfine)
    exact ⟨by omega, hone.trans (by norm_num), by omega⟩
  · obtain ⟨hbelow, habove⟩ := two_zpow_log2 e hm
    refine ⟨by omega, ?_, fun hgt => ?_⟩
    · rw [div_le_iff₀ hpos, Nat.cast_pow, Nat.cast_ofNat, ← zpow_natCast,
        ← zpow_add₀ (by norm_num)]
      refine (hhigh.le.trans habove).trans (zpow_le_zpow_right₀ (by norm_num) ?_)
      push_cast
      omega
    · rw [le_div_iff₀ hpos, Nat.cast_pow, Nat.cast_ofNat, ← zpow_natCast,
        ← zpow_add₀ (by norm_num)]
      refine (zpow_le_zpow_right₀ (by norm_num) ?_).trans (hbelow.trans hlow)
      push_cast
      omega

/-- Numbers that are no overflow are rounded on a grid of doubles. -/
theorem grid_lt {grid : ℤ} {q : ℚ} (hfull : -1074 < grid → (2 ^ 52 : ℕ) ≤ q / 2 ^ grid)
    (hq : q < 2 ^ 1023) : grid < 971 := by
  by_contra hlarge
  have hfull := hfull (by omega)
  rw [le_div_iff₀ (two_zpow_pos grid)] at hfull
  have hpow : (2 : ℚ) ^ 1023 ≤ (2 ^ 52 : ℕ) * 2 ^ grid := by
    calc (2 : ℚ) ^ 1023 = (2 ^ 52 : ℕ) * 2 ^ (971 : ℤ) := by
          rw [zpow_ofNat, Nat.cast_pow, Nat.cast_ofNat, ← pow_add]
      _ ≤ (2 ^ 52 : ℕ) * 2 ^ grid := mul_le_mul_of_nonneg_left
          (zpow_le_zpow_right₀ (by norm_num) (by omega)) (by positivity)
  exact absurd (hq.trans_le (hpow.trans hfull)) (lt_irrefl _)

/-- A double lies on a grid, or is smaller than every number that the grid is used for. -/
theorem Stands.on_grid {u : UnpackedFloat} {p : ℚ} (hu : Stands u p) {grid : ℤ}
    (hge : -1074 ≤ grid) :
    (∃ k : ℕ, p = k * 2 ^ grid) ∨ -1074 < grid ∧ p < (2 ^ 52 : ℕ) * 2 ^ grid := by
  cases hu with
  | zero s => exact .inl ⟨0, by simp⟩
  | @positive m e hm h =>
    rcases le_or_gt grid e with hle | hgt
    · obtain ⟨k, hk⟩ := Int.le.dest hle
      refine .inl ⟨m * 2 ^ k, ?_⟩
      rw [← hk, zpow_add₀ (by norm_num), zpow_natCast]
      push_cast
      ring
    · have hexponent := h.exponent_ge
      dsimp only at hexponent
      refine .inr ⟨by omega, ?_⟩
      have hlt : (m : ℚ) < 2 ^ 53 := by exact_mod_cast h.mantissa_lt
      calc (m : ℚ) * 2 ^ e < 2 ^ 53 * 2 ^ e := mul_lt_mul_of_pos_right hlt (two_zpow_pos e)
        _ = (2 ^ 52 : ℕ) * 2 ^ (e + 1) := by rw [two_zpow_succ]; push_cast; ring
        _ ≤ (2 ^ 52 : ℕ) * 2 ^ grid := by
          have hpow : (2 : ℚ) ^ (e + 1) ≤ 2 ^ grid := zpow_le_zpow_right₀ (by norm_num) hgt
          exact mul_le_mul_of_nonneg_left hpow (by positivity)

/-- A double that compares to a rounded number as to the number itself. -/
theorem compare_on_grid {q : ℚ} {grid : ℤ} {rounded : ℕ}
    (hge : -1074 ≤ grid) (hdown : ∀ n : ℕ, n ≤ q / 2 ^ grid → n ≤ rounded)
    (hup : ∀ n : ℕ, q / 2 ^ grid ≤ n → rounded ≤ n)
    (hfull : -1074 < grid → (2 ^ 52 : ℕ) ≤ q / 2 ^ grid) {u : UnpackedFloat} {p : ℚ}
    (hu : Stands u p) :
    (p ≤ q → p ≤ rounded * 2 ^ grid) ∧ (q ≤ p → rounded * 2 ^ grid ≤ p) := by
  have hpos := two_zpow_pos grid
  rcases hu.on_grid hge with ⟨k, rfl⟩ | ⟨hgt, hsmall⟩
  · constructor
    · intro hq
      rw [← le_div_iff₀ hpos] at hq
      exact mul_le_mul_of_nonneg_right (Nat.cast_le.mpr (hdown _ hq)) hpos.le
    · intro hq
      rw [← div_le_iff₀ hpos] at hq
      exact mul_le_mul_of_nonneg_right (Nat.cast_le.mpr (hup _ hq)) hpos.le
  · have hlarge := hfull hgt
    have hrounded := hdown _ hlarge
    constructor
    · intro _
      exact hsmall.le.trans (mul_le_mul_of_nonneg_right (Nat.cast_le.mpr hrounded) hpos.le)
    · intro hq
      rw [le_div_iff₀ hpos] at hlarge
      linarith

/-! ### Rounding -/

/-- Rounded, a number is on the same side of every double as before, or meets it. -/
structure RoundsTo (q r : ℚ) : Prop where
  le_of_le : ∀ {u : UnpackedFloat} {p : ℚ}, Stands u p → p ≤ q → p ≤ r
  ge_of_ge : ∀ {u : UnpackedFloat} {p : ℚ}, Stands u p → q ≤ p → r ≤ p

/-- Mantissas that fit are taken as they are, and `2 ^ 53` is halved. -/
theorem shiftToTargetExponent_of_le {m : ℕ} {e : ℤ} (hm : m < 2 ^ 53) (he : -1074 ≤ e) :
    shiftToTargetExponent .binary64 m e .exact = (⟨m, false, false⟩, e) := by
  have hlog : m.log2 ≤ 52 := by
    rcases Nat.eq_zero_or_pos m with rfl | hpos
    · decide
    · exact Nat.le_of_lt_succ ((Nat.log2_lt hpos.ne').mpr hm)
  have hshift : (Format.binary64.targetExponent (totalExponent m e) - e).toNat = 0 := by
    rw [targetExponent_eq, totalExponent]
    omega
  rw [shiftToTargetExponent, shiftToExponent, hshift]
  simp [HShiftRight.hShiftRight, Nat.repeat, ExtendedMantissa.ofMantissaAndAccuracy]

theorem shiftToTargetExponent_full {e : ℤ} (he : -1074 ≤ e) :
    shiftToTargetExponent .binary64 (2 ^ 53) e .exact = (⟨2 ^ 52, false, false⟩, e + 1) := by
  have hshift : (Format.binary64.targetExponent (totalExponent (2 ^ 53) e) - e).toNat = 1 := by
    rw [targetExponent_eq, totalExponent, Nat.log2_two_pow]
    omega
  rw [shiftToTargetExponent, shiftToExponent, hshift]
  rfl

/-- A mantissa on a grid as an unpacked double. -/
def onGrid (s : Sign) (n : ℕ) (grid : ℤ) : UnpackedFloat :=
  let shifted := shiftToTargetExponent .binary64 n grid .exact
  if h : shifted.1.mantissa = 0 then .zero s
  else .finite s shifted.1.mantissa shifted.2 (Nat.pos_of_ne_zero h)

theorem onGrid_of_lt (s : Sign) {n : ℕ} {grid : ℤ} (hpos : 0 < n) (hlt : n < 2 ^ 53)
    (hge : -1074 ≤ grid) : onGrid s n grid = .finite s n grid hpos := by
  have hshifted : shiftToTargetExponent .binary64 n grid .exact = (⟨n, false, false⟩, grid) :=
    shiftToTargetExponent_of_le hlt hge
  simp only [onGrid, hshifted, hpos.ne', dite_false]

theorem onGrid_zero (s : Sign) {grid : ℤ} (hge : -1074 ≤ grid) : onGrid s 0 grid = .zero s := by
  have hshifted : shiftToTargetExponent .binary64 0 grid .exact = (⟨0, false, false⟩, grid) :=
    shiftToTargetExponent_of_le (by norm_num) hge
  simp only [onGrid, hshifted, dite_true]

theorem onGrid_full (s : Sign) {grid : ℤ} (hge : -1074 ≤ grid) :
    onGrid s (2 ^ 53) grid = .finite s (2 ^ 52) (grid + 1) (Nat.two_pow_pos 52) := by
  have hne : (2 ^ 52 : ℕ) ≠ 0 := by decide
  simp only [onGrid, shiftToTargetExponent_full hge, hne, dite_false]

theorem two_pow_53_mul (grid : ℤ) :
    ((2 ^ 53 : ℕ) : ℚ) * 2 ^ grid = (2 ^ 52 : ℕ) * 2 ^ (grid + 1) := by
  rw [two_zpow_succ]
  push_cast
  ring

/-- What rounding makes of a mantissa of at most `2 ^ 53` on its grid. -/
theorem stands_onGrid {n : ℕ} {grid : ℤ} (hle : n ≤ 2 ^ 53) (hge : -1074 ≤ grid)
    (hhidden : -1074 < grid → 2 ^ 52 ≤ n) (hgrid : grid < 971) :
    Stands (onGrid .positive n grid) (n * 2 ^ grid) := by
  rcases Nat.eq_zero_or_pos n with rfl | hpos
  · rw [onGrid_zero _ hge, Nat.cast_zero, zero_mul]
    exact .zero _
  · rcases Nat.lt_or_eq_of_le hle with hlt | rfl
    · rw [onGrid_of_lt _ hpos hlt hge]
      exact .positive _ ⟨hpos, hlt, hge, by dsimp only; omega, hhidden⟩
    · rw [onGrid_full _ hge, two_pow_53_mul]
      exact .positive _ ⟨Nat.two_pow_pos 52, by norm_num, by dsimp only; omega,
        by dsimp only; omega, fun _ => le_refl _⟩

/-- **A number is rounded to one of its neighbours on its grid.**  What is rounded begins with
    the mantissa `m`, which has enough digits for the grid. -/
theorem roundWithAccuracy_cases {s : Sign} {m : ℕ} {e : ℤ} {accuracy : Accuracy} {q : ℚ}
    (hcovers : Covers (ExtendedMantissa.ofMantissaAndAccuracy m accuracy) (q / 2 ^ e))
    (hfine : e ≤ Format.binary64.targetExponent (totalExponent m e)) :
    ∃ (k : ℕ) (em : ExtendedMantissa) (grid : ℤ),
      em = ExtendedMantissa.ofMantissaAndAccuracy m accuracy >>> k ∧ grid = e + k ∧
      Covers em (q / 2 ^ grid) ∧ -1074 ≤ grid ∧
      em.roundedMantissa ≤ 2 ^ 53 ∧ (-1074 < grid → (2 ^ 52 : ℕ) ≤ q / 2 ^ grid) ∧
      roundWithAccuracy .binary64 s m e accuracy = onGrid s em.roundedMantissa grid := by
  obtain ⟨k, hk⟩ := Int.le.dest hfine
  obtain ⟨grid, hgrid⟩ : ∃ grid, grid = e + k := ⟨_, rfl⟩
  have hpos := two_zpow_pos e
  have hlow : m * 2 ^ e ≤ q := by
    have h := hcovers.low
    rwa [mantissa_ofMantissaAndAccuracy, le_div_iff₀ hpos] at h
  have hhigh : q < (m + 1) * 2 ^ e := by
    have h := hcovers.high
    rwa [mantissa_ofMantissaAndAccuracy, div_lt_iff₀ hpos] at h
  have htarget : grid = Format.binary64.targetExponent (totalExponent m e) := hgrid.trans hk
  obtain ⟨hge, hle, hfull⟩ := rounding_grid hlow hhigh (by omega) htarget
  have hshift : shiftToTargetExponent .binary64 m e accuracy =
      (ExtendedMantissa.ofMantissaAndAccuracy m accuracy >>> k, grid) := by
    rw [shiftToTargetExponent, shiftToExponent, ← hk, hgrid]
    have : (e + (k : ℤ) - e).toNat = k := by omega
    rw [this]
  have hgridcovers : Covers (ExtendedMantissa.ofMantissaAndAccuracy m accuracy >>> k)
      (q / 2 ^ grid) := by
    have h := hcovers.shiftRight k
    rwa [div_div, ← zpow_natCast, ← zpow_add₀ (by norm_num), ← hgrid] at h
  refine ⟨k, _, grid, rfl, hgrid, hgridcovers, hge, hgridcovers.le_natCast hle, hfull, ?_⟩
  rw [roundWithAccuracy, hshift]
  rfl

/-- **Rounding keeps the order to every double.** -/
theorem exists_roundWithAccuracy {m : ℕ} {e : ℤ} {accuracy : Accuracy} {q : ℚ}
    (hcovers : Covers (ExtendedMantissa.ofMantissaAndAccuracy m accuracy) (q / 2 ^ e))
    (hfine : e ≤ Format.binary64.targetExponent (totalExponent m e)) (hq : q < 2 ^ 1023) :
    ∃ r, Stands (roundWithAccuracy .binary64 .positive m e accuracy) r ∧ RoundsTo q r := by
  obtain ⟨-, em, grid, -, -, hgridcovers, hge, hle, hfull, hresult⟩ :=
    roundWithAccuracy_cases (s := .positive) hcovers hfine
  rw [hresult]
  refine ⟨_, stands_onGrid hle hge (fun h => hgridcovers.natCast_le (hfull h))
    (grid_lt hfull hq), fun hv hle => ?_, fun hv hle => ?_⟩
  · exact (compare_on_grid hge (fun _ => hgridcovers.natCast_le) (fun _ => hgridcovers.le_natCast)
      hfull hv).1 hle
  · exact (compare_on_grid hge (fun _ => hgridcovers.natCast_le) (fun _ => hgridcovers.le_natCast)
      hfull hv).2 hle

/-! ### Packing -/

theorem unpack_packComponents {s : Sign} {e : BitVec 11} {m : BitVec 52} (hones : e ≠ -1#11)
    (hzero : e ≠ 0#11) (hm : 0 < 2 ^ 52 + m.toNat) :
    UnpackedFloat.unpack .binary64 (packComponents .binary64 s e m) =
      .finite s (2 ^ 52 + m.toNat) (e.toNat - 1075) hm := by
  have happend : (1#1 ++ m).toNat = 2 ^ 52 + m.toNat := by
    rw [BitVec.toNat_append, ← Nat.shiftLeft_add_eq_or_of_lt m.isLt]
    rfl
  simp only [UnpackedFloat.unpack, unpackMantissa_packComponents, unpackExponent_packComponents,
    unpackSign_packComponents, Sign.ofBitVec_toBitVec]
  rw [if_neg hones, if_neg hzero]
  simp only [happend]
  rfl

theorem unpack_packComponents_zero {s : Sign} {m : BitVec 52} (hzero : m ≠ 0#52)
    (hm : 0 < m.toNat) :
    UnpackedFloat.unpack .binary64 (packComponents .binary64 s 0#11 m) =
      .finite s m.toNat (-1074) hm := by
  simp only [UnpackedFloat.unpack, unpackMantissa_packComponents, unpackExponent_packComponents,
    unpackSign_packComponents, Sign.ofBitVec_toBitVec]
  rw [if_neg (by decide), if_pos trivial, dif_neg hzero]
  rfl

/-- A subnormal double. -/
theorem unpack_packComponents_subnormal {s : Sign} {m : ℕ} (hm : 0 < m) (hlt : m < 2 ^ 52) :
    UnpackedFloat.unpack .binary64 (packComponents .binary64 s 0#11 (BitVec.ofNat 52 m)) =
      .finite s m (-1074) hm := by
  have hmantissa : (BitVec.ofNat 52 m).toNat = m := by
    rw [BitVec.toNat_ofNat, Nat.mod_eq_of_lt hlt]
  have hzero : BitVec.ofNat 52 m ≠ 0#52 := by
    intro h
    rw [h] at hmantissa
    exact hm.ne hmantissa
  refine (unpack_packComponents_zero hzero (by omega)).trans ?_
  simp only [hmantissa]

/-- A normal double, whose leading digit is not packed. -/
theorem unpack_packComponents_normal {s : Sign} {m k : ℕ} (hm : 0 < m) (hge : 2 ^ 52 ≤ m)
    (hlt : m < 2 ^ 53) (hk : 0 < k) (hk' : k < 2047) :
    UnpackedFloat.unpack .binary64
        (packComponents .binary64 s (BitVec.ofNat 11 k) (BitVec.ofNat 52 m)) =
      .finite s m (k - 1075) hm := by
  have hmantissa : (BitVec.ofNat 52 m).toNat = m - 2 ^ 52 := by
    rw [BitVec.toNat_ofNat]
    omega
  have hexponent : (BitVec.ofNat 11 k).toNat = k := by
    rw [BitVec.toNat_ofNat, Nat.mod_eq_of_lt (by omega)]
  have hones : BitVec.ofNat 11 k ≠ -1#11 := by
    intro h
    rw [h] at hexponent
    change 2047 = k at hexponent
    omega
  have hzero : BitVec.ofNat 11 k ≠ 0#11 := by
    intro h
    rw [h] at hexponent
    change 0 = k at hexponent
    omega
  refine (unpack_packComponents hones hzero (by omega)).trans ?_
  have hwhole : 2 ^ 52 + (BitVec.ofNat 52 m).toNat = m := by omega
  simp only [hwhole, hexponent]

/-- Packing loses nothing. -/
theorem unpack_pack_finite {s : Sign} {m : ℕ} {e : ℤ} (hm : 0 < m)
    (h : (⟨false, m, e⟩ : Parts).Canonical) :
    (Float.Model.pack (.finite s m e hm)).unpack = .finite s m e hm := by
  obtain ⟨-, hlt, hge, hle, hhidden⟩ := h
  dsimp only at hlt hge hle hhidden
  change UnpackedFloat.unpack .binary64 (UnpackedFloat.pack .binary64 _) = _
  have hfield : (e + Format.binary64.exponentBias + Format.binary64.mantissaBitsWithoutImplicit)
      = e + 1075 := by
    change e + 1023 + 52 = _
    ring
  have hfinite : ¬ 2 ^ Format.binary64.exponentBits ≤ (e + 1075).toNat + 1 := by
    change ¬ 2 ^ 11 ≤ (e + 1075).toNat + 1
    omega
  rw [UnpackedFloat.pack]
  dsimp only
  rw [hfield, if_neg hfinite]
  rcases Nat.lt_or_ge m (2 ^ 52) with hsmall | hlarge
  · have hexponent : e = -1074 := by
      by_contra hne
      have := hhidden (by omega)
      omega
    have hlog : ¬ m.log2 + 1 = Format.binary64.mantissaBits := by
      have := (Nat.log2_lt hm.ne').mpr hsmall
      change ¬ m.log2 + 1 = 53
      omega
    subst hexponent
    rw [if_neg hlog]
    exact unpack_packComponents_subnormal hm hsmall
  · have hlog : m.log2 + 1 = Format.binary64.mantissaBits := by
      have := (Nat.log2_lt hm.ne').mpr hlt
      have := (Nat.le_log2 hm.ne').mpr hlarge
      change m.log2 + 1 = 53
      omega
    have hback : ((e + 1075).toNat : ℤ) - 1075 = e := by omega
    rw [if_pos hlog]
    refine (unpack_packComponents_normal hm hlarge hlt (by omega) (by omega)).trans ?_
    simp only [hback]

theorem Stands.unpack_pack {u : UnpackedFloat} {q : ℚ} (h : Stands u q) :
    (Float.Model.pack u).unpack = u := by
  cases h with
  | zero s => exact unpack_packedZero
  | positive hm h => exact unpack_pack_finite hm h

theorem canonical_of_unpack {x : Float} {s : Sign} {m : ℕ} {e : ℤ} {hm : 0 < m}
    (h : x.toModel.unpack = .finite s m e hm) : (⟨false, m, e⟩ : Parts).Canonical := by
  have hfield := exponentField_lt x
  have hnat := toNat_unpackExponent x
  have hmantissa := (@unpackMantissa .binary64 x.toBits.toBitVec).isLt
  change _ < 2 ^ 52 at hmantissa
  rw [unpack_eq, UnpackedFloat.unpack] at h
  dsimp only at h
  split_ifs at h with hones hzero hzero hfraction
  · cases h
    rw [unpackExponent_eq_zero_iff] at hzero
    have hexponent : ((0 : ℕ) : ℤ) - (Format.binary64.exponentBias +
        Format.binary64.mantissaBitsWithoutImplicit) + 1 = -1074 := rfl
    rw [hnat, hzero, hexponent]
    exact ⟨hm, by dsimp only; omega, le_refl _, by norm_num, fun hgt => (lt_irrefl _ hgt).elim⟩
  · cases h
    rw [unpackExponent_eq_ones_iff] at hones
    rw [unpackExponent_eq_zero_iff] at hzero
    have happend : (1#1 ++ @unpackMantissa .binary64 x.toBits.toBitVec).toNat =
        2 ^ 52 + (@unpackMantissa .binary64 x.toBits.toBitVec).toNat := by
      rw [BitVec.toNat_append, ← Nat.shiftLeft_add_eq_or_of_lt (BitVec.isLt _)]
      rfl
    have hexponent : ((@unpackExponent .binary64 x.toBits.toBitVec).toNat : ℤ) -
        (Format.binary64.exponentBias + Format.binary64.mantissaBitsWithoutImplicit) =
          exponentField x - 1075 := by
      rw [hnat]
      rfl
    refine ⟨hm, ?_, ?_, ?_, fun _ => ?_⟩
    · dsimp only
      omega
    · dsimp only
      rw [hexponent]
      omega
    · dsimp only
      rw [hexponent]
      omega
    · dsimp only
      omega

/-- The finite doubles from zero on stand for numbers. -/
theorem exists_stands {x : Float} (hfinite : x.isFinite = true) (hpos : rankOf 0 0 0 ≤ rank x) :
    ∃ q, Stands x.toModel.unpack q := by
  have hinside := (isFinite_iff.mp hfinite)
  unfold rank at hpos hinside
  cases h : x.toModel.unpack with
  | notANumber =>
    have hnan : x.isNaN = true := by
      change x.toModel.unpack.isNaN = true
      rw [h]
      rfl
    rw [hnan] at hinside
    cases hinside.1
  | infinity s =>
    rw [h] at hinside
    cases s <;> simp [unpackedRank, rankOf_lt_iff] at hinside
  | zero s => exact ⟨0, .zero s⟩
  | finite s m e hm =>
    rw [h] at hpos
    cases s with
    | negative => simp [unpackedRank, rankOf_le_iff] at hpos
    | positive => exact ⟨_, .positive hm (canonical_of_unpack h)⟩

theorem lt_of_exponent_lt {m m' : ℕ} {e e' : ℤ} (h : (⟨false, m, e⟩ : Parts).Canonical)
    (h' : (⟨false, m', e'⟩ : Parts).Canonical) (hlt : e < e') :
    (m : ℚ) * 2 ^ e < m' * 2 ^ e' := by
  have hm : (m : ℚ) < 2 ^ 53 := by exact_mod_cast h.mantissa_lt
  have hge := h.exponent_ge
  dsimp only at hge
  have hm' : (2 ^ 52 : ℚ) ≤ m' := by exact_mod_cast h'.hidden (by dsimp only; omega)
  calc (m : ℚ) * 2 ^ e < 2 ^ 53 * 2 ^ e := mul_lt_mul_of_pos_right hm (two_zpow_pos e)
    _ = 2 ^ 52 * 2 ^ (e + 1) := by rw [two_zpow_succ]; ring
    _ ≤ m' * 2 ^ e' := mul_le_mul hm' (zpow_le_zpow_right₀ (by norm_num) hlt)
      (two_zpow_pos _).le (by positivity)

/-- Doubles are ordered as the numbers they stand for. -/
theorem rank_le_iff {u v : UnpackedFloat} {p q : ℚ} (hu : Stands u p) (hv : Stands v q) :
    unpackedRank u ≤ unpackedRank v ↔ p ≤ q := by
  cases hu with
  | zero s =>
    cases hv with
    | zero s' => simp [unpackedRank]
    | positive hm' h' =>
      refine iff_of_true ?_ (by positivity)
      simp [unpackedRank, rankOf_le_iff]
  | @positive m e hm h =>
    cases hv with
    | zero s' =>
      refine iff_of_false ?_ (not_le_of_gt (by positivity))
      simp [unpackedRank, rankOf_le_iff]
    | @positive m' e' hm' h' =>
      simp only [unpackedRank, rankOf_le_iff, lt_self_iff_false, false_or, true_and]
      rcases lt_trichotomy e e' with hlt | rfl | hgt
      · exact iff_of_true (.inl hlt) (lt_of_exponent_lt h h' hlt).le
      · rw [mul_le_mul_iff_of_pos_right (two_zpow_pos e)]
        simp
      · refine iff_of_false ?_ (not_le_of_gt (lt_of_exponent_lt h' h hgt))
        omega

end EvenChroma.Double
