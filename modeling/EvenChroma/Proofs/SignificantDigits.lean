/-
  EvenChroma/Proofs/SignificantDigits.lean
  ========================================
  **Rounding to significant digits.**  Over the rational numbers every result lies on a grid
  whose step is a power of ten, and the number of whole digits chooses the grid.  A power of
  ten that bounds the number is a point of its grid, so the rounded number keeps the bound:
  it can reach the next power of ten, where the coarser grid begins, and never pass it.
-/
import Mathlib.Algebra.Order.Archimedean.Basic
import Mathlib.Data.Nat.Digits.Lemmas
import Mathlib.Data.Rat.Floor
import Mathlib.Tactic.Linarith
import Mathlib.Tactic.NormNum
import EvenChroma.Color.Css
import EvenChroma.Proofs.ExactNumbers

namespace EvenChroma

/-! ### Powers -/

namespace Scalar

instance : Scalar ℚ := exact ℚ

/-- Repeated squaring computes the power: what is left of the exponent is halved with
    every step, and `result · base ^ n` stays the same. -/
theorem powFrom_eq {fuel n : Nat} (hn : n ≤ fuel) (result base : ℚ) :
    powFrom fuel result base n = result * base ^ n := by
  induction fuel generalizing n result base with
  | zero =>
    obtain rfl : n = 0 := by omega
    simp [powFrom]
  | succ fuel ih =>
    unfold powFrom
    split
    next hzero => simp [hzero]
    next hzero =>
      rw [ih (by omega), ← pow_two, ← pow_mul]
      split
      next hodd =>
        rw [mul_assoc, ← pow_succ']
        congr 2
        omega
      next heven =>
        congr 2
        omega

theorem powNat_eq (base : ℚ) (n : Nat) : powNat base n = base ^ n := by
  have h := powFrom_eq (le_refl n) 1 base
  rwa [one_mul] at h

theorem tenTo_eq (e : ℤ) : tenTo e = (10 : ℚ) ^ e := by
  unfold tenTo
  rw [powNat_eq]
  split
  next hneg =>
    obtain ⟨k, rfl⟩ := Int.eq_negSucc_of_lt_zero hneg
    simp
  next hpos =>
    obtain ⟨k, rfl⟩ := Int.eq_ofNat_of_zero_le (not_lt.mp hpos)
    simp

end Scalar

/-! ### Grids -/

/-- The number `n` is a multiple of `10 ^ (-e)`. -/
def OnGrid (e : ℤ) (n : ℚ) : Prop := ∃ k : ℤ, n * 10 ^ e = k

/-- The multiple of `10 ^ (-e)` next to `n`, the upper one if two are equally near. -/
def nearestOnGrid (e : ℤ) (n : ℚ) : ℚ := ⌊n * 10 ^ e + 1 / 2⌋ / 10 ^ e

section Grid

variable {e : ℤ} {n m : ℚ}

private theorem ten_zpow_pos (e : ℤ) : (0 : ℚ) < 10 ^ e := zpow_pos (by norm_num) e

/-- A finer grid has all points of a coarser one. -/
theorem OnGrid.finer {e' : ℤ} (h : OnGrid e n) (hle : e ≤ e') : OnGrid e' n := by
  obtain ⟨k, hk⟩ := h
  obtain ⟨j, hj⟩ := Int.le.dest hle
  refine ⟨k * 10 ^ j, ?_⟩
  rw [← hj, zpow_add₀ (by norm_num), ← mul_assoc, hk, zpow_natCast]
  push_cast
  rfl

theorem onGrid_ten_pow {d : ℕ} (h : 0 ≤ e + d) : OnGrid e (10 ^ d) := by
  obtain ⟨j, hj⟩ := Int.eq_ofNat_of_zero_le h
  refine ⟨10 ^ j, ?_⟩
  rw [← zpow_natCast, ← zpow_add₀ (by norm_num), add_comm, hj, zpow_natCast]
  push_cast
  rfl

theorem OnGrid.neg (h : OnGrid e n) : OnGrid e (-n) := by
  obtain ⟨k, hk⟩ := h
  refine ⟨-k, ?_⟩
  rw [neg_mul, hk, Int.cast_neg]

theorem onGrid_zero (e : ℤ) : OnGrid e 0 := ⟨0, by simp⟩

theorem onGrid_nearestOnGrid (e : ℤ) (n : ℚ) : OnGrid e (nearestOnGrid e n) :=
  ⟨_, div_mul_cancel₀ _ (ten_zpow_pos e).ne'⟩

/-- Rounding leaves the points of its own grid where they are. -/
theorem nearestOnGrid_of_onGrid (h : OnGrid e n) : nearestOnGrid e n = n := by
  obtain ⟨k, hk⟩ := h
  have hfloor : ⌊(k : ℚ) + 1 / 2⌋ = k := by
    rw [Int.floor_intCast_add]
    norm_num
  rw [nearestOnGrid, hk, hfloor, ← hk]
  exact mul_div_cancel_right₀ _ (ten_zpow_pos e).ne'

theorem nearestOnGrid_mono (e : ℤ) : Monotone (nearestOnGrid e) := by
  intro n m hle
  unfold nearestOnGrid
  have hpos := ten_zpow_pos e
  gcongr

/-- **The nearest point of a grid is at most half a step away.** -/
theorem abs_nearestOnGrid_sub_le (e : ℤ) (n : ℚ) :
    |nearestOnGrid e n - n| ≤ 10 ^ (-e) / 2 := by
  have hpos := ten_zpow_pos e
  have hlow := Int.floor_le (n * 10 ^ e + 1 / 2)
  have hhigh := Int.lt_floor_add_one (n * 10 ^ e + 1 / 2)
  have hscaled : |(nearestOnGrid e n - n) * 10 ^ e| ≤ 1 / 2 := by
    rw [sub_mul, nearestOnGrid, div_mul_cancel₀ _ hpos.ne', abs_le]
    constructor
    · linarith
    · linarith
  rw [abs_mul, abs_of_pos hpos] at hscaled
  rw [zpow_neg, ← one_div, div_div, mul_comm, ← div_div]
  exact (le_div_iff₀ hpos).mpr hscaled

/-- A bound that is a point of the grid bounds the rounded number. -/
theorem nearestOnGrid_le (hm : OnGrid e m) (h : n ≤ m) : nearestOnGrid e n ≤ m := by
  calc nearestOnGrid e n ≤ nearestOnGrid e m := nearestOnGrid_mono e h
    _ = m := nearestOnGrid_of_onGrid hm

theorem le_nearestOnGrid (hm : OnGrid e m) (h : m ≤ n) : m ≤ nearestOnGrid e n := by
  calc m = nearestOnGrid e m := (nearestOnGrid_of_onGrid hm).symm
    _ ≤ nearestOnGrid e n := nearestOnGrid_mono e h

end Grid

/-! ### Whole digits -/

/-- How many decimal digits the number has before the point, none if it is below one. -/
def wholeDigits (n : ℚ) : ℕ := (Nat.digits 10 ⌊|n|⌋₊).length

theorem wholeDigits_le_iff {n : ℚ} {d : ℕ} : wholeDigits n ≤ d ↔ |n| < 10 ^ d := by
  rw [wholeDigits, Nat.digits_length_le_iff (by norm_num), Nat.floor_lt (abs_nonneg n)]
  push_cast
  rfl

theorem lt_wholeDigits_iff {n : ℚ} {d : ℕ} : d < wholeDigits n ↔ 10 ^ d ≤ |n| := by
  rw [← not_le, wholeDigits_le_iff, not_lt]

theorem abs_lt_wholeDigits (n : ℚ) : |n| < 10 ^ wholeDigits n :=
  wholeDigits_le_iff.mp le_rfl

/-- What `roundSignificant` computes; zero needs no case of its own. -/
theorem roundSignificant_eq (n : ℚ) (p : ℤ) :
    roundSignificant n p = nearestOnGrid (p - wholeDigits n) n := by
  have hdigits : Scalar.integerDigits n = wholeDigits n := by
    show (Nat.digits 10 ⌊|n|⌋.toNat).length = _
    rw [Int.floor_toNat, wholeDigits]
  have hhalf : (0.5 : ℚ) = 1 / 2 := by norm_num
  unfold roundSignificant
  split
  next hzero =>
    have hn : n = 0 := by
      simpa [Scalar.isFinite] using hzero
    rw [hn, nearestOnGrid_of_onGrid (onGrid_zero _)]
  next hzero =>
    dsimp only
    rw [hdigits, Scalar.tenTo_eq, nearestOnGrid, ← hhalf]
    rfl

/-! ### Bounds that a rounded number keeps -/

section Bounds

variable {n : ℚ} {p : ℤ}

theorem onGrid_roundSignificant (n : ℚ) (p : ℤ) :
    OnGrid (p - wholeDigits n) (roundSignificant n p) := by
  rw [roundSignificant_eq]
  exact onGrid_nearestOnGrid _ n

/-- The power of ten with the number's own count of whole digits is a point of its grid, also
    where the grid is coarser than the units. -/
theorem abs_roundSignificant_le (hp : 1 ≤ p) (n : ℚ) :
    |roundSignificant n p| ≤ 10 ^ wholeDigits n := by
  have hgrid : OnGrid (p - wholeDigits n) (10 ^ wholeDigits n) := by
    apply onGrid_ten_pow
    omega
  obtain ⟨hlow, hhigh⟩ := abs_le.mp (abs_lt_wholeDigits n).le
  rw [roundSignificant_eq, abs_le]
  exact ⟨le_nearestOnGrid hgrid.neg hlow, nearestOnGrid_le hgrid hhigh⟩

/-- The power of ten that the first whole digit stands for is a point of the grid as well. -/
theorem onGrid_first_digit (hp : 1 ≤ p) {d : ℕ} (hd : wholeDigits n = d + 1) :
    OnGrid (p - wholeDigits n) (10 ^ d) := by
  apply onGrid_ten_pow
  rw [hd]
  push_cast
  omega

theorem ten_pow_le_roundSignificant (hp : 1 ≤ p) {d : ℕ} (hd : d < wholeDigits n) (hn : 0 ≤ n) :
    10 ^ d ≤ roundSignificant n p := by
  obtain ⟨k, hk⟩ := Nat.exists_eq_succ_of_ne_zero (Nat.ne_zero_of_lt hd)
  have hle : (10 : ℚ) ^ k ≤ n := by
    rw [← abs_of_nonneg hn]
    exact lt_wholeDigits_iff.mp (by omega)
  calc (10 : ℚ) ^ d ≤ 10 ^ k := pow_le_pow_right₀ (by norm_num) (by omega)
    _ ≤ nearestOnGrid (p - wholeDigits n) n := le_nearestOnGrid (onGrid_first_digit hp hk) hle
    _ = roundSignificant n p := (roundSignificant_eq n p).symm

theorem roundSignificant_le_neg_ten_pow (hp : 1 ≤ p) {d : ℕ} (hd : d < wholeDigits n)
    (hn : n ≤ 0) : roundSignificant n p ≤ -10 ^ d := by
  obtain ⟨k, hk⟩ := Nat.exists_eq_succ_of_ne_zero (Nat.ne_zero_of_lt hd)
  have hle : n ≤ -(10 : ℚ) ^ k := by
    have hlt : (10 : ℚ) ^ k ≤ |n| := lt_wholeDigits_iff.mp (by omega)
    rw [abs_of_nonpos hn] at hlt
    linarith
  calc roundSignificant n p = nearestOnGrid (p - wholeDigits n) n := roundSignificant_eq n p
    _ ≤ -10 ^ k := nearestOnGrid_le (onGrid_first_digit hp hk).neg hle
    _ ≤ -10 ^ d := neg_le_neg (pow_le_pow_right₀ (by norm_num) (by omega))

end Bounds

/-! ### The laws of the rounding -/

theorem roundSignificant_zero (p : ℤ) : roundSignificant (0 : ℚ) p = 0 := by
  rw [roundSignificant_eq, nearestOnGrid_of_onGrid (onGrid_zero _)]

/-- **Rounding keeps the order.**  Numbers with equally many whole digits share a grid.
    Otherwise the one with more of them is on the outside, and a power of ten between the
    two numbers stays between the rounded ones. -/
theorem roundSignificant_mono {p : ℤ} (hp : 1 ≤ p) {n m : ℚ} (hle : n ≤ m) :
    roundSignificant n p ≤ roundSignificant m p := by
  rcases lt_trichotomy (wholeDigits n) (wholeDigits m) with hlt | heq | hgt
  · have hm : 0 ≤ m := by
      by_contra hneg
      have habs := lt_wholeDigits_iff.mp hlt
      have hlarge := abs_lt_wholeDigits n
      rw [abs_of_neg (not_le.mp hneg)] at habs
      have hself := neg_le_abs n
      linarith
    calc roundSignificant n p ≤ 10 ^ wholeDigits n :=
          (abs_le.mp (abs_roundSignificant_le hp n)).2
      _ ≤ roundSignificant m p := ten_pow_le_roundSignificant hp hlt hm
  · rw [roundSignificant_eq, roundSignificant_eq, heq]
    exact nearestOnGrid_mono _ hle
  · have hn : n ≤ 0 := by
      by_contra hpos
      have habs := lt_wholeDigits_iff.mp hgt
      have hlarge := abs_lt_wholeDigits m
      rw [abs_of_pos (not_le.mp hpos)] at habs
      have hself := le_abs_self m
      linarith
    calc roundSignificant n p ≤ -10 ^ wholeDigits m := roundSignificant_le_neg_ten_pow hp hgt hn
      _ ≤ roundSignificant m p := (abs_le.mp (abs_roundSignificant_le hp m)).1

/-- The rounded number is a point of the grid that its own count of whole digits chooses.
    Only a carry gives it one digit more, and then it is the power of ten itself. -/
theorem onGrid_own_roundSignificant {p : ℤ} (hp : 1 ≤ p) (n : ℚ) :
    OnGrid (p - wholeDigits (roundSignificant n p)) (roundSignificant n p) := by
  rcases lt_or_eq_of_le (abs_roundSignificant_le hp n) with hlt | hcarry
  · have hdigits := wholeDigits_le_iff.mpr hlt
    exact (onGrid_roundSignificant n p).finer (by omega)
  · have hdigits : wholeDigits (roundSignificant n p) ≤ wholeDigits n + 1 := by
      rw [wholeDigits_le_iff, hcarry]
      exact pow_lt_pow_right₀ (by norm_num) (Nat.lt_succ_self _)
    have hgrid : OnGrid (p - wholeDigits (roundSignificant n p)) (10 ^ wholeDigits n) := by
      apply onGrid_ten_pow
      omega
    rcases eq_or_eq_neg_of_abs_eq hcarry with heq | heq
    · rw [heq] at hgrid ⊢
      exact hgrid
    · rw [heq] at hgrid ⊢
      exact hgrid.neg

theorem roundSignificant_idem {p : ℤ} (hp : 1 ≤ p) (n : ℚ) :
    roundSignificant (roundSignificant n p) p = roundSignificant n p := by
  rw [roundSignificant_eq (roundSignificant n p) p]
  exact nearestOnGrid_of_onGrid (onGrid_own_roundSignificant hp n)

theorem abs_roundSignificant_sub_le (n : ℚ) (p : ℤ) :
    |roundSignificant n p - n| ≤ 10 ^ (wholeDigits n - p) / 2 := by
  have h := abs_nearestOnGrid_sub_le (p - wholeDigits n) n
  rwa [← roundSignificant_eq, neg_sub] at h

/-- **Rounding to significant digits is well behaved.**  It keeps the order of all rational
    numbers, changes nothing the second time, leaves zero alone and moves a number by at most
    half a unit of the last digit that it keeps. -/
theorem roundSignificant_wellBehaved (p : ℤ) (hp : 1 ≤ p) :
    Monotone (fun n : ℚ => roundSignificant n p) ∧
      (∀ n : ℚ, roundSignificant (roundSignificant n p) p = roundSignificant n p) ∧
      roundSignificant (0 : ℚ) p = 0 ∧
      ∀ n : ℚ, |roundSignificant n p - n| ≤
        10 ^ (((Nat.digits 10 ⌊|n|⌋₊).length : ℤ) - p) / 2 := by
  refine ⟨?_, ?_, ?_, ?_⟩
  · intro n m hle
    exact roundSignificant_mono hp hle
  · intro n
    exact roundSignificant_idem hp n
  · exact roundSignificant_zero p
  · intro n
    exact abs_roundSignificant_sub_le n p

/-- Five digits of 9.99996 carry into one whole digit more, and the number 10 is kept. -/
theorem roundSignificant_wellBehaved_carry :
    (1 : ℤ) ≤ 5 ∧ roundSignificant (9.99996 : ℚ) 5 = 10 ∧
      roundSignificant (roundSignificant (9.99996 : ℚ) 5) 5 = 10 ∧
      |roundSignificant (9.99996 : ℚ) 5 - 9.99996| ≤
        10 ^ (((Nat.digits 10 ⌊|(9.99996 : ℚ)|⌋₊).length : ℤ) - 5) / 2 := by
  have hlaws := roundSignificant_wellBehaved 5 (by decide)
  have hcarry : roundSignificant (9.99996 : ℚ) 5 = 10 := by decide +kernel
  exact ⟨by decide, hcarry, (hlaws.2.1 9.99996).trans hcarry, hlaws.2.2.2 9.99996⟩

-- a half goes up, also below zero, and the units of a long whole part are rounded away
example : roundSignificant (-0.000025 : ℚ) 5 = -0.00002 := by decide +kernel

example : roundSignificant (1234567 : ℚ) 5 = 1234600 := by decide +kernel

end EvenChroma
