/-
  EvenChroma/Proofs/DoubleOrder.lean
  ==================================
  **Doubles other than NaN are ordered by rank.**  The rank of a double is its sign, then
  its exponent, then its mantissa, with the infinities outermost.  Ranks are linearly
  ordered, so comparing doubles is total and transitive as long as no NaN takes part.
-/
import EvenChroma.Double.Basic
import Mathlib

namespace EvenChroma.Double

open Float.Model

/-! ### Ranks -/

abbrev Rank : Type := ℤ ×ₗ ℤ ×ₗ ℤ

def rankOf (sign exponent mantissa : ℤ) : Rank := toLex (sign, toLex (exponent, mantissa))

theorem rankOf_le_iff {s s' e e' m m' : ℤ} :
    rankOf s e m ≤ rankOf s' e' m' ↔ s < s' ∨ s = s' ∧ (e < e' ∨ e = e' ∧ m ≤ m') := by
  simp [rankOf, Prod.Lex.toLex_le_toLex]

theorem rankOf_lt_iff {s s' e e' m m' : ℤ} :
    rankOf s e m < rankOf s' e' m' ↔ s < s' ∨ s = s' ∧ (e < e' ∨ e = e' ∧ m < m') := by
  simp [rankOf, Prod.Lex.toLex_lt_toLex]

def unpackedRank : UnpackedFloat → Rank
  | .infinity .negative => rankOf (-2) 0 0
  | .finite .negative m e _ => rankOf (-1) (-e) (-m)
  | .zero _ => rankOf 0 0 0
  | .finite .positive m e _ => rankOf 1 e m
  | .infinity .positive => rankOf 2 0 0
  | .notANumber => rankOf 0 0 0

theorem isLE_then_compare {e e' : ℤ} {m m' : ℕ} :
    ((compare e e').then (compare m m')).isLE = true ↔ e < e' ∨ e = e' ∧ m ≤ m' := by
  rw [Ordering.isLE_then_iff_or, compare_lt_iff_lt, compare_eq_iff_eq, Nat.isLE_compare]

theorem isLE_swap_then_compare {e e' : ℤ} {m m' : ℕ} :
    ((compare e e').then (compare m m')).swap.isLE = true ↔ e' < e ∨ e = e' ∧ m' ≤ m := by
  rw [Ordering.swap_then, Int.compare_swap, Nat.compare_swap, isLE_then_compare, eq_comm]

theorem unpacked_le_iff (a b : UnpackedFloat) :
    a.le b = true ↔ a.isNaN = false ∧ b.isNaN = false ∧ unpackedRank a ≤ unpackedRank b := by
  cases a with
  | notANumber => simp [UnpackedFloat.le, UnpackedFloat.compare, UnpackedFloat.isNaN]
  | infinity s =>
    cases b with
    | infinity s' => cases s <;> cases s' <;> decide
    | notANumber =>
      cases s <;> simp [UnpackedFloat.le, UnpackedFloat.compare, UnpackedFloat.isNaN]
    | zero s' => cases s <;> cases s' <;> decide
    | finite s' m' e' h' =>
      cases s <;> cases s' <;>
        simp [UnpackedFloat.le, UnpackedFloat.compare, UnpackedFloat.isNaN, unpackedRank,
          rankOf_le_iff]
  | zero s =>
    rcases b with (_ | _) | _ | _ | ⟨_ | _, m', e', h'⟩ <;>
      simp [UnpackedFloat.le, UnpackedFloat.compare, UnpackedFloat.isNaN, unpackedRank,
        rankOf_le_iff]
  | finite s m e h =>
    cases s <;> rcases b with (_ | _) | _ | _ | ⟨_ | _, m', e', h'⟩ <;>
      simp [UnpackedFloat.le, UnpackedFloat.compare, UnpackedFloat.isNaN, unpackedRank,
        rankOf_le_iff, isLE_then_compare, isLE_swap_then_compare, -Ordering.isLE_swap]

theorem unpacked_lt_iff (a b : UnpackedFloat) :
    a.lt b = true ↔ a.isNaN = false ∧ b.isNaN = false ∧ unpackedRank a < unpackedRank b := by
  have hsign : compare UnpackedFloat.Sign.negative UnpackedFloat.Sign.positive = .lt := rfl
  rcases a with (_ | _) | _ | _ | ⟨_ | _, m, e, h⟩ <;>
    rcases b with (_ | _) | _ | _ | ⟨_ | _, m', e', h'⟩ <;>
    simp [UnpackedFloat.lt, UnpackedFloat.compare, UnpackedFloat.isNaN, unpackedRank,
      rankOf_lt_iff, Ordering.swap_then, Ordering.then_eq_lt, compare_lt_iff_lt,
      compare_gt_iff_gt, hsign]

theorem unpacked_isFinite_iff (a : UnpackedFloat) :
    a.isFinite = true ↔
      a.isNaN = false ∧ rankOf (-2) 0 0 < unpackedRank a ∧ unpackedRank a < rankOf 2 0 0 := by
  rcases a with (_ | _) | _ | _ | ⟨_ | _, m, e, h⟩ <;>
    simp [UnpackedFloat.isFinite, UnpackedFloat.isNaN, unpackedRank, rankOf_lt_iff]

/-- Unpacked doubles of one rank are the same, but for the signs of zeros. -/
theorem eq_or_zeros_of_unpackedRank {a b : UnpackedFloat} (ha : a.isNaN = false)
    (hb : b.isNaN = false) (h : unpackedRank a = unpackedRank b) :
    a = b ∨ ∃ s s', a = .zero s ∧ b = .zero s' := by
  have hle := le_antisymm_iff.mp h
  rcases a with (_ | _) | _ | _ | ⟨_ | _, m, e, hm⟩ <;>
    rcases b with (_ | _) | _ | _ | ⟨_ | _, m', e', hm'⟩ <;>
    simp [UnpackedFloat.isNaN, unpackedRank, rankOf_le_iff] at ha hb hle ⊢ <;>
    omega

/-! ### Comparing doubles -/

def rank (x : Float) : Rank := unpackedRank x.toModel.unpack

theorem le_iff {x y : Float} : x ≤ y ↔ x.isNaN = false ∧ y.isNaN = false ∧ rank x ≤ rank y :=
  decide_eq_true_iff.trans (unpacked_le_iff x.toModel.unpack y.toModel.unpack)

theorem lt_iff {x y : Float} : x < y ↔ x.isNaN = false ∧ y.isNaN = false ∧ rank x < rank y :=
  decide_eq_true_iff.trans (unpacked_lt_iff x.toModel.unpack y.toModel.unpack)

theorem le_of_not_lt {x y : Float} (hx : x.isNaN = false) (hy : y.isNaN = false)
    (h : ¬ x < y) : y ≤ x :=
  le_iff.mpr ⟨hy, hx, not_lt.mp fun hlt => h (lt_iff.mpr ⟨hx, hy, hlt⟩)⟩

protected theorem le_trans {x y z : Float} (hxy : x ≤ y) (hyz : y ≤ z) : x ≤ z := by
  obtain ⟨hx, -, hxy⟩ := le_iff.mp hxy
  obtain ⟨-, hz, hyz⟩ := le_iff.mp hyz
  exact le_iff.mpr ⟨hx, hz, hxy.trans hyz⟩

theorem beq_of_rank_eq {x y : Float} (hx : x.isNaN = false) (hy : y.isNaN = false)
    (h : rank x = rank y) : (x == y) = true := by
  change UnpackedFloat.beq x.toModel.unpack y.toModel.unpack = true
  rcases eq_or_zeros_of_unpackedRank hx hy h with heq | ⟨s, s', hzero, hzero'⟩
  · have hnotNaN : y.toModel.unpack ≠ .notANumber := by
      intro hnan
      rw [show y.isNaN = y.toModel.unpack.isNaN from rfl, hnan] at hy
      cases hy
    rw [heq, UnpackedFloat.beq_iff_ne_notANumber_and_eq]
    exact ⟨hnotNaN, hnotNaN, .inl rfl⟩
  · rw [hzero, hzero']
    cases s <;> cases s' <;> rfl

theorem isFinite_iff {x : Float} : x.isFinite = true ↔
    x.isNaN = false ∧ rankOf (-2) 0 0 < rank x ∧ rank x < rankOf 2 0 0 :=
  unpacked_isFinite_iff x.toModel.unpack

theorem le_of_lt {x y : Float} (h : x < y) : x ≤ y := by
  obtain ⟨hx, hy, hlt⟩ := lt_iff.mp h
  exact le_iff.mpr ⟨hx, hy, hlt.le⟩

protected theorem lt_of_le_of_lt {x y z : Float} (hxy : x ≤ y) (hyz : y < z) : x < z := by
  obtain ⟨hx, -, hle⟩ := le_iff.mp hxy
  obtain ⟨-, hz, hlt⟩ := lt_iff.mp hyz
  exact lt_iff.mpr ⟨hx, hz, hle.trans_lt hlt⟩

protected theorem lt_trans {x y z : Float} (hxy : x < y) (hyz : y < z) : x < z :=
  Double.lt_of_le_of_lt (le_of_lt hxy) hyz

theorem le_self_of_le {x y : Float} (h : x ≤ y) : y ≤ y := by
  obtain ⟨-, hy, -⟩ := le_iff.mp h
  exact le_iff.mpr ⟨hy, hy, le_refl _⟩

theorem isFinite_of_le_of_le {x low high : Float} (hlow : low ≤ x) (hhigh : x ≤ high)
    (hl : low.isFinite = true) (hh : high.isFinite = true) : x.isFinite = true := by
  obtain ⟨-, -, hlow⟩ := le_iff.mp hlow
  obtain ⟨hnan, -, hhigh⟩ := le_iff.mp hhigh
  obtain ⟨-, hl, -⟩ := isFinite_iff.mp hl
  obtain ⟨-, -, hh⟩ := isFinite_iff.mp hh
  exact isFinite_iff.mpr ⟨hnan, hl.trans_le hlow, hhigh.trans_lt hh⟩

/-! ### Sorting doubles -/

theorem pairwise_mergeSort_rank (l : List Float) :
    (l.mergeSort fun x y => rank x ≤ rank y).Pairwise
      fun x y => decide (rank x ≤ rank y) = true := by
  apply List.pairwise_mergeSort
  · intro x y z hxy hyz
    rw [decide_eq_true_iff] at hxy hyz ⊢
    exact hxy.trans hyz
  · intro x y
    rw [Bool.or_eq_true, decide_eq_true_iff, decide_eq_true_iff]
    exact le_total _ _

/-- Doubles other than NaN are sorted by rank. -/
theorem mergeSort_eq {l : List Float} (h : ∀ x ∈ l, x.isNaN = false) :
    l.mergeSort (fun x y => x ≤ y) = l.mergeSort (fun x y => rank x ≤ rank y) := by
  have hcompare : ∀ x ∈ l, ∀ y ∈ l, decide (rank x ≤ rank y) = decide (x ≤ y) := by
    intro x hx y hy
    have hle : x ≤ y ↔ rank x ≤ rank y :=
      le_iff.trans ⟨fun hxy => hxy.2.2, fun hrank => ⟨h x hx, h y hy, hrank⟩⟩
    exact decide_eq_decide.mpr hle.symm
  have hmap : (l.mergeSort fun x y => rank x ≤ rank y).map id
      = (l.map id).mergeSort fun x y => x ≤ y := List.map_mergeSort hcompare
  rw [List.map_id, List.map_id] at hmap
  exact hmap.symm

theorem mergeSort_mergeSort {l : List Float} (h : ∀ x ∈ l, x.isNaN = false) :
    (l.mergeSort fun x y => x ≤ y).mergeSort (fun x y => x ≤ y)
      = l.mergeSort fun x y => x ≤ y := by
  have hsorted : ∀ x ∈ l.mergeSort (fun x y => x ≤ y), x.isNaN = false := by
    intro x hx
    exact h x (List.mem_mergeSort.mp hx)
  rw [mergeSort_eq hsorted, mergeSort_eq h]
  exact List.mergeSort_of_pairwise (pairwise_mergeSort_rank l)

end EvenChroma.Double
