/-
  EvenChroma/Proofs/ExtendedNumbers.lean
  ======================================
  **Arithmetic without rounding, but with infinities and NaN.**  The operations of `Scalar`
  on real numbers extended as doubles are: a quotient by zero is infinite, what has no limit
  is NaN, and NaN compares to nothing.  There is one zero, which counts as positive.

  Requests with unusable values can be prepared in these numbers.  What is prepared is finite
  and is a hue's `direction` where it was a hue.
-/
import Mathlib.Tactic.FieldSimp
import EvenChroma.Notice
import EvenChroma.Proofs.ExactNumbers

namespace EvenChroma

/-! ### Numbers -/

/-- A real number, an infinity or NaN. -/
inductive Extended where
  | nan
  | infinite (negative : Bool)
  | finite (x : ℝ)

namespace Extended

def isNaN : Extended → Bool
  | nan => true
  | _ => false

def isFinite : Extended → Bool
  | finite _ => true
  | _ => false

noncomputable def isNegative : Extended → Bool
  | nan => false
  | infinite s => s
  | finite x => decide (x < 0)

noncomputable def isZero : Extended → Bool
  | finite x => decide (x = 0)
  | _ => false

def neg : Extended → Extended
  | nan => nan
  | infinite s => infinite !s
  | finite x => finite (-x)

noncomputable def add : Extended → Extended → Extended
  | finite x, finite y => finite (x + y)
  | infinite s, finite _ => infinite s
  | finite _, infinite t => infinite t
  | infinite s, infinite t => if s = t then infinite s else nan
  | _, _ => nan

noncomputable def mul : Extended → Extended → Extended
  | finite x, finite y => finite (x * y)
  | nan, _ => nan
  | _, nan => nan
  | x, y => if x.isZero || y.isZero then nan else infinite (x.isNegative ^^ y.isNegative)

noncomputable def div : Extended → Extended → Extended
  | finite x, finite y =>
    if y ≠ 0 then finite (x / y) else if x = 0 then nan else infinite (decide (x < 0))
  | infinite s, finite y => infinite (s ^^ decide (y < 0))
  | finite _, infinite _ => finite 0
  | _, _ => nan

noncomputable def modulo : Extended → Extended → Extended
  | finite x, finite y => if y ≠ 0 then finite (Scalar.modulo x |y|) else nan
  | finite x, infinite _ => if x < 0 then infinite false else finite x
  | _, _ => nan

noncomputable def floor : Extended → Extended
  | finite x => finite (Scalar.floor x)
  | x => x

noncomputable def integerDigits : Extended → Nat
  | finite x => Scalar.integerDigits x
  | _ => 0

def lt : Extended → Extended → Prop
  | finite x, finite y => x < y
  | infinite s, finite _ => s = true
  | finite _, infinite t => t = false
  | infinite s, infinite t => s = true ∧ t = false
  | _, _ => False

def le : Extended → Extended → Prop
  | finite x, finite y => x ≤ y
  | infinite s, finite _ => s = true
  | finite _, infinite t => t = false
  | infinite s, infinite t => s = true ∨ t = false
  | _, _ => False

noncomputable def beq : Extended → Extended → Bool
  | finite x, finite y => decide (x = y)
  | infinite s, infinite t => s == t
  | _, _ => false

end Extended

open Extended in
noncomputable instance : Scalar Extended where
  add := add
  sub x y := add x (neg y)
  mul := mul
  div := div
  neg := neg
  beq := beq
  lt := lt
  le := le
  ofScientific mantissa negative exponent :=
    finite ((Scalar.toOfScientific (α := ℝ)).ofScientific mantissa negative exponent)
  ofNat n := ⟨finite n⟩
  decLt _ _ := Classical.propDecidable _
  decLe _ _ := Classical.propDecidable _
  isNaN := isNaN
  isFinite := isFinite
  modulo := modulo
  floor := floor
  integerDigits := integerDigits

/-! ### Finite operands -/

namespace Extended

variable {x y : ℝ}

theorem zero_eq : (0 : Extended) = finite 0 := congrArg finite Nat.cast_zero

theorem one_eq : (1 : Extended) = finite 1 := congrArg finite Nat.cast_one

theorem ofNat_eq (n : ℕ) [n.AtLeastTwo] : (OfNat.ofNat n : Extended) = finite (OfNat.ofNat n) :=
  congrArg finite (Nat.cast_ofNat (R := ℝ))

theorem cast_finite (n : ℕ) : (Scalar.cast n : Extended) = finite n := rfl

theorem finite_add : finite x + finite y = finite (x + y) := rfl

theorem finite_sub : finite x - finite y = finite (x - y) :=
  congrArg finite (sub_eq_add_neg x y).symm

theorem finite_mul : finite x * finite y = finite (x * y) := rfl

theorem finite_div (h : y ≠ 0) : finite x / finite y = finite (x / y) := if_pos h

theorem finite_lt : finite x < finite y ↔ x < y := Iff.rfl

theorem finite_le : finite x ≤ finite y ↔ x ≤ y := Iff.rfl

theorem finite_beq : (finite x == finite y) = decide (x = y) := rfl

theorem finite_modulo (h : 0 < y) :
    Scalar.modulo (finite x) (finite y) = finite (Scalar.modulo x y) := by
  change (if y ≠ 0 then finite (Scalar.modulo x |y|) else nan) = _
  rw [if_pos h.ne', abs_of_pos h]

/-! ### Directions -/

/-- The hue in `[0, 360)` that is used for a hue: it is a whole number of turns away, and 0 if
    the hue is not finite. -/
noncomputable def direction : Extended → ℝ
  | nan => 0
  | infinite _ => 0
  | finite x => x - 360 * ⌊x / 360⌋

theorem direction_bounds (h : Extended) : 0 ≤ h.direction ∧ h.direction < 360 := by
  cases h with
  | nan => norm_num [direction]
  | infinite s => norm_num [direction]
  | finite x =>
    have hlow : (⌊x / 360⌋ : ℝ) ≤ x / 360 := Int.floor_le _
    have hhigh : x / 360 < ⌊x / 360⌋ + 1 := Int.lt_floor_add_one _
    rw [direction]
    constructor <;> linarith

/-- Whole turns do not change a direction. -/
theorem direction_add_turns (x : ℝ) (k : ℤ) :
    (finite (x + 360 * k)).direction = (finite x).direction := by
  have hquotient : (x + 360 * k) / 360 = x / 360 + k := by
    rw [add_div, mul_div_cancel_left₀ _ (by norm_num)]
  rw [direction, direction, hquotient, Int.floor_add_intCast, Int.cast_add]
  ring

theorem wrapHue_finite (x : ℝ) : wrapHue (finite x) = finite (finite x).direction := by
  obtain ⟨hlow, hhigh⟩ := direction_bounds (finite x)
  have hmodulo : Scalar.modulo (finite x) 360 = finite (finite x).direction := by
    rw [ofNat_eq, finite_modulo (by norm_num)]
    rfl
  rw [wrapHue, hmodulo, zero_eq, ofNat_eq]
  simp only [finite_lt]
  split
  · rfl
  · next hoff =>
    rw [Bool.and_eq_true, decide_eq_true_eq, decide_eq_true_eq, not_and] at hoff
    have hnonpos : ¬ 0 < (finite x).direction := fun hpos => hoff hpos hhigh
    rw [le_antisymm (not_lt.mp hnonpos) hlow]

theorem value_usableHue (h : Extended) : (usableHue h).value = finite h.direction := by
  cases h with
  | nan => exact zero_eq
  | infinite s => exact zero_eq
  | finite x => exact wrapHue_finite x

/-- **The hues of a list are the directions of its entries in increasing order.** -/
theorem value_usable_list {hs : List Extended} (hne : hs ≠ []) :
    (HueSpec.list hs).usable.value =
      .list (((hs.map direction).mergeSort fun a b => a ≤ b).map finite) := by
  have hvalues : (Logged.mapList usableHue hs).value = (hs.map direction).map finite := by
    rw [Logged.value_mapList, List.map_map]
    exact List.map_congr_left fun h _ => value_usableHue h
  have hsorted : ((hs.map direction).mergeSort fun a b => a ≤ b).map finite =
      ((hs.map direction).map finite).mergeSort fun a b => a ≤ b :=
    List.map_mergeSort fun a _ b _ => decide_eq_decide.mpr finite_le.symm
  cases hs with
  | nil => exact (hne rfl).elim
  | cons h hs =>
    rw [HueSpec.usable]
    · rw [Logged.value_bind, hvalues, Logged.value_pure, hsorted]
    · exact List.cons_ne_nil _ _

end Extended

end EvenChroma
