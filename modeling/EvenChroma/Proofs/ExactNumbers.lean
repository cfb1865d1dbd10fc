/-
  EvenChroma/Proofs/ExactNumbers.lean
  ===================================
  **Arithmetic without rounding.**  The operations of `Scalar` on an ordered field, where
  every number is finite and each result is exact.  What the algorithms do is proved over
  the real numbers here, where sets of numbers have suprema.
-/
import EvenChroma.Scalar
import Mathlib.Algebra.Order.Archimedean.Real.Basic
import Mathlib.Data.Nat.Digits.Defs

namespace EvenChroma.Scalar

/-- The exact operations of an ordered field. -/
@[reducible] def exact (α : Type) [Field α] [LinearOrder α] [FloorRing α] : Scalar α where
  ofNat n := ⟨(n : α)⟩
  decLt := inferInstance
  decLe := inferInstance
  isNaN _ := false
  isFinite _ := true
  modulo x y := x - y * ⌊x / y⌋
  floor x := ⌊x⌋
  integerDigits x := (Nat.digits 10 ⌊|x|⌋.toNat).length

noncomputable instance : Scalar ℝ := exact ℝ

end EvenChroma.Scalar
