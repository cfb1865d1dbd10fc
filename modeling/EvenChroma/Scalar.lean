/-
  EvenChroma/Scalar.lean
  ======================
  **The arithmetic that colours are computed in.**  Bringing input into range,
  expanding hues, searching for a chroma floor and rounding for output use the
  few operations collected in `Scalar`, so that the same definitions run on
  doubles and can be reasoned about over exact numbers.

  Comparisons need not be total: NaN is below, above and equal to nothing.
-/
import EvenChroma.Double.Basic

namespace EvenChroma

/-- Numbers with the operations that the algorithms of this library need. -/
class Scalar (α : Type) extends Add α, Sub α, Mul α, Div α, Neg α, BEq α, LT α, LE α,
    OfScientific α where
  ofNat (n : Nat) : OfNat α n
  decLt : DecidableLT α
  decLe : DecidableLE α
  isNaN : α → Bool
  isFinite : α → Bool
  /-- The remainder of a division that is not negative. -/
  modulo : α → α → α
  floor : α → α
  /-- Number of decimal digits before the point, zero for a magnitude below one. -/
  integerDigits : α → Nat

namespace Scalar

attribute [reducible] ofNat decLt decLe

instance (priority := low) {α : Type} [Scalar α] (n : Nat) : OfNat α n := ofNat n

instance (priority := low) {α : Type} [Scalar α] : DecidableLT α := decLt

instance (priority := low) {α : Type} [Scalar α] : DecidableLE α := decLe

/-- The number `n`. -/
def cast {α : Type} [Scalar α] (n : Nat) : α := (ofNat n).ofNat

instance : Scalar Float where
  ofNat _ := inferInstance
  decLt := inferInstance
  decLe := inferInstance
  isNaN := Float.isNaN
  isFinite := Float.isFinite
  modulo := Double.modulo
  floor := Double.floor
  integerDigits := Double.integerDigits

/-- The product `result · base ^ n`, taking the binary digits of `n` from the lowest on. -/
def powFrom {α : Type} [Scalar α] : Nat → α → α → Nat → α
  | 0, result, _, _ => result
  | fuel + 1, result, base, n =>
    if n = 0 then result
    else powFrom fuel (if n % 2 = 1 then result * base else result) (base * base) (n / 2)

/-- The power `base ^ n` by repeated squaring. -/
def powNat {α : Type} [Scalar α] (base : α) (n : Nat) : α := powFrom n 1 base n

/-- The power `10 ^ e`; a negative power is the reciprocal of the positive one. -/
def tenTo {α : Type} [Scalar α] (e : Int) : α :=
  if e < 0 then 1 / powNat 10 e.natAbs else powNat 10 e.natAbs

/-- The number `value` raised or lowered into `[low, high]`. -/
def clamp {α : Type} [Scalar α] (value low high : α) : α :=
  if value < low then low else if value > high then high else value

end Scalar

end EvenChroma
