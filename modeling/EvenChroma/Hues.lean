/-
  EvenChroma/Hues.lean
  ====================
  **The hues that a chroma has to be available for**: all multiples of a step
  around the circle, or a list given by the user.
-/
import EvenChroma.Scalar
import EvenChroma.Double.Text

namespace EvenChroma

/-- A choice of hues, in degrees. -/
inductive HueSpec (α : Type) where
  /-- Every multiple of the step below a full turn. -/
  | step (size : α)
  /-- Exactly these hues. -/
  | list (hues : List α)
deriving DecidableEq, Repr

namespace HueSpec

variable {α : Type} [Scalar α]

/-- The step that stands in for a missing or useless one. -/
def defaultStep : α := 1

instance : Inhabited (HueSpec α) := ⟨.step defaultStep⟩

/-- How many of the multiples `i · size`, `(i + 1) · size`, … come before the first that
    is a full turn or more, added to `i`; no more than `fuel` of them are looked at. -/
def countFrom (size : α) : Nat → Nat → Nat
  | 0, i => i
  | fuel + 1, i => if Scalar.cast i * size < 360 then countFrom size fuel (i + 1) else i

/-- No step that a search can afford has more multiples. -/
def maxMultiples : Nat := 1 <<< 32

/-- The multiples of a step below a full turn, from zero on. -/
def multiples (size : α) : List α :=
  (List.range (countFrom size maxMultiples 0)).map fun i => Scalar.cast i * size

/-- The hues chosen.  A step that is not positive and finite counts as the default
    step. -/
def hues : HueSpec α → List α
  | .list hs => hs
  | .step size => multiples (if Scalar.isFinite size && size > 0 then size else defaultStep)

end HueSpec

/-- The step, or the hues separated by commas, in plain digits. -/
def HueSpec.text : HueSpec Float → String
  | .step size => Double.text size
  | .list hs => ",".intercalate (hs.map Double.text)

end EvenChroma
