/-
  EvenChroma/Options/OfJson.lean
  ==============================
  **Options written as JSON.**  Only the last value of each known key counts, and keys
  are looked at in alphabetical order, so that of several faults the same one is
  reported however the text is arranged.  `null` leaves an option unset, unknown keys are
  ignored, and a toe function cannot be written.
-/
import EvenChroma.Json.Reader
import EvenChroma.Json.Shape
import EvenChroma.Options.Layer

namespace EvenChroma

/-- Why a text gives no options. -/
inductive OptionsError where
  | notJson (fault : Json.Fault)
  | wrongShape (fault : Json.ShapeFault)
  | notAnObject

def OptionsError.message : OptionsError → String
  | notJson .ended => "Invalid JSON options: <eof>"
  | notJson .malformed => "Invalid JSON options: <syntax>"
  | wrongShape fault => s!"Invalid JSON options: {fault.message}"
  | notAnObject => "JSON options must be an object"

/-- The members of the object that a text consists of. -/
def OptionsError.members (t : Text) : Except OptionsError (List (Text × Json)) :=
  match Json.ofText t with
  | .ok (.object members) => .ok members
  | .ok _ => .error .notAnObject
  | .error fault => .error (.notJson fault)

namespace Layer

open Json (ShapeFault toNumber toTruth toVariant)

/-- A step or a list of hues. -/
def readHues : Json → Except ShapeFault (HueSpec Float)
  | .array items =>
    match items.mapM toNumber with
    | .ok hs => .ok (.list hs)
    | .error _ => .error .noHues
  | j =>
    match toNumber j with
    | .ok s => .ok (.step s)
    | .error _ => .error .noHues

/-- The option under a key, unset if it is missing or `null`. -/
def option {β : Type} (read : Json → Except ShapeFault β) (key : String)
    (members : List (Text × Json)) : Except ShapeFault (Option β) :=
  match Json.last? key.toList members with
  | none => .ok none
  | some .null => .ok none
  | some j => (read j).map some

/-- The options among the members of an object, keys in alphabetical order.  Where
    `lenient`, a name written as a key may have an empty object beside it. -/
def ofMembers (lenient : Bool) (members : List (Text × Json)) :
    Except ShapeFault (Layer Float) := do
  let gamut ← option (toVariant lenient Gamut.all Gamut.name) "gamut" members
  let guardrails ← option toTruth "guardrails" members
  let hues ← option readHues "hues" members
  let opacity ← option toNumber "opacity" members
  let output ← option (toVariant lenient OutputFormat.all OutputFormat.name) "output" members
  let precision ← option toNumber "precision" members
  let space ← option (toVariant lenient Space.all Space.name) "space" members
  .ok
    { hues := hues
      opacity := opacity
      output := output
      toe := none
      guardrails := guardrails
      space := space
      gamut := gamut
      precision := precision }

/-- The layer written in a call. -/
def ofJson (t : Text) : Except OptionsError (Layer Float) := do
  let members ← OptionsError.members t
  (ofMembers false members).mapError .wrongShape

end Layer

end EvenChroma
