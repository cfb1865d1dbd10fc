/-
  EvenChroma/Json/Basic.lean
  ==========================
  **JSON values.**  Whole numbers that fit 64 bits, signed or unsigned, are kept apart
  from all other numbers.  An object keeps its members as written; of several members
  with one key the last one counts.
-/
import EvenChroma.Text.Basic

namespace EvenChroma

/-- A JSON value. -/
inductive Json where
  | null
  | bool (b : Bool)
  | integer (n : Int)
  | float (x : Float)
  | string (s : Text)
  | array (items : List Json)
  | object (members : List (Text × Json))

namespace Json

/-- The member that counts for a key: the last one. -/
def last? (key : Text) (members : List (Text × Json)) : Option Json :=
  (members.reverse.find? fun m => m.1 = key).map Prod.snd

/-- The members that count, each key once. -/
def effective : List (Text × Json) → List (Text × Json)
  | [] => []
  | m :: ms => if ms.any (·.1 = m.1) then effective ms else m :: effective ms

end Json

end EvenChroma
