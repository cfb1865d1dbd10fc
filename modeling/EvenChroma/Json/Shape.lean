/-
  EvenChroma/Json/Shape.lean
  ==========================
  **Values of the wrong shape.**  A reader of options expects a number, a truth value, a
  name here and there; `ShapeFault` says what it met instead.
-/
import EvenChroma.Double.Text
import EvenChroma.Json.Basic
import EvenChroma.Text.Quoted

namespace EvenChroma.Json

/-- What a reader expects. -/
inductive Expected where
  | number
  | truth
  | text
  | sequence
  /-- One of several names, as a string or as the only key of an object. -/
  | variant
  /-- The value beside a name that is written as a key. -/
  | unit
deriving DecidableEq, Repr

/-- Why a value cannot be used. -/
inductive ShapeFault where
  | unexpected (found : Json) (expected : Expected)
  /-- An object with no key or several where its key is a name. -/
  | notSingleKey
  | unknownVariant (name : Text) (known : List String)
  /-- Neither a step nor a list of hues. -/
  | noHues

/-- How a message names the kind of a value. -/
def describe : Json → String
  | .null => "null"
  | .bool b => s!"boolean `{b}`"
  | .integer n => s!"integer `{n}`"
  | .float x => s!"floating point `{String.ofList (Double.marked x)}`"
  | .string s => s!"string {String.ofList (Text.quoted s)}"
  | .array _ => "sequence"
  | .object _ => "map"

def Expected.name : Expected → String
  | number => "f64"
  | truth => "a boolean"
  | text => "a string"
  | sequence => "a sequence"
  | variant => "string or map"
  | unit => "unit"

/-- The names that would have been right. -/
def knownText (known : List String) : String :=
  let quoted := known.map fun k => s!"`{k}`"
  match quoted with
  | [a] => s!"expected {a}"
  | [a, b] => s!"expected {a} or {b}"
  | _ => "expected one of " ++ ", ".intercalate quoted

def ShapeFault.message : ShapeFault → String
  | unexpected found expected => s!"invalid type: {found.describe}, expected {expected.name}"
  | notSingleKey => "invalid value: map, expected map with a single key"
  | unknownVariant name known => s!"unknown variant `{String.ofList name}`, {knownText known}"
  | noHues => "data did not match any variant of untagged enum HueSpec"

/-! ### Readers of single values -/

/-- The double nearest to a whole number of at most 64 bits. -/
def integerValue (n : Int) : Float :=
  if n < 0 then -n.natAbs.toUInt64.toFloat else n.natAbs.toUInt64.toFloat

def toNumber : Json → Except ShapeFault Float
  | .integer n => .ok (integerValue n)
  | .float x => .ok x
  | j => .error (.unexpected j .number)

def toTruth : Json → Except ShapeFault Bool
  | .bool b => .ok b
  | j => .error (.unexpected j .truth)

def toTextValue : Json → Except ShapeFault Text
  | .string s => .ok s
  | j => .error (.unexpected j .text)

def toTexts : Json → Except ShapeFault (List Text)
  | .array items => items.mapM toTextValue
  | j => .error (.unexpected j .sequence)

/-- What stands beside a name written as a key has to be nothing: `null`, and an empty
    object too where `lenient`. -/
def checkUnit (lenient : Bool) : Json → Except ShapeFault Unit
  | .null => .ok ⟨⟩
  | .object [] => if lenient then .ok ⟨⟩ else .error (.unexpected (.object []) .unit)
  | j => .error (.unexpected j .unit)

/-- The value that bears a name. -/
def named {β : Type} (all : List β) (nameOf : β → String) (name : Text) : Except ShapeFault β :=
  match all.find? fun b => (nameOf b).toList = name with
  | some b => .ok b
  | none => .error (.unknownVariant name (all.map nameOf))

/-- A value given by its name, as a string or as the only key of an object. -/
def toVariant {β : Type} (lenient : Bool) (all : List β) (nameOf : β → String) :
    Json → Except ShapeFault β
  | .string name => named all nameOf name
  | .object members =>
    match effective members with
    | [(name, beside)] => do
      let b ← named all nameOf name
      checkUnit lenient beside
      .ok b
    | _ => .error .notSingleKey
  | j => .error (.unexpected j .variant)

end EvenChroma.Json
