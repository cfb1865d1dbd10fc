/-
  EvenChroma/Css/HostOptions.lean
  ===============================
  **Options of the host**: those under every call, and how style sheets are treated.
-/
import EvenChroma.Css.ColorProperty
import EvenChroma.Options.OfJson

namespace EvenChroma.Css

/-- What a host sets for a whole run. -/
structure HostOptions where
  /-- Options under every call. -/
  base : Layer Float
  /-- Report malformed JSON options of a call instead of ignoring them. -/
  strictJson : Bool
  /-- Properties whose values are searched for calls. -/
  properties : List Text
  /-- Search custom properties as well. -/
  checkVariables : Bool

namespace HostOptions

instance : Inhabited HostOptions where
  default :=
    { base := .empty
      strictJson := false
      properties := colorProperties.map String.toList
      checkVariables := true }

/-- Whether declarations of a property are searched for calls. -/
def wants (o : HostOptions) (property : Text) : Bool :=
  o.properties.any (Text.sameIgnoringCase · property)
    || o.checkVariables && isCustomProperty property

/-- The member under a key, or the default; unlike an option it may not be `null`. -/
def member {β : Type} (read : Json → Except Json.ShapeFault β) (key : String) (absent : β)
    (members : List (Text × Json)) : Except Json.ShapeFault β :=
  match Json.last? key.toList members with
  | none => .ok absent
  | some j => read j

/-- The host options among the members of an object.  The members of the host come
    first, in alphabetical order, then the options. -/
def ofMembers (members : List (Text × Json)) : Except Json.ShapeFault HostOptions := do
  let standard : HostOptions := default
  let checkVariables ← member Json.toTruth "checkVariables" standard.checkVariables members
  let properties ← member Json.toTexts "properties" standard.properties members
  let strictJson ← member Json.toTruth "strictJson" standard.strictJson members
  let base ← Layer.ofMembers true members
  .ok
    { base := base
      strictJson := strictJson
      properties := properties
      checkVariables := checkVariables }

/-- The host options written in a text. -/
def ofJson (t : Text) : Except OptionsError HostOptions := do
  let members ← OptionsError.members t
  (ofMembers members).mapError .wrongShape

end HostOptions

end EvenChroma.Css
