/-
  EvenChroma/Space.lean
  =====================
  **Where lightness, chroma and hue are read, and where colours must fit.**
  A `Space` gives the three channels their meaning and their ranges, a `Gamut`
  is the set of colours a screen can show, an `OutputFormat` is the notation of
  the result.  Each of them is known to users by name.
-/
import EvenChroma.Scalar
import EvenChroma.Text.Blank

namespace EvenChroma

/-! ### Ranges -/

/-- The closed range `low ≤ x ≤ high` of a channel. -/
structure Domain (α : Type) where
  low : α
  high : α
deriving Repr

/-- Whether a value lies in the range. -/
def Domain.contains {α : Type} [Scalar α] (d : Domain α) (x : α) : Bool :=
  d.low ≤ x && x ≤ d.high

/-! ### Spaces -/

/-- A cylindrical space: lightness along the axis, chroma away from it, hue
    around it. -/
inductive Space where
  /-- Oklab in polar form. -/
  | oklch
  /-- Hue and chroma of CAM16 with the lightness of CIE L*, called tone. -/
  | hct
deriving DecidableEq, Repr, Inhabited

namespace Space

def name : Space → String
  | oklch => "oklch"
  | hct => "hct"

def all : List Space := [oklch, hct]

variable {α : Type} [Scalar α]

/-- Chromas that a search looks at. -/
def chromaDomain : Space → Domain α
  | oklch => ⟨0, 1⟩
  | hct => ⟨0, 200⟩

def lightnessDomain : Space → Domain α
  | oklch => ⟨0, 1⟩
  | hct => ⟨0, 100⟩

/-- Precision of a search that is given none. -/
def defaultPrecision : Space → α
  | oklch => 0.00001
  | hct => 0.01

/-- Precisions that neither take very long nor give bad results. -/
def precisionLimits : Space → Domain α
  | oklch => ⟨0.00001, 0.05⟩
  | hct => ⟨0.001, 5⟩

end Space

/-! ### Gamuts -/

/-- A set of displayable colours, the unit cube of an RGB system. -/
inductive Gamut where
  | srgb
  | p3
  | rec2020
deriving DecidableEq, Repr, Inhabited

namespace Gamut

def name : Gamut → String
  | srgb => "srgb"
  | p3 => "p3"
  | rec2020 => "rec2020"

def all : List Gamut := [srgb, p3, rec2020]

/-- The gamut that a keyword in a style sheet stands for, in any case. -/
def ofKeyword? (keyword : Text) : Option Gamut :=
  let k := String.ofList (Text.toLower keyword)
  if k = "srgb" ∨ k = "rgb" then some srgb
  else if k = "p3" then some p3
  else if k = "rec2020" ∨ k = "rec.2020" then some rec2020
  else none

end Gamut

/-! ### Output formats -/

/-- The colour notation of the result. -/
inductive OutputFormat where
  | hsl
  | hwb
  | lch
  | lab
  | oklch
  | oklab
  | srgb
deriving DecidableEq, Repr

instance : Inhabited OutputFormat := ⟨.oklch⟩

namespace OutputFormat

def name : OutputFormat → String
  | hsl => "hsl"
  | hwb => "hwb"
  | lch => "lch"
  | lab => "lab"
  | oklch => "oklch"
  | oklab => "oklab"
  | srgb => "srgb"

def all : List OutputFormat := [hsl, hwb, lch, lab, oklch, oklab, srgb]

end OutputFormat

/-! ### Names -/

/-- What a name was expected to denote. -/
inductive NameKind where
  | space
  | gamut
  | output
deriving DecidableEq, Repr

/-- A name that denotes nothing of the expected kind, as it was given. -/
structure UnknownName where
  kind : NameKind
  name : Text
deriving DecidableEq, Repr

def NameKind.label : NameKind → String
  | space => "color space"
  | gamut => "gamut"
  | output => "output format"

def UnknownName.message (u : UnknownName) : String :=
  s!"Unknown {u.kind.label}: {String.ofList u.name}"

/-- A name as it is looked up: without surrounding blanks and in small letters. -/
def lookupForm (name : Text) : String := String.ofList (Text.toLower (Text.trim name))

def Space.ofName (name : Text) : Except UnknownName Space :=
  match Space.all.find? (·.name = lookupForm name) with
  | some s => .ok s
  | none => .error ⟨.space, name⟩

def Gamut.ofName (name : Text) : Except UnknownName Gamut :=
  match Gamut.ofKeyword? (Text.trim name) with
  | some g => .ok g
  | none => .error ⟨.gamut, name⟩

def OutputFormat.ofName (name : Text) : Except UnknownName OutputFormat :=
  match OutputFormat.all.find? (·.name = lookupForm name) with
  | some f => .ok f
  | none => .error ⟨.output, name⟩

end EvenChroma
