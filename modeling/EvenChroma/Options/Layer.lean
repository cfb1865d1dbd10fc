/-
  EvenChroma/Options/Layer.lean
  =============================
  **Options in layers.**  Options come from the host, from a call in a style sheet
  and from its arguments.  Each source is a `Layer` that sets some of them; in a
  stack the uppermost layer that sets an option decides, and `resolve` fills in
  what no layer sets.
-/
import EvenChroma.Hues
import EvenChroma.Space

namespace EvenChroma

/-- All options except the toe function. -/
structure Settings (α : Type) where
  /-- Hues that the chroma has to be available for. -/
  hues : HueSpec α
  opacity : α
  output : OutputFormat
  /-- Whether precision and hue step are kept to values that are quick to search. -/
  guardrails : Bool
  space : Space
  gamut : Gamut
  precision : α
deriving DecidableEq, Repr

/-- Reshapes a lightness before anything else.  It sees the settings, but no toe
    function. -/
abbrev Toe (α : Type) := α → Settings α → α

/-- Complete options. -/
structure Options (α : Type) extends Settings α where
  toe : Option (Toe α)

/-- One source of options; what it leaves unset is up to the layers below. -/
structure Layer (α : Type) where
  hues : Option (HueSpec α)
  opacity : Option α
  output : Option OutputFormat
  toe : Option (Toe α)
  guardrails : Option Bool
  space : Option Space
  gamut : Option Gamut
  precision : Option α

namespace Layer

variable {α : Type}

/-- The layer that sets nothing. -/
def empty : Layer α := ⟨none, none, none, none, none, none, none, none⟩

instance : Inhabited (Layer α) := ⟨empty⟩

/-- The options of `upper`, and those of `lower` where `upper` sets none. -/
def above (upper lower : Layer α) : Layer α where
  hues := upper.hues <|> lower.hues
  opacity := upper.opacity <|> lower.opacity
  output := upper.output <|> lower.output
  toe := upper.toe <|> lower.toe
  guardrails := upper.guardrails <|> lower.guardrails
  space := upper.space <|> lower.space
  gamut := upper.gamut <|> lower.gamut
  precision := upper.precision <|> lower.precision

/-- Complete options.  The precision that no layer sets is the one of the space in
    force. -/
def resolve [Scalar α] (l : Layer α) : Options α :=
  let space := l.space.getD .oklch
  { hues := l.hues.getD default
    opacity := l.opacity.getD 1
    output := l.output.getD .oklch
    toe := l.toe
    guardrails := l.guardrails.getD true
    space := space
    gamut := l.gamut.getD .srgb
    precision := l.precision.getD space.defaultPrecision }

end Layer

end EvenChroma
