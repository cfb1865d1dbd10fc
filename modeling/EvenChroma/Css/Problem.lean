/-
  EvenChroma/Css/Problem.lean
  ===========================
  **What is wrong with a call.**  A problem has a cause and the bytes of the call that it
  concerns; a diagnostic shows it to people, by the characters of the whole text.
-/
import EvenChroma.Text.Basic

namespace EvenChroma.Css

/-- An argument of a call. -/
inductive Component where
  | lightness
  | chroma
  | hue
  | alpha
  /-- One that no call has. -/
  | surplus
deriving DecidableEq, Repr

def Component.name : Component → String
  | lightness => "lightness"
  | chroma => "chroma"
  | hue => "hue"
  | alpha => "alpha"
  | surplus => "value"

/-- Why a call is rejected. -/
inductive Mistake where
  /-- It is no call, and nothing more is known. -/
  | unparsable
  | invalidJson
  /-- A percent sign behind `none`. -/
  | nonePercent (component : Component)
  /-- Blanks between a number and its percent sign. -/
  | detachedPercent
  | quotedGamut
  | doubleQuotedJson
  /-- The words of a host that reads calls in its own way. -/
  | stated (words : String)
deriving DecidableEq, Repr

def Mistake.message : Mistake → String
  | unparsable => "Couldn't parse egal color"
  | invalidJson => "Invalid JSON options in egal color"
  | nonePercent component => s!"none% is not a valid {component.name}"
  | detachedPercent => "Whitespace is not allowed between a number and %"
  | quotedGamut => "Gamut keywords must not be quoted"
  | doubleQuotedJson => "JSON options must be single-quoted"
  | stated words => words

/-- A mistake and the bytes of the call that it concerns. -/
structure Problem where
  mistake : Mistake
  span : Span
deriving DecidableEq, Repr

/-- The whole call is not understood. -/
def Problem.unparsable (call : Text) : Problem := ⟨.unparsable, ⟨0, Text.byteSize call⟩⟩

/-- A message about a stretch of characters. -/
structure Diagnostic where
  message : String
  start : Nat
  stop : Nat
deriving DecidableEq, Repr

namespace Diagnostic

/-- The diagnostic `distance` characters further right. -/
def shift (d : Diagnostic) (distance : Nat) : Diagnostic :=
  { d with start := d.start + distance, stop := d.stop + distance }

def display (d : Diagnostic) : String := s!"{d.message} at {d.start}..{d.stop}"

/-- The problem of the call at `site` as a diagnostic of the whole text; a span that
    leaves the call is cut off at its end. -/
def ofProblem (text : Text) (site : Span) (p : Problem) : Diagnostic :=
  let start := min (site.start + p.span.start) site.stop
  let stop := max start (min (site.start + p.span.stop) site.stop)
  ⟨p.mistake.message, Text.charOffset text start, Text.charOffset text stop⟩

end Diagnostic

end EvenChroma.Css
