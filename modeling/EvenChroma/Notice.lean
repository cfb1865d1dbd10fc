/-
  EvenChroma/Notice.lean
  ======================
  **Unusable input is replaced, and the replacement is noted.**  Each function
  here takes any number whatever and returns one that the computation can work
  with; a `Notice` says what was wrong and what is used instead.  Nothing fails.
-/
import EvenChroma.Hues
import EvenChroma.Log
import EvenChroma.Logged
import EvenChroma.Space

namespace EvenChroma

/-! ### Notices -/

/-- A lightness to be replaced, with the lightness that a toe function made it from. -/
structure GivenLightness (α : Type) where
  value : α
  beforeToe : Option α
deriving DecidableEq, Repr

/-- Why a value was replaced. -/
inductive Notice (α : Type) where
  | hueNotFinite (given : α)
  | chromaNotANumber
  | chromaInfinite (given used : α)
  | chromaNegative (given : α)
  | chromaTooLarge (given limit : α)
  | lightnessNotFinite (given : GivenLightness α) (used : α)
  | lightnessNegative (given : GivenLightness α)
  | lightnessTooLarge (given : GivenLightness α) (limit : α)
  | precisionNotFinite (given : α) (space : Space)
  | precisionZero (space : Space)
  | precisionNegative (given : α) (space : Space)
  | precisionTooFine (given : α) (space : Space)
  | precisionTooCoarse (given : α) (space : Space)
  | hueStepUseless (given : α)
  | hueStepTooSmall (given : α)
  | hueListEmpty
deriving DecidableEq, Repr

namespace Notice

open Double (text)

/-- How a lightness is named: by the value the user wrote, if a toe function
    changed it. -/
def lightnessText (given : GivenLightness Float) : String :=
  match given.beforeToe with
  | some l => s!"{text given.value} (result of applying the toe function to {text l})"
  | none => text given.value

/-- The name of a space in capitals and its default precision. -/
def spaceText (space : Space) : String × String :=
  (space.name.toUpper, text space.defaultPrecision)

def defaultStepText : String := text HueSpec.defaultStep

/-- What the user is told. -/
def message : Notice Float → String
  | hueNotFinite h =>
    s!"Invalid hue value. Expected finite number, got {text h} instead. Reverting to 0."
  | chromaNotANumber =>
    "The chroma value should be a finite nonnegative number (received NaN); using 0 instead."
  | chromaInfinite c used =>
    s!"The chroma value should be a finite nonnegative number (received {text c}); using "
      ++ s!"{text used} instead."
  | chromaNegative c =>
    s!"The chroma value should be a nonnegative number (received {text c}); using 0 instead."
  | chromaTooLarge c limit =>
    s!"The chroma value should be at most {text limit} (received {text c}); using {text limit} "
      ++ "instead."
  | lightnessNotFinite l used =>
    s!"The lightness value should be a finite nonnegative number (received {lightnessText l}); "
      ++ s!"using {text used} instead."
  | lightnessNegative l =>
    s!"The lightness value should be a nonnegative number (received {lightnessText l}); using 0 "
      ++ "instead."
  | lightnessTooLarge l limit =>
    s!"The lightness value should be at most {text limit} (received {lightnessText l}); using "
      ++ s!"{text limit} instead."
  | precisionNotFinite p space =>
    let (name, default) := spaceText space
    s!"The 'precision' option should be a finite, positive number (received {text p}); using the "
      ++ s!"default for {name} instead ({default})."
  | precisionZero space =>
    let (name, default) := spaceText space
    "The 'precision' option should not be set to 0; using the default for "
      ++ s!"{name} instead ({default})."
  | precisionNegative p space =>
    let (name, default) := spaceText space
    s!"The 'precision' option should not be negative (received {text p}); using the default for "
      ++ s!"{name} instead ({default})."
  | precisionTooFine p space =>
    let (name, default) := spaceText space
    s!"The 'precision' option is very high (received {text p}); this may lead to performance "
      ++ s!"issues. For example, the default precision for {name} is {default}. Using "
      ++ s!"{text space.precisionLimits.low} instead. To prevent this behavior, set 'guardrails' "
      ++ "to false."
  | precisionTooCoarse p space =>
    let (name, default) := spaceText space
    s!"The 'precision' option is very low (received {text p}); this may lead to bad results. For "
      ++ s!"example, the default precision for {name} is {default}. Using "
      ++ s!"{text space.precisionLimits.high} instead. To prevent this behavior, set 'guardrails' "
      ++ "to false."
  | hueStepUseless s =>
    "The 'hues' option should not be set to 0 or a multiple of 360 (received "
      ++ s!"{text s}); using the default instead ({defaultStepText})."
  | hueStepTooSmall s =>
    s!"The 'hues' step is very small (received {text s}); this may lead to performance issues. For "
      ++ s!"example, the default hue step is {defaultStepText}. Using {defaultStepText} instead. "
      ++ "To prevent this behavior, set 'guardrails' to false."
  | hueListEmpty =>
    "The 'hues' option should not be an empty array; using the default instead (a step value of "
      ++ s!"{defaultStepText})."

/-- The warning that is logged. -/
def record (n : Notice Float) : Log.Record := ⟨.warn, "egal::sanitize", n.message⟩

end Notice

/-! ### Replacements -/

section

variable {α : Type} [Scalar α]

open Scalar (isNaN isFinite modulo clamp)
open Logged (noting)

/-- A finite hue brought into `[0, 360)`.  The remainder of a tiny negative hue
    rounds up to a full turn, which is the direction 0 again. -/
def wrapHue (h : α) : α :=
  let wrapped := modulo h 360
  if 0 < wrapped && wrapped < 360 then wrapped else 0

/-- A hue in `[0, 360)`. -/
def usableHue (h : α) : Logged (Notice α) α :=
  if isFinite h then pure (wrapHue h) else noting (.hueNotFinite h) 0

/-- The largest chroma factor that is used as it is. -/
def maxChromaFactor : α := 1000000

/-- A chroma factor in `[0, maxChromaFactor]`. -/
def usableChroma (c : α) : Logged (Notice α) α :=
  if isNaN c then noting .chromaNotANumber 0
  else if !isFinite c then
    let used : α := if c < 0 then 0 else maxChromaFactor
    noting (.chromaInfinite c used) used
  else if c < 0 then noting (.chromaNegative c) 0
  else if c > maxChromaFactor then noting (.chromaTooLarge c maxChromaFactor) maxChromaFactor
  else pure c

/-- A lightness in the range of the space.  `beforeToe` is the lightness that a toe
    function was applied to. -/
def usableLightness (space : Space) (beforeToe : Option α) (l : α) : Logged (Notice α) α :=
  let high : α := space.lightnessDomain.high
  let given : GivenLightness α := ⟨l, beforeToe⟩
  if isNaN l then noting (.lightnessNotFinite given 0) 0
  else if !isFinite l then
    let used : α := if l < 0 then 0 else high
    noting (.lightnessNotFinite given used) used
  else if l < 0 then noting (.lightnessNegative given) 0
  else if l > high then noting (.lightnessTooLarge given high) high
  else pure l

/-- An opacity in `[0, 1]`, without comment. -/
def usableOpacity (opacity : α) : α := if isNaN opacity then 1 else clamp opacity 0 1

/-- A precision within the limits of the space. -/
def usablePrecision (space : Space) (p : α) : Logged (Notice α) α :=
  let limits : Domain α := space.precisionLimits
  if !isFinite p then noting (.precisionNotFinite p space) space.defaultPrecision
  else if p == 0 then noting (.precisionZero space) space.defaultPrecision
  else if p < 0 then noting (.precisionNegative p space) space.defaultPrecision
  else if p < limits.low then noting (.precisionTooFine p space) limits.low
  else if p > limits.high then noting (.precisionTooCoarse p space) limits.high
  else pure p

/-- A hue step of at least one degree that is no whole number of turns. -/
def usableHueStep (step : α) : Logged (Notice α) α :=
  if !isFinite step || modulo step 360 == 0 then
    noting (.hueStepUseless step) HueSpec.defaultStep
  else if step < HueSpec.defaultStep then noting (.hueStepTooSmall step) HueSpec.defaultStep
  else pure step

/-- Hues with every entry wrapped: a list in increasing order, an empty one replaced
    by the default step. -/
def HueSpec.usable : HueSpec α → Logged (Notice α) (HueSpec α)
  | .list [] => noting .hueListEmpty default
  | .list hs => do
    let wrapped ← Logged.mapList usableHue hs
    pure (.list (wrapped.mergeSort fun a b => a ≤ b))
  | .step size => do
    let wrapped ← usableHue size
    pure (.step wrapped)

end

end EvenChroma
