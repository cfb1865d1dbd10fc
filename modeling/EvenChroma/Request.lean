/-
  EvenChroma/Request.lean
  =======================
  **What a colour is asked for with, made usable.**  A `Request` is a lightness, a
  chroma factor, a hue and options, any of them possibly out of range; `prepare`
  turns it into values that the search and the conversion accept.
-/
import EvenChroma.ChromaFloor
import EvenChroma.Notice
import EvenChroma.Options.Layer

namespace EvenChroma

/-- A colour as it is asked for.  The chroma is a fraction of the chroma floor. -/
structure Request (α : Type) where
  lightness : α
  chroma : α
  hue : α
  options : Options α

/-- A request with all values in range, and what its chroma floor depends on. -/
structure Prepared (α : Type) where
  chroma : α
  hue : α
  opacity : α
  parameters : SearchParameters α
deriving DecidableEq, Repr

namespace Request

variable {α : Type} [Scalar α]

/-- The lightness to use: the toe function comes first. -/
def usableLightness (r : Request α) : Logged (Notice α) α :=
  match r.options.toe with
  | some toe =>
    EvenChroma.usableLightness r.options.space (some r.lightness)
      (toe r.lightness r.options.toSettings)
  | none => EvenChroma.usableLightness r.options.space none r.lightness

/-- The hues of a search, kept affordable. -/
def guardHues : HueSpec α → Logged (Notice α) (HueSpec α)
  | .step size => do
    let usable ← usableHueStep size
    pure (.step usable)
  | .list hs => pure (.list hs)

/-- All values in range, with a notice for each that was not. -/
def prepare (r : Request α) : Logged (Notice α) (Prepared α) := do
  let o := r.options
  let hue ← usableHue r.hue
  let chroma ← usableChroma r.chroma
  let lightness ← r.usableLightness
  let hues ← o.hues.usable
  let precision ← if o.guardrails then usablePrecision o.space o.precision else pure o.precision
  let hues ← if o.guardrails then guardHues hues else pure hues
  pure
    { chroma := chroma
      hue := hue
      opacity := usableOpacity o.opacity
      parameters :=
        { lightness := lightness
          hues := hues
          space := o.space
          gamut := o.gamut
          precision := precision } }

/-- Each value is replaced without regard to the others, but for the guarded hues. -/
theorem value_prepare_eq_ite (r : Request α) :
    r.prepare.value =
      { chroma := (usableChroma r.chroma).value
        hue := (usableHue r.hue).value
        opacity := usableOpacity r.options.opacity
        parameters :=
          { lightness := r.usableLightness.value
            hues :=
              if r.options.guardrails then (guardHues r.options.hues.usable.value).value
              else r.options.hues.usable.value
            space := r.options.space
            gamut := r.options.gamut
            precision :=
              if r.options.guardrails then
                (usablePrecision r.options.space r.options.precision).value
              else r.options.precision } } := by
  rw [prepare]
  cases r.options.guardrails with
  | false => rfl
  | true => rfl

end Request

end EvenChroma
