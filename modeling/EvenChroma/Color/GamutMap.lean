/-
  EvenChroma/Color/GamutMap.lean
  ==============================
  **Bringing a colour into a gamut**, after CSS Color 4: the chroma of its Oklch form
  is reduced by halving until cutting the channels off changes the colour by less than
  a just noticeable difference.  Lightness and hue stay.
-/
import EvenChroma.Color.Basic

namespace EvenChroma

namespace Conversions

/-- Distance of two colours in Oklab. -/
def distance (via : Conversions) (a b : Color) : Float :=
  let p := (via.convert .oklab a).coords
  let q := (via.convert .oklab b).coords
  let square (d : Float) : Float := d * d
  (square (p.x - q.x) + square (p.y - q.y) + square (p.z - q.z)).sqrt

/-- The colour in the RGB model of the gamut with every channel cut off to `[0, 1]`. -/
def clip (via : Conversions) (gamut : Gamut) (c : Color) : Color :=
  let rgb := via.convert gamut.model c
  { rgb with coords := rgb.coords.map (Scalar.clamp · 0.0 1.0) }

end Conversions

/-! ### Reducing chroma -/

/-- A difference that can just be noticed. -/
def noticeable : Float := 0.02

/-- Chromas, and differences from a just noticeable one, that are this close count as
    equal. -/
def mapTolerance : Float := 0.0001

/-- State of the reduction: the bracket of chromas, whether its lower end fits the
    gamut, and the latest colour that was cut off. -/
structure Reduction where
  low : Float
  high : Float
  lowFits : Bool
  clipped : Color
deriving DecidableEq, Repr

/-- How a step of the reduction comes out. -/
inductive Reduction.Outcome where
  | done (clipped : Color)
  | more (next : Reduction)

namespace Reduction

/-- The Oklch colour `origin` with another chroma. -/
def candidate (origin : Color) (chroma : Float) : Color :=
  { origin with model := .oklch, coords := ⟨origin.coords.x, chroma, origin.coords.z⟩ }

/-- The bracket from no chroma to that of `origin`, which is cut off as it is. -/
def start (via : Conversions) (gamut : Gamut) (origin : Color) : Reduction :=
  ⟨0.0, origin.coords.y, true, via.clip gamut origin⟩

/-- Whether the bracket is wide enough to be halved. -/
def isWide (r : Reduction) : Bool := r.high - r.low > mapTolerance

/-- The chroma in the middle of the bracket. -/
def midpoint (r : Reduction) : Float := (r.low + r.high) / 2.0

/-- One halving of the bracket. -/
def step (via : Conversions) (gamut : Gamut) (origin : Color) (r : Reduction) : Outcome :=
  if r.isWide then
    let chroma := r.midpoint
    let current := candidate origin chroma
    if r.lowFits && via.fits gamut 0.0 current then .more { r with low := chroma }
    else
      let clipped := via.clip gamut current
      let difference := via.distance clipped current
      if difference < noticeable then
        if noticeable - difference < mapTolerance then .done clipped
        else .more ⟨chroma, r.high, false, clipped⟩
      else .more ⟨r.low, chroma, r.lowFits, clipped⟩
  else .done r.clipped

/-- Steps from `r` on, up to the one that ends the reduction; nothing if none does. -/
def run? (step : Reduction → Outcome) (r : Reduction) : Option Color :=
  match step r with
  | .done c => some c
  | .more next => by
    -- applied by tactics: a written call would keep its place in the file in the definition
    apply run?
    · exact step
    · exact next
partial_fixpoint

end Reduction

/-! ### The map -/

namespace Conversions

/-- The colour of the gamut that stands in for one that does not fit, in the RGB model
    of the gamut or in Oklch; nothing if the reduction does not end. -/
def mapInto? (via : Conversions) (gamut : Gamut) (c : Color) : Option Color :=
  let origin := via.convert .oklch c
  if origin.coords.x ≥ 1.0 then some ⟨gamut.model, ⟨1.0, 1.0, 1.0⟩, c.alpha⟩
  else if origin.coords.x ≤ 0.0 then some ⟨gamut.model, ⟨0.0, 0.0, 0.0⟩, c.alpha⟩
  else if via.fits gamut 0.0 origin then some origin
  else
    let start := Reduction.start via gamut origin
    if via.distance start.clipped origin < noticeable then some start.clipped
    else Reduction.run? (Reduction.step via gamut origin) start

/-- The colour brought into the gamut, in its own model; a fitting one stays as it is. -/
def toGamut? (via : Conversions) (gamut : Gamut) (c : Color) : Option Color :=
  if via.fits gamut 0.0 c then some c
  else (via.mapInto? gamut c).map (via.convert c.model)

end Conversions

namespace Color

/-- Distance of two colours in Oklab, by the standard conversions. -/
def distance (a b : Color) : Float := Conversions.standard.distance a b

/-- The colour brought into the gamut, by the standard conversions.  A chroma without
    bounds is never reduced to a fitting one, so this is no value for such a colour. -/
def toGamut (gamut : Gamut) (c : Color) : Color :=
  (Conversions.standard.toGamut? gamut c).getD (convert c.model (Conversions.standard.clip gamut c))

end Color

end EvenChroma
