/-
  EvenChroma/Color/Polar.lean
  ===========================
  **Chroma and hue** of the two colour axes of a Lab-like space, and back.
-/
import EvenChroma.Color.Vector

namespace EvenChroma.Polar

open Double (toRadians toDegrees)

/-- The same direction as `h` degrees in `[0, 360)`. -/
def positiveDegrees (h : Float) : Float :=
  let n := h - Double.floor (h / 360.0) * 360.0
  let subnormal := n != 0.0 && n.abs < 2.2250738585072014e-308
  if subnormal || n ≥ 360.0 then 0.0 else n

/-- Lightness, chroma and hue in degrees, from lightness and the two colour axes. -/
def ofAxes (lab : Triple) : Triple :=
  ⟨lab.x, Double.hypotenuse lab.y lab.z,
    positiveDegrees (toDegrees (Double.pi + Double.direction (-lab.z) (-lab.y)))⟩

/-- Lightness and the two colour axes, from lightness, chroma and hue in degrees.  A
    chroma below zero counts as none. -/
def toAxes (lch : Triple) : Triple :=
  let chroma := if lch.y > 0.0 then lch.y else 0.0
  let (sine, cosine) := Double.sinCos (toRadians lch.z)
  ⟨lch.x, cosine * chroma, sine * chroma⟩

/-- The polar form, with NaN for the hue of a colour that both axes put within
    `threshold` of grey. -/
def ofAxesNearGrey (threshold : Float) (lab : Triple) : Triple :=
  let lch := ofAxes lab
  if lab.y.abs < threshold && lab.z.abs < threshold then { lch with z := Double.nan } else lch

end EvenChroma.Polar
