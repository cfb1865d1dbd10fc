/-
  EvenChroma/Color/Css.lean
  =========================
  **Colours in CSS notation.**  Numbers are rounded to five significant digits, where
  every digit of the whole part counts; a missing coordinate is written `none`.
-/
import EvenChroma.Color.Basic
import EvenChroma.Double.Text

namespace EvenChroma

/-- The number `n` rounded to `precision` significant digits, halves upwards.  All digits of the
    whole part are significant, and zeros before the first digit of a fraction are. -/
def roundSignificant {α : Type} [Scalar α] (n : α) (precision : Int) : α :=
  if n == 0 || !Scalar.isFinite n then n
  else
    let unit : α := Scalar.tenTo (precision - Scalar.integerDigits n)
    Scalar.floor (n * unit + 0.5) / unit

namespace Color.Css

/-- Significant digits of a coordinate. -/
def precision : Int := 5

/-- A number in plain digits; zero has no sign. -/
def number (n : Float) : Text :=
  if n.isNaN then "none".toList else Double.plain (roundSignificant n precision + 0.0)

/-- A number that counts hundredths. -/
def percent (n : Float) : Text := if n.isNaN then "none".toList else number n ++ ['%']

/-- The name of the notation and the written coordinates. -/
def body (model : Model) (c : Triple) : String × List Text :=
  let numbers : List Text := [number c.x, number c.y, number c.z]
  match model with
  | .oklch => ("oklch(", [percent (c.x * 100.0), number c.y, number c.z])
  | .oklab => ("oklab(", [percent (c.x * 100.0), number c.y, number c.z])
  | .lab => ("lab(", numbers)
  | .lch => ("lch(", numbers)
  | .hsl => ("hsl(", [number c.x, percent c.y, percent c.z])
  | .hwb => ("hwb(", [number c.x, percent c.y, percent c.z])
  | .srgb =>
    ("rgb(", [percent (c.x * 100.0), percent (c.y * 100.0), percent (c.z * 100.0)])
  | .p3 => ("color(display-p3 ", numbers)
  | .rec2020 => ("color(rec2020 ", numbers)
  | .xyz => ("color(xyz-d65 ", numbers)
  | .hct => ("color(--hct ", numbers)

end Color.Css

/-- The colour in CSS notation; an opaque colour is written without its opacity. -/
def Color.css (c : Color) : Text :=
  let (name, coords) := Css.body c.model c.coords
  let opacity := if c.alpha < 1.0 then " / ".toList ++ Css.number c.alpha else []
  name.toList ++ [' '].intercalate coords ++ opacity ++ [')']

end EvenChroma
