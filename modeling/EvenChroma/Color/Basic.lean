/-
  EvenChroma/Color/Basic.lean
  ===========================
  **Colours**: three coordinates in a model, and an opacity.  All models meet in CIE
  XYZ under D65.  What leads to XYZ and back is a `Conversions`; everything that only
  needs *some* conversions takes them as an argument.

  NaN as a hue means that the colour has none.
-/
import EvenChroma.Color.Hct
import EvenChroma.Color.Lab
import EvenChroma.Color.Polar
import EvenChroma.Color.Rgb
import EvenChroma.Space

namespace EvenChroma

/-! ### Models -/

/-- A coordinate system for colours.  RGB channels are encoded and run from 0 to 1;
    the three coordinates of the cylindrical models are, in order, hue, saturation or
    whiteness, lightness or blackness (`hsl`, `hwb`, in percent), lightness, chroma,
    hue (`oklch`, `lch`), and hue, chroma, tone (`hct`). -/
inductive Model where
  | xyz
  | srgb
  | p3
  | rec2020
  | oklab
  | oklch
  | lab
  | lch
  | hsl
  | hwb
  | hct
deriving DecidableEq, Repr

namespace Model

def name : Model → String
  | xyz => "xyz"
  | srgb => "srgb"
  | p3 => "p3"
  | rec2020 => "rec2020"
  | oklab => "oklab"
  | oklch => "oklch"
  | lab => "lab"
  | lch => "lch"
  | hsl => "hsl"
  | hwb => "hwb"
  | hct => "hct"

def all : List Model := [xyz, srgb, p3, rec2020, oklab, oklch, lab, lch, hsl, hwb, hct]

end Model

/-- The RGB model whose unit cube is the gamut. -/
def Gamut.model : Gamut → Model
  | .srgb => .srgb
  | .p3 => .p3
  | .rec2020 => .rec2020

def OutputFormat.model : OutputFormat → Model
  | .hsl => .hsl
  | .hwb => .hwb
  | .lch => .lch
  | .lab => .lab
  | .oklch => .oklch
  | .oklab => .oklab
  | .srgb => .srgb

def Space.model : Space → Model
  | .oklch => .oklch
  | .hct => .hct

/-! ### Colours and conversions -/

/-- A colour in some model. -/
structure Color where
  model : Model
  coords : Triple
  alpha : Float
deriving DecidableEq, Repr

/-- An opaque colour of lightness, chroma and hue in a space. -/
def Color.ofSpace (space : Space) (lightness chroma hue : Float) : Color :=
  let coords : Triple := match space with
    | .oklch => ⟨lightness, chroma, hue⟩
    | .hct => ⟨hue, chroma, lightness⟩
  ⟨space.model, coords, 1.0⟩

/-- Ways from every model to XYZ and back. -/
structure Conversions where
  toXyz : Model → Triple → Triple
  ofXyz : Model → Triple → Triple

namespace Conversions

/-- Coordinates with a missing hue read as 0. -/
def withHue : Model → Triple → Triple
  | .oklch, c | .lch, c => if c.z.isNaN then { c with z := 0.0 } else c
  | .hsl, c | .hwb, c | .hct, c => if c.x.isNaN then { c with x := 0.0 } else c
  | _, c => c

/-- XYZ of coordinates in a model. -/
def standardToXyz (model : Model) (coords : Triple) : Triple :=
  let c := withHue model coords
  match model with
  | .xyz => c
  | .srgb => Rgb.srgb.toXyzOf c
  | .p3 => Rgb.p3.toXyzOf c
  | .rec2020 => Rgb.rec2020.toXyzOf c
  | .oklab => Oklab.toXyz c
  | .oklch => Oklab.toXyz (Polar.toAxes c)
  | .lab => CieLab.toXyz c
  | .lch => CieLab.toXyz (Polar.toAxes c)
  | .hsl => Rgb.srgb.toXyzOf (Rgb.ofHsl ⟨c.x, c.y / 100.0, c.z / 100.0⟩)
  | .hwb => Rgb.srgb.toXyzOf (Rgb.ofHwb ⟨c.x, c.y / 100.0, c.z / 100.0⟩)
  | .hct => Hct.toXyz c

/-- Coordinates in a model of XYZ.  White overshoots the cube by rounding, which can
    send an HSL saturation beyond all bounds; such a colour has none. -/
def standardOfXyz (model : Model) (xyz : Triple) : Triple :=
  match model with
  | .xyz => xyz
  | .srgb => Rgb.srgb.ofXyz xyz
  | .p3 => Rgb.p3.ofXyz xyz
  | .rec2020 => Rgb.rec2020.ofXyz xyz
  | .oklab => Oklab.ofXyz xyz
  | .oklch => Polar.ofAxesNearGrey Oklab.greyThreshold (Oklab.ofXyz xyz)
  | .lab => CieLab.ofXyz xyz
  | .lch => Polar.ofAxesNearGrey CieLab.greyThreshold (CieLab.ofXyz xyz)
  | .hsl =>
    let rgb := Rgb.srgb.ofXyz xyz
    let hsl := Rgb.toHsl rgb
    let hue := if Rgb.isGrey rgb then Double.nan else Polar.positiveDegrees hsl.x
    let saturation := if hue.isNaN || !hsl.y.isFinite then 0.0 else hsl.y
    ⟨hue, saturation * 100.0, hsl.z * 100.0⟩
  | .hwb =>
    let rgb := Rgb.srgb.ofXyz xyz
    let hwb := Rgb.toHwb rgb
    let hue := if Rgb.isGrey rgb then Double.nan else Polar.positiveDegrees hwb.x
    ⟨hue, hwb.y * 100.0, hwb.z * 100.0⟩
  | .hct => Hct.ofXyz xyz

/-- The conversions of this library. -/
def standard : Conversions := ⟨standardToXyz, standardOfXyz⟩

/-- The colour in another model.  In its own model a colour stays as it is, so that a
    missing hue stays missing. -/
def convert (via : Conversions) (model : Model) (c : Color) : Color :=
  if model = c.model then c else ⟨model, via.ofXyz model (via.toXyz c.model c.coords), c.alpha⟩

/-- Whether the colour fits the cube of the gamut, with every channel allowed to
    overshoot by `tolerance`. -/
def fits (via : Conversions) (gamut : Gamut) (tolerance : Float) (c : Color) : Bool :=
  (via.convert gamut.model c).coords.all fun v => -tolerance ≤ v && v ≤ 1.0 + tolerance

end Conversions

namespace Color

/-- Overshoot that passes for fitting while a chroma floor is searched. -/
def fitTolerance : Float := 0.000075

/-- The colour in another model, by the standard conversions. -/
def convert (model : Model) (c : Color) : Color := Conversions.standard.convert model c

/-- Whether the colour fits the gamut, by the standard conversions. -/
def fits (gamut : Gamut) (tolerance : Float) (c : Color) : Bool :=
  Conversions.standard.fits gamut tolerance c

end Color

end EvenChroma
