/-
  EvenChroma/Color/Hct.lean
  =========================
  **Hue, chroma and tone**: hue and chroma of the appearance model CAM16, and the
  lightness of CIE L* under the name of tone.  The appearance model is taken under
  fixed viewing conditions: D65 white, the luminance of a mid-grey surround as
  adapting luminance, average surround.

  Coordinates are hue in degrees, chroma, tone.  Tone fixes the luminance exactly,
  so going to XYZ means solving for the CAM16 lightness.
-/
import EvenChroma.Color.Vector
import EvenChroma.Scalar

namespace EvenChroma.Hct

open Double (copySign power pi)

def cat16 : Matrix :=
  ⟨⟨0.401288, 0.650173, -0.051461⟩,
    ⟨-0.250268, 1.204414, 0.045854⟩,
    ⟨-0.002079, 0.048952, 0.953127⟩⟩

def cat16Inverse : Matrix :=
  ⟨⟨1.8620678550872327, -1.0112546305316843, 0.14918677544445175⟩,
    ⟨0.38752654323613717, 0.6214474419314753, -0.008973985167612518⟩,
    ⟨-0.015841498849333856, -0.03412293802851557, 1.0499644368778496⟩⟩

def opponentToCones : Matrix :=
  ⟨⟨460.0, 451.0, 288.0⟩, ⟨460.0, -891.0, -261.0⟩, ⟨460.0, -220.0, -6300.0⟩⟩

/-- The D65 white with unit luminance. -/
def white : Triple := ⟨0.3127 / 0.3290, 1.0, (1.0 - 0.3127 - 0.3290) / 0.3290⟩

/-- The power `x ^ p` as an odd function of `x`. -/
def signedPower (x p : Float) : Float := copySign (power x.abs p) x

/-- A quotient, zero where the divisor is. -/
def quotient (n d : Float) : Float := if d == 0.0 then 0.0 else n / d

/-! ### Tone -/

/-- Relative luminance of a tone. -/
def luminance (tone : Float) : Float :=
  if tone > 8.0 then
    let r := (tone + 16.0) / 116.0
    r * (r * r)
  else tone / (24389.0 / 27.0)

/-- Tone of a relative luminance. -/
def tone (y : Float) : Float :=
  let f := if y > 216.0 / 24389.0 then Double.cubeRoot y else (24389.0 / 27.0 * y + 16.0) / 116.0
  116.0 * f - 16.0

/-! ### Viewing conditions -/

def adaptationExponent : Float := 0.42

/-- Compressed cone responses. -/
def adapt (luminanceFactor : Float) (t : Triple) : Triple :=
  t.map fun c =>
    let x := signedPower (luminanceFactor * c.abs * 0.01) adaptationExponent
    400.0 * copySign x c / (x + 27.13)

/-- Cone responses before compression. -/
def unadapt (luminanceFactor : Float) (t : Triple) : Triple :=
  let constant := 100.0 / luminanceFactor * power 27.13 (1.0 / adaptationExponent)
  t.map fun c =>
    let a := c.abs
    copySign (constant * signedPower (a / (400.0 - a)) (1.0 / adaptationExponent)) c

/-- What the viewing conditions contribute to the appearance model. -/
structure Conditions where
  luminanceFactor : Float
  /-- Luminance of the background over that of the white. -/
  background : Float
  /-- Exponent and factors that the background induces. -/
  exponent : Float
  induction : Float
  surround : Float
  /-- Response to the white. -/
  white : Float
  /-- Degree of adaptation of each cone type, and its inverse. -/
  discount : Triple
  discountInverse : Triple

/-- The response that lightness is computed from. -/
def achromatic (induction : Float) (a : Triple) : Float :=
  induction * (2.0 * a.x + a.y + 0.05 * a.z)

/-- Conditions of an adapting luminance and a background luminance under an average
    surround. -/
def Conditions.of (adapting background : Float) : Conditions :=
  let white := Hct.white.map (· * 100.0)
  let cones := cat16.apply white
  let k := 1.0 / (5.0 * adapting + 1.0)
  let k₄ := (k * k) * (k * k)
  let factor := k₄ * adapting
    + 0.1 * (1.0 - k₄) * (1.0 - k₄) * Double.cubeRoot (5.0 * adapting)
  let n := background / white.y
  let induction := 0.725 * power n (-0.2)
  let degree := Scalar.clamp (1.0 - 1.0 / 3.6 * Double.exp ((-adapting - 42.0) / 92.0)) 0.0 1.0
  let discount := cones.map fun c => 1.0 + (white.y / c - 1.0) * degree
  { luminanceFactor := factor
    background := n
    exponent := 1.48 + n.sqrt
    induction := induction
    surround := 0.69
    white := achromatic induction (adapt factor (cones.times discount))
    discount := discount
    discountInverse := discount.map (1.0 / ·) }

/-- The standard conditions: a background of tone 50, and its luminance under 200 lux
    of light as adapting luminance. -/
def conditions : Conditions := .of (200.0 / pi * luminance 50.0) (luminance 50.0 * 100.0)

/-- The part of chroma that the background contributes. -/
def chromaBase : Float := 1.64 - power 0.29 conditions.background

def chromaFactorInverse : Float := power chromaBase (-0.73)

def chromaFactor : Float := power chromaBase 0.73

/-! ### CAM16 -/

/-- XYZ of CAM16 lightness, chroma and hue in degrees. -/
def camToXyz (j chroma hue : Float) : Triple :=
  let env := conditions
  let h := Double.toRadians hue
  let (sine, cosine) := Double.sinCos h
  let root := signedPower j 0.5 * 0.1
  let alpha := quotient chroma root
  let t := signedPower (alpha * chromaFactorInverse) (10.0 / 9.0)
  let eccentricity := 0.25 * (Double.cos (h + 2.0) + 3.8)
  let response := env.white * signedPower root (2.0 / env.surround / env.exponent)
  let p₁ := 5e4 / 13.0 * env.induction * eccentricity
  let p₂ := response / env.induction
  let r := 23.0 * (p₂ + 0.305) * quotient t (23.0 * p₁ + t * (11.0 * cosine + 108.0 * sine))
  let cones := unadapt env.luminanceFactor
    ((opponentToCones.apply ⟨p₂, r * cosine, r * sine⟩).map (· / 1403.0))
  (cat16Inverse.apply (cones.times env.discountInverse)).map (· / 100.0)

/-- CAM16 chroma and hue in degrees of XYZ. -/
def camOfXyz (xyz : Triple) : Float × Float :=
  let env := conditions
  let cones := cat16.apply (xyz.map (· * 100.0))
  let a := adapt env.luminanceFactor (cones.times env.discount)
  let redGreen := a.x + (-12.0 * a.y + a.z) / 11.0
  let yellowBlue := (a.x + a.y - 2.0 * a.z) / 9.0
  let h := Double.modulo (Double.direction yellowBlue redGreen) (2.0 * pi)
  let eccentricity := 0.25 * (Double.cos (h + 2.0) + 3.8)
  let t := 5e4 / 13.0 * env.induction
    * quotient (eccentricity * Double.hypotenuse redGreen yellowBlue)
      (a.x + a.y + 1.05 * a.z + 0.305)
  let alpha := signedPower t 0.9 * chromaFactor
  let root := signedPower (achromatic env.induction a / env.white)
    (0.5 * env.surround * env.exponent)
  (alpha * root, Double.toDegrees h)

/-! ### HCT -/

/-- A first guess of the CAM16 lightness for a tone. -/
def guess (tone : Float) : Float :=
  if tone > 0.0 then
    0.00379058511492914 * (tone * tone) + 0.608983189401032 * tone + 0.9155088574762233
  else
    9.514440756550361e-6 * (tone * tone) + 0.08693057439788597 * tone - 21.928975842194614

/-- Newton steps towards luminance `y` from the lightness `j`, `fuel` of them.  A
    colour that is close enough ends the search, unless an earlier one was closer. -/
def solve (chroma hue y : Float) : Nat → Float → Float → Triple
  | 0, _, j => camToXyz j chroma hue
  | fuel + 1, best, j =>
    let xyz := camToXyz j chroma hue
    let miss := (xyz.y - y).abs
    let better := miss < best
    if better && miss ≤ 2e-12 then xyz
    else
      solve chroma hue y fuel (if better then miss else best)
        (j - (xyz.y - y) * j / (2.0 * xyz.y))

/-- XYZ of hue, chroma, tone. -/
def toXyz (hct : Triple) : Triple :=
  if hct.z == 0.0 then ⟨0.0, 0.0, 0.0⟩
  else solve hct.y hct.x (luminance hct.z) 16 Double.infinity (guess hct.z)

/-- Hue, chroma, tone of XYZ. -/
def ofXyz (xyz : Triple) : Triple :=
  let tone := Hct.tone xyz.y
  if tone == 0.0 then ⟨0.0, 0.0, 0.0⟩
  else
    let (chroma, hue) := camOfXyz xyz
    ⟨Double.modulo hue 360.0, chroma, tone⟩

end EvenChroma.Hct
