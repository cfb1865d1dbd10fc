/-
  EvenChroma/Color/Rgb.lean
  =========================
  **RGB systems**: the matrices between CIE XYZ and linear light, and the transfer
  curves that encode linear light.  The curves are odd functions, so colours outside
  the cube survive a round trip.
-/
import EvenChroma.Color.Polar

namespace EvenChroma.Rgb

open Double (copySign power)

/-- An RGB system: its primaries against CIE XYZ, and its encoding of a channel. -/
structure System where
  fromXyz : Matrix
  toXyz : Matrix
  encode : Float → Float
  decode : Float → Float

/-! ### Transfer curves -/

/-- The curve of sRGB and Display P3, from linear light. -/
def encodeSrgb (v : Float) : Float :=
  let a := v.abs
  if a > 0.0031308 then copySign (1.055 * power a (1.0 / 2.4) - 0.055) v else 12.92 * v

def decodeSrgb (v : Float) : Float :=
  let a := v.abs
  if a ≤ 0.04045 then v / 12.92 else copySign (power ((a + 0.055) / 1.055) 2.4) v

def rec2020Alpha : Float := 1.09929682680944

def rec2020Beta : Float := 0.018053968510807

/-- The curve of Rec. 2020, from linear light. -/
def encodeRec2020 (v : Float) : Float :=
  let a := v.abs
  if a ≥ rec2020Beta then copySign (rec2020Alpha * power a 0.45 - (rec2020Alpha - 1.0)) v
  else 4.5 * v

def decodeRec2020 (v : Float) : Float :=
  let a := v.abs
  if a < rec2020Beta * 4.5 then v / 4.5
  else copySign (power ((a + rec2020Alpha - 1.0) / rec2020Alpha) (1.0 / 0.45)) v

/-! ### Systems -/

def srgb : System where
  fromXyz := ⟨⟨3.2409699419045226, -1.537383177570094, -0.4986107602930034⟩,
    ⟨-0.9692436362808796, 1.8759675015077202, 0.04155505740717559⟩,
    ⟨0.05563007969699366, -0.20397695888897652, 1.0569715142428786⟩⟩
  toXyz := ⟨⟨0.41239079926595934, 0.357584339383878, 0.1804807884018343⟩,
    ⟨0.21263900587151027, 0.715168678767756, 0.07219231536073371⟩,
    ⟨0.01933081871559182, 0.11919477979462598, 0.9505321522496607⟩⟩
  encode := encodeSrgb
  decode := decodeSrgb

def p3 : System where
  fromXyz := ⟨⟨2.493496911941425, -0.9313836179191239, -0.40271078445071684⟩,
    ⟨-0.8294889695615747, 1.7626640603183463, 0.023624685841943577⟩,
    ⟨0.03584583024378447, -0.07617238926804182, 0.9568845240076872⟩⟩
  toXyz := ⟨⟨0.4865709486482162, 0.26566769316909306, 0.1982172852343625⟩,
    ⟨0.2289745640697488, 0.6917385218365064, 0.079286914093745⟩,
    ⟨0.0, 0.04511338185890264, 1.043944368900976⟩⟩
  encode := encodeSrgb
  decode := decodeSrgb

def rec2020 : System where
  fromXyz := ⟨⟨1.7166511879712674, -0.35567078377639233, -0.25336628137365974⟩,
    ⟨-0.6666843518324892, 1.6164812366349395, 0.01576854581391113⟩,
    ⟨0.017639857445310783, -0.042770613257808524, 0.9421031212354738⟩⟩
  toXyz := ⟨⟨0.6369580483012914, 0.14461690358620832, 0.1688809751641721⟩,
    ⟨0.2627002120112671, 0.6779980715188708, 0.05930171646986196⟩,
    ⟨0.0, 0.028072693049087428, 1.060985057710791⟩⟩
  encode := encodeRec2020
  decode := decodeRec2020

def System.ofXyz (s : System) (xyz : Triple) : Triple := (s.fromXyz.apply xyz).map s.encode

def System.toXyzOf (s : System) (rgb : Triple) : Triple := s.toXyz.apply (rgb.map s.decode)

/-! ### Largest channel, hue, saturation -/

/-- What the cylindrical forms of RGB are computed from: the extreme channels, the
    difference of the two others in the order around the circle, and the hue of the
    largest channel in sixths of a turn. -/
structure Extremes where
  high : Float
  low : Float
  separation : Float
  sixth : Float

/-- The larger of two numbers, one that is no NaN if possible. -/
def larger (a b : Float) : Float := if a.isNaN then b else if b > a then b else a

/-- The smaller of two numbers, one that is no NaN if possible. -/
def smaller (a b : Float) : Float := if a.isNaN then b else if b < a then b else a

/-- Extremes of the channels, negative ones raised to zero. -/
def extremes (rgb : Triple) : Extremes :=
  let ⟨r, g, b⟩ := rgb.map (larger · 0.0)
  let e : Extremes := if r > g then ⟨r, g, g - b, 0.0⟩ else ⟨g, r, b - r, 2.0⟩
  if b > e.high then ⟨b, e.low, r - g, 4.0⟩ else { e with low := if b < e.low then b else e.low }

def Extremes.hue (e : Extremes) : Float :=
  if e.high == e.low then 0.0 else (e.separation / (e.high - e.low) + e.sixth) * 60.0

/-- Hue in degrees, saturation, lightness. -/
def toHsl (rgb : Triple) : Triple :=
  let e := extremes rgb
  let sum := e.high + e.low
  let saturation :=
    if e.high == e.low then 0.0
    else
      let d := e.high - e.low
      if sum > 1.0 then d / (2.0 - sum) else d / sum
  ⟨e.hue, saturation, sum / 2.0⟩

/-- Hue in degrees, whiteness, blackness. -/
def toHwb (rgb : Triple) : Triple :=
  let e := extremes rgb
  let saturation := if e.high == e.low then 0.0 else (e.high - e.low) / e.high
  ⟨e.hue, (1.0 - saturation) * e.high, 1.0 - e.high⟩

/-- The channels of a hue with the given spread of the channels above `base`. -/
def ofHue (hue chroma base : Float) : Triple :=
  let h := Polar.positiveDegrees hue / 60.0
  let x := chroma * (1.0 - (Double.remainder h 2.0 - 1.0).abs)
  let rgb : Triple :=
    if h < 1.0 && h ≥ 0.0 then ⟨chroma, x, 0.0⟩
    else if h < 2.0 && h ≥ 1.0 then ⟨x, chroma, 0.0⟩
    else if h < 3.0 && h ≥ 2.0 then ⟨0.0, chroma, x⟩
    else if h < 4.0 && h ≥ 3.0 then ⟨0.0, x, chroma⟩
    else if h < 5.0 && h ≥ 4.0 then ⟨x, 0.0, chroma⟩
    else ⟨chroma, 0.0, x⟩
  rgb.map (· + base)

/-- The channels of hue, saturation, lightness. -/
def ofHsl (hsl : Triple) : Triple :=
  let chroma := (1.0 - (2.0 * hsl.z - 1.0).abs) * hsl.y
  ofHue hsl.x chroma (hsl.z - chroma / 2.0)

/-- The channels of hue, whiteness, blackness. -/
def ofHwb (hwb : Triple) : Triple :=
  let value := 1.0 - hwb.z
  let normal := value.isFinite && value.abs ≥ 2.2250738585072014e-308
  let saturation := if normal then 1.0 - hwb.y / value else 0.0
  let chroma := value * saturation
  ofHue hwb.x chroma (value - chroma)

/-- Whether the channels are too close together to have a hue. -/
def isGrey (rgb : Triple) : Bool :=
  let high := larger (larger rgb.x rgb.y) rgb.z
  let low := smaller (smaller rgb.x rgb.y) rgb.z
  high - low < 1e-7

end EvenChroma.Rgb
