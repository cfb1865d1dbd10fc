/-
  EvenChroma/Color/Lab.lean
  =========================
  **The perceptual spaces Oklab and CIE Lab**, against CIE XYZ of the white point D65.
  CIE Lab refers to D50; the Bradford matrices lead from one white to the other.
-/
import EvenChroma.Color.Vector

namespace EvenChroma

/-! ### Oklab -/

namespace Oklab

def toCones : Matrix :=
  ⟨⟨0.99999999845051981432, 0.39633779217376785678, 0.21580375806075880339⟩,
    ⟨1.0000000088817607767, -0.1055613423236563494, -0.063854174771705903402⟩,
    ⟨1.0000000546724109177, -0.089484182094965759684, -1.2914855378640917399⟩⟩

def conesToXyz : Matrix :=
  ⟨⟨1.2268798733741557, -0.5578149965554813, 0.28139105017721583⟩,
    ⟨-0.04057576262431372, 1.1122868293970594, -0.07171106666151701⟩,
    ⟨-0.07637294974672142, -0.4214933239627914, 1.5869240244272418⟩⟩

def xyzToCones : Matrix :=
  ⟨⟨0.8190224432164319, 0.3619062562801221, -0.12887378261216414⟩,
    ⟨0.0329836671980271, 0.9292868468965546, 0.03614466816999844⟩,
    ⟨0.048177199566046255, 0.26423952494422764, 0.6335478258136937⟩⟩

def ofCones : Matrix :=
  ⟨⟨0.2104542553, 0.7936177850, -0.0040720468⟩,
    ⟨1.9779984951, -2.4285922050, 0.4505937099⟩,
    ⟨0.0259040371, 0.7827717662, -0.8086757660⟩⟩

def toXyz (lab : Triple) : Triple :=
  conesToXyz.apply ((toCones.apply lab).map fun c => c * c * c)

def ofXyz (xyz : Triple) : Triple :=
  ofCones.apply ((xyzToCones.apply xyz).map Double.cubeRoot)

/-- Both colour axes below this make a grey. -/
def greyThreshold : Float := 0.0002

end Oklab

/-! ### CIE Lab -/

namespace CieLab

def d65ToD50 : Matrix :=
  ⟨⟨1.0479297925449969, 0.022946870601609652, -0.05019226628920524⟩,
    ⟨0.02962780877005599, 0.9904344267538799, -0.017073799063418826⟩,
    ⟨-0.009243040646204504, 0.015055191490298152, 0.7518742814281371⟩⟩

def d50ToD65 : Matrix :=
  ⟨⟨0.955473421488075, -0.02309845494876471, 0.06325924320057072⟩,
    ⟨-0.0283697093338637, 1.0099953980813041, 0.021041441191917323⟩,
    ⟨0.012314014864481998, -0.020507649298898964, 1.330365926242124⟩⟩

/-- The D50 white. -/
def white : Triple := ⟨0.96422, 1.0, 0.82521⟩

def decode (c : Float) : Float :=
  if c > 6.0 / 29.0 then c * c * c else (c - 4.0 / 29.0) * (108.0 / 841.0)

def encode (c : Float) : Float :=
  if c > (6.0 / 29.0) * (6.0 / 29.0) * (6.0 / 29.0) then Double.cubeRoot c
  else 841.0 / 108.0 * c + 4.0 / 29.0

def toXyz (lab : Triple) : Triple :=
  let y := (lab.x + 16.0) / 116.0
  let ratios : Triple := ⟨y + lab.y / 500.0, y, y - lab.z / 200.0⟩
  d50ToD65.apply ((ratios.map decode).times white)

def ofXyz (xyz : Triple) : Triple :=
  let d50 := d65ToD50.apply xyz
  let x := encode (d50.x / white.x)
  let y := encode (d50.y / white.y)
  let z := encode (d50.z / white.z)
  ⟨116.0 * y - 16.0, 500.0 * (x - y), 200.0 * (y - z)⟩

/-- Both colour axes below this make a grey. -/
def greyThreshold : Float := 0.02

end CieLab

end EvenChroma
