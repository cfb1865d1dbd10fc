/-
  EvenChroma/Double/Elementary.lean
  =================================
  **Elementary functions of doubles**, built from sums, products, quotients and
  square roots only.  Each of them therefore evaluates inside the logic, and a
  concrete colour can be computed by a proof.

  The recipe is the same throughout: bring the argument into a small interval
  with a rounding error that is carried along (`Pair`), sum a short power series
  there, and undo the reduction.  Results are within one unit in the last place
  or little more.
-/
import EvenChroma.Double.Basic

namespace EvenChroma.Double

/-! ### Sums and products with their rounding errors -/

/-- The unrounded sum `high + low`, where `low` is at most half a unit in the
    last place of `high`. -/
structure Pair where
  high : Float
  low : Float

/-- The sum `a + b` and what rounding took from it. -/
def Pair.sum (a b : Float) : Pair :=
  let s := a + b
  let b' := s - a
  ⟨s, (a - (s - b')) + (b - b')⟩

/-- The upper half of the digits of `a`, by Veltkamp's cut. -/
def upperDigits (a : Float) : Float :=
  let c := 134217729.0 * a
  c - (c - a)

/-- The product `a · b` and what rounding took from it. -/
def Pair.product (a b : Float) : Pair :=
  let p := a * b
  let a₁ := upperDigits a
  let a₂ := a - a₁
  let b₁ := upperDigits b
  let b₂ := b - b₁
  ⟨p, ((a₁ * b₁ - p) + a₁ * b₂ + a₂ * b₁) + a₂ * b₂⟩

/-! ### Exponential and logarithm -/

/-- Upper digits of the natural logarithm of two: a multiple of it by an
    exponent is exact. -/
def ln2High : Float := 0.6931467056274414

def ln2Low : Float := 4.7493250390316726e-07

/-- The nearest whole number to a double of moderate size. -/
def nearestInt (x : Float) : Int :=
  if x < 0.0 then -((0.5 - x).toUInt64.toNat : Int) else ((x + 0.5).toUInt64.toNat : Int)

def ofInt (n : Int) : Float :=
  match n with
  | .ofNat k => k.toUInt64.toFloat
  | .negSucc k => -(k + 1).toUInt64.toFloat

/-- The power `e ^ (p.high + p.low)` for a finite argument: with `n` the nearest multiple of
    `ln 2`, the series is summed at a remainder of at most `ln 2 / 2`. -/
def Pair.exp (p : Pair) : Float :=
  if p.high > 709.8 then infinity
  else if p.high < -745.2 then 0.0
  else
    let n := nearestInt (p.high * 1.4426950408889634)
    let k := ofInt n
    let upper := p.high - k * ln2High
    let lower := k * ln2Low - p.low
    let r := upper - lower
    let lost := (upper - r) - lower
    let tail := r * r * (0.5 + r * (0.16666666666666666 + r * (0.041666666666666664
      + r * (0.008333333333333333 + r * (0.001388888888888889 + r * (0.0001984126984126984
      + r * (2.48015873015873e-05 + r * (2.7557319223985893e-06 + r * (2.755731922398589e-07
      + r * (2.505210838544172e-08 + r * (2.08767569878681e-09
      + r * 1.6059043836821613e-10)))))))))))
    scale (1.0 + (r + (tail + lost))) n

/-- The natural exponential. -/
def exp (x : Float) : Float := if x.isNaN then x else Pair.exp ⟨x, 0.0⟩

/-- Natural logarithm of `2 ^ n · m` with its rounding error, for `m` in `[√½, √2)`.  For
    `s = (m - 1) / (m + 1)` it is `n · ln 2 + 2 · artanh s`. -/
def logOf (n : Int) (m : Float) : Pair :=
  let k := ofInt n
  let f := m - 1.0
  let d := m + 1.0
  let dLow := m - (d - 1.0)
  let s := f / d
  let sd := Pair.product s d
  let sLow := (((f - sd.high) - sd.low) - s * dLow) / d
  let z := s * s
  let tail := s * z * (0.6666666666666666 + z * (0.4 + z * (0.2857142857142857
    + z * (0.2222222222222222 + z * (0.18181818181818182 + z * (0.15384615384615385
    + z * (0.13333333333333333 + z * (0.11764705882352941 + z * (0.10526315789473684
    + z * 0.09523809523809523)))))))))
  let main := Pair.sum (k * ln2High) (2.0 * s)
  Pair.sum main.high (main.low + (k * ln2Low + (2.0 * sLow + tail)))

/-- The mantissa of a double, brought into `[1, 2)`. -/
def normalMantissa (p : Parts) : Float :=
  p.mantissa.toUInt64.toFloat * twoPow (-(p.mantissa.log2 : Int))

/-- Natural logarithm of a positive finite double, with its rounding error. -/
def logPair (x : Float) : Pair :=
  let p := parts x
  let m := normalMantissa p
  let big := m > 1.4142135623730951
  logOf (p.exponent + p.mantissa.log2 + (if big then 1 else 0)) (if big then 0.5 * m else m)

/-- The power `x ^ y` for `x ≥ 0` and `y ≠ 0`; NaN for a negative base. -/
def power (x y : Float) : Float :=
  if x.isNaN || y.isNaN || x < 0.0 then nan
  else if x == 0.0 then (if y > 0.0 then 0.0 else infinity)
  else if x.isInf then (if y > 0.0 then infinity else 0.0)
  else
    let l := logPair x
    let p := Pair.product y l.high
    Pair.exp ⟨p.high, p.low + y * l.low⟩

/-- One refinement of third order of the cube root `r` of `m`. -/
def cubeRootStep (m r : Float) : Float :=
  let cube := r * r * r
  r * ((cube + 2.0 * m) / (2.0 * cube + m))

/-- The cube root of `m` in `[1, 8)`: a linear guess is refined by three steps of third
    order, and the result corrected by its residue. -/
def cubeRootOf (m : Float) : Float :=
  let r := cubeRootStep m (cubeRootStep m (cubeRootStep m (0.9 + 0.15 * m)))
  let square := Pair.product r r
  let cube := Pair.product square.high r
  let residue := (cube.high - m) + (cube.low + square.low * r)
  r - residue / (3.0 * square.high)

/-- The cube root, with the sign of `x`. -/
def cubeRoot (x : Float) : Float :=
  if x == 0.0 || !x.isFinite then x
  else
    let p := parts x
    let size : Int := p.exponent + p.mantissa.log2
    let third := size / 3
    let m := normalMantissa p * twoPow (size - 3 * third)
    copySign (scale (cubeRootOf m) third) x

/-- The root `√(a² + b²)` without overflow on the way. -/
def hypotenuse (a b : Float) : Float :=
  if a.isInf || b.isInf then infinity
  else
    let big := if a.abs < b.abs then b.abs else a.abs
    let shift : Int := if big > 1.0e150 then 600 else if big < 1.0e-150 then -600 else 0
    let a := scale a (-shift)
    let b := scale b (-shift)
    scale (a * a + b * b).sqrt shift

/-! ### Circle functions -/

def pi : Float := 3.141592653589793

/-- What `pi` falls short of the circle number. -/
def piLow : Float := 1.2246467991473532e-16

/-- The number `π · 2 ^ 1200`, rounded down, by Machin's formula; reducing the largest
    doubles needs that many digits. -/
def piScaled : Nat :=
  let inverseTangent (n : Nat) : Int :=
    let unit : Int := (1 <<< 1264 : Nat)
    (List.range 300).foldl (fun sum i =>
      let term := unit / (Nat.pow n (2 * i + 1) * (2 * i + 1) : Nat)
      if i % 2 = 0 then sum + term else sum - term) 0
  (4 * (4 * inverseTangent 5 - inverseTangent 239)).toNat >>> 64

/-- An angle less a multiple of the right angle: the remainder is at most an
    eighth of a turn in size, and `quarters` counts right angles modulo four. -/
structure Reduced where
  quarters : Nat
  rest : Pair

/-- Reduction of an angle of up to a million right angles: three parts of `π/2` are taken
    off in turn. -/
def reduceModerate (x : Float) : Reduced :=
  let n := nearestInt (x * 0.6366197723675814)
  let k := ofInt n
  let r := x - k * 1.5707963267341256
  let w := k * 6.077100506303966e-11
  let r' := r - w
  let w' := k * 2.0222662487959506e-21 - ((r - r') - w)
  let high := r' - w'
  ⟨(n % 4).toNat, ⟨high, (r' - high) - w'⟩⟩

/-- Reduction of a larger angle, on whole numbers. -/
def reduceLarge (x : Float) : Reduced :=
  let p := parts x
  let right := piScaled / 2
  let angle := p.mantissa <<< p.exponent.toNat <<< 1200 >>> (-p.exponent).toNat
  let quarters := (2 * angle + right) / (2 * right)
  let rest : Int := (angle : Int) - (quarters * right : Nat)
  let size := rest.natAbs.log2
  let short := rest.natAbs >>> (size - 63)
  let high := scale (short.toUInt64.toFloat) ((size - 63 : Nat) - 1200 : Int)
  let signed := if rest < 0 then -high else high
  if p.negative then ⟨(4 - quarters % 4) % 4, ⟨-signed, 0.0⟩⟩
  else ⟨quarters % 4, ⟨signed, 0.0⟩⟩

/-- Reduction of a finite angle. -/
def reduceAngle (x : Float) : Reduced :=
  if x.abs < 1000000.0 then reduceModerate x else reduceLarge x

/-- Sine of a reduced angle. -/
def Pair.sin (p : Pair) : Float :=
  let x := p.high
  let z := x * x
  let tail := 0.008333333333333333 + z * (-0.0001984126984126984 + z * (2.7557319223985893e-06
    + z * (-2.505210838544172e-08 + z * (1.6059043836821613e-10 + z * (-7.647163731819816e-13
    + z * 2.8114572543455206e-15)))))
  let cube := z * x
  x - ((z * (0.5 * p.low - cube * tail) - p.low) + cube * 0.16666666666666666)

/-- Cosine of a reduced angle. -/
def Pair.cos (p : Pair) : Float :=
  let x := p.high
  let z := x * x
  let tail := z * (0.041666666666666664 + z * (-0.001388888888888889 + z * (2.48015873015873e-05
    + z * (-2.755731922398589e-07 + z * (2.08767569878681e-09 + z * (-1.1470745597729725e-11
    + z * 4.779477332387385e-14))))))
  let half := 0.5 * z
  let w := 1.0 - half
  w + (((1.0 - w) - half) + (z * tail - x * p.low))

/-- Sine and cosine of an angle in radians. -/
def sinCos (x : Float) : Float × Float :=
  if x.isFinite then
    let r := reduceAngle x
    let s := r.rest.sin
    let c := r.rest.cos
    if r.quarters = 0 then (s, c)
    else if r.quarters = 1 then (c, -s)
    else if r.quarters = 2 then (-s, -c)
    else (-c, s)
  else (nan, nan)

def cos (x : Float) : Float := (sinCos x).2

/-- Angle in `[0, π/4]` whose tangent is `t ∈ [0, 1]`: the nearest quarter `c` is
    split off by `artan t = artan c + artan ((t - c) / (1 + t · c))`. -/
def arcTangentUnit (t : Float) : Float :=
  let c := floor (4.0 * t + 0.5) / 4.0
  let base : Pair :=
    if c == 0.0 then ⟨0.0, 0.0⟩
    else if c == 0.25 then ⟨0.24497866312686414, 1.0698755618734451e-17⟩
    else if c == 0.5 then ⟨0.4636476090008061, 2.2698777452961687e-17⟩
    else if c == 0.75 then ⟨0.6435011087932844, 1.5834785051444286e-17⟩
    else ⟨0.7853981633974483, 3.061616997868383e-17⟩
  let z := (t - c) / (1.0 + t * c)
  let w := z * z
  let tail := z * w * (-0.3333333333333333 + w * (0.2 + w * (-0.14285714285714285
    + w * (0.1111111111111111 + w * (-0.09090909090909091 + w * (0.07692307692307693
    + w * (-0.06666666666666667 + w * 0.058823529411764705)))))))
  base.high + (z + (tail + base.low))

/-- Direction in `[-π, π]` of the point `(x, y)`; the signs of zeros tell the
    sides of the axes apart. -/
def direction (y x : Float) : Float :=
  if x.isNaN || y.isNaN then nan
  else
    let ax := x.abs
    let ay := y.abs
    let octant :=
      if ax == ay then (if ax == 0.0 then 0.0 else 0.7853981633974483)
      else if ay < ax then arcTangentUnit (ay / ax)
      else pi / 2.0 - (arcTangentUnit (ax / ay) - piLow / 2.0)
    let angle := if isNegative x then pi - (octant - piLow) else octant
    copySign angle y

def toRadians (degrees : Float) : Float := degrees * (pi / 180.0)

def toDegrees (radians : Float) : Float := radians * (180.0 / pi)

end EvenChroma.Double
