/-
  EvenChroma/Double/Basic.lean
  ============================
  **Doubles taken apart.**  A finite double is a signed whole mantissa times a
  power of two (`Parts`).  Everything that must be exact — cutting off the
  fraction, the remainder of a division, the decimal text of a number — is
  computed on these whole numbers, so that no rounding can slip in.

  The operations here go through the bits of a double only, hence each of them
  evaluates inside the logic.
-/
namespace EvenChroma.Double

/-- A finite double: `mantissa · 2 ^ exponent`, negated when `negative`. -/
structure Parts where
  negative : Bool
  mantissa : Nat
  exponent : Int
deriving DecidableEq, Repr

/-- The sign bit, which zeros and infinities carry too. -/
def isNegative (x : Float) : Bool := x.toBits >>> 63 == 1

/-- Mantissa and exponent of a finite double.  Subnormals and zero share the
    smallest exponent; all others have the hidden bit set. -/
def parts (x : Float) : Parts :=
  let bits := x.toBits
  let biased := (bits >>> 52 &&& 0x7FF).toNat
  let fraction := (bits &&& 0xFFFFFFFFFFFFF).toNat
  if biased = 0 then ⟨isNegative x, fraction, -1074⟩
  else ⟨isNegative x, fraction + 1 <<< 52, (biased : Int) - 1075⟩

def nan : Float := 0.0 / 0.0

def infinity : Float := 1.0 / 0.0

/-- The magnitude of `x` with the sign of `y`. -/
def copySign (x y : Float) : Float := if isNegative y then -x.abs else x.abs

/-- The power `2 ^ e`; zero and infinity where the exponent leaves the range of doubles. -/
def twoPow (e : Int) : Float :=
  if e < -1074 then 0.0
  else if e < -1022 then Float.ofBits (1 <<< (e + 1074).toNat.toUInt64)
  else if e ≤ 1023 then Float.ofBits ((e + 1023).toNat.toUInt64 <<< 52)
  else infinity

/-- The product `x · 2 ^ e`.  Scaling in two steps keeps both factors in range, so the
    product is rounded once. -/
def scale (x : Float) (e : Int) : Float :=
  let half := e / 2
  x * twoPow half * twoPow (e - half)

/-- The whole part of `x`, cut towards zero.  From `2 ^ 52` on every double is
    whole; NaN and the infinities are returned as they are. -/
def truncate (x : Float) : Float :=
  if x.abs < 4503599627370496.0 then copySign x.abs.toUInt64.toFloat x else x

/-- The largest whole double that is at most `x`. -/
def floor (x : Float) : Float :=
  let whole := truncate x
  if whole > x then whole - 1.0 else whole

/-- Remainder of `x / y` with the sign of `x`, for a positive `y`: the whole
    multiple of `y` nearest to zero is taken off exactly. -/
def remainder (x y : Float) : Float :=
  if x.isFinite then
    if x.abs < y then x
    else
      let p := parts x
      let q := parts y
      let rest := p.mantissa <<< (p.exponent - q.exponent).toNat % q.mantissa
      copySign (scale rest.toUInt64.toFloat q.exponent) x
  else nan

/-- The remainder that lies in `[0, y]`: a negative remainder is raised by `y`. -/
def modulo (x y : Float) : Float :=
  if 0.0 ≤ x && x < y then x
  else
    let r := remainder x y
    if r < 0.0 then r + y else r

/-- Number of digits before the point, read off the decimal logarithm; zero for a
    magnitude below one.  The logarithm is rounded to a double, so from fifteen
    digits on it reaches the next power of ten a little early: when that power is
    missed by less than half the spacing of the doubles below its exponent. -/
def integerDigits (x : Float) : Nat :=
  let p := parts x
  let n := p.mantissa <<< p.exponent.toNat >>> (-p.exponent).toNat
  if n = 0 then 0
  else
    let k := (Nat.toDigits 10 n).length
    -- half that spacing is `2 ^ (log2 (k - 1) - 53)`, and `ln 10` turns it into a ratio
    let next := Nat.pow 10 k
    let missed := (next - n) <<< (53 - (k - 1).log2)
    let near := missed * 1000000000000000 ≤ next * 2302585092994046
    if near then k + 1 else k

end EvenChroma.Double
