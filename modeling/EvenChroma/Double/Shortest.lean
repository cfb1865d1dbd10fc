/-
  EvenChroma/Double/Shortest.lean
  ===============================
  **The fewest decimal digits that name a double.**  A decimal names the double
  whose rounding interval it lies in.  The grids of one, two, … seventeen
  significant digits are tried in turn, on each of them the two neighbours of
  the value, in whole-number arithmetic throughout; the first grid with a hit
  wins, and of two hits the nearer one.
-/
import EvenChroma.Double.Basic

namespace EvenChroma.Double

/-- Which neighbour is taken when the value lies half way between them. -/
inductive Tie where
  | up
  | toEven
deriving DecidableEq, Repr

/-- The number `digits · 10 ^ exponent`. -/
structure Decimal where
  digits : Nat
  exponent : Int
deriving DecidableEq, Repr

/-- A positive value and its rounding interval over a common denominator. -/
structure RoundingInterval where
  value : Nat
  low : Nat
  high : Nat
  denominator : Nat
  /-- Whether the ends round to the value. -/
  closed : Bool

/-- The interval of a finite positive double.  Below a power of two the next
    double is only half as far away. -/
def Parts.interval (p : Parts) : RoundingInterval :=
  let up := 1 <<< p.exponent.toNat
  let below := if p.mantissa = 1 <<< 52 ∧ p.exponent > -1074 then 1 else 2
  { value := 4 * p.mantissa * up
    low := (4 * p.mantissa - below) * up
    high := (4 * p.mantissa + 2) * up
    denominator := 4 <<< (-p.exponent).toNat
    closed := p.mantissa % 2 = 0 }

/-- The interval in units of `10 ^ k`. -/
def RoundingInterval.scaled (i : RoundingInterval) (k : Int) : RoundingInterval :=
  let up := Nat.pow 10 (-k).toNat
  { i with
    value := i.value * up
    low := i.low * up
    high := i.high * up
    denominator := i.denominator * Nat.pow 10 k.toNat }

/-- Whether the whole number `n` lies in the interval. -/
def RoundingInterval.holds (i : RoundingInterval) (n : Nat) : Bool :=
  let x := n * i.denominator
  if i.closed then i.low ≤ x && x ≤ i.high else i.low < x && x < i.high

/-- The whole number in the interval that is nearest to the value, if there is one. -/
def RoundingInterval.nearest? (i : RoundingInterval) (tie : Tie) : Option Nat :=
  let below := i.value / i.denominator
  let gap := i.value % i.denominator
  let upper : Bool :=
    if 2 * gap = i.denominator then
      match tie with
      | .up => true
      | .toEven => below % 2 = 1
    else 2 * gap > i.denominator
  if i.holds below && (!i.holds (below + 1) || !upper) then some below
  else if i.holds (below + 1) then some (below + 1)
  else none

/-- Exponent of the leading decimal digit of `value / denominator`. -/
def RoundingInterval.leading (i : RoundingInterval) : Int :=
  -- the binary logarithm is right to within one, hence so is the estimate
  let size : Int := (i.value.log2 : Int) - i.denominator.log2
  let guess : Int := (size - 1) * 30103 / 100000
  let reaches (e : Int) : Bool :=
    let j := i.scaled e
    j.denominator ≤ j.value
  if reaches (guess + 1) then (if reaches (guess + 2) then guess + 2 else guess + 1)
  else guess

/-- Trailing zeros moved into the exponent, `fuel` of them at most. -/
def Decimal.trim : Nat → Decimal → Decimal
  | 0, d => d
  | fuel + 1, d =>
    if d.digits ≠ 0 ∧ d.digits % 10 = 0 then Decimal.trim fuel ⟨d.digits / 10, d.exponent + 1⟩
    else d

/-- The grids from `places` digits on, `fuel` of them. -/
def RoundingInterval.shortestFrom (i : RoundingInterval) (tie : Tie) (leading : Int) :
    Nat → Nat → Decimal
  | 0, places => ⟨0, leading - places⟩
  | fuel + 1, places =>
    let k := leading + 1 - places
    match (i.scaled k).nearest? tie with
    | some n => ⟨n, k⟩
    | none => i.shortestFrom tie leading fuel (places + 1)

/-- The shortest decimal that names the magnitude of a finite non-zero double. -/
def shortest (tie : Tie) (x : Float) : Decimal :=
  let i := (parts x).interval
  (i.shortestFrom tie i.leading 18 1).trim 18

end EvenChroma.Double
