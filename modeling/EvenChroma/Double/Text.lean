/-
  EvenChroma/Double/Text.lean
  ===========================
  **Doubles in writing.**  Three forms: plain digits without an exponent, for
  style sheets, keys and messages; the form with an exponent at both ends of the
  scale, which messages about options quote; and a fixed number of places.
-/
import EvenChroma.Double.Shortest
import EvenChroma.Text.Basic

namespace EvenChroma.Double

/-- Decimal digits of a whole number. -/
def digitsOf (n : Nat) : Text := Nat.toDigits 10 n

/-- Positional digits of a decimal, with at least one digit before the point and
    no point when nothing follows it. -/
def Decimal.positional (d : Decimal) : Text :=
  let ds := digitsOf d.digits
  match d.exponent with
  | .ofNat k => ds ++ List.replicate k '0'
  | .negSucc k =>
    let places := k + 1
    let padded := List.replicate (places + 1 - ds.length) '0' ++ ds
    let cut := padded.length - places
    padded.take cut ++ '.' :: padded.drop cut

/-- Digits with an exponent: `1.25e-9`, `1e+21`. -/
def Decimal.scientific (d : Decimal) : Text :=
  let ds := digitsOf d.digits
  let e := d.exponent + (ds.length - 1 : Nat)
  let mantissa := match ds with
    | [] => []
    | [c] => [c]
    | c :: cs => c :: '.' :: cs
  let sign := if e < 0 then '-' else '+'
  mantissa ++ 'e' :: sign :: digitsOf e.natAbs

/-- NaN and the infinities by name, all else signed digits. -/
def signed (digits : Float → Text) (x : Float) : Text :=
  if x.isNaN then "NaN".toList
  else
    let magnitude := if x.isInf then "inf".toList else digits x
    if isNegative x then '-' :: magnitude else magnitude

/-- The fewest digits that read back, without an exponent. -/
def plain : Float → Text :=
  signed fun x => if x == 0.0 then ['0'] else (shortest .up x).positional

/-- The plain form as a string. -/
def text (x : Float) : String := String.ofList (plain x)

/-- The fewest digits that read back, marked as a fraction: whole numbers end in
    `.0`, and numbers from `10 ^ 16` on or below `10 ^ -5` carry an exponent. -/
def marked : Float → Text :=
  signed fun x =>
    if x == 0.0 then "0.0".toList
    else
      let d := shortest .toEven x
      let leading := d.exponent + ((digitsOf d.digits).length - 1 : Nat)
      if -5 ≤ leading ∧ leading ≤ 15 then
        if d.exponent < 0 then d.positional else d.positional ++ ".0".toList
      else d.scientific

/-- The quotient `numerator / denominator` rounded to the nearest whole number, halves to even. -/
def roundQuotient (numerator denominator : Nat) : Nat :=
  let q := numerator / denominator
  let r := numerator % denominator
  if 2 * r > denominator ∨ 2 * r = denominator ∧ q % 2 = 1 then q + 1 else q

/-- The exact value rounded to `places` places; zero carries no sign. -/
def fixed (places : Nat) (x : Float) : Text :=
  if x.isFinite then
    let p := parts x
    let n := roundQuotient (p.mantissa <<< p.exponent.toNat * Nat.pow 10 places)
      (1 <<< (-p.exponent).toNat)
    let digits := (Decimal.mk n (-(places : Int))).positional
    if p.negative ∧ n ≠ 0 then '-' :: digits else digits
  else signed (fun _ => []) x

end EvenChroma.Double
