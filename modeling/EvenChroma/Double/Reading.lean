/-
  EvenChroma/Double/Reading.lean
  ==============================
  **Decimals read as doubles**, with correct rounding.
-/
import EvenChroma.Double.Basic
import EvenChroma.Text.Basic

namespace EvenChroma.Double

/-- The double nearest to `digits · 10 ^ exponent`.  Far outside the range of
    doubles the answer is known without computing the power. -/
def ofDecimal (digits : Nat) (exponent : Int) : Float :=
  let leading := exponent + (Nat.toDigits 10 digits).length
  if digits = 0 ∨ leading < -330 then 0.0
  else if leading > 310 then infinity
  else Float.ofScientific digits (exponent < 0) exponent.natAbs

/-- Value of a run of digits, read on from `value`. -/
def digitsValue (value : Nat) (ds : Text) : Nat :=
  ds.foldl (fun n c => 10 * n + (c.toNat - '0'.toNat)) value

/-- Digits with an optional point, and the power of ten after them: at least one
    digit, on either side of the point. -/
def ofUnsigned? (t : Text) : Option Float :=
  let whole := t.takeWhile Char.isDigit
  let afterWhole := t.dropWhile Char.isDigit
  let (fraction, rest) := match afterWhole with
    | '.' :: r => (r.takeWhile Char.isDigit, r.dropWhile Char.isDigit)
    | r => ([], r)
  if whole.isEmpty && fraction.isEmpty then none
  else
    let digits := digitsValue (digitsValue 0 whole) fraction
    let finish (e : Int) : Float := ofDecimal digits (e - fraction.length)
    match rest with
    | [] => some (finish 0)
    | c :: e =>
      if c.toLower = 'e' then
        let (negative, ds) := match e with
          | '-' :: ds => (true, ds)
          | '+' :: ds => (false, ds)
          | ds => (false, ds)
        if ds.isEmpty || !ds.all Char.isDigit then none
        else
          let n : Int := digitsValue 0 ds
          some (finish (if negative then -n else n))
      else none

/-- A signed decimal, or one of the names of NaN and infinity in any case. -/
def ofText? (t : Text) : Option Float :=
  let (negative, magnitude) := match t with
    | '-' :: r => (true, r)
    | '+' :: r => (false, r)
    | r => (false, r)
  let value :=
    if Text.sameIgnoringCase magnitude "nan".toList then some nan
    else if Text.sameIgnoringCase magnitude "inf".toList
      || Text.sameIgnoringCase magnitude "infinity".toList then some infinity
    else ofUnsigned? magnitude
  value.map fun x => if negative then -x else x

end EvenChroma.Double
