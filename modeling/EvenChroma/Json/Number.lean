/-
  EvenChroma/Json/Number.lean
  ===========================
  **Numbers of JSON.**  A number is read into a significand of 64 bits and a power of
  ten.  Digits before the point that do not fit the significand only raise the power,
  digits after it are dropped.  The value is the significand, rounded to a double, times
  or divided by that power of ten.
-/
import EvenChroma.Json.Basic

namespace EvenChroma.Json

/-- Why a text is no JSON. -/
inductive Fault where
  /-- It ends too early. -/
  | ended
  /-- It goes on in a way that JSON does not. -/
  | malformed
deriving DecidableEq, Repr

/-- The fault of a text that has to begin with something else. -/
def faultAt : Text → Fault
  | [] => .ended
  | _ => .malformed

def digitValue (c : Char) : Nat := c.toNat - '0'.toNat

/-- A number as it is read: the value is `significand · 10 ^ exponent`. -/
structure Scanned where
  significand : Nat
  exponent : Int
deriving DecidableEq, Repr

/-- Whether another digit fits the significand. -/
def Scanned.admits (s : Scanned) (c : Char) : Bool :=
  s.significand * 10 + digitValue c < 1 <<< 64

/-- Digits before the point. -/
def scanWhole (significand : Nat) : Text → Scanned × Text
  | [] => (⟨significand, 0⟩, [])
  | c :: r =>
    if c.isDigit then
      if (Scanned.mk significand 0).admits c then scanWhole (significand * 10 + digitValue c) r
      else
        let digits := (c :: r).takeWhile Char.isDigit
        (⟨significand, digits.length⟩, (c :: r).dropWhile Char.isDigit)
    else (⟨significand, 0⟩, c :: r)

/-- Digits after the point. -/
def scanFraction (s : Scanned) : Text → Scanned × Text
  | [] => (s, [])
  | c :: r =>
    if c.isDigit then
      if s.admits c then scanFraction ⟨s.significand * 10 + digitValue c, s.exponent - 1⟩ r
      else (s, (c :: r).dropWhile Char.isDigit)
    else (s, c :: r)

/-- The exponent after its letter. -/
def scanExponent (s : Scanned) (t : Text) : Except Fault (Scanned × Text) :=
  let (negative, t) := match t with
    | '-' :: r => (true, r)
    | '+' :: r => (false, r)
    | r => (false, r)
  let digits := t.takeWhile Char.isDigit
  if digits.isEmpty then .error (faultAt t)
  else
    let e : Int := digits.foldl (fun n c => 10 * n + digitValue c) 0
    .ok (⟨s.significand, s.exponent + (if negative then -e else e)⟩, t.dropWhile Char.isDigit)

/-- The value of a scanned number, `value` standing for the significand; nothing if it is
    beyond the range of doubles.  Powers below the range are taken off in parts, `fuel`
    of them at most. -/
def scaleByTen : Nat → Float → Int → Option Float
  | 0, _, _ => some 0.0
  | fuel + 1, value, e =>
    if e.natAbs ≤ 308 then
      let power := Float.ofScientific 1 false e.natAbs
      if e < 0 then some (value / power)
      else if (value * power).isInf then none
      else some (value * power)
    else if value == 0.0 then some value
    else if e < 0 then scaleByTen fuel (value / 1e308) (e + 308)
    else none

def Scanned.value? (s : Scanned) : Option Float :=
  scaleByTen 4 s.significand.toUInt64.toFloat s.exponent

/-- A whole number, as an integer if 64 bits hold it.  Zero with a sign is no integer. -/
def ofWhole (negative : Bool) (n : Nat) : Json :=
  if !negative then .integer n
  else if 0 < n ∧ n ≤ 1 <<< 63 then .integer (-(n : Int))
  else .float (-n.toUInt64.toFloat)

/-- A number with a fraction, an exponent or too many digits. -/
def ofScanned (negative : Bool) (s : Scanned) (rest : Text) : Except Fault (Json × Text) :=
  match s.value? with
  | some x => .ok (.float (if negative then -x else x), rest)
  | none => .error .malformed

/-- What may follow the digits before the point. -/
def readAfterWhole (negative : Bool) (s : Scanned) (t : Text) : Except Fault (Json × Text) :=
  match t with
  | '.' :: r =>
    match r with
    | c :: _ =>
      if c.isDigit then
        let (s, r) := scanFraction s r
        match r with
        | e :: r' =>
          if e = 'e' ∨ e = 'E' then do
            let (s, r) ← scanExponent s r'
            ofScanned negative s r
          else ofScanned negative s r
        | [] => ofScanned negative s []
      else .error .malformed
    | [] => .error .ended
  | e :: r =>
    if e = 'e' ∨ e = 'E' then do
      let (s, r) ← scanExponent s r
      ofScanned negative s r
    else if s.exponent = 0 then .ok (ofWhole negative s.significand, t)
    else ofScanned negative s t
  | [] =>
    if s.exponent = 0 then .ok (ofWhole negative s.significand, [])
    else ofScanned negative s []

/-- A number after its sign.  A leading zero stands alone. -/
def readNumber (negative : Bool) (t : Text) : Except Fault (Json × Text) :=
  match t with
  | '0' :: c :: r =>
    if c.isDigit then .error .malformed else readAfterWhole negative ⟨0, 0⟩ (c :: r)
  | c :: _ =>
    if c.isDigit then
      let (s, r) := scanWhole 0 t
      readAfterWhole negative s r
    else .error .malformed
  | [] => .error .ended

end EvenChroma.Json
