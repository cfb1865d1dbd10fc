/-
  EvenChroma/Json/Reader.lean
  ===========================
  **Reading JSON**, strictly: only the four JSON blanks separate, strings hold no bare
  control characters and no unpaired surrogates, nothing follows the value, and arrays
  and objects nest at most `maxDepth` deep.
-/
import EvenChroma.Json.Number

namespace EvenChroma.Json

/-! ### Blanks and strings -/

def isJsonBlank (c : Char) : Bool := c = ' ' || c = '\t' || c = '\n' || c = '\r'

def skipBlanks (t : Text) : Text := t.dropWhile isJsonBlank

/-- Value of a hexadecimal digit. -/
def hexValue? (c : Char) : Option Nat :=
  if c.isDigit then some (c.toNat - '0'.toNat)
  else if 'a' ≤ c ∧ c ≤ 'f' then some (c.toNat - 'a'.toNat + 10)
  else if 'A' ≤ c ∧ c ≤ 'F' then some (c.toNat - 'A'.toNat + 10)
  else none

/-- Four hexadecimal digits.  A text of less than four bytes has ended, whatever they are. -/
def readHex (t : Text) : Except Fault (Nat × Text) :=
  if Text.byteSize (t.take 4) < 4 then .error .ended
  else
    match (t.take 4).mapM hexValue? with
    | some [a, b, c, d] => .ok (((a * 16 + b) * 16 + c) * 16 + d, t.drop 4)
    | _ => .error .malformed

/-- The code point of an escape after `\u`: one unit, or a pair of surrogates. -/
def readUnits (t : Text) : Except Fault (Nat × Text) := do
  let (n, t) ← readHex t
  if 0xDC00 ≤ n ∧ n ≤ 0xDFFF then .error .malformed
  else if 0xD800 ≤ n ∧ n ≤ 0xDBFF then
    match t with
    | '\\' :: 'u' :: t =>
      let (m, t) ← readHex t
      if 0xDC00 ≤ m ∧ m ≤ 0xDFFF then
        .ok (0x10000 + (n - 0xD800) * 0x400 + (m - 0xDC00), t)
      else .error .malformed
    | ['\\'] => .error .ended
    | [] => .error .ended
    | _ => .error .malformed
  else .ok (n, t)

/-- The character of an escape, after the backslash. -/
def readEscape : Text → Except Fault (Char × Text)
  | [] => .error .ended
  | 'u' :: t => do
    let (n, t) ← readUnits t
    .ok (Char.ofNat n, t)
  | c :: t =>
    if c = '"' ∨ c = '\\' ∨ c = '/' then .ok (c, t)
    else if c = 'b' then .ok ('\x08', t)
    else if c = 'f' then .ok ('\x0c', t)
    else if c = 'n' then .ok ('\n', t)
    else if c = 'r' then .ok ('\r', t)
    else if c = 't' then .ok ('\t', t)
    else .error .malformed

/-- A string after its opening quote; every step takes a character at least. -/
def readString : Nat → Text → Except Fault (Text × Text)
  | 0, _ => .error .ended
  | _, [] => .error .ended
  | fuel + 1, c :: t =>
    if c = '"' then .ok ([], t)
    else if c = '\\' then do
      let (e, t) ← readEscape t
      let (s, t) ← readString fuel t
      .ok (e :: s, t)
    else if c.toNat < 0x20 then .error .malformed
    else do
      let (s, t) ← readString fuel t
      .ok (c :: s, t)

/-- The rest of a word such as `null`. -/
def readWord (word : Text) (value : Json) (t : Text) : Except Fault (Json × Text) :=
  match word, t with
  | [], t => .ok (value, t)
  | _ :: _, [] => .error .ended
  | w :: ws, c :: r => if w = c then readWord ws value r else .error .malformed

/-! ### Values -/

mutual

/-- A value; `depth` more arrays and objects may be opened.  Every call takes a
    character or reads the rest of a list, so twice the length of the text is fuel
    enough. -/
def readValue : (fuel depth : Nat) → Text → Except Fault (Json × Text)
  | 0, _, _ => .error .ended
  | fuel + 1, depth, t =>
    match skipBlanks t with
    | [] => .error .ended
    | c :: r =>
      if c = 'n' then readWord "ull".toList .null r
      else if c = 't' then readWord "rue".toList (.bool true) r
      else if c = 'f' then readWord "alse".toList (.bool false) r
      else if c = '-' then readNumber true r
      else if c.isDigit then readNumber false (c :: r)
      else if c = '"' then do
        let (s, r) ← readString (r.length + 1) r
        .ok (.string s, r)
      else if c = '[' then
        match depth with
        | 0 => .error .malformed
        | depth + 1 => do
          let (items, r) ← readItems fuel depth true r
          .ok (.array items, r)
      else if c = '\x7b' then
        match depth with
        | 0 => .error .malformed
        | depth + 1 => do
          let (members, r) ← readMembers fuel depth true r
          .ok (.object members, r)
      else .error .malformed

/-- What is left of an array; a comma comes before every item but the first. -/
def readItems : (fuel depth : Nat) → (first : Bool) → Text → Except Fault (List Json × Text)
  | 0, _, _, _ => .error .ended
  | fuel + 1, depth, first, t =>
    match skipBlanks t with
    | [] => .error .ended
    | c :: r =>
      if c = ']' then .ok ([], r)
      else if first then readItemsFrom fuel depth (c :: r)
      else if c = ',' then
        match skipBlanks r with
        | [] => .error .ended
        | c :: r => if c = ']' then .error .malformed else readItemsFrom fuel depth (c :: r)
      else .error .malformed

/-- An item and what is left of the array. -/
def readItemsFrom : (fuel depth : Nat) → Text → Except Fault (List Json × Text)
  | 0, _, _ => .error .ended
  | fuel + 1, depth, t => do
    let (item, r) ← readValue fuel depth t
    let (items, r) ← readItems fuel depth false r
    .ok (item :: items, r)

/-- What is left of an object; a comma comes before every member but the first. -/
def readMembers :
    (fuel depth : Nat) → (first : Bool) → Text → Except Fault (List (Text × Json) × Text)
  | 0, _, _, _ => .error .ended
  | fuel + 1, depth, first, t =>
    match skipBlanks t with
    | [] => .error .ended
    | c :: r =>
      if c = '\x7d' then .ok ([], r)
      else if first then readMembersFrom fuel depth (c :: r)
      else if c = ',' then readMembersFrom fuel depth (skipBlanks r)
      else .error .malformed

/-- A member and what is left of the object. -/
def readMembersFrom : (fuel depth : Nat) → Text → Except Fault (List (Text × Json) × Text)
  | 0, _, _ => .error .ended
  | fuel + 1, depth, t =>
    match t with
    | '"' :: r => do
      let (key, r) ← readString (r.length + 1) r
      match skipBlanks r with
      | ':' :: r => do
        let (value, r) ← readValue fuel depth r
        let (members, r) ← readMembers fuel depth false r
        .ok ((key, value) :: members, r)
      | r => .error (faultAt r)
    | r => .error (faultAt r)

end

/-- How deep arrays and objects may nest. -/
def maxDepth : Nat := 127

/-- The value that a text consists of. -/
def ofText (t : Text) : Except Fault Json := do
  let (value, r) ← readValue (3 * t.length + 3) maxDepth t
  match skipBlanks r with
  | [] => .ok value
  | _ => .error .malformed

end EvenChroma.Json
