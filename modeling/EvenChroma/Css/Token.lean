/-
  EvenChroma/Css/Token.lean
  =========================
  **Tokens of an argument list.**  Every text splits into tokens: a character that
  nothing else begins with is a token of its own, to be rejected by the grammar, and the
  spans of the tokens lie side by side.
-/
import EvenChroma.Css.Quoting
import EvenChroma.Double.Reading
import EvenChroma.Text.Alphanumeric
import EvenChroma.Text.Blank

namespace EvenChroma.Css

/-- What a token is. -/
inductive TokenKind where
  | blank
  | comma
  | slash
  /-- A percent sign that does not follow a number directly. -/
  | percent
  | openParen
  | closeParen
  | number (value : Float)
  /-- A number with a percent sign, not yet divided by a hundred. -/
  | percentage (value : Float)
  /-- A number with a unit. -/
  | dimension (value : Float) (unit : Text)
  /-- A name.  It may have dots before letters and digits, as in `rec.2020`. -/
  | ident (name : Text)
  /-- A quoted text, in which a backslash before the quote is dropped and every other
      escape is kept. -/
  | quoted (quote : Char) (value : Text) (terminated : Bool)
  /-- Any other character. -/
  | other (c : Char)
deriving DecidableEq, Repr

/-- A token and the bytes it takes up. -/
structure Token where
  kind : TokenKind
  span : Span
deriving DecidableEq, Repr

/-! ### Names -/

def isAscii (c : Char) : Bool := c.toNat < 128

/-- Whether a name may begin with the character. -/
def isNameStart (c : Char) : Bool := c.isAlpha || c = '_' || !isAscii c

/-- Whether a name may go on with the character. -/
def isNameChar (c : Char) : Bool := c.isAlphanum || c = '_' || c = '-' || !isAscii c

/-- Whether the text begins with a character of that kind. -/
def begins (p : Char → Bool) : Text → Bool
  | [] => false
  | c :: _ => p c

/-- Whether a name begins here. -/
def startsName : Text → Bool
  | '-' :: c :: _ => isNameStart c || c = '-'
  | t => begins isNameStart t

/-- A name and the text after it. -/
def splitName : Text → Text × Text
  | [] => ([], [])
  | c :: t =>
    if isNameChar c || c = '.' && begins Text.isAlphanumeric t then
      let (name, rest) := splitName t
      (c :: name, rest)
    else ([], c :: t)

/-! ### Numbers -/

def isSign (c : Char) : Bool := c = '+' || c = '-'

/-- Whether an unsigned number begins here. -/
def startsUnsigned : Text → Bool
  | '.' :: t => begins Char.isDigit t
  | t => begins Char.isDigit t

/-- Whether a number begins here. -/
def startsNumber : Text → Bool
  | [] => false
  | c :: t => if isSign c then startsUnsigned t else startsUnsigned (c :: t)

/-- Digits, perhaps with a point among or after them, and the text after them. -/
def splitUnsigned (t : Text) : Text × Text :=
  let whole := t.takeWhile Char.isDigit
  match t.dropWhile Char.isDigit with
  | '.' :: r => (whole ++ '.' :: r.takeWhile Char.isDigit, r.dropWhile Char.isDigit)
  | r => (whole, r)

/-- The characters of a number and the text after them. -/
def splitNumber : Text → Text × Text
  | [] => ([], [])
  | c :: t =>
    if isSign c then
      let (digits, rest) := splitUnsigned t
      (c :: digits, rest)
    else splitUnsigned (c :: t)

/-- The value of the characters of a number. -/
def numberValue (digits : Text) : Float := (Double.ofText? digits).getD Double.nan

/-! ### Quoted text -/

/-- The value of a quoted text after its opening quote, whether its end was found, and
    the text after it. -/
def splitQuoted (quote : Char) : Text → Text × Bool × Text
  | [] => ([], false, [])
  | ['\\'] => (['\\'], false, [])
  | '\\' :: c :: t =>
    let (value, terminated, rest) := splitQuoted quote t
    (if c = quote then c :: value else '\\' :: c :: value, terminated, rest)
  | c :: t =>
    if c = quote then ([], true, t)
    else
      let (value, terminated, rest) := splitQuoted quote t
      (c :: value, terminated, rest)

/-! ### Tokens -/

/-- The token of a character that stands for itself. -/
def single (c : Char) : TokenKind :=
  if c = ',' then .comma
  else if c = '/' then .slash
  else if c = '%' then .percent
  else if c = '(' then .openParen
  else if c = ')' then .closeParen
  else .other c

/-- The first token of a text that is not empty, and the text after it. -/
def firstToken (c : Char) (t : Text) : TokenKind × Text :=
  if Text.isBlank c then (.blank, t.dropWhile Text.isBlank)
  else if startsNumber (c :: t) then
    let (digits, rest) := splitNumber (c :: t)
    let value := numberValue digits
    match rest with
    | '%' :: r => (.percentage value, r)
    | r =>
      if startsName r then
        let (unit, r) := splitName r
        (.dimension value unit, r)
      else (.number value, r)
  else if startsName (c :: t) then
    let (name, rest) := splitName (c :: t)
    (.ident name, rest)
  else if isQuote c then
    let (value, terminated, rest) := splitQuoted c t
    (.quoted c value terminated, rest)
  else (single c, t)

/-- The tokens of a text that begins at byte `start`, `fuel` of them at most. -/
def tokensFrom : (fuel start : Nat) → Text → List Token
  | 0, _, _ => []
  | _, _, [] => []
  | fuel + 1, start, c :: t =>
    let (kind, rest) := firstToken c t
    let stop := start + (Text.byteSize (c :: t) - Text.byteSize rest)
    ⟨kind, start, stop⟩ :: tokensFrom fuel stop rest

/-- The tokens of a text; each takes a character at least. -/
def tokens (t : Text) : List Token := tokensFrom t.length 0 t

end EvenChroma.Css
