/-
  EvenChroma/Css/Quoting.lean
  ===========================
  **Inside or outside quotes.**  Scans of style sheets pass over quoted text, in which a
  backslash takes the next character along, whatever it is.
-/
import EvenChroma.Text.Basic

namespace EvenChroma.Css

/-- Whether a character opens a quoted text, which the same character closes. -/
def isQuote (c : Char) : Bool := c = '\x27' || c = '"'

/-- Where a scan stands. -/
inductive Quoting where
  | outside
  | inside (quote : Char)
  /-- Inside quotes, right after a backslash. -/
  | escaped (quote : Char)
deriving DecidableEq, Repr

/-- Where the scan stands after one more character. -/
def Quoting.next : Quoting → Char → Quoting
  | outside, c => if isQuote c then inside c else outside
  | inside q, c => if c = '\\' then escaped q else if c = q then outside else inside q
  | escaped q, _ => inside q

/-- Number of bytes before the parenthesis that closes a list of which `depth` inner
    lists are open. -/
def closingParen? : Quoting → (depth : Nat) → Text → Option Nat
  | _, _, [] => none
  | .outside, depth, c :: t =>
    if c = ')' then
      match depth with
      | 0 => some 0
      | depth + 1 => (closingParen? .outside depth t).map (· + c.utf8Size)
    else
      (closingParen? (Quoting.outside.next c) (if c = '(' then depth + 1 else depth) t).map
        (· + c.utf8Size)
  | q, depth, c :: t => (closingParen? (q.next c) depth t).map (· + c.utf8Size)

/-- Whether a character ends a declaration. -/
def endsValue (c : Char) : Bool := c = ';' || c = '\x7b' || c = '\x7d'

/-- The value of a declaration and the text after it: the value ends before the first
    semicolon or brace outside quotes and parentheses. -/
def splitValue : Quoting → (depth : Nat) → Text → Text × Text
  | _, _, [] => ([], [])
  | .outside, depth, c :: t =>
    if endsValue c && depth = 0 then ([], c :: t)
    else
      let depth' := if c = '(' then depth + 1 else if c = ')' then depth - 1 else depth
      let (value, rest) := splitValue (Quoting.outside.next c) depth' t
      (c :: value, rest)
  | q, depth, c :: t =>
    let (value, rest) := splitValue (q.next c) depth t
    (c :: value, rest)

end EvenChroma.Css
