/-
  EvenChroma/Text/Quoted.lean
  ===========================
  **Quoting a text in a message**: double quotes around it, and escapes for
  quotes, backslashes and everything that does not show.
-/
import EvenChroma.Text.Basic
import EvenChroma.Text.Visible

namespace EvenChroma.Text

/-- A character as it stands inside quotes. -/
def quotedChar (c : Char) : Text :=
  if c = '"' ∨ c = '\\' then ['\\', c]
  else if c = '\n' then ['\\', 'n']
  else if c = '\r' then ['\\', 'r']
  else if c = '\t' then ['\\', 't']
  else if c.toNat = 0 then ['\\', '0']
  else if isVisible c then [c]
  else ['\\', 'u', '\x7b'] ++ Nat.toDigits 16 c.toNat ++ ['\x7d']

/-- The text in double quotes. -/
def quoted (t : Text) : Text := '"' :: t.flatMap quotedChar ++ ['"']

end EvenChroma.Text
