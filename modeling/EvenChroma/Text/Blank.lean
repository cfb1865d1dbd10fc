/-
  EvenChroma/Text/Blank.lean
  ==========================
  **White space**: the characters with the property `White_Space`, and trimming.
-/
import EvenChroma.Text.Basic

namespace EvenChroma.Text

/-- Whether a character is white space in any script. -/
def isBlank (c : Char) : Bool :=
  let n := c.toNat
  9 ≤ n && n ≤ 13 || n = 0x20 || n = 0x85 || n = 0xA0 || n = 0x1680
    || 0x2000 ≤ n && n ≤ 0x200A || n = 0x2028 || n = 0x2029 || n = 0x202F || n = 0x205F
    || n = 0x3000

/-- Without the white space in front. -/
def trimStart (t : Text) : Text := t.dropWhile isBlank

/-- Without the white space at the end. -/
def trimEnd (t : Text) : Text := (t.reverse.dropWhile isBlank).reverse

/-- Without the white space at both ends. -/
def trim (t : Text) : Text := trimEnd (trimStart t)

end EvenChroma.Text
