/-
  EvenChroma/Text/Basic.lean
  ==========================
  **Text and places in it.**  All text is a list of characters, so that every
  scan is a recursion on what is left to read.  A place is counted in the bytes
  of the encoded text (`byteSize`), and a stretch of text is a half-open `Span`
  of such places; people are shown characters instead (`charOffset`).
-/
namespace EvenChroma

/-- Text as the list of its characters. -/
abbrev Text := List Char

/-- A half-open stretch `start ≤ place < stop` of a text, in bytes. -/
structure Span where
  start : Nat
  stop : Nat
deriving DecidableEq, Repr, Inhabited

/-- The stretch `distance` further right. -/
def Span.shift (s : Span) (distance : Nat) : Span := ⟨s.start + distance, s.stop + distance⟩

namespace Text

/-- Number of bytes that encode the text. -/
def byteSize : Text → Nat
  | [] => 0
  | c :: t => c.utf8Size + byteSize t

theorem byteSize_append (s t : Text) : byteSize (s ++ t) = byteSize s + byteSize t := by
  induction s with
  | nil => simp [byteSize]
  | cons c s ih => simp only [List.cons_append, byteSize, ih, Nat.add_assoc]

/-- What follows the first `n` bytes; a character that straddles the cut is
    dropped as well. -/
def dropBytes : Nat → Text → Text
  | 0, t => t
  | _, [] => []
  | n, c :: t => dropBytes (n - c.utf8Size) t

/-- The characters that end within the first `n` bytes, together with one that
    straddles the cut. -/
def takeBytes : Nat → Text → Text
  | 0, _ => []
  | _, [] => []
  | n, c :: t => c :: takeBytes (n - c.utf8Size) t

/-- The text at a span. -/
def slice (t : Text) (s : Span) : Text := takeBytes (s.stop - s.start) (dropBytes s.start t)

/-- Number of characters that begin before byte `n`. -/
def charOffset (t : Text) (n : Nat) : Nat := (takeBytes n t).length

/-- Equality that does not tell ASCII capitals from small letters. -/
def sameIgnoringCase (s t : Text) : Bool := s.map Char.toLower == t.map Char.toLower

def toLower (t : Text) : Text := t.map Char.toLower

end Text

end EvenChroma
