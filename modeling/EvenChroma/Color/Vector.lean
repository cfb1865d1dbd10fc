/-
  EvenChroma/Color/Vector.lean
  ============================
  **Triples of coordinates** and the linear maps between them.
-/
import EvenChroma.Double.Elementary

namespace EvenChroma

/-- Three coordinates of a colour. -/
structure Triple where
  x : Float
  y : Float
  z : Float
deriving DecidableEq, Repr

namespace Triple

@[inline] def map (f : Float → Float) (t : Triple) : Triple := ⟨f t.x, f t.y, f t.z⟩

/-- The product by coordinates. -/
def times (s t : Triple) : Triple := ⟨s.x * t.x, s.y * t.y, s.z * t.z⟩

@[inline] def all (p : Float → Bool) (t : Triple) : Bool := p t.x && p t.y && p t.z

def toList (t : Triple) : List Float := [t.x, t.y, t.z]

end Triple

/-- A linear map, by its rows. -/
structure Matrix where
  row₁ : Triple
  row₂ : Triple
  row₃ : Triple

namespace Matrix

def apply (m : Matrix) (v : Triple) : Triple :=
  ⟨m.row₁.x * v.x + m.row₁.y * v.y + m.row₁.z * v.z,
   m.row₂.x * v.x + m.row₂.y * v.y + m.row₂.z * v.z,
   m.row₃.x * v.x + m.row₃.y * v.y + m.row₃.z * v.z⟩

end Matrix

end EvenChroma
