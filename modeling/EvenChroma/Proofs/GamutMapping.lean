/-
  EvenChroma/Proofs/GamutMapping.lean
  ===================================
  **Gamut mapping lands in the gamut and ends**, but for an infinite chroma.  Both results are
  put together here from what the reduction of chroma does.  Whatever conversions lead from
  model to model, the result is in the cube unless a channel is NaN.
-/
import EvenChroma.Proofs.AcceptedChromas

namespace EvenChroma

namespace Conversions

open Reduction

variable {via : Conversions} {gamut : Gamut} {c mapped : Color}

/-- **A colour is brought into the gamut in finitely many steps exactly if its chroma is not
    infinite**, or it fits, or is white or black. -/
theorem toGamut?_ends (gamut : Gamut) (c : Color) :
    (standard.toGamut? gamut c).isSome = true ↔
      (standard.convert .oklch c).coords.y ≠ Double.infinity ∨ standard.fits gamut 0.0 c = true ∨
        (standard.convert .oklch c).coords.x ≥ 1.0 ∨
        (standard.convert .oklch c).coords.x ≤ 0.0 := by
  by_cases hchroma : (standard.convert .oklch c).coords.y = Double.infinity
  · have hle : Double.twoPow 36 ≤ Double.infinity := by decide
    rw [isSome_toGamut?_iff_of_infinity hchroma (not_accepts_standard hle)]
    exact ⟨.inr, fun h => h.resolve_left (not_not_intro hchroma)⟩
  · exact iff_of_true (isSome_toGamut? hchroma fun _ hlow _ => not_accepts_standard hlow)
      (.inl hchroma)

/-- A colour of infinite chroma. -/
def dazzling : Color := ⟨.oklch, ⟨0.5, Double.infinity, 0.0⟩, 1.0⟩

theorem toGamut?_dazzling : standard.toGamut? .srgb dazzling = none := by
  have h : ¬ (standard.toGamut? .srgb dazzling).isSome = true := by
    have hle : Double.twoPow 36 ≤ Double.infinity := by decide
    have hchroma : (standard.convert .oklch dazzling).coords.y = Double.infinity := by decide
    rw [isSome_toGamut?_iff_of_infinity hchroma (not_accepts_standard hle)]
    decide +kernel
  exact Option.not_isSome_iff_eq_none.mp h

end Conversions

end EvenChroma
