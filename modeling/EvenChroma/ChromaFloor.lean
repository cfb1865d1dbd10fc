/-
  EvenChroma/ChromaFloor.lean
  ===========================
  **How colourful every hue can be.**  At one lightness each hue has a largest
  chroma that still fits the gamut; the chroma floor is the smallest of these, and
  so a chroma that all of the hues can show.

  The largest chroma of a hue is found by halving a bracket of the chroma range.
  Whether a chroma fits is asked of a predicate, so nothing here depends on how
  colours are converted.
-/
import EvenChroma.Hues
import EvenChroma.Space

namespace EvenChroma

/-! ### One hue -/

/-- Chromas between which the boundary of the gamut is looked for. -/
structure Bracket (α : Type) where
  low : α
  high : α
deriving Repr

/-- The chroma a search ends with, and how many chromas it tested. -/
structure Found (α : Type) where
  chroma : α
  tests : Nat
deriving DecidableEq, Repr

namespace Bracket

variable {α : Type} [Scalar α]

def ofDomain (d : Domain α) : Bracket α := ⟨d.low, d.high⟩

/-- The chroma tested next. -/
def midpoint (b : Bracket α) : α := (b.low + b.high) / 2

def width (b : Bracket α) : α := b.high - b.low

/-- The half of the bracket that the test leaves. -/
@[inline] def halve (fits : α → Bool) (b : Bracket α) : Bracket α :=
  if fits b.midpoint then ⟨b.midpoint, b.high⟩ else ⟨b.low, b.midpoint⟩

theorem halve_of_fits {fits : α → Bool} {b : Bracket α} (h : fits b.midpoint = true) :
    b.halve fits = ⟨b.midpoint, b.high⟩ := if_pos h

theorem halve_of_not_fits {fits : α → Bool} {b : Bracket α} (h : fits b.midpoint = false) :
    b.halve fits = ⟨b.low, b.midpoint⟩ := by
  rw [halve, h]
  rfl

/-- The midpoint can no longer move: it is an end of the bracket. -/
def stalled (b : Bracket α) : Bool := b.midpoint == b.low || b.midpoint == b.high

/-- Halve the bracket until the half is no wider than the precision or no further
    midpoint exists, testing `fuel` midpoints at most; the answer is the last
    midpoint tested.  `tested` counts those before. -/
@[specialize] def search? (fits : α → Bool) (precision : α) :
    (fuel tested : Nat) → Bracket α → Option (Found α)
  | 0, _, _ => none
  | fuel + 1, tested, b =>
    let half := b.halve fits
    if half.width ≤ precision || b.stalled then some ⟨b.midpoint, tested + 1⟩
    else search? fits precision fuel (tested + 1) half

/-- More fuel does not change what a search ends with. -/
theorem search?_add {fits : α → Bool} {precision : α} {fuel tested : Nat} {b : Bracket α}
    {found : Found α} (extra : Nat) (h : search? fits precision fuel tested b = some found) :
    search? fits precision (fuel + extra) tested b = some found := by
  induction fuel generalizing tested b with
  | zero => cases h
  | succ fuel ih =>
    rw [Nat.succ_add_eq_add_succ, Nat.add_succ, search?]
    rw [search?] at h
    split
    · next hdone => rwa [if_pos hdone] at h
    · next hdone =>
      rw [if_neg hdone] at h
      exact ih h

/-- The search of the bracket ends, after one test at least and `n` tests at most, however many
    were made before. -/
def EndsWithin (fits : α → Bool) (precision : α) (n : Nat) (b : Bracket α) : Prop :=
  ∀ tested, ∃ found, tested < found.tests ∧ found.tests ≤ tested + n ∧
    search? fits precision n tested b = some found

namespace EndsWithin

variable {fits : α → Bool} {precision : α} {n : Nat} {b : Bracket α}

/-- One test more than for the half, which is searched only as long as the midpoint moves. -/
theorem of_halve (h : ¬ (b.halve fits).width ≤ precision → b.stalled = false →
    EndsWithin fits precision n (b.halve fits)) : EndsWithin fits precision (n + 1) b := by
  intro tested
  by_cases hdone : (decide ((b.halve fits).width ≤ precision) || b.stalled) = true
  · refine ⟨⟨b.midpoint, tested + 1⟩, Nat.lt_succ_self _, ?_, ?_⟩
    · exact Nat.add_le_add_left (Nat.le_add_left 1 n) tested
    · rw [search?, if_pos hdone]
  · rw [Bool.or_eq_true, decide_eq_true_eq, not_or, Bool.not_eq_true] at hdone
    obtain ⟨found, hmore, hfew, hfound⟩ := h hdone.1 hdone.2 (tested + 1)
    refine ⟨found, by omega, by omega, ?_⟩
    rw [search?, hdone.2, decide_eq_false hdone.1]
    exact hfound

theorem mono (h : EndsWithin fits precision n b) {m : Nat} (hle : n ≤ m) :
    EndsWithin fits precision m b := by
  intro tested
  obtain ⟨found, hmore, hfew, hfound⟩ := h tested
  obtain ⟨extra, rfl⟩ := Nat.exists_eq_add_of_le hle
  exact ⟨found, hmore, by omega, search?_add extra hfound⟩

/-- What the search ends with does not depend on the fuel. -/
theorem exists_found (h : EndsWithin fits precision n b) : ∃ found, 1 ≤ found.tests ∧
    found.tests ≤ n ∧ ∀ fuel, n ≤ fuel → search? fits precision fuel 0 b = some found := by
  obtain ⟨found, hmore, hfew, hfound⟩ := h 0
  refine ⟨found, hmore, by omega, fun fuel hle => ?_⟩
  obtain ⟨extra, rfl⟩ := Nat.exists_eq_add_of_le hle
  exact search?_add extra hfound

end EndsWithin

end Bracket

/-! ### All hues -/

section

variable {α : Type} [Scalar α]

/-- The smallest of the largest chromas of the hues, starting from `floor`; nothing if
    one of the searches needs more than `fuel` tests. -/
def lowestFrom? (search : α → Option (Found α)) (floor : α) : List α → Option α
  | [] => some floor
  | hue :: hues => do
    let found ← search hue
    lowestFrom? search (if found.chroma < floor then found.chroma else floor) hues

/-- The chroma floor of some hues: the top of the range if there is none. -/
def chromaFloor? (fits : (hue chroma : α) → Bool) (range : Domain α) (precision : α)
    (fuel : Nat) (hues : List α) : Option α :=
  lowestFrom? (fun hue => Bracket.search? (fits hue) precision fuel 0 (.ofDomain range))
    range.high hues

end

/-! ### What a floor depends on -/

/-- Everything that determines a chroma floor. -/
structure SearchParameters (α : Type) where
  lightness : α
  hues : HueSpec α
  space : Space
  gamut : Gamut
  precision : α
deriving DecidableEq, Repr

/-- Name of a chroma floor: its parameters in plain digits, joined by underscores. -/
def SearchParameters.key (p : SearchParameters Float) : String :=
  "_".intercalate [Double.text p.lightness, p.hues.text, p.space.name, p.gamut.name,
    Double.text p.precision]

end EvenChroma
