/-
  EvenChroma/Proofs/SearchEnd.lean
  ================================
  **Every search ends.**  Whatever the test answers and whatever the precision, the bracket
  loses a number at every turn: the midpoint was strictly inside and becomes an end.  So in
  an arithmetic with finitely many numbers the midpoint cannot move forever, and it never
  leaves the range.
-/
import EvenChroma.ChromaFloor
import EvenChroma.Proofs.DoubleFields
import EvenChroma.Proofs.DoubleMidpoints

namespace EvenChroma

/-! ### Arithmetics with rounding -/

/-- Comparisons are those of an order on the numbers that compare to anything, so NaN may be
    there; numbers below each other are equal. -/
structure Scalar.Ordered (α : Type) [Scalar α] : Prop where
  le_self : ∀ {x y : α}, x ≤ y → x ≤ x ∧ y ≤ y
  le_trans : ∀ {x y z : α}, x ≤ y → y ≤ z → x ≤ z
  beq_of_le_of_le : ∀ {x y : α}, x ≤ y → y ≤ x → (x == y) = true

namespace Bracket

variable {α : Type} [Scalar α] {fits : α → Bool} {range : Domain α} {b : Bracket α}
  {precision : α}

/-- The bracket is a part of the range. -/
structure Within (range : Domain α) (b : Bracket α) : Prop where
  range_le : range.low ≤ b.low
  low_le_high : b.low ≤ b.high
  le_range : b.high ≤ range.high

end Bracket

/-- Midpoints of brackets in the range lie in their brackets, rounded as they may be. -/
def Domain.KeepsMidpoints {α : Type} [Scalar α] (range : Domain α) : Prop :=
  ∀ b : Bracket α, b.Within range → b.low ≤ b.midpoint ∧ b.midpoint ≤ b.high

/-! ### One step -/

namespace Bracket

variable {α : Type} [Scalar α] {fits : α → Bool} {range : Domain α} {b : Bracket α}
  {precision : α}

theorem within_ofDomain (hα : Scalar.Ordered α) (hrange : range.low ≤ range.high) :
    (ofDomain range).Within range :=
  ⟨(hα.le_self hrange).1, hrange, (hα.le_self hrange).2⟩

/-- Halving moves one end to the midpoint and keeps the other. -/
theorem halve_cases (fits : α → Bool) (b : Bracket α) :
    b.halve fits = ⟨b.midpoint, b.high⟩ ∨ b.halve fits = ⟨b.low, b.midpoint⟩ := by
  cases h : fits b.midpoint with
  | true => exact .inl (halve_of_fits h)
  | false => exact .inr (halve_of_not_fits h)

theorem Within.halve (hα : Scalar.Ordered α) (hmid : range.KeepsMidpoints) (fits : α → Bool)
    (h : b.Within range) : (b.halve fits).Within range := by
  obtain ⟨hlow, hhigh⟩ := hmid b h
  rcases halve_cases fits b with hhalf | hhalf
  · rw [hhalf]
    exact ⟨hα.le_trans h.range_le hlow, hhigh, h.le_range⟩
  · rw [hhalf]
    exact ⟨h.range_le, hlow, hα.le_trans hhigh h.le_range⟩

/-- A half is a part of its bracket. -/
theorem within_halve (hα : Scalar.Ordered α) (hmid : range.KeepsMidpoints) (fits : α → Bool)
    (h : b.Within range) : (b.halve fits).Within ⟨b.low, b.high⟩ := by
  obtain ⟨hlow, hhigh⟩ := hmid b h
  obtain ⟨hself, hself'⟩ := hα.le_self h.low_le_high
  rcases halve_cases fits b with hhalf | hhalf
  · rw [hhalf]
    exact ⟨hlow, hhigh, hself'⟩
  · rw [hhalf]
    exact ⟨hself, hlow, hhigh⟩

/-- The numbers strictly between the ends. -/
def inside (b : Bracket α) : Set α :=
  {x | b.low ≤ x ∧ x ≤ b.high ∧ ¬ x ≤ b.low ∧ ¬ b.high ≤ x}

/-- A midpoint that has not stalled is inside. -/
theorem midpoint_mem_inside (hα : Scalar.Ordered α) (hmid : range.KeepsMidpoints)
    (h : b.Within range) (hmoves : b.stalled = false) : b.midpoint ∈ b.inside := by
  obtain ⟨hlow, hhigh⟩ := hmid b h
  rw [stalled, Bool.or_eq_false_iff] at hmoves
  refine ⟨hlow, hhigh, fun hle => ?_, fun hle => ?_⟩
  · have hstalled := hα.beq_of_le_of_le hle hlow
    rw [hmoves.1] at hstalled
    cases hstalled
  · have hstalled := hα.beq_of_le_of_le hhigh hle
    rw [hmoves.2] at hstalled
    cases hstalled

/-- **A half has fewer numbers inside than its bracket**, as long as the midpoint moves. -/
theorem inside_halve_ssubset (hα : Scalar.Ordered α) (hmid : range.KeepsMidpoints)
    (fits : α → Bool) (h : b.Within range) (hmoves : b.stalled = false) :
    (b.halve fits).inside ⊂ b.inside := by
  obtain ⟨hlow, hhigh⟩ := hmid b h
  have hinside := midpoint_mem_inside hα hmid h hmoves
  have hself : b.midpoint ≤ b.midpoint := (hα.le_self hlow).2
  rw [Set.ssubset_iff_of_subset]
  · -- the midpoint itself is lost, for it is an end of the half
    refine ⟨b.midpoint, hinside, ?_⟩
    rcases halve_cases fits b with hhalf | hhalf
    · rw [hhalf]
      exact fun hlost => hlost.2.2.1 hself
    · rw [hhalf]
      exact fun hlost => hlost.2.2.2 hself
  · rintro x hx
    rcases halve_cases fits b with hhalf | hhalf
    · rw [hhalf] at hx
      obtain ⟨hge, hle, hnotlow, hnothigh⟩ := hx
      exact ⟨hα.le_trans hlow hge, hle, fun hx => hnotlow (hα.le_trans hx hlow), hnothigh⟩
    · rw [hhalf] at hx
      obtain ⟨hge, hle, hnotlow, hnothigh⟩ := hx
      exact ⟨hge, hα.le_trans hle hhigh, hnotlow, fun hx => hnothigh (hα.le_trans hhigh hx)⟩

/-! ### A whole search -/

/-- What a search ends with lies in the bracket that it started from. -/
theorem mem_of_search? (hα : Scalar.Ordered α) (hmid : range.KeepsMidpoints)
    {fuel tested : Nat} {found : Found α} (h : b.Within range)
    (hfound : search? fits precision fuel tested b = some found) :
    b.low ≤ found.chroma ∧ found.chroma ≤ b.high := by
  induction fuel generalizing tested b with
  | zero => cases hfound
  | succ fuel ih =>
    rw [search?] at hfound
    split at hfound
    · cases hfound
      exact hmid b h
    · have hpart := within_halve hα hmid fits h
      obtain ⟨hlow, hhigh⟩ := ih (h.halve hα hmid fits) hfound
      exact ⟨hα.le_trans hpart.range_le hlow, hα.le_trans hhigh hpart.le_range⟩

/-- **A search makes at most one test more than there are numbers inside its bracket.** -/
theorem endsWithin_of_ncard_lt [Finite α] (hα : Scalar.Ordered α) (hmid : range.KeepsMidpoints)
    {n : Nat} (h : b.Within range) (hn : b.inside.ncard < n) : EndsWithin fits precision n b := by
  induction n generalizing b with
  | zero => cases hn
  | succ n ih =>
    apply EndsWithin.of_halve
    intro _ hmoves
    have hfewer : (b.halve fits).inside.ncard < b.inside.ncard :=
      Set.ncard_lt_ncard (inside_halve_ssubset hα hmid fits h hmoves) (Set.toFinite _)
    exact ih (h.halve hα hmid fits) (by omega)

end Bracket

/-! ### Doubles -/

namespace Double

theorem ordered : Scalar.Ordered Float where
  le_self h := by
    obtain ⟨hx, hy, -⟩ := le_iff.mp h
    exact ⟨le_iff.mpr ⟨hx, hx, le_refl _⟩, le_iff.mpr ⟨hy, hy, le_refl _⟩⟩
  le_trans := Double.le_trans
  beq_of_le_of_le hxy hyx := by
    obtain ⟨hx, hy, hxy⟩ := le_iff.mp hxy
    exact beq_of_rank_eq hx hy (le_antisymm hxy (le_iff.mp hyx).2.2)

theorem keepsMidpoints (space : Space) :
    (space.chromaDomain : Domain Float).KeepsMidpoints := by
  rintro b ⟨hlow, hle, hhigh⟩
  cases space with
  | oklch =>
    have hone : (1 : Float) ≤ 200 := by decide
    exact midpoint_between hlow hle (Double.le_trans hhigh hone)
  | hct => exact midpoint_between hlow hle hhigh

theorem finite_float : Finite Float := by
  have hwords : Finite UInt64 :=
    Finite.of_injective UInt64.toBitVec fun _ _ => UInt64.toBitVec_inj.mp
  exact Finite.of_injective Float.toBits fun _ _ => toBits_injective

end Double

/-! ### The chroma range -/

namespace Bracket

/-- **Every search of the chroma range ends, with a chroma of the range**, for any test and
    any precision: once the fuel exceeds the number of chromas in the range, the search makes
    no more tests than that and its end no longer depends on the fuel. -/
theorem search?_ends {α : Type} [Scalar α] [Finite α] (hα : Scalar.Ordered α) (space : Space)
    (hrange : (space.chromaDomain : Domain α).low ≤ (space.chromaDomain : Domain α).high)
    (hmid : (space.chromaDomain : Domain α).KeepsMidpoints) (fits : (hue chroma : α) → Bool)
    (hue precision : α) :
    let range : Domain α := space.chromaDomain
    let chromas := (ofDomain range).inside.ncard
    ∃ found, range.low ≤ found.chroma ∧ found.chroma ≤ range.high ∧
      found.tests ≤ chromas + 1 ∧ ∀ fuel, chromas < fuel →
        search? (fits hue) precision fuel 0 (ofDomain range) = some found := by
  intro range chromas
  have hwithin := within_ofDomain hα hrange
  have hends : EndsWithin (fits hue) precision (chromas + 1) (ofDomain range) :=
    endsWithin_of_ncard_lt hα hmid hwithin (Nat.lt_succ_self chromas)
  obtain ⟨found, -, htests, hfound⟩ := hends.exists_found
  obtain ⟨hlow, hhigh⟩ := mem_of_search? hα hmid hwithin (hfound _ (le_refl _))
  exact ⟨found, hlow, hhigh, htests, hfound⟩

/-- Doubles with a precision of NaN and a test without a largest chroma. -/
theorem search?_ends_nan :
    let range : Domain Float := Space.hct.chromaDomain
    let fits : (hue chroma : Float) → Bool := fun hue c => !(hue ≤ c && c ≤ 90)
    ∃ found : Found Float, 0 ≤ found.chroma ∧ found.chroma ≤ 200 ∧
      ∀ fuel, (ofDomain range).inside.ncard < fuel →
        search? (fits 30) Double.nan fuel 0 (ofDomain range) = some found := by
  intro range fits
  have hfinite := Double.finite_float
  obtain ⟨found, hlow, hhigh, -, hends⟩ := search?_ends Double.ordered .hct (by decide)
    (Double.keepsMidpoints .hct) fits 30 Double.nan
  exact ⟨found, hlow, hhigh, hends⟩

end Bracket

end EvenChroma
