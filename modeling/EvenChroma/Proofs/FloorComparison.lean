/-
  EvenChroma/Proofs/FloorComparison.lean
  ======================================
  **A wider gamut or fewer hues never lower the floor.**  Two searches with tests of which
  one implies the other halve alike until the tests disagree; from there on their brackets
  lie on two sides of one midpoint, and so do the chromas that they end with.  A floor is
  the least of what the searches of its hues end with and the top of the range
  (`Results.isLeast`), hence depends on the set of its hues only.

  None of this needs a gamut without holes: the tests are arbitrary.
-/
import Mathlib.Order.Bounds.Lattice
import EvenChroma.Proofs.FloorAccuracy
import EvenChroma.Proofs.SearchEnd

namespace EvenChroma

/-! ### Exact midpoints -/

theorem ordered_real : Scalar.Ordered ℝ where
  le_self _ := ⟨le_refl _, le_refl _⟩
  le_trans := le_trans
  beq_of_le_of_le hxy hyx := beq_iff_eq.mpr (le_antisymm hxy hyx)

namespace Bracket

variable {fits narrow wide : ℝ → Bool} {b : Bracket ℝ} {precision : ℝ} {fuel tested : Nat}
  {found found' : Found ℝ}

theorem low_le_midpoint (h : b.low ≤ b.high) : b.low ≤ b.midpoint := by
  rw [midpoint_eq]
  linarith

theorem midpoint_le_high (h : b.low ≤ b.high) : b.midpoint ≤ b.high := by
  rw [midpoint_eq]
  linarith

theorem keepsMidpoints_real (range : Domain ℝ) : range.KeepsMidpoints := fun _ h =>
  ⟨low_le_midpoint h.low_le_high, midpoint_le_high h.low_le_high⟩

theorem chroma_mem (h : b.low ≤ b.high)
    (hfound : search? fits precision fuel tested b = some found) :
    b.low ≤ found.chroma ∧ found.chroma ≤ b.high :=
  mem_of_search? ordered_real (keepsMidpoints_real ⟨b.low, b.high⟩)
    ⟨le_refl _, h, le_refl _⟩ hfound

/-! ### One search -/

/-- **A test that more chromas pass never gives a smaller result.** -/
theorem search?_le_search? (hsub : ∀ c, narrow c = true → wide c = true) (h : b.low ≤ b.high)
    (hfound : search? narrow precision fuel tested b = some found)
    (hfound' : search? wide precision fuel tested b = some found') :
    found.chroma ≤ found'.chroma := by
  induction fuel generalizing tested b with
  | zero => cases hfound
  | succ fuel ih =>
    rw [search?] at hfound hfound'
    -- the halves are equally wide, so both searches stop here or neither does
    rw [width_halve] at hfound hfound'
    split at hfound
    · next hdone =>
      rw [if_pos hdone] at hfound'
      cases hfound
      cases hfound'
      exact le_refl _
    · next hgoes =>
      rw [if_neg hgoes] at hfound'
      cases hnarrow : narrow b.midpoint with
      | true =>
        rw [halve_of_fits hnarrow] at hfound
        rw [halve_of_fits (hsub _ hnarrow)] at hfound'
        exact ih (midpoint_le_high h) hfound hfound'
      | false =>
        cases hwide : wide b.midpoint with
        | false =>
          rw [halve_of_not_fits hnarrow] at hfound
          rw [halve_of_not_fits hwide] at hfound'
          exact ih (low_le_midpoint h) hfound hfound'
        | true =>
          -- here the tests disagree, and the midpoint stays between the two results
          rw [halve_of_not_fits hnarrow] at hfound
          rw [halve_of_fits hwide] at hfound'
          have hbelow := (chroma_mem (low_le_midpoint h) hfound).2
          have habove := (chroma_mem (midpoint_le_high h) hfound').1
          exact hbelow.trans habove

end Bracket

/-! ### Searches and floors of one test -/

/-- With enough fuel the search of each hue ends with the chroma `largest hue`, and each list
    of hues has the chroma floor `floor hues`. -/
structure Results (fits : (hue chroma : ℝ) → Bool) (range : Domain ℝ) (precision : ℝ)
    (largest : ℝ → ℝ) (floor : List ℝ → ℝ) : Prop where
  searches : ∃ enough, ∀ fuel, enough ≤ fuel → ∀ hue, ∃ found,
    Bracket.search? (fits hue) precision fuel 0 (.ofDomain range) = some found ∧
      found.chroma = largest hue
  floors : ∃ enough, ∀ fuel, enough ≤ fuel → ∀ hues,
    chromaFloor? fits range precision fuel hues = some (floor hues)

theorem exists_results (fits : (hue chroma : ℝ) → Bool) (range : Domain ℝ) {precision : ℝ}
    (hpos : 0 < precision) : ∃ largest floor, Results fits range precision largest floor := by
  obtain ⟨n, hwidth⟩ := exists_width_le range hpos
  have hsearch : ∀ hue, ∃ found, ∀ fuel, n + 1 ≤ fuel →
      Bracket.search? (fits hue) precision fuel 0 (.ofDomain range) = some found := by
    intro hue
    obtain ⟨found, -, -, hfound⟩ := (Bracket.endsWithin_of_width (fits hue) hwidth).exists_found
    exact ⟨found, hfound⟩
  choose found hfound using hsearch
  have hfloor := fun hues => exists_lowestFrom? found hues range.high
  choose floor _ _ _ heq using hfloor
  refine ⟨fun hue => (found hue).chroma, floor, ⟨n + 1, ?_⟩, ⟨n + 1, ?_⟩⟩
  · exact fun fuel hfuel hue => ⟨found hue, hfound hue fuel hfuel, rfl⟩
  · exact fun fuel hfuel hues => heq hues _ fun hue _ => hfound hue fuel hfuel

namespace Results

variable {fits narrow wide : (hue chroma : ℝ) → Bool} {range : Domain ℝ} {precision : ℝ}
  {largest largest' : ℝ → ℝ} {floor floor' : List ℝ → ℝ}

/-- **A floor is the least of the results of its hues and the top of the range.** -/
theorem isLeast (h : Results fits range precision largest floor) (hues : List ℝ) :
    IsLeast (insert range.high (largest '' {hue | hue ∈ hues})) (floor hues) := by
  obtain ⟨enough, hsearches⟩ := h.searches
  obtain ⟨enough', hfloors⟩ := h.floors
  have hsearch := hsearches (max enough enough') (le_max_left _ _)
  have hfloor := hfloors (max enough enough') (le_max_right _ _) hues
  choose found hfound hlargest using hsearch
  obtain ⟨lowest, hle, hall, hattained, heq⟩ := exists_lowestFrom? found hues range.high
  have hlowest : floor hues = lowest :=
    Option.some.inj (hfloor.symm.trans (heq _ fun hue _ => hfound hue))
  rw [hlowest]
  constructor
  · rcases hattained with htop | ⟨hue, hhue, hlowest⟩
    · exact .inl htop
    · exact .inr ⟨hue, hhue, (hlargest hue).symm.trans hlowest.symm⟩
  · rintro c (rfl | ⟨hue, hhue, rfl⟩)
    · exact hle
    · rw [← hlargest hue]
      exact hall hue hhue

theorem floor_append (h : Results fits range precision largest floor) (xs ys : List ℝ) :
    floor (xs ++ ys) = min (floor xs) (floor ys) := by
  have hunion := (h.isLeast xs).union (h.isLeast ys)
  rw [← Set.insert_union_distrib, ← Set.image_union] at hunion
  have hmem : {hue | hue ∈ xs ++ ys} = {hue | hue ∈ xs} ∪ {hue | hue ∈ ys} :=
    Set.ext fun hue => List.mem_append
  have happend := h.isLeast (xs ++ ys)
  rw [hmem] at happend
  exact happend.unique hunion

theorem floor_le_of_subset (h : Results fits range precision largest floor) {xs ys : List ℝ}
    (hsub : xs ⊆ ys) : floor ys ≤ floor xs :=
  (h.isLeast xs).mono (h.isLeast ys) (Set.insert_subset_insert (Set.image_mono hsub))

theorem floor_eq_of_mem_iff (h : Results fits range precision largest floor) {xs ys : List ℝ}
    (hmem : ∀ hue, hue ∈ xs ↔ hue ∈ ys) : floor xs = floor ys :=
  le_antisymm (h.floor_le_of_subset fun hue => (hmem hue).mpr)
    (h.floor_le_of_subset fun hue => (hmem hue).mp)

theorem largest_le (hrange : range.low ≤ range.high)
    (hsub : ∀ hue c, narrow hue c = true → wide hue c = true)
    (h : Results narrow range precision largest floor)
    (h' : Results wide range precision largest' floor') (hue : ℝ) :
    largest hue ≤ largest' hue := by
  obtain ⟨enough, hsearches⟩ := h.searches
  obtain ⟨enough', hsearches'⟩ := h'.searches
  obtain ⟨found, hfound, hlargest⟩ := hsearches (max enough enough') (le_max_left _ _) hue
  obtain ⟨found', hfound', hlargest'⟩ := hsearches' (max enough enough') (le_max_right _ _) hue
  rw [← hlargest, ← hlargest']
  exact Bracket.search?_le_search? (hsub hue) hrange hfound hfound'

theorem floor_le (h : Results narrow range precision largest floor)
    (h' : Results wide range precision largest' floor')
    (hle : ∀ hue, largest hue ≤ largest' hue) (hues : List ℝ) : floor hues ≤ floor' hues := by
  obtain ⟨hattained, -⟩ := h'.isLeast hues
  obtain ⟨-, hleast⟩ := h.isLeast hues
  rcases hattained with htop | ⟨hue, hhue, hfloor⟩
  · rw [htop]
    exact hleast (Set.mem_insert _ _)
  · rw [← hfloor]
    exact (hleast (.inr ⟨hue, hhue, rfl⟩)).trans (hle hue)

end Results

/-! ### Two gamuts, two lists of hues -/

/-- **A wider gamut never lowers the largest chroma of a hue or a floor, and more hues never
    raise a floor**: the floor of two lists in one is the smaller of their floors, so neither
    the order of hues nor a repetition matters. -/
theorem largest_le_and_floor_append (space : Space) {precision : ℝ} (hpos : 0 < precision)
    {narrow wide : (hue chroma : ℝ) → Bool}
    (hsub : ∀ hue c, narrow hue c = true → wide hue c = true) :
    ∃ largest floor largest' floor',
      Results narrow space.chromaDomain precision largest floor ∧
      Results wide space.chromaDomain precision largest' floor' ∧
      (∀ hue, largest hue ≤ largest' hue) ∧
      (∀ hues, floor hues ≤ floor' hues) ∧
      (∀ xs ys, floor (xs ++ ys) = min (floor xs) (floor ys)) ∧
      (∀ xs ys, (∀ hue, hue ∈ xs ↔ hue ∈ ys) → floor xs = floor ys) ∧
      ∀ xs ys, xs ⊆ ys → floor ys ≤ floor xs := by
  obtain ⟨largest, floor, h⟩ := exists_results narrow space.chromaDomain hpos
  obtain ⟨largest', floor', h'⟩ := exists_results wide space.chromaDomain hpos
  have hle := h.largest_le (chromaDomain_low_le_high space) hsub h'
  exact ⟨largest, floor, largest', floor', h, h', hle, h.floor_le h' hle, h.floor_append,
    fun _ _ => h.floor_eq_of_mem_iff, fun _ _ => h.floor_le_of_subset⟩

/-- The wider gamut has a single chroma more, the first midpoint. -/
theorem largest_le_and_floor_append_island :
    let narrow : (hue chroma : ℝ) → Bool := fun hue c => decide (c ≤ hue / 1000)
    let wide : (hue chroma : ℝ) → Bool := fun hue c => decide (c ≤ hue / 1000 ∨ c = 1 / 2)
    ∃ largest floor largest' floor',
      Results narrow Space.oklch.chromaDomain (1 / 10) largest floor ∧
      Results wide Space.oklch.chromaDomain (1 / 10) largest' floor' ∧
      largest 240 ≤ largest' 240 ∧ floor [240, 120] ≤ floor' [240, 120] ∧
      floor [240, 120, 240] = min (floor [240]) (floor [120, 240]) ∧
      floor [240, 120, 240] = floor [120, 240] ∧ floor [240, 120] ≤ floor [240] := by
  intro narrow wide
  have hsub : ∀ hue c, narrow hue c = true → wide hue c = true := by
    intro hue c hnarrow
    exact decide_eq_true (.inl (of_decide_eq_true hnarrow))
  obtain ⟨largest, floor, largest', floor', h, h', hlargest, hfloor, happend, hset, hanti⟩ :=
    largest_le_and_floor_append .oklch (by norm_num : (0 : ℝ) < 1 / 10) hsub
  refine ⟨largest, floor, largest', floor', h, h', hlargest 240, hfloor [240, 120],
    happend [240] [120, 240], hset _ _ fun hue => ?_, hanti _ _ (by simp)⟩
  simp only [List.mem_cons, List.not_mem_nil, or_false]
  tauto

end EvenChroma
