/-
  EvenChroma/Proofs/FloorAccuracy.lean
  ====================================
  **The chroma floor is right to within the precision.**  Over exact numbers the bracket
  always holds the largest chroma that fits (`Bracket.Around`), and its last midpoint is an
  end of the last bracket, which is no wider than the precision.  So every search ends near
  the truth, and the smallest result is near the smallest truth.
-/
import Mathlib.Algebra.Order.Archimedean.Real.Basic
import Mathlib.Data.Set.Finite.Lemmas
import Mathlib.Data.Set.Finite.List
import Mathlib.Tactic.Linarith
import Mathlib.Tactic.Ring
import EvenChroma.ChromaFloor
import EvenChroma.Proofs.ExactNumbers

namespace EvenChroma

/-- The chromas of the range that pass the test. -/
def Domain.fitting (range : Domain ℝ) (fits : ℝ → Bool) : Set ℝ :=
  {c | range.low ≤ c ∧ c ≤ range.high ∧ fits c = true}

/-- Below a chroma that fits every chroma of the range fits, and the lowest one does. -/
structure Domain.DownwardClosed (range : Domain ℝ) (fits : ℝ → Bool) : Prop where
  bottom : fits range.low = true
  closed : ∀ c d, range.low ≤ c → c ≤ d → d ≤ range.high → fits d = true → fits c = true

/-! ### One step -/

namespace Bracket

variable {fits : ℝ → Bool} {range : Domain ℝ} {b : Bracket ℝ} {top precision : ℝ}

/-- The bracket is part of the range and holds the chroma `top`. -/
structure Around (range : Domain ℝ) (top : ℝ) (b : Bracket ℝ) : Prop where
  range_le : range.low ≤ b.low
  low_le : b.low ≤ top
  le_high : top ≤ b.high
  le_range : b.high ≤ range.high

theorem midpoint_eq (b : Bracket ℝ) : b.midpoint = (b.low + b.high) / 2 := rfl

theorem width_eq (b : Bracket ℝ) : b.width = b.high - b.low := rfl

theorem width_halve (fits : ℝ → Bool) (b : Bracket ℝ) : (b.halve fits).width = b.width / 2 := by
  cases h : fits b.midpoint with
  | true => rw [halve_of_fits h, width_eq, width_eq, midpoint_eq]; ring
  | false => rw [halve_of_not_fits h, width_eq, width_eq, midpoint_eq]; ring

/-- **Halving keeps the largest chroma that fits inside the bracket.** -/
theorem Around.halve (hclosed : range.DownwardClosed fits)
    (htop : IsLUB (range.fitting fits) top) (h : b.Around range top) :
    (b.halve fits).Around range top := by
  obtain ⟨hrange, hlow, hhigh, hrange'⟩ := h
  have hmid := midpoint_eq b
  have hin : range.low ≤ b.midpoint ∧ b.midpoint ≤ range.high := by
    constructor
    · linarith
    · linarith
  cases hfits : fits b.midpoint with
  | true =>
    have hle : b.midpoint ≤ top := htop.1 ⟨hin.1, hin.2, hfits⟩
    rw [halve_of_fits hfits]
    exact ⟨hin.1, hle, hhigh, hrange'⟩
  | false =>
    -- whatever fits above the midpoint would make the midpoint fit
    have hge : top ≤ b.midpoint := by
      apply htop.2
      rintro c ⟨-, hc, hfitsc⟩
      by_contra hlt
      have hmidpoint := hclosed.closed _ _ hin.1 (le_of_not_ge hlt) hc hfitsc
      rw [hfits] at hmidpoint
      cases hmidpoint
    rw [halve_of_not_fits hfits]
    exact ⟨hrange, hlow, hge, hin.2⟩

/-- The midpoint that was tested is an end of the half, which holds the truth. -/
theorem abs_midpoint_sub_le (h : (b.halve fits).Around range top) :
    |b.midpoint - top| ≤ (b.halve fits).width := by
  obtain ⟨-, hlow, hhigh, -⟩ := h
  rw [abs_le, width_eq]
  cases hfits : fits b.midpoint with
  | true =>
    rw [halve_of_fits hfits] at hlow hhigh ⊢
    dsimp only at hlow hhigh ⊢
    constructor <;> linarith
  | false =>
    rw [halve_of_not_fits hfits] at hlow hhigh ⊢
    dsimp only at hlow hhigh ⊢
    constructor <;> linarith

/-- Exact midpoints are strictly inside, so only an empty bracket stalls. -/
theorem width_of_stalled (h : b.stalled = true) : b.width = 0 := by
  rw [stalled, Bool.or_eq_true, beq_iff_eq, beq_iff_eq, midpoint_eq] at h
  rw [width_eq]
  rcases h with h | h <;> linarith

/-! ### One search -/

/-- A search makes one test more for each time that the precision has to be doubled to reach
    half the width. -/
theorem endsWithin_of_width (fits : ℝ → Bool) {n : Nat}
    (hwidth : b.width ≤ precision * 2 ^ (n + 1)) : EndsWithin fits precision (n + 1) b := by
  induction n generalizing b with
  | zero =>
    apply EndsWithin.of_halve
    intro hwide _
    refine (hwide ?_).elim
    rw [zero_add, pow_one] at hwidth
    rw [width_halve]
    linarith
  | succ n ih =>
    apply EndsWithin.of_halve
    intro _ _
    apply ih
    rw [width_halve]
    rw [pow_succ] at hwidth
    linarith

/-- **A search ends within the precision of the largest chroma that fits.** -/
theorem near_of_search? (hclosed : range.DownwardClosed fits)
    (htop : IsLUB (range.fitting fits) top) (hpos : 0 < precision) {fuel tested : Nat}
    {found : Found ℝ} (h : b.Around range top)
    (hfound : search? fits precision fuel tested b = some found) :
    |found.chroma - top| ≤ precision := by
  induction fuel generalizing tested b with
  | zero => cases hfound
  | succ fuel ih =>
    have hhalf := h.halve hclosed htop
    rw [search?] at hfound
    split at hfound
    · next hdone =>
      cases hfound
      refine (abs_midpoint_sub_le hhalf).trans ?_
      rw [Bool.or_eq_true, decide_eq_true_eq] at hdone
      rcases hdone with hdone | hstalled
      · exact hdone
      · rw [width_halve, width_of_stalled hstalled, zero_div]
        exact hpos.le
    · exact ih hhalf hfound

end Bracket

/-! ### All hues -/

/-- What the searches of the hues find decides on the result, whatever fuel they need. -/
theorem exists_lowestFrom? (found : ℝ → Found ℝ) (hues : List ℝ) (floor : ℝ) :
    ∃ lowest, lowest ≤ floor ∧ (∀ hue ∈ hues, lowest ≤ (found hue).chroma) ∧
      (lowest = floor ∨ ∃ hue ∈ hues, lowest = (found hue).chroma) ∧
      ∀ search, (∀ hue ∈ hues, search hue = some (found hue)) →
        lowestFrom? search floor hues = some lowest := by
  induction hues generalizing floor with
  | nil => exact ⟨floor, le_refl floor, by simp, .inl rfl, fun _ _ => rfl⟩
  | cons hue hues ih =>
    obtain ⟨lowest, hle, hall, hattained, heq⟩ :=
      ih (if (found hue).chroma < floor then (found hue).chroma else floor)
    rw [← min_def_lt] at hle hattained
    refine ⟨lowest, hle.trans (min_le_right _ _), ?_, ?_, ?_⟩
    · rw [List.forall_mem_cons]
      exact ⟨hle.trans (min_le_left _ _), hall⟩
    · rcases hattained with hmin | ⟨other, hother, hlowest⟩
      · rcases min_choice (found hue).chroma floor with hchoice | hchoice
        · exact .inr ⟨hue, by simp, hmin.trans hchoice⟩
        · exact .inl (hmin.trans hchoice)
      · exact .inr ⟨other, List.mem_cons_of_mem _ hother, hlowest⟩
    · intro search hsearch
      obtain ⟨hhue, hhues⟩ := List.forall_mem_cons.mp hsearch
      rw [lowestFrom?, hhue]
      exact heq search hhues

theorem exists_isLUB {range : Domain ℝ} {fits : ℝ → Bool} (hrange : range.low ≤ range.high)
    (hclosed : range.DownwardClosed fits) :
    ∃ top, IsLUB (range.fitting fits) top ∧ range.low ≤ top ∧ top ≤ range.high := by
  have hbottom : range.low ∈ range.fitting fits := ⟨le_refl _, hrange, hclosed.bottom⟩
  have hbounded : range.high ∈ upperBounds (range.fitting fits) := fun c hc => hc.2.1
  have htop := isLUB_csSup ⟨_, hbottom⟩ ⟨_, hbounded⟩
  exact ⟨_, htop, htop.1 hbottom, htop.2 hbounded⟩

theorem exists_width_le (range : Domain ℝ) {precision : ℝ} (hpos : 0 < precision) :
    ∃ fuel : Nat, (Bracket.ofDomain range).width ≤ precision * 2 ^ (fuel + 1) := by
  obtain ⟨n, hn⟩ := pow_unbounded_of_one_lt ((Bracket.ofDomain range).width / precision)
    (one_lt_two : (1 : ℝ) < 2)
  refine ⟨n, ?_⟩
  rw [div_lt_iff₀ hpos] at hn
  have hpow : (0 : ℝ) < 2 ^ n := by positivity
  rw [pow_succ]
  nlinarith

/-- The number is the smallest of the largest chromas that the hues can show. -/
def IsChromaFloor (fits : (hue chroma : ℝ) → Bool) (range : Domain ℝ) (hues : List ℝ)
    (floor : ℝ) : Prop :=
  IsLeast {top | ∃ hue ∈ hues, IsLUB (range.fitting (fits hue)) top} floor

section

variable {fits : (hue chroma : ℝ) → Bool} {range : Domain ℝ} {precision : ℝ} {hues : List ℝ}

theorem exists_isChromaFloor (hrange : range.low ≤ range.high) (hhues : hues ≠ [])
    (hclosed : ∀ hue ∈ hues, range.DownwardClosed (fits hue)) :
    ∃ floor, IsChromaFloor fits range hues floor ∧ floor ≤ range.high := by
  have htops := fun hue hhue => exists_isLUB hrange (hclosed hue hhue)
  choose! top htop hlow hhigh using htops
  obtain ⟨lowest, hlowest, hleast⟩ :=
    Set.exists_min_image {hue | hue ∈ hues} top hues.finite_toSet
      (List.exists_mem_of_ne_nil _ hhues)
  refine ⟨top lowest, ⟨⟨lowest, hlowest, htop lowest hlowest⟩, ?_⟩, hhigh lowest hlowest⟩
  rintro other ⟨hue, hhue, hother⟩
  rw [hother.unique (htop hue hhue)]
  exact hleast hue hhue

theorem exists_chromaFloor? (hrange : range.low ≤ range.high) (hpos : 0 < precision)
    (hclosed : ∀ hue ∈ hues, range.DownwardClosed (fits hue)) {truth : ℝ}
    (htruth : IsChromaFloor fits range hues truth) (hhigh : truth ≤ range.high) :
    ∃ floor, |floor - truth| ≤ precision ∧ ∃ enough, ∀ fuel, enough ≤ fuel →
      chromaFloor? fits range precision fuel hues = some floor := by
  obtain ⟨n, hwidth⟩ := exists_width_le range hpos
  have hsearch : ∀ hue ∈ hues, ∃ found top, IsLUB (range.fitting (fits hue)) top ∧
      |found.chroma - top| ≤ precision ∧ ∀ fuel, n + 1 ≤ fuel →
        Bracket.search? (fits hue) precision fuel 0 (.ofDomain range) = some found := by
    intro hue hhue
    obtain ⟨top, htop, hlow, htophigh⟩ := exists_isLUB hrange (hclosed hue hhue)
    obtain ⟨found, -, -, hfound⟩ := (Bracket.endsWithin_of_width (fits hue) hwidth).exists_found
    exact ⟨found, top, htop, Bracket.near_of_search? (hclosed hue hhue) htop hpos
      ⟨le_refl _, hlow, htophigh, le_refl _⟩ (hfound _ (le_refl _)), hfound⟩
  have : Nonempty (Found ℝ) := ⟨⟨0, 0⟩⟩
  choose! found top htop hnear hfound using hsearch
  obtain ⟨lowest, hle, hall, hattained, heq⟩ := exists_lowestFrom? found hues range.high
  refine ⟨lowest, ?_, n + 1, fun fuel hfuel => heq _ fun hue hhue => hfound hue hhue fuel hfuel⟩
  obtain ⟨⟨deepest, hdeepest, hlub⟩, hleast⟩ := htruth
  rw [abs_le]
  constructor
  · -- no search falls short of its own truth by more than the precision
    rcases hattained with rfl | ⟨hue, hhue, rfl⟩
    · linarith
    · have hle := hleast ⟨hue, hhue, htop hue hhue⟩
      have hnear := (abs_le.mp (hnear hue hhue)).1
      linarith
  · -- the search of the hue with the least truth ends near it
    have hle := hall deepest hdeepest
    have hnear := (abs_le.mp (hnear deepest hdeepest)).2
    rw [(htop deepest hdeepest).unique hlub] at hnear
    linarith

end

theorem chromaDomain_oklch : (Space.oklch.chromaDomain : Domain ℝ) = ⟨0, 1⟩ :=
  congrArg₂ Domain.mk Nat.cast_zero Nat.cast_one

theorem chromaDomain_hct : (Space.hct.chromaDomain : Domain ℝ) = ⟨0, 200⟩ :=
  congrArg₂ Domain.mk Nat.cast_zero (Nat.cast_ofNat (R := ℝ))

theorem chromaDomain_low_le_high (space : Space) :
    (space.chromaDomain : Domain ℝ).low ≤ (space.chromaDomain : Domain ℝ).high := by
  cases space with
  | oklch => rw [chromaDomain_oklch]; norm_num
  | hct => rw [chromaDomain_hct]; norm_num

/-- **The chroma floor is found for every precision, and is right to within it.**  Less
    chroma, by more than the precision, fits at every hue; at some hue more does not. -/
theorem chromaFloor?_near (space : Space) {fits : (hue chroma : ℝ) → Bool} {precision : ℝ}
    (hpos : 0 < precision) {hues : List ℝ} (hhues : hues ≠ [])
    (hclosed : ∀ hue ∈ hues, space.chromaDomain.DownwardClosed (fits hue)) :
    let range : Domain ℝ := space.chromaDomain
    ∃ floor truth, (∃ enough, ∀ fuel, enough ≤ fuel →
        chromaFloor? fits range precision fuel hues = some floor) ∧
      IsChromaFloor fits range hues truth ∧ |floor - truth| ≤ precision ∧
      (∀ c, range.low ≤ c → c < floor - precision → ∀ hue ∈ hues, fits hue c = true) ∧
      ∃ hue ∈ hues, ∀ c, floor + precision < c → c ≤ range.high → fits hue c = false := by
  intro range
  have hrange : range.low ≤ range.high := chromaDomain_low_le_high space
  obtain ⟨truth, htruth, hhigh⟩ := exists_isChromaFloor hrange hhues hclosed
  obtain ⟨floor, hnear, hfloor⟩ := exists_chromaFloor? hrange hpos hclosed htruth hhigh
  have hbounds := abs_le.mp hnear
  obtain ⟨⟨deepest, hdeepest, hlub⟩, hleast⟩ := htruth
  refine ⟨floor, truth, hfloor, ⟨⟨deepest, hdeepest, hlub⟩, hleast⟩, hnear, ?_, ?_⟩
  · intro c hlow hlt hue hhue
    obtain ⟨top, htop, -⟩ := exists_isLUB hrange (hclosed hue hhue)
    have hle := hleast ⟨hue, hhue, htop⟩
    have hbelow : c < top := by linarith
    -- a chroma beyond `c` fits, since `c` is less than the supremum
    obtain ⟨d, hd, hcd⟩ := (lt_isLUB_iff htop).mp hbelow
    exact (hclosed hue hhue).closed c d hlow hcd.le hd.2.1 hd.2.2
  · refine ⟨deepest, hdeepest, fun c hgt hhigh' => ?_⟩
    cases hfits : fits deepest c with
    | false => rfl
    | true =>
      have hlow : range.low ≤ truth :=
        hlub.1 ⟨le_refl _, hrange, (hclosed deepest hdeepest).bottom⟩
      have hle : c ≤ truth := hlub.1 ⟨by linarith, hhigh', hfits⟩
      linarith

/-- Two hues that show chromas up to 1/5 and up to 1/10. -/
theorem chromaFloor?_near_two_hues :
    let fits : (hue chroma : ℝ) → Bool := fun hue c => decide (c ≤ hue / 360)
    ∃ floor, (∃ enough, ∀ fuel, enough ≤ fuel →
        chromaFloor? fits Space.oklch.chromaDomain (1 / 100) fuel [72, 36] = some floor) ∧
      |floor - 1 / 10| ≤ 1 / 100 := by
  intro fits
  have hclosed : ∀ hue ∈ [(72 : ℝ), 36], Space.oklch.chromaDomain.DownwardClosed (fits hue) := by
    intro hue hhue
    have hpos : 0 ≤ hue / 360 := by
      rcases List.mem_pair.mp hhue with rfl | rfl <;> norm_num
    constructor
    · rw [chromaDomain_oklch]
      exact decide_eq_true hpos
    · intro c d _ hle _ hd
      exact decide_eq_true (hle.trans (of_decide_eq_true hd))
  obtain ⟨floor, truth, hfloor, htruth, hnear, -, -⟩ :=
    chromaFloor?_near .oklch (by norm_num : (0 : ℝ) < 1 / 100) (by simp) hclosed
  have hlub : ∀ hue, 0 ≤ hue / 360 → hue / 360 ≤ 1 →
      IsLUB (Space.oklch.chromaDomain.fitting (fits hue)) (hue / 360) := by
    intro hue hlow hhigh
    rw [chromaDomain_oklch]
    exact ⟨fun c hc => of_decide_eq_true hc.2.2,
      fun u hu => hu ⟨hlow, hhigh, decide_eq_true le_rfl⟩⟩
  have hten : IsChromaFloor fits Space.oklch.chromaDomain [72, 36] (1 / 10) := by
    refine ⟨⟨36, by simp, ?_⟩, ?_⟩
    · have := hlub 36 (by norm_num) (by norm_num)
      norm_num at this ⊢
      exact this
    · rintro top ⟨hue, hhue, htop⟩
      rcases List.mem_pair.mp hhue with rfl | rfl
      · rw [htop.unique (hlub 72 (by norm_num) (by norm_num))]
        norm_num
      · rw [htop.unique (hlub 36 (by norm_num) (by norm_num))]
        norm_num
  rw [htruth.unique hten] at hnear
  exact ⟨floor, hfloor, hnear⟩

end EvenChroma
