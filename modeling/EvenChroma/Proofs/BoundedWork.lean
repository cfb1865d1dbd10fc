/-
  EvenChroma/Proofs/BoundedWork.lean
  ==================================
  **Guardrails bound the work of every request.**  Whatever the request, the parameters of
  its search are `Affordable`: a step has at most 360 multiples, in increasing order, and each
  search halves the chroma range until it is no wider than the finest precision allowed, after
  some twenty tests at most.

  Parameters of any request are finite, so a search over extended numbers is one over real
  numbers (`Bracket.search?_extend`).
-/
import Mathlib.Algebra.Order.Floor.Semiring
import Mathlib.Data.List.Sort
import EvenChroma.Proofs.ExtendedNumbers
import EvenChroma.Proofs.FloorAccuracy
import EvenChroma.Request

namespace EvenChroma

open Extended

/-! ### Searches -/

/-- The bracket as one of extended numbers. -/
def Bracket.extend (b : Bracket ℝ) : Bracket Extended := ⟨finite b.low, finite b.high⟩

def Found.extend (f : Found ℝ) : Found Extended := ⟨finite f.chroma, f.tests⟩

namespace Bracket

variable (fits : Extended → Bool) (b : Bracket ℝ)

theorem midpoint_extend : b.extend.midpoint = finite b.midpoint := by
  change (finite b.low + finite b.high) / 2 = _
  rw [finite_add, ofNat_eq, finite_div two_ne_zero]
  rfl

theorem width_extend : b.extend.width = finite b.width := finite_sub

theorem halve_extend : b.extend.halve fits = (b.halve fun c => fits (finite c)).extend := by
  rw [halve, halve, midpoint_extend]
  split
  · rfl
  · rfl

theorem stalled_extend : b.extend.stalled = b.stalled := by
  rw [stalled, midpoint_extend]
  change (finite b.midpoint == finite b.low || finite b.midpoint == finite b.high) = _
  rw [finite_beq, finite_beq]
  rfl

theorem search?_extend (precision : ℝ) (fuel tested : Nat) :
    search? fits (finite precision) fuel tested b.extend =
      (search? (fun c => fits (finite c)) precision fuel tested b).map Found.extend := by
  induction fuel generalizing tested b with
  | zero => rfl
  | succ fuel ih =>
    rw [search?, search?, halve_extend, width_extend, stalled_extend, midpoint_extend]
    simp only [finite_le]
    split
    · rfl
    · exact ih _ _

/-- A search ends as the one over real numbers does. -/
theorem EndsWithin.extend {fits : Extended → Bool} {precision : ℝ} {n : Nat} {b : Bracket ℝ}
    (h : EndsWithin (fun c => fits (finite c)) precision n b) :
    EndsWithin fits (finite precision) n b.extend := by
  intro tested
  obtain ⟨found, hmore, hfew, hfound⟩ := h tested
  refine ⟨found.extend, hmore, hfew, ?_⟩
  rw [search?_extend, hfound]
  rfl

end Bracket

/-- Tests that a search makes at most if guardrails keep its precision. -/
def Space.guardedTests : Space → Nat
  | oklch => 17
  | hct => 18

/-! ### Ranges -/

namespace Space

theorem lightnessDomain_extended (space : Space) : ∃ top : ℝ, 0 ≤ top ∧
    (space.lightnessDomain : Domain Extended) = ⟨finite 0, finite top⟩ := by
  cases space with
  | oklch => exact ⟨1, zero_le_one, congrArg₂ Domain.mk zero_eq one_eq⟩
  | hct => exact ⟨100, by norm_num, congrArg₂ Domain.mk zero_eq (ofNat_eq 100)⟩

/-- The chroma range is halved to the finest precision by the tests that are allowed for. -/
theorem width_le_guardedTests (space : Space) : ∃ (range : Domain ℝ) (low middle high : ℝ),
    (space.chromaDomain : Domain Extended) = ⟨finite range.low, finite range.high⟩ ∧
    (space.precisionLimits : Domain Extended) = ⟨finite low, finite high⟩ ∧
    (space.defaultPrecision : Extended) = finite middle ∧
    low ≤ middle ∧ middle ≤ high ∧ 0 < low ∧
    (Bracket.ofDomain range).width ≤ low * 2 ^ space.guardedTests := by
  cases space with
  | oklch =>
    refine ⟨⟨0, 1⟩, 0.00001, 0.00001, 0.05, congrArg₂ Domain.mk zero_eq one_eq, rfl, rfl,
      le_refl _, by norm_num, by norm_num, ?_⟩
    change (1 : ℝ) - 0 ≤ 0.00001 * 2 ^ 17
    norm_num
  | hct =>
    refine ⟨⟨0, 200⟩, 0.001, 0.01, 5, congrArg₂ Domain.mk zero_eq (ofNat_eq 200),
      congrArg₂ Domain.mk rfl (ofNat_eq 5), rfl, by norm_num, by norm_num, by norm_num, ?_⟩
    change (200 : ℝ) - 0 ≤ 0.001 * 2 ^ 18
    norm_num

end Space

theorem Domain.contains_finite {low high x : ℝ} (hlow : low ≤ x) (hhigh : x ≤ high) :
    (⟨finite low, finite high⟩ : Domain Extended).contains (finite x) = true := by
  rw [contains, Bool.and_eq_true, decide_eq_true_eq, decide_eq_true_eq]
  exact ⟨finite_le.mpr hlow, finite_le.mpr hhigh⟩

/-- A usable lightness is one of the space. -/
theorem contains_usableLightness (space : Space) (beforeToe : Option Extended) (l : Extended) :
    space.lightnessDomain.contains (usableLightness space beforeToe l).value = true := by
  obtain ⟨top, htop, hdomain⟩ := space.lightnessDomain_extended
  have hzero : space.lightnessDomain.contains (0 : Extended) = true := by
    rw [hdomain, zero_eq]
    exact Domain.contains_finite (le_refl 0) htop
  have hhigh : space.lightnessDomain.contains (space.lightnessDomain.high : Extended) = true := by
    rw [hdomain]
    exact Domain.contains_finite htop (le_refl top)
  unfold usableLightness
  dsimp only
  split_ifs with hnan hfinite hneg hneg hlarge
  · exact hzero
  · exact hzero
  · exact hhigh
  · exact hzero
  · exact hhigh
  · cases l with
    | nan => exact (hnan rfl).elim
    | infinite s => exact (hfinite rfl).elim
    | finite x =>
      rw [zero_eq, finite_lt, not_lt] at hneg
      rw [hdomain, gt_iff_lt, finite_lt, not_lt] at hlarge
      rw [hdomain]
      exact Domain.contains_finite hneg hlarge

/-- A usable precision is between the limits of the space. -/
theorem value_usablePrecision (space : Space) (p : Extended) {low middle high : ℝ}
    (hlimits : (space.precisionLimits : Domain Extended) = ⟨finite low, finite high⟩)
    (hdefault : (space.defaultPrecision : Extended) = finite middle) (hlow : low ≤ middle)
    (hhigh : middle ≤ high) :
    ∃ q, low ≤ q ∧ q ≤ high ∧ (usablePrecision space p).value = finite q := by
  unfold usablePrecision
  rw [hlimits, hdefault]
  dsimp only
  split_ifs with hfinite hzero hneg hsmall hlarge
  · exact ⟨middle, hlow, hhigh, rfl⟩
  · exact ⟨middle, hlow, hhigh, rfl⟩
  · exact ⟨middle, hlow, hhigh, rfl⟩
  · exact ⟨low, le_refl _, hlow.trans hhigh, rfl⟩
  · exact ⟨high, hlow.trans hhigh, le_refl _, rfl⟩
  · cases p with
    | nan => exact (hfinite rfl).elim
    | infinite s => exact (hfinite rfl).elim
    | finite x =>
      rw [finite_lt, not_lt] at hsmall
      rw [gt_iff_lt, finite_lt, not_lt] at hlarge
      exact ⟨x, hsmall, hlarge, rfl⟩

theorem contains_usablePrecision (space : Space) (p : Extended) :
    space.precisionLimits.contains (usablePrecision space p).value = true := by
  obtain ⟨range, low, middle, high, -, hlimits, hdefault, hlow, hhigh, -, -⟩ :=
    space.width_le_guardedTests
  obtain ⟨q, hq, hq', hprecision⟩ := value_usablePrecision space p hlimits hdefault hlow hhigh
  rw [hprecision, hlimits]
  exact Domain.contains_finite hq hq'

/-! ### Hues -/

/-- A usable step is at least one degree and less than a full turn. -/
theorem value_usableHueStep {x : ℝ} (hx : x < 360) :
    ∃ size, 1 ≤ size ∧ size < 360 ∧ (usableHueStep (finite x)).value = finite size := by
  have hdefault : (HueSpec.defaultStep : Extended) = finite 1 := one_eq
  unfold usableHueStep
  rw [hdefault]
  split_ifs with huseless hsmall
  · exact ⟨1, le_refl _, by norm_num, rfl⟩
  · exact ⟨1, le_refl _, by norm_num, rfl⟩
  · rw [finite_lt, not_lt] at hsmall
    exact ⟨x, hsmall, hx, rfl⟩

namespace HueSpec

/-- The multiples before the first that is a full turn or more are counted. -/
theorem countFrom_eq {size : ℝ} {n : ℕ} (hbelow : ∀ j : ℕ, j < n ↔ j * size < 360)
    {fuel i : ℕ} (hi : i ≤ n) (hfuel : n ≤ i + fuel) : countFrom (finite size) fuel i = n := by
  induction fuel generalizing i with
  | zero => exact le_antisymm hi hfuel
  | succ fuel ih =>
    have hcompare : Scalar.cast i * finite size < 360 ↔ i < n := by
      rw [cast_finite, finite_mul, ofNat_eq, finite_lt, hbelow]
    rw [countFrom]
    split
    · next hlt => exact ih (hcompare.mp hlt) (by omega)
    · next hge => exact le_antisymm hi (not_lt.mp (mt hcompare.mpr hge))

/-- The hues are all multiples of a usable step below a full turn, two at least and 360 at
    most. -/
structure Spaced (size : Extended) (hs : List Extended) : Prop where
  usable : 1 ≤ size ∧ size < 360
  increasing : hs.Pairwise (· < ·)
  starts : hs.head? = some 0
  two_le : 2 ≤ hs.length
  le_turn : hs.length ≤ 360
  multiples : ∀ h ∈ hs, ∃ i : ℕ, h = Scalar.cast i * size
  complete : ∀ i : ℕ, Scalar.cast i * size < 360 → Scalar.cast i * size ∈ hs

theorem lt_ceil_iff {size : ℝ} (hpos : 0 < size) (i : ℕ) :
    i < ⌈360 / size⌉₊ ↔ i * size < 360 := by
  rw [Nat.lt_ceil, lt_div_iff₀ hpos]

theorem ceil_le_turn {size : ℝ} (hlow : 1 ≤ size) : ⌈360 / size⌉₊ ≤ 360 := by
  rw [Nat.ceil_le, div_le_iff₀ (zero_lt_one.trans_le hlow)]
  push_cast
  linarith

theorem hues_step {size : ℝ} (hlow : 1 ≤ size) :
    (step (finite size)).hues =
      (List.range ⌈360 / size⌉₊).map fun i : ℕ => finite (i * size) := by
  have hpos : 0 < size := zero_lt_one.trans_le hlow
  have hcount : countFrom (finite size) maxMultiples 0 = ⌈360 / size⌉₊ :=
    countFrom_eq (lt_ceil_iff hpos) (Nat.zero_le _) ((ceil_le_turn hlow).trans (by decide))
  have husable : (Scalar.isFinite (finite size) && decide (finite size > 0)) = true := by
    rw [Bool.and_eq_true, decide_eq_true_eq, zero_eq, gt_iff_lt, finite_lt]
    exact ⟨rfl, hpos⟩
  rw [hues, if_pos husable, multiples, hcount]
  rfl

theorem inTurn_step {size : ℝ} (hlow : 1 ≤ size) :
    ∀ h ∈ (step (finite size)).hues, 0 ≤ h ∧ h < 360 := by
  have hpos : 0 < size := zero_lt_one.trans_le hlow
  intro h hh
  rw [hues_step hlow] at hh
  obtain ⟨i, hi, rfl⟩ := List.mem_map.mp hh
  rw [List.mem_range, lt_ceil_iff hpos] at hi
  rw [zero_eq, ofNat_eq, finite_le, finite_lt]
  exact ⟨by positivity, hi⟩

theorem spaced_step {size : ℝ} (hlow : 1 ≤ size) (hhigh : size < 360) :
    Spaced (finite size) (step (finite size)).hues := by
  have hpos : 0 < size := zero_lt_one.trans_le hlow
  have htwo : 1 < ⌈360 / size⌉₊ := by
    rw [lt_ceil_iff hpos, Nat.cast_one, one_mul]
    exact hhigh
  rw [hues_step hlow]
  constructor
  case usable =>
    rw [one_eq, ofNat_eq, finite_le, finite_lt]
    exact ⟨hlow, hhigh⟩
  case increasing =>
    rw [List.pairwise_map]
    apply List.pairwise_lt_range.imp
    intro i j hij
    exact finite_lt.mpr (mul_lt_mul_of_pos_right (Nat.cast_lt.mpr hij) hpos)
  case starts =>
    rw [List.head?_map, List.head?_range, if_neg (by omega), Option.map_some, Nat.cast_zero,
      zero_mul, zero_eq]
  case two_le =>
    rw [List.length_map, List.length_range]
    exact htwo
  case le_turn =>
    rw [List.length_map, List.length_range]
    exact ceil_le_turn hlow
  case multiples =>
    intro h hh
    obtain ⟨i, -, rfl⟩ := List.mem_map.mp hh
    exact ⟨i, rfl⟩
  case complete =>
    intro i hi
    rw [cast_finite, finite_mul, ofNat_eq, finite_lt, ← lt_ceil_iff hpos] at hi
    rw [cast_finite, finite_mul, List.mem_map]
    exact ⟨i, List.mem_range.mpr hi, rfl⟩

end HueSpec

/-- **Guarded hues are a step that is affordable, or a list of directions in increasing
    order.**  The wrapped step is guarded after it was wrapped, so nothing is left for the
    expansion to replace. -/
theorem value_guardHues_usable (hues : HueSpec Extended) :
    (∃ size, 1 ≤ size ∧ size < 360 ∧
      (Request.guardHues hues.usable.value).value = .step (finite size)) ∨
    ∃ hs : List ℝ, hs ≠ [] ∧ hs.Pairwise (· ≤ ·) ∧ (∀ h ∈ hs, 0 ≤ h ∧ h < 360) ∧
      (Request.guardHues hues.usable.value).value = .list (hs.map finite) := by
  have hguard : ∀ {x : ℝ}, x < 360 → ∃ size, 1 ≤ size ∧ size < 360 ∧
      (Request.guardHues (.step (finite x))).value = .step (finite size) := by
    intro x hx
    obtain ⟨size, hlow, hhigh, hsize⟩ := value_usableHueStep hx
    exact ⟨size, hlow, hhigh, congrArg HueSpec.step hsize⟩
  cases hues with
  | step size =>
    have hwrapped : (HueSpec.step size).usable.value = .step (finite size.direction) :=
      congrArg HueSpec.step (value_usableHue size)
    rw [hwrapped]
    exact .inl (hguard (direction_bounds size).2)
  | list hs =>
    by_cases hne : hs = []
    · subst hne
      have hdefault : (HueSpec.list []).usable.value = .step (finite 1) :=
        congrArg HueSpec.step one_eq
      rw [hdefault]
      exact .inl (hguard (by norm_num))
    · rw [value_usable_list hne]
      refine .inr ⟨_, ?_, ?_, ?_, rfl⟩
      · rw [← List.length_pos_iff, List.length_mergeSort, List.length_map, List.length_pos_iff]
        exact hne
      · exact List.pairwise_mergeSort' (· ≤ ·) (hs.map direction)
      · intro h hh
        obtain ⟨given, -, rfl⟩ := List.mem_map.mp (List.mem_mergeSort.mp hh)
        exact direction_bounds given

/-- The hues that are searched are directions in increasing order, strictly if they are the
    multiples of a step. -/
structure HueSpec.Orderly (hues : HueSpec Extended) : Prop where
  ne_nil : hues.hues ≠ []
  inTurn : ∀ h ∈ hues.hues, 0 ≤ h ∧ h < 360
  list : ∀ hs, hues = .list hs → hs.Pairwise (· ≤ ·)
  step : ∀ size, hues = .step size → Spaced size hues.hues

theorem HueSpec.orderly_guardHues_usable (hues : HueSpec Extended) :
    (Request.guardHues hues.usable.value).value.Orderly := by
  rcases value_guardHues_usable hues with
    ⟨size, hone, hturn, hhues⟩ | ⟨hs, hne, hsorted, hturn, hhues⟩
  · have hspaced := spaced_step hone hturn
    rw [hhues]
    refine ⟨?_, inTurn_step hone, nofun, ?_⟩
    · exact List.ne_nil_of_length_pos (lt_of_lt_of_le two_pos hspaced.two_le)
    · rintro _ ⟨rfl⟩
      exact hspaced
  · rw [hhues]
    refine ⟨mt List.map_eq_nil_iff.mp hne, ?_, ?_, nofun⟩
    · intro h hh
      obtain ⟨x, hx, rfl⟩ := List.mem_map.mp hh
      rw [zero_eq, ofNat_eq, finite_le, finite_lt]
      exact hturn x hx
    · rintro _ ⟨rfl⟩
      exact List.pairwise_map.mpr (hsorted.imp finite_le.mpr)

/-! ### Requests -/

/-- The parameters lie in the ranges of the space and ask for little work. -/
structure SearchParameters.Affordable (p : SearchParameters Extended) : Prop where
  lightness : p.space.lightnessDomain.contains p.lightness = true
  precision : p.space.precisionLimits.contains p.precision = true
  hues : p.hues.Orderly
  searches : ∀ (fits : (hue chroma : Extended) → Bool) (hue : Extended) (fuel : Nat),
    p.space.guardedTests ≤ fuel → ∃ found, 1 ≤ found.tests ∧
      found.tests ≤ p.space.guardedTests ∧
      Bracket.search? (fits hue) p.precision fuel 0 (.ofDomain p.space.chromaDomain) = some found

theorem Bracket.endsWithin_guardedTests (space : Space) (fits : Extended → Bool) (p : Extended) :
    EndsWithin fits (usablePrecision space p).value space.guardedTests
      (.ofDomain space.chromaDomain) := by
  obtain ⟨range, low, middle, high, hrange, hlimits, hdefault, hlow, hhigh, hpos, hwidth⟩ :=
    space.width_le_guardedTests
  obtain ⟨q, hq, -, hprecision⟩ := value_usablePrecision space p hlimits hdefault hlow hhigh
  obtain ⟨n, hn⟩ : ∃ n, space.guardedTests = n + 1 := by
    cases space with
    | oklch => exact ⟨16, rfl⟩
    | hct => exact ⟨17, rfl⟩
  have hwidth : (ofDomain range).width ≤ q * 2 ^ (n + 1) := by
    rw [hn] at hwidth
    exact hwidth.trans (mul_le_mul_of_nonneg_right hq (by positivity))
  have hextend : ofDomain (space.chromaDomain : Domain Extended) = (ofDomain range).extend :=
    congrArg ofDomain hrange
  rw [hprecision, hextend, hn]
  exact (endsWithin_of_width _ hwidth).extend

/-- **With guardrails the work for a request is bounded**, whatever its values and options, and
    a step stays a step. -/
theorem Request.affordable_parameters (r : Request Extended)
    (hguard : r.options.guardrails = true) :
    r.prepare.value.parameters.space = r.options.space ∧
      (∀ given, r.options.hues = .step given →
        ∃ size, r.prepare.value.parameters.hues = .step size) ∧
      r.prepare.value.parameters.Affordable := by
  rw [value_prepare_eq_ite, if_pos hguard, if_pos hguard]
  refine ⟨rfl, ?_, ?_, ?_, HueSpec.orderly_guardHues_usable _, ?_⟩
  · intro given hgiven
    rw [hgiven]
    exact ⟨_, rfl⟩
  · rw [usableLightness]
    split
    · exact contains_usableLightness _ _ _
    · exact contains_usableLightness _ _ _
  · exact contains_usablePrecision _ _
  · intro fits hue fuel hfuel
    obtain ⟨found, hmore, hfew, hfound⟩ :=
      (Bracket.endsWithin_guardedTests r.options.space (fits hue) _).exists_found
    exact ⟨found, hmore, hfew, hfound fuel hfuel⟩

/-- A lightness that is no number, a step of two turns and an infinite precision. -/
theorem Request.affordable_parameters_unusable :
    let layer : Layer Extended :=
      { Layer.empty with hues := some (.step (finite 720)), precision := some (.infinite true) }
    let r : Request Extended := ⟨.nan, .infinite false, finite (-30), layer.resolve⟩
    r.options.guardrails = true ∧ r.prepare.value.parameters.space = .oklch ∧
      (∃ size, r.prepare.value.parameters.hues = .step size) ∧
      r.prepare.value.parameters.Affordable := by
  intro layer r
  obtain ⟨hspace, hstep, haffordable⟩ := affordable_parameters r rfl
  exact ⟨rfl, hspace, hstep _ rfl, haffordable⟩

end EvenChroma
