/-
  EvenChroma/Proofs/TestLimit.lean
  ================================
  **No search on doubles reaches the limit of tests.**  As long as nothing fits, the low end
  is zero and the high end is halved, which is possible some thousand times.  Once something
  fits, the ends are multiples of one power of two, of which less than `2 ^ 55` lie between
  them, and rounding moves the midpoint by a few of them only.  So the result is always that
  of the search itself, never what stands in for a search without end.
-/
import EvenChroma.Engine
import EvenChroma.Proofs.SearchEnd

namespace EvenChroma

open Float.Model

/-! ### Doubles on a grid -/

namespace Double

/-- Every short multiple of a power of two is a double. -/
theorem exists_stands_mul {n : ℕ} {e : ℤ} (hn : n ≤ 2 ^ 53) (hge : -1074 ≤ e) (he : e < 971) :
    ∃ u, Stands u (n * 2 ^ e) := by
  obtain ⟨k, hk⟩ := Int.le.dest hge
  induction k generalizing n e with
  | zero =>
    exact ⟨_, stands_onGrid hn hge (by omega) he⟩
  | succ k ih =>
    rcases Nat.lt_or_ge n (2 ^ 52) with hsmall | hlarge
    · -- the hidden bit is missing, so take twice the multiple of half the power
      obtain ⟨u, hu⟩ := @ih (2 * n) (e - 1) (by omega) (by omega) (by omega) (by omega)
      have hvalue : ((2 * n : ℕ) : ℚ) * 2 ^ (e - 1) = n * 2 ^ e := by
        rw [show e = e - 1 + 1 by omega, two_zpow_succ, add_sub_cancel_right]
        push_cast
        ring
      rw [hvalue] at hu
      exact ⟨u, hu⟩
    · exact ⟨_, stands_onGrid hn hge (fun _ => hlarge) he⟩

/-- Rounding moves a number by less than the spacing of a grid whose first multiples are
    doubles. -/
theorem RoundsTo.abs_sub_le {v r : ℚ} {e : ℤ} (h : RoundsTo v r) (hnonneg : 0 ≤ v)
    (hge : -1074 ≤ e) (he : e < 971) (hv : v < 2 ^ 53 * 2 ^ e) : |r - v| ≤ 2 ^ e := by
  have hpos := two_zpow_pos e
  obtain ⟨n, hn⟩ : ∃ n, n = ⌊v / 2 ^ e⌋₊ := ⟨_, rfl⟩
  have hlow : n * 2 ^ e ≤ v := by
    rw [← le_div_iff₀ hpos, hn]
    exact Nat.floor_le (by positivity)
  have hhigh : v < (n + 1 : ℕ) * 2 ^ e := by
    rw [← div_lt_iff₀ hpos, hn]
    push_cast
    exact Nat.lt_floor_add_one _
  have hn' : n < 2 ^ 53 := by
    rw [hn, Nat.floor_lt (by positivity), div_lt_iff₀ hpos]
    push_cast
    exact hv
  obtain ⟨u, hu⟩ := exists_stands_mul hn'.le hge he
  obtain ⟨w, hw⟩ := exists_stands_mul (Nat.succ_le_of_lt hn') hge he
  have hbelow := h.le_of_le hu hlow
  have habove := h.ge_of_ge hw hhigh.le
  push_cast at hhigh habove
  rw [abs_le]
  constructor <;> linarith

/-- No positive double is smaller. -/
theorem Stands.le_of_pos {u : UnpackedFloat} {q : ℚ} (h : Stands u q) (hq : 0 < q) :
    2 ^ (-1074 : ℤ) ≤ q := by
  cases h with
  | zero s => exact (lt_irrefl _ hq).elim
  | @positive m e hm h =>
    have hone : (1 : ℚ) ≤ m := by exact_mod_cast hm
    have hpow : (2 : ℚ) ^ (-1074 : ℤ) ≤ 2 ^ e :=
      zpow_le_zpow_right₀ (by norm_num) h.exponent_ge
    exact hpow.trans (le_mul_of_one_le_left (two_zpow_pos e).le hone)

/-- Above a double all doubles are multiples of its spacing. -/
theorem Stands.exists_multiple {u : UnpackedFloat} {m : ℕ} {g : ℤ} {q : ℚ}
    (hm : (⟨false, m, g⟩ : Parts).Canonical) (h : Stands u q) (hle : m * 2 ^ g ≤ q) :
    ∃ c : ℕ, q = c * 2 ^ g := by
  have hpos : (0 : ℚ) < m := by exact_mod_cast hm.mantissa_pos
  cases h with
  | zero s => exact absurd hle (not_le.mpr (mul_pos hpos (two_zpow_pos g)))
  | @positive m' e hm' h =>
    have hge : g ≤ e := by
      by_contra hlt
      exact absurd (lt_of_exponent_lt h hm (not_le.mp hlt)) (not_lt.mpr hle)
    obtain ⟨k, rfl⟩ := Int.le.dest hge
    refine ⟨m' * 2 ^ k, ?_⟩
    rw [zpow_add₀ (by norm_num), zpow_natCast]
    push_cast
    ring

end Double

/-! ### Brackets on a grid -/

open Double (Stands)

namespace Bracket

variable {fits : Float → Bool} {precision : Float} {b : Bracket Float}

/-- A midpoint that has not stalled lies strictly between the ends. -/
theorem lt_midpoint_lt {p mid q : ℚ} (hp : Stands b.low.toModel.unpack p)
    (hmid : Stands b.midpoint.toModel.unpack mid) (hq : Stands b.high.toModel.unpack q)
    (hle : p ≤ mid) (hge : mid ≤ q) (hmoves : b.stalled = false) : p < mid ∧ mid < q := by
  rw [stalled, Bool.or_eq_false_iff] at hmoves
  constructor
  · refine lt_of_le_of_ne hle fun heq => ?_
    have hstalled := Double.ordered.beq_of_le_of_le
      ((Double.le_iff_of_stands hmid hp).mpr heq.ge) ((Double.le_iff_of_stands hp hmid).mpr hle)
    rw [hmoves.1] at hstalled
    cases hstalled
  · refine lt_of_le_of_ne hge fun heq => ?_
    have hstalled := Double.ordered.beq_of_le_of_le
      ((Double.le_iff_of_stands hmid hq).mpr hge) ((Double.le_iff_of_stands hq hmid).mpr heq.ge)
    rw [hmoves.2] at hstalled
    cases hstalled

/-- The ends are `low` and `high` times a power of two, and all doubles above the low end are
    multiples of this power. -/
structure Gridded (g : ℤ) (low high : ℕ) (b : Bracket Float) : Prop where
  low_stands : Stands b.low.toModel.unpack (low * 2 ^ g)
  high_stands : Stands b.high.toModel.unpack (high * 2 ^ g)
  low_le_high : low ≤ high
  high_lt : high < 2 ^ 55
  le_top : (high : ℚ) * 2 ^ g ≤ 200
  exponent_ge : -1074 ≤ g
  exponent_lt : g < 8
  multiple : ∀ {u : UnpackedFloat} {q : ℚ}, Stands u q → low * 2 ^ g ≤ q →
    ∃ c : ℕ, q = c * 2 ^ g

namespace Gridded

variable {g : ℤ} {low high : ℕ}

/-- **The midpoint is the middle of the grid but for a few steps.** -/
theorem exists_midpoint (h : b.Gridded g low high) (hmoves : b.stalled = false) :
    ∃ c : ℕ, low < c ∧ c < high ∧ Stands b.midpoint.toModel.unpack (c * 2 ^ g) ∧
      low + high ≤ 2 * c + 24 ∧ 2 * c ≤ low + high + 24 := by
  have hpos := Double.two_zpow_pos g
  have height : (2 : ℚ) ^ (g + 3) = 8 * 2 ^ g := by
    rw [zpow_add₀ (by norm_num), mul_comm]
    norm_num
  have hge := h.exponent_ge
  have hlt := h.exponent_lt
  have hlow : (low : ℚ) ≤ high := by exact_mod_cast h.low_le_high
  have hhigh : (high : ℚ) < 2 ^ 55 := by exact_mod_cast h.high_lt
  have hle : (low : ℚ) * 2 ^ g ≤ high * 2 ^ g := mul_le_mul_of_nonneg_right hlow hpos.le
  obtain ⟨sum, mid, hmid, hroundsum, hroundmid, hmidlow, hmidhigh⟩ :=
    Double.exists_midpoint h.low_stands h.high_stands hle
      (h.le_top.trans_lt Double.twoHundred_lt)
  obtain ⟨c, rfl⟩ := h.multiple hmid hmidlow
  obtain ⟨hbelow, habove⟩ :=
    lt_midpoint_lt h.low_stands hmid h.high_stands hmidlow hmidhigh hmoves
  rw [mul_lt_mul_iff_left₀ hpos, Nat.cast_lt] at hbelow habove
  -- both roundings are on a grid of eight times the spacing or finer
  have hends : (high : ℚ) * 2 ^ g < 2 ^ 55 * 2 ^ g := mul_lt_mul_of_pos_right hhigh hpos
  have hnonneg : (0 : ℚ) ≤ low * 2 ^ g := by positivity
  have hsum := abs_le.mp (hroundsum.abs_sub_le (by linarith) (by omega : -1074 ≤ g + 3)
    (by omega) (by rw [height]; linarith))
  rw [height] at hsum
  have hsumnonneg : 0 ≤ sum := hroundsum.le_of_le (.zero .positive) (by linarith)
  have hhalf := abs_le.mp (hroundmid.abs_sub_le (by linarith) (by omega : -1074 ≤ g + 3)
    (by omega) (by rw [height]; linarith))
  rw [height] at hhalf
  have hfar : ((low + high : ℕ) : ℚ) * 2 ^ g ≤ (2 * c + 24 : ℕ) * 2 ^ g := by
    push_cast
    linarith
  have hfar' : ((2 * c : ℕ) : ℚ) * 2 ^ g ≤ (low + high + 24 : ℕ) * 2 ^ g := by
    push_cast
    linarith
  rw [mul_le_mul_iff_left₀ hpos, Nat.cast_le] at hfar hfar'
  exact ⟨c, hbelow, habove, hmid, hfar, hfar'⟩

/-- **Halving a bracket halves the grid between its ends**, but for a few steps. -/
theorem halve (fits : Float → Bool) (h : b.Gridded g low high) (hmoves : b.stalled = false) :
    ∃ low' high', (b.halve fits).Gridded g low' high' ∧ high' - low' < high - low ∧
      2 * (high' - low') ≤ high - low + 24 := by
  obtain ⟨c, hbelow, habove, hmid, hfar, hfar'⟩ := h.exists_midpoint hmoves
  have hpos := Double.two_zpow_pos g
  rcases halve_cases fits b with hhalf | hhalf
  · have hlow : (low : ℚ) * 2 ^ g ≤ c * 2 ^ g :=
      mul_le_mul_of_nonneg_right (Nat.cast_le.mpr hbelow.le) hpos.le
    rw [hhalf]
    exact ⟨c, high, ⟨hmid, h.high_stands, habove.le, h.high_lt, h.le_top, h.exponent_ge,
      h.exponent_lt, fun hu hle => h.multiple hu (hlow.trans hle)⟩, by omega, by omega⟩
  · have hhigh : (c : ℚ) * 2 ^ g ≤ high * 2 ^ g :=
      mul_le_mul_of_nonneg_right (Nat.cast_le.mpr habove.le) hpos.le
    rw [hhalf]
    exact ⟨low, c, ⟨h.low_stands, hmid, hbelow.le, habove.trans h.high_lt, hhigh.trans h.le_top,
      h.exponent_ge, h.exponent_lt, h.multiple⟩, by omega, by omega⟩

theorem endsWithin_of_sub_lt {n : ℕ} (h : b.Gridded g low high) (hn : high - low < n) :
    EndsWithin fits precision n b := by
  induction n generalizing b low high with
  | zero => cases hn
  | succ n ih =>
    apply EndsWithin.of_halve
    intro _ hmoves
    obtain ⟨low', high', hhalf, hfewer, -⟩ := h.halve fits hmoves
    exact ih hhalf (by omega)

theorem endsWithin_of_sub_le {k : ℕ} (h : b.Gridded g low high)
    (hk : high - low ≤ 2 ^ k + 24) : EndsWithin fits precision (k + 26) b := by
  induction k generalizing b low high with
  | zero => exact h.endsWithin_of_sub_lt (by omega)
  | succ k ih =>
    rw [Nat.add_right_comm]
    apply EndsWithin.of_halve
    intro _ hmoves
    obtain ⟨low', high', hhalf, -, hhalved⟩ := h.halve fits hmoves
    rw [pow_succ] at hk
    exact ih hhalf (by omega)

end Gridded

/-! ### From the chroma range on -/

/-- Ends above zero of which one is less than four times the other are on a grid. -/
theorem endsWithin_of_pos {p q : ℚ} (hp : Stands b.low.toModel.unpack p)
    (hq : Stands b.high.toModel.unpack q) (hpos : 0 < p) (hle : p ≤ q) (hlt : q < 4 * p)
    (htop : q ≤ 200) : EndsWithin fits precision 81 b := by
  obtain ⟨u, hu⟩ : ∃ u, u = b.low.toModel.unpack := ⟨_, rfl⟩
  rw [← hu] at hp
  cases hp with
  | zero s => exact (lt_irrefl _ hpos).elim
  | @positive m g hm hcanonical =>
    have hgrid := Double.two_zpow_pos g
    obtain ⟨c, rfl⟩ := hq.exists_multiple hcanonical hle
    have hmlt : m < 2 ^ 53 := hcanonical.mantissa_lt
    rw [← mul_assoc, mul_lt_mul_iff_left₀ hgrid] at hlt
    have hclt : c < 4 * m := by exact_mod_cast hlt
    have hgridded : b.Gridded g m c := by
      refine ⟨?_, hq, ?_, by omega, htop, hcanonical.exponent_ge, ?_,
        fun hv hle => hv.exists_multiple hcanonical hle⟩
      · rw [← hu]
        exact .positive hm hcanonical
      · rwa [mul_le_mul_iff_left₀ hgrid, Nat.cast_le] at hle
      · by_contra hlarge
        have hpow : (2 : ℚ) ^ (8 : ℤ) ≤ 2 ^ g := zpow_le_zpow_right₀ (by norm_num) (by omega)
        have hone : (1 : ℚ) ≤ m := by exact_mod_cast hm
        have hmul : (2 : ℚ) ^ g ≤ m * 2 ^ g := le_mul_of_one_le_left hgrid.le hone
        have hvalue : (2 : ℚ) ^ (8 : ℤ) = 256 := by norm_num
        linarith
    exact hgridded.endsWithin_of_sub_le (by omega)

/-- Half of the high end is rounded like any number, hence to a half or less of any double that
    is no less, and not to less than a quarter. -/
theorem exists_midpoint_of_zero {q : ℚ} (hlow : Stands b.low.toModel.unpack 0)
    (hhigh : Stands b.high.toModel.unpack q) (htop : q ≤ 200) (hmoves : b.stalled = false) :
    ∃ mid, Stands b.midpoint.toModel.unpack mid ∧ 0 < mid ∧ mid < q ∧ q < 4 * mid ∧
      ∀ {u : UnpackedFloat} {r : ℚ}, Stands u r → q ≤ 2 * r → mid ≤ r := by
  obtain ⟨sum, mid, hmid, hroundsum, hroundmid, hle, hge⟩ :=
    Double.exists_midpoint hlow hhigh hhigh.nonneg (htop.trans_lt Double.twoHundred_lt)
  obtain ⟨hpos, hlt⟩ := lt_midpoint_lt hlow hmid hhigh hle hge hmoves
  have hsumle : sum ≤ q := hroundsum.ge_of_ge hhigh (zero_add q).le
  have hlesum : q ≤ sum := hroundsum.le_of_le hhigh (zero_add q).ge
  refine ⟨mid, hmid, hpos, hlt, ?_, fun hu hr => hroundmid.ge_of_ge hu (by linarith)⟩
  by_contra hsmall
  obtain ⟨w, hw⟩ :=
      hmid.exists_double ((hlt.le.trans htop).trans Double.twoHundred_lt.le)
  have hdouble := hroundmid.le_of_le hw (by linarith)
  linarith

/-- While nothing fits the high end is halved, down to the smallest double. -/
theorem endsWithin_of_zero {q : ℚ} {k : ℕ} (hlow : Stands b.low.toModel.unpack 0)
    (hhigh : Stands b.high.toModel.unpack q) (hq : q ≤ 2 ^ ((k : ℤ) - 1074)) (hk : k ≤ 1082)
    (htop : q ≤ 200) : EndsWithin fits precision (k + 82) b := by
  induction k generalizing b q with
  | zero =>
    apply EndsWithin.of_halve
    intro _ hmoves
    obtain ⟨mid, hmid, hpos, hlt, -, -⟩ := exists_midpoint_of_zero hlow hhigh htop hmoves
    have hsmallest := hmid.le_of_pos hpos
    rw [Nat.cast_zero, zero_sub] at hq
    linarith
  | succ k ih =>
    rw [Nat.add_right_comm]
    apply EndsWithin.of_halve
    intro _ hmoves
    obtain ⟨mid, hmid, hpos, hlt, hquarter, hhalved⟩ :=
      exists_midpoint_of_zero hlow hhigh htop hmoves
    rcases halve_cases fits b with hhalf | hhalf
    · rw [hhalf]
      have hends : EndsWithin fits precision 81 ⟨b.midpoint, b.high⟩ :=
        endsWithin_of_pos hmid hhigh hpos hlt.le hquarter htop
      exact hends.mono (by omega)
    · obtain ⟨u, hu⟩ := Double.exists_stands_mul (show 1 ≤ 2 ^ 53 by norm_num)
        (show -1074 ≤ (k : ℤ) - 1074 by omega) (by omega)
      rw [Nat.cast_one, one_mul] at hu
      have hpow : (2 : ℚ) ^ (((k + 1 : ℕ) : ℤ) - 1074) = 2 * 2 ^ ((k : ℤ) - 1074) := by
        rw [← Double.two_zpow_succ]
        congr 1
        push_cast
        ring
      rw [hpow] at hq
      rw [hhalf]
      exact ih hlow hmid (hhalved hu hq) (by omega) (hlt.le.trans htop)

/-- **Every search of the chroma range ends before the limit of tests.** -/
theorem endsWithin_maxTests (space : Space) (fits : Float → Bool) (precision : Float) :
    EndsWithin fits precision SearchParameters.maxTests (.ofDomain space.chromaDomain) := by
  have hzero : Stands (0 : Float).toModel.unpack 0 := .zero .positive
  have hpow : (2 : ℚ) ^ (((1082 : ℕ) : ℤ) - 1074) = 256 := by norm_num
  have hlimit : 1082 + 82 ≤ SearchParameters.maxTests := by decide
  cases space with
  | oklch =>
    exact (endsWithin_of_zero (b := ⟨0, 1⟩) hzero Double.stands_one (by rw [hpow]; norm_num)
      (le_refl _) (by norm_num)).mono hlimit
  | hct =>
    exact (endsWithin_of_zero (b := ⟨0, 200⟩) hzero Double.stands_twoHundred
      (by rw [hpow]; norm_num) (le_refl _) (le_refl _)).mono hlimit

end Bracket

/-! ### Floors -/

/-- Searches that all end have a lowest result. -/
theorem exists_lowestFrom?_eq {search : Float → Option (Found Float)}
    (h : ∀ hue, ∃ found, search hue = some found) (floor : Float) (hues : List Float) :
    ∃ lowest, lowestFrom? search floor hues = some lowest := by
  induction hues generalizing floor with
  | nil => exact ⟨floor, rfl⟩
  | cons hue hues ih =>
    obtain ⟨found, hfound⟩ := h hue
    rw [lowestFrom?, hfound]
    exact ih _

namespace SearchParameters

variable (p : SearchParameters Float)

/-- **The largest chroma of a hue is what the search ends with, however many tests it may
    make**, and lies in the chroma range. -/
theorem exists_largestChroma (hue : Float) :
    (p.space.chromaDomain : Domain Float).low ≤ p.largestChroma hue ∧
      p.largestChroma hue ≤ (p.space.chromaDomain : Domain Float).high ∧
      ∃ tests ≤ maxTests, ∀ fuel, maxTests ≤ fuel →
        Bracket.search? (p.fits hue) p.precision fuel 0 (.ofDomain p.space.chromaDomain) =
          some ⟨p.largestChroma hue, tests⟩ := by
  obtain ⟨found, -, htests, hfound⟩ :=
    (Bracket.endsWithin_maxTests p.space (p.fits hue) p.precision).exists_found
  have hlargest : p.largestChroma hue = found.chroma := by
    rw [largestChroma, hfound _ (le_refl _)]
  have hrange : (p.space.chromaDomain : Domain Float).low ≤ p.space.chromaDomain.high := by
    cases p.space <;> decide
  obtain ⟨hlow, hhigh⟩ := Bracket.mem_of_search? Double.ordered (Double.keepsMidpoints p.space)
    (Bracket.within_ofDomain Double.ordered hrange) (hfound _ (le_refl _))
  rw [hlargest]
  exact ⟨hlow, hhigh, found.tests, htests, hfound⟩

/-- **The chroma floor is the lowest result of searches that all end.** -/
theorem chromaFloor?_eq_floor {fuel : Nat} (hfuel : maxTests ≤ fuel) :
    chromaFloor? p.fits p.space.chromaDomain p.precision fuel p.hues.hues = some p.floor := by
  have hsearch : ∀ fuel, maxTests ≤ fuel → ∀ hue, ∃ found,
      Bracket.search? (p.fits hue) p.precision fuel 0 (.ofDomain p.space.chromaDomain) =
        some found := by
    intro fuel hfuel hue
    obtain ⟨-, -, tests, -, hfound⟩ := p.exists_largestChroma hue
    exact ⟨_, hfound fuel hfuel⟩
  obtain ⟨floor, hfloor⟩ :=
    exists_lowestFrom?_eq (hsearch maxTests (le_refl _)) p.space.chromaDomain.high p.hues.hues
  have hsame : chromaFloor? p.fits p.space.chromaDomain p.precision fuel p.hues.hues =
      chromaFloor? p.fits p.space.chromaDomain p.precision maxTests p.hues.hues := by
    refine congrArg (fun search => lowestFrom? search _ _) (funext fun hue => ?_)
    obtain ⟨-, -, tests, -, hfound⟩ := p.exists_largestChroma hue
    rw [hfound fuel hfuel, hfound maxTests (le_refl _)]
  have hdefined : chromaFloor? p.fits p.space.chromaDomain p.precision maxTests p.hues.hues =
      some floor := hfloor
  rw [hsame, SearchParameters.floor, hdefined]
  rfl

end SearchParameters

end EvenChroma
