/-
  EvenChroma/Proofs/ReductionEnd.lean
  ===================================
  **The reduction of a chroma ends exactly if the chroma is bounded.**  Between finite ends
  that are further apart than the tolerance, the middle lies strictly inside, so the bracket
  loses a double at every step (`Narrowing.exists_ends`).  From an infinite chroma on the
  middle is infinite again, and the bracket stays as it is forever.

  Beyond `2 ^ 37` the doubles are too far apart for this tolerance.  A bracket gets there only
  behind a chroma of `2 ^ 36` or more that was accepted.
-/
import EvenChroma.Proofs.GamutLanding
import EvenChroma.Proofs.TestLimit

namespace EvenChroma

open Double (Stands RoundsTo)

namespace Double

theorem exists_stands_mapTolerance :
    ∃ tolerance, Stands mapTolerance.toModel.unpack tolerance ∧ 1 / 10001 < tolerance := by
  have hunpack : mapTolerance.toModel.unpack =
      .finite .positive 7378697629483821 (-66) (by decide) := rfl
  rw [hunpack]
  exact ⟨_, .positive _ ⟨by norm_num, by norm_num, by norm_num, by norm_num, by norm_num⟩,
    by norm_num⟩

/-- Half of a double that is not tiny is a double. -/
theorem Stands.exists_half {u : Float.Model.UnpackedFloat} {q : ℚ} (h : Stands u q)
    (hq : 1 / 10001 < q) : ∃ v, Stands v (q / 2) := by
  cases h with
  | zero s => exact absurd hq (not_lt.mpr (by positivity))
  | @positive m e hm h =>
    obtain ⟨-, hlt, hge, hle, hhidden⟩ := h
    dsimp only at hlt hge hle hhidden
    have hlarge : -67 < e := by
      by_contra hsmall
      have hpow : (2 : ℚ) ^ e ≤ 2 ^ (-67 : ℤ) := zpow_le_zpow_right₀ (by norm_num) (by omega)
      have hm53 : (m : ℚ) ≤ 2 ^ 53 := by exact_mod_cast hlt.le
      have hmul : (m : ℚ) * 2 ^ e ≤ 2 ^ 53 * 2 ^ (-67 : ℤ) :=
        mul_le_mul hm53 hpow (two_zpow_pos e).le (by positivity)
      have hvalue : (2 : ℚ) ^ 53 * 2 ^ (-67 : ℤ) < 1 / 10001 := by norm_num
      exact absurd (hq.trans_le hmul) (not_lt.mpr hvalue.le)
    refine ⟨.finite .positive m (e - 1) hm, ?_⟩
    have hvalue : (m : ℚ) * 2 ^ e / 2 = m * 2 ^ (e - 1) := by
      rw [show e = e - 1 + 1 by omega, two_zpow_succ, add_sub_cancel_right]
      ring
    rw [hvalue]
    exact .positive _ ⟨hm, hlt, by dsimp only; omega, by dsimp only; omega,
      fun _ => hhidden (by omega)⟩

theorem RoundsTo.eq_of_stands {q r : ℚ} {u : Float.Model.UnpackedFloat} (h : RoundsTo q r)
    (hu : Stands u q) : r = q :=
  le_antisymm (h.ge_of_ge hu (le_refl q)) (h.le_of_le hu (le_refl q))

end Double

namespace Reduction

variable {via : Conversions} {gamut : Gamut} {origin : Color} {r next : Reduction}
  {chroma : Float}

/-! ### Bounded chromas -/

/-- No chroma from the bound on is accepted, up to that of the colour. -/
def RejectsFrom (bound : Float) (via : Conversions) (gamut : Gamut) (origin : Color) : Prop :=
  ∀ chroma, bound ≤ chroma → chroma ≤ origin.coords.y → ¬ Accepts via gamut origin chroma

/-- The bracket is finite and a part of the chromas up to the given one, and unless it begins
    at zero its ends are small enough for the tolerance. -/
structure Narrowing (chroma : Float) (r : Reduction) : Prop where
  zero_le : 0 ≤ r.low
  low_le_high : r.low ≤ r.high
  le_chroma : r.high ≤ chroma
  finite : r.high < Double.infinity
  small : r.low = 0.0 ∨ r.high < Double.twoPow 37

theorem Narrowing.within (h : r.Narrowing chroma) : r.Within chroma := by
  refine ⟨h.zero_le, h.low_le_high, h.le_chroma, ?_⟩
  rcases h.small with hzero | hsmall
  · exact .inl hzero
  · have hle : Double.twoPow 37 < Double.twoPow 1022 := by decide
    exact .inr (.inr (Double.lt_of_le_of_lt (Double.le_of_lt hsmall) hle))

/-- The numbers that the ends of a finite bracket stand for. -/
theorem Narrowing.exists_stands (h : r.Narrowing chroma) :
    ∃ p q, Stands r.low.toModel.unpack p ∧ Stands r.high.toModel.unpack q ∧ p ≤ q := by
  have hzero : (0 : Float).isFinite = true := rfl
  rcases Double.infinity_or_stands h.within.zero_le_high with hinfinity | ⟨q, hq⟩
  · exact absurd h.finite (by rw [hinfinity]; exact Double.not_lt_self _)
  · have hlow : r.low.isFinite = true := Double.isFinite_of_le_of_le h.zero_le h.low_le_high
      hzero (Double.isFinite_of_stands hq)
    obtain ⟨p, hp⟩ := Double.exists_stands hlow (Double.le_iff.mp h.zero_le).2.2
    exact ⟨p, q, hp, hq, (Double.le_iff_of_stands hp hq).mp h.low_le_high⟩

/-- The ends of a wide bracket are apart by more than the tolerance. -/
theorem tolerance_lt_of_isWide {p q : ℚ} (hp : Stands r.low.toModel.unpack p)
    (hq : Stands r.high.toModel.unpack q) (hle : p ≤ q) (hsmall : q < 2 ^ 1023)
    (hwide : r.isWide = true) : 1 / 10001 < q - p := by
  obtain ⟨tolerance, htolerance, hbound⟩ := Double.exists_stands_mapTolerance
  obtain ⟨width, hwidth, hround⟩ := hq.sub hp hle hsmall
  have hunpack : (r.high - r.low).toModel.unpack = Float.Model.UnpackedFloat.sub .binary64
      r.high.toModel.unpack r.low.toModel.unpack := hwidth.unpack_pack
  rw [← hunpack] at hwidth
  have hgt : mapTolerance < r.high - r.low := decide_eq_true_iff.mp hwide
  rw [Double.lt_iff_of_stands htolerance hwidth] at hgt
  by_contra hnarrow
  have hle := hround.ge_of_ge htolerance (by linarith)
  linarith

/-- **The middle of a wide bracket lies strictly inside.** -/
theorem Narrowing.midpoint_inside (h : r.Narrowing chroma) (hwide : r.isWide = true) :
    r.low < r.midpoint ∧ r.midpoint < r.high := by
  obtain ⟨p, q, hp, hq, hle⟩ := h.exists_stands
  rcases h.small with hzero | hsmall
  · -- half of the upper end is exact
    obtain ⟨tolerance, htolerance, hbound⟩ := Double.exists_stands_mapTolerance
    have hgt : mapTolerance < r.high - r.low := decide_eq_true_iff.mp hwide
    rw [hzero, Double.sub_zero_eq, Double.lt_iff_of_stands htolerance hq] at hgt
    obtain ⟨mid, hmid, hround⟩ := Double.exists_half hq
    obtain ⟨v, hv⟩ := hq.exists_half (hbound.trans hgt)
    rw [hround.eq_of_stands hv] at hmid
    rw [midpoint, hzero, Double.lt_iff_of_stands Double.stands_zero hmid,
      Double.lt_iff_of_stands hmid hq]
    constructor <;> linarith
  · -- both roundings are finer than half the tolerance
    rw [Double.lt_iff_of_stands hq (Double.stands_twoPow (by norm_num) (by norm_num)),
      zpow_ofNat] at hsmall
    obtain ⟨sum, mid, hmid, hroundsum, hroundmid, hlow, hhigh⟩ :=
      Double.exists_midpoint hp hq hle
        (hsmall.trans (pow_lt_pow_right₀ one_lt_two (by norm_num)))
    have hwidth := tolerance_lt_of_isWide hp hq hle
      (hsmall.trans (pow_lt_pow_right₀ one_lt_two (by norm_num))) hwide
    have hnonneg := hp.nonneg
    have hsum := abs_le.mp (hroundsum.abs_sub_le (e := -15) (by linarith) (by norm_num)
      (by norm_num) (by norm_num; linarith))
    have hsumnonneg : 0 ≤ sum := hroundsum.le_of_le Double.stands_zero (by linarith)
    have hhalf := abs_le.mp (hroundmid.abs_sub_le (e := -15) (by linarith) (by norm_num)
      (by norm_num) (by norm_num at hsum ⊢; linarith))
    change _ < (r.low + r.high) / 2 ∧ (r.low + r.high) / 2 < _
    rw [Double.lt_iff_of_stands hp hmid, Double.lt_iff_of_stands hmid hq]
    norm_num at hsum hhalf
    constructor <;> linarith

/-- A step keeps a bracket narrowing. -/
theorem Narrowing.step (hrejects : RejectsFrom (Double.twoPow 36) via gamut origin)
    (h : r.Narrowing origin.coords.y) (hstep : r.step via gamut origin = .more next) :
    next.Narrowing origin.coords.y := by
  obtain ⟨hlow, hhigh⟩ := h.midpoint_inside (isWide_of_step hstep)
  -- an accepted middle of a bracket from zero on is its half
  have hsmall : Accepts via gamut origin r.midpoint → r.high < Double.twoPow 37 := by
    intro haccepts
    rcases h.small with hzero | hsmall
    · obtain ⟨p, q, hp, hq, -⟩ := h.exists_stands
      obtain ⟨mid, hmid, hround⟩ := Double.exists_half hq
      have hpart : Stands (Double.twoPow 36).toModel.unpack (2 ^ (36 : ℤ)) :=
        Double.stands_twoPow (by norm_num) (by norm_num)
      rw [Double.lt_iff_of_stands hq (Double.stands_twoPow (by norm_num) (by norm_num))]
      by_contra hlarge
      have hhalf : (2 : ℚ) ^ (36 : ℤ) ≤ q / 2 := by linarith [not_lt.mp hlarge]
      refine hrejects r.midpoint ?_ (Double.le_trans (Double.le_of_lt hhigh) h.le_chroma) haccepts
      rw [midpoint, hzero, Double.le_iff_of_stands hpart hmid]
      exact hround.le_of_le hpart hhalf
    · exact hsmall
  have hzero_le := Double.le_trans h.zero_le (Double.le_of_lt hlow)
  cases halving_of_step hstep with
  | fits hwide hfits =>
    exact ⟨hzero_le, Double.le_of_lt hhigh, h.le_chroma, h.finite, .inr (hsmall (.inl hfits))⟩
  | near hcuts hnear =>
    exact ⟨hzero_le, Double.le_of_lt hhigh, h.le_chroma, h.finite, .inr (hsmall (.inr hnear))⟩
  | far hcuts hfar =>
    refine ⟨h.zero_le, Double.le_of_lt hlow, Double.le_trans (Double.le_of_lt hhigh) h.le_chroma,
      Double.lt_trans hhigh h.finite, ?_⟩
    rcases h.small with hzero | hsmall
    · exact .inl hzero
    · exact .inr (Double.lt_trans hhigh hsmall)

/-- The doubles strictly between the ends. -/
def between (r : Reduction) : Set Float := {x | r.low < x ∧ x < r.high}

/-- **A step leaves fewer doubles between the ends.** -/
theorem Narrowing.between_step_ssubset (h : r.Narrowing chroma)
    (hstep : r.step via gamut origin = .more next) : next.between ⊂ r.between := by
  obtain ⟨hlow, hhigh⟩ := h.midpoint_inside (isWide_of_step hstep)
  rw [Set.ssubset_iff_of_subset]
  · -- the middle itself is lost, for it is an end now
    refine ⟨r.midpoint, ⟨hlow, hhigh⟩, fun hmid => ?_⟩
    cases halving_of_step hstep with
    | fits => exact Double.not_lt_self _ hmid.1
    | near => exact Double.not_lt_self _ hmid.1
    | far => exact Double.not_lt_self _ hmid.2
  · rintro x ⟨hx, hx'⟩
    cases halving_of_step hstep with
    | fits => exact ⟨Double.lt_trans hlow hx, hx'⟩
    | near => exact ⟨Double.lt_trans hlow hx, hx'⟩
    | far => exact ⟨hx, Double.lt_trans hx' hhigh⟩

/-- **From a bounded bracket on, finitely many steps lead to a colour.** -/
theorem Narrowing.exists_ends (hrejects : RejectsFrom (Double.twoPow 36) via gamut origin)
    (h : r.Narrowing origin.coords.y) : ∃ c, Ends (Reduction.step via gamut origin) r c := by
  have hfinite := Double.finite_float
  obtain ⟨n, hn⟩ : ∃ n, r.between.ncard < n := ⟨_, Nat.lt_succ_self _⟩
  induction n generalizing r with
  | zero => cases hn
  | succ n ih =>
    cases hstep : r.step via gamut origin with
    | done c => exact ⟨c, .done hstep⟩
    | more next =>
      have hfewer : next.between.ncard < r.between.ncard :=
        Set.ncard_lt_ncard (h.between_step_ssubset hstep) (Set.toFinite _)
      obtain ⟨c, hends⟩ := ih (h.step hrejects hstep) (by omega)
      exact ⟨c, .more hstep hends⟩

/-! ### Infinite chromas -/

/-- **From an infinite chroma on no number of steps leads to a colour**, unless an infinite
    chroma is accepted. -/
theorem not_ends_of_infinity (hinfinite : ¬ Accepts via gamut origin Double.infinity)
    (hlow : r.low = 0.0) (hhigh : r.high = Double.infinity) (c : Color) :
    ¬ Ends (Reduction.step via gamut origin) r c := by
  have hmid : ∀ r : Reduction, r.low = 0.0 ∧ r.high = Double.infinity →
      r.midpoint = Double.infinity := by
    rintro r ⟨hlow, hhigh⟩
    have hzero : (0 : Float) ≤ 0.0 := by decide
    exact midpoint_of_infinity (by rw [hlow]; exact hzero) hhigh
  have hstep : ∀ r next : Reduction, r.low = 0.0 ∧ r.high = Double.infinity →
      r.step via gamut origin = .more next → next.low = 0.0 ∧ next.high = Double.infinity := by
    intro r next hr hstep
    cases halving_of_step hstep with
    | fits hwide hfits =>
      rw [hmid r hr] at hfits
      exact absurd (.inl hfits) hinfinite
    | near hcuts hnear =>
      rw [hmid r hr] at hnear
      exact absurd (.inr hnear) hinfinite
    | far hcuts hfar => exact ⟨hr.1, hmid r hr⟩
  intro hends
  obtain ⟨last, hlast, hdone⟩ := hends.exists_last
    (fun r => r.low = 0.0 ∧ r.high = Double.infinity) hstep ⟨hlow, hhigh⟩
  cases halving_of_step hdone with
  | narrow hnarrow =>
    rw [isWide, hlast.1, hlast.2] at hnarrow
    revert hnarrow
    decide
  | close hcuts hnear =>
    rw [hmid last hlast] at hnear
    exact hinfinite (.inr hnear)

end Reduction

/-! ### Colours -/

namespace Conversions

open Reduction

variable {via : Conversions} {gamut : Gamut} {c : Color}

theorem isSome_toGamut?_iff :
    (via.toGamut? gamut c).isSome = true ↔
      via.fits gamut 0.0 c = true ∨ (via.mapInto? gamut c).isSome = true := by
  unfold toGamut?
  split
  · next h => simp only [h, Option.isSome_some, true_or]
  · next h => simp only [h, Option.isSome_map, false_or, Bool.false_eq_true]

theorem isSome_mapInto?_of_not_searches (h : ¬ via.Searches gamut c) :
    (via.mapInto? gamut c).isSome = true := by
  unfold mapInto?
  dsimp only
  split
  · rfl
  · next hwhite =>
    split
    · rfl
    · next hblack =>
      split
      · rfl
      · next hfits => exact absurd ⟨hwhite, hblack, Bool.eq_false_iff.mpr hfits⟩ h

/-- Once a chroma has to be searched, the search is all there is to it, unless the colour can
    be cut off at once. -/
theorem isSome_mapInto?_iff (h : via.Searches gamut c) :
    (via.mapInto? gamut c).isSome = true ↔
      via.distance (via.clip gamut (via.convert .oklch c)) (via.convert .oklch c) < noticeable ∨
        ∃ result, Ends (Reduction.step via gamut (via.convert .oklch c))
          (start via gamut (via.convert .oklch c)) result := by
  unfold mapInto?
  dsimp only
  rw [if_neg h.not_white, if_neg h.not_black, h.not_fits, if_neg Bool.false_ne_true]
  split
  · next hnear => exact iff_of_true rfl (.inl hnear)
  · next hfar =>
    rw [Option.isSome_iff_exists]
    constructor
    · rintro ⟨result, hresult⟩
      exact .inr ⟨result, run?_eq_some_iff.mp hresult⟩
    · rintro (hnear | ⟨result, hends⟩)
      · exact absurd hnear hfar
      · exact ⟨result, run?_eq_some_iff.mpr hends⟩

/-- **Every colour of bounded chroma is brought into the gamut.** -/
theorem isSome_toGamut? (hchroma : (via.convert .oklch c).coords.y ≠ Double.infinity)
    (hrejects : RejectsFrom (Double.twoPow 36) via gamut (via.convert .oklch c)) :
    (via.toGamut? gamut c).isSome = true := by
  rw [isSome_toGamut?_iff]
  refine .inr ?_
  by_cases hsearches : via.Searches gamut c
  · rw [isSome_mapInto?_iff hsearches]
    refine .inr ?_
    cases hwide : (start via gamut (via.convert .oklch c)).isWide with
    | false => exact ⟨_, .done (step_of_narrow hwide)⟩
    | true =>
      have hwithin := within_start hwide
      rcases Double.infinity_or_stands hwithin.zero_le_high with hinfinity | ⟨q, hq⟩
      · exact absurd hinfinity hchroma
      · have hnarrowing : (start via gamut (via.convert .oklch c)).Narrowing
            (via.convert .oklch c).coords.y :=
          ⟨hwithin.zero_le, hwithin.low_le_high, hwithin.le_chroma,
            Double.lt_infinity_of_stands hq, .inl rfl⟩
        exact hnarrowing.exists_ends hrejects
  · exact isSome_mapInto?_of_not_searches hsearches

/-- **No colour of infinite chroma is brought into the gamut**, unless it fits as it is or is
    white or black. -/
theorem isSome_toGamut?_iff_of_infinity
    (hchroma : (via.convert .oklch c).coords.y = Double.infinity)
    (hinfinite : ¬ Accepts via gamut (via.convert .oklch c) Double.infinity) :
    (via.toGamut? gamut c).isSome = true ↔ via.fits gamut 0.0 c = true ∨
      (via.convert .oklch c).coords.x ≥ 1.0 ∨ (via.convert .oklch c).coords.x ≤ 0.0 := by
  have hmodel : (via.convert .oklch c).model = .oklch := model_convert _
  have hself := candidate_self hmodel
  rw [hchroma] at hself
  rw [isSome_toGamut?_iff]
  refine or_congr_right ?_
  by_cases hsearches : via.Searches gamut c
  · rw [isSome_mapInto?_iff hsearches]
    refine iff_of_false ?_ (not_or.mpr ⟨hsearches.not_white, hsearches.not_black⟩)
    rintro (hnear | ⟨result, hends⟩)
    · refine hinfinite (.inr ?_)
      unfold Unnoticed
      rw [hself]
      exact hnear
    · exact not_ends_of_infinity hinfinite rfl hchroma result hends
  · refine iff_of_true (isSome_mapInto?_of_not_searches hsearches) ?_
    by_contra hinside
    obtain ⟨hwhite, hblack⟩ := not_or.mp hinside
    refine hsearches ⟨hwhite, hblack, Bool.eq_false_iff.mpr fun hfits => hinfinite (.inl ?_)⟩
    rw [hself]
    exact hfits

end Conversions

end EvenChroma
