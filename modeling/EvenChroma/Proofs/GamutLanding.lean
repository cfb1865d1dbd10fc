/-
  EvenChroma/Proofs/GamutLanding.lean
  ===================================
  **What is brought into a gamut lands in it.**  Cutting off leaves channels between 0 and 1
  unless they are NaN, and every way to a result ends with a cut, with white or black or with
  a colour that fits.  What is cut off on the way has the lightness, the hue and the opacity
  of the Oklch form; its chroma is from the bracket, and the bracket never leaves the chromas
  from zero to the one that it started with (`Reduction.Within`).
-/
import EvenChroma.Proofs.DoubleMidpoints
import EvenChroma.Proofs.ReductionSteps

namespace EvenChroma

/-! ### The cube -/

/-- All coordinates are between 0 and 1. -/
def Triple.InCube (t : Triple) : Prop := ∀ v ∈ t.toList, 0 ≤ v ∧ v ≤ 1

theorem Double.clamp_bounds {v : Float} (h : v.isNaN = false) :
    0 ≤ Scalar.clamp v 0.0 1.0 ∧ Scalar.clamp v 0.0 1.0 ≤ 1 := by
  have hzero : (0.0 : Float).isNaN = false := rfl
  have hone : (1.0 : Float).isNaN = false := rfl
  unfold Scalar.clamp
  split
  · exact ⟨by decide, by decide⟩
  · next hnonneg =>
    split
    · exact ⟨by decide, by decide⟩
    · next hle => exact ⟨le_of_not_lt h hzero hnonneg, le_of_not_lt hone h hle⟩

namespace Conversions

variable {via : Conversions} {gamut : Gamut} {c mapped : Color}

/-- Without any overshoot, a colour fits exactly if its channels are in the cube. -/
theorem fits_zero_iff :
    via.fits gamut 0.0 c = true ↔ (via.convert gamut.model c).coords.InCube := by
  have hsum : (1.0 + 0.0 : Float) = 1 := rfl
  have hlow : ∀ v : Float, -0.0 ≤ v ↔ 0 ≤ v := by
    intro v
    rw [Double.le_iff, Double.le_iff]
    exact Iff.rfl
  simp only [fits, Triple.all, Triple.InCube, Triple.toList, Bool.and_eq_true,
    decide_eq_true_eq, List.forall_mem_cons, hsum, hlow]
  simp only [List.not_mem_nil, false_implies, implies_true, and_true, and_assoc]

theorem model_convert (model : Model) : (via.convert model c).model = model := by
  unfold convert
  split
  · next h => exact h.symm
  · rfl

theorem model_clip : (via.clip gamut c).model = gamut.model := model_convert _

end Conversions

/-! ### Chromas on the way -/

open Double (Stands)

namespace Double

theorem eq_infinity_of_not_isFinite {x : Float} (hx : 0 ≤ x) (h : x.isFinite = false) :
    x = infinity := by
  obtain ⟨-, hnan, hle⟩ := le_iff.mp hx
  apply eq_of_unpack_eq
  change x.toModel.unpack = .infinity .positive
  change x.toModel.unpack.isNaN = false at hnan
  change x.toModel.unpack.isFinite = false at h
  unfold rank at hle
  obtain ⟨u, hu⟩ : ∃ u, u = x.toModel.unpack := ⟨_, rfl⟩
  rw [← hu] at hnan hle h ⊢
  rcases u with (_ | _) | _ | _ | _
  · exact absurd hle (by decide)
  · rfl
  · cases hnan
  · cases h
  · cases h

/-- Every double that is not below zero is infinity or stands for a number. -/
theorem infinity_or_stands {x : Float} (hx : 0 ≤ x) :
    x = infinity ∨ ∃ q, Stands x.toModel.unpack q := by
  cases hfinite : x.isFinite with
  | true => exact .inr (exists_stands hfinite (le_iff.mp hx).2.2)
  | false => exact .inl (eq_infinity_of_not_isFinite hx hfinite)

theorem stands_zero : Stands (0.0 : Float).toModel.unpack 0 := .zero .positive

theorem not_lt_self (x : Float) : ¬ x < x := fun h => lt_irrefl _ (lt_iff.mp h).2.2

theorem lt_iff_of_stands {x y : Float} {p q : ℚ} (hx : Stands x.toModel.unpack p)
    (hy : Stands y.toModel.unpack q) : x < y ↔ p < q := by
  rw [lt_iff, rank, rank, ← not_le, ← not_le, rank_le_iff hy hx]
  exact ⟨fun h => h.2.2, fun h => ⟨hx.isNaN_eq, hy.isNaN_eq, h⟩⟩

theorem lt_infinity_of_stands {x : Float} {q : ℚ} (h : Stands x.toModel.unpack q) :
    x < infinity := by
  obtain ⟨-, -, hlt⟩ := isFinite_iff.mp (isFinite_of_stands h)
  exact lt_iff.mpr ⟨h.isNaN_eq, rfl, hlt⟩

/-- Half of a large double is large. -/
theorem huge_half {y : Float} (hy : twoPow 1022 ≤ y) (hfinite : y ≠ infinity) :
    twoPow 1021 ≤ (0.0 + y) / 2.0 ∧ (0.0 + y) / 2.0 < infinity := by
  have hzero : (0 : Float) ≤ twoPow 1022 := by decide
  rcases infinity_or_stands (Double.le_trans hzero hy) with heq | ⟨q, hq⟩
  · exact absurd heq hfinite
  · obtain ⟨mid, hmid, hround⟩ := exists_half hq
    have hwhole : Stands (twoPow 1022).toModel.unpack (2 ^ (1022 : ℤ)) :=
      stands_twoPow (by norm_num) (by norm_num)
    have hpart : Stands (twoPow 1021).toModel.unpack (2 ^ (1021 : ℤ)) :=
      stands_twoPow (by norm_num) (by norm_num)
    have hlarge : (2 : ℚ) ^ (1022 : ℤ) ≤ q := (le_iff_of_stands hwhole hq).mp hy
    have hhalf : (2 : ℚ) ^ (1021 : ℤ) ≤ q / 2 := by
      rw [le_div_iff₀ two_pos, ← zpow_add_one₀ two_ne_zero]
      exact hlarge
    exact ⟨(le_iff_of_stands hpart hmid).mpr (hround.le_of_le hpart hhalf),
      lt_infinity_of_stands hmid⟩

end Double

namespace Reduction

variable {via : Conversions} {gamut : Gamut} {origin : Color} {r next : Reduction}
  {chroma : Float}

/-- Ends whose sum overflows are only met behind an accepted chroma of this size. -/
def AcceptsHuge (via : Conversions) (gamut : Gamut) (origin : Color) : Prop :=
  ∃ huge, Double.twoPow 1021 ≤ huge ∧ huge < Double.infinity ∧ Accepts via gamut origin huge

/-- The bracket is from the chromas between zero and the given one, and the sum of its ends
    is no overflow. -/
structure Within (chroma : Float) (r : Reduction) : Prop where
  zero_le : 0 ≤ r.low
  low_le_high : r.low ≤ r.high
  le_chroma : r.high ≤ chroma
  moderate : r.low = 0.0 ∨ r.high = Double.infinity ∨ r.high < Double.twoPow 1022

theorem midpoint_of_infinity (hlow : 0 ≤ r.low) (hhigh : r.high = Double.infinity) :
    r.midpoint = Double.infinity := by
  rw [midpoint, hhigh]
  exact Double.midpoint_infinity hlow

theorem Within.zero_le_high (h : r.Within chroma) : 0 ≤ r.high :=
  Double.le_trans h.zero_le h.low_le_high

/-- **The middle of the bracket lies between its ends.** -/
theorem Within.midpoint_bounds (h : r.Within chroma) :
    r.low ≤ r.midpoint ∧ r.midpoint ≤ r.high := by
  rcases Double.infinity_or_stands h.zero_le_high with hinfinity | ⟨q, hq⟩
  · rw [midpoint_of_infinity h.zero_le hinfinity, ← hinfinity]
    exact ⟨h.low_le_high, Double.le_self_of_le h.low_le_high⟩
  · rcases h.moderate with hzero | hinfinity | hsmall
    · obtain ⟨mid, hmid, hround⟩ := Double.exists_half hq
      have hnonneg := hq.nonneg
      rw [midpoint, hzero]
      exact ⟨(Double.le_iff_of_stands Double.stands_zero hmid).mpr
          (hround.le_of_le Double.stands_zero (by linarith)),
        (Double.le_iff_of_stands hmid hq).mpr (hround.ge_of_ge hq (by linarith))⟩
    · rw [hinfinity] at hq
      cases hq
    · rcases Double.infinity_or_stands h.zero_le with hinfinity | ⟨p, hp⟩
      · have hlarge := h.low_le_high
        rw [hinfinity] at hlarge
        exact absurd (Double.lt_of_le_of_lt hlarge (Double.lt_infinity_of_stands hq))
          (Double.not_lt_self _)
      · have hpq : p ≤ q := (Double.le_iff_of_stands hp hq).mp h.low_le_high
        rw [Double.lt_iff_of_stands hq (Double.stands_twoPow (by norm_num) (by norm_num)),
          zpow_ofNat] at hsmall
        obtain ⟨sum, mid, hmid, -, -, hlow, hhigh⟩ := Double.exists_midpoint hp hq hpq hsmall
        exact ⟨(Double.le_iff_of_stands hp hmid).mpr hlow,
          (Double.le_iff_of_stands hmid hq).mpr hhigh⟩

/-- A step keeps the bracket among the chromas. -/
theorem Within.step (hhuge : ¬ AcceptsHuge via gamut origin) (h : r.Within chroma)
    (hstep : r.step via gamut origin = .more next) : next.Within chroma := by
  obtain ⟨hlow, hhigh⟩ := h.midpoint_bounds
  -- an accepted middle of a bracket from zero on is not huge, so neither is its upper end
  have hmoderate : Accepts via gamut origin r.midpoint →
      r.high = Double.infinity ∨ r.high < Double.twoPow 1022 := by
    intro haccepts
    rcases h.moderate with hzero | hmoderate
    · by_contra hlarge
      obtain ⟨hfinite, hlarge⟩ := not_or.mp hlarge
      have hnan := (Double.le_iff.mp h.low_le_high).2.1
      have hhalf := Double.huge_half (Double.le_of_not_lt hnan rfl hlarge) hfinite
      rw [← hzero] at hhalf
      exact hhuge ⟨r.midpoint, hhalf.1, hhalf.2, haccepts⟩
    · exact hmoderate
  cases halving_of_step hstep with
  | fits hwide hfits =>
    exact ⟨Double.le_trans h.zero_le hlow, hhigh, h.le_chroma, .inr (hmoderate (.inl hfits))⟩
  | near hcuts hnear =>
    exact ⟨Double.le_trans h.zero_le hlow, hhigh, h.le_chroma, .inr (hmoderate (.inr hnear))⟩
  | far hcuts hfar =>
    refine ⟨h.zero_le, hlow, Double.le_trans hhigh h.le_chroma, ?_⟩
    rcases h.moderate with hzero | hinfinity | hsmall
    · exact .inl hzero
    · exact .inr (.inl (midpoint_of_infinity h.zero_le hinfinity))
    · exact .inr (.inr (Double.lt_of_le_of_lt hhigh hsmall))

/-- A wide bracket at the start reaches from zero to a chroma that is no less. -/
theorem within_start (hwide : (start via gamut origin).isWide = true) :
    (start via gamut origin).Within origin.coords.y := by
  have hgt : mapTolerance < origin.coords.y - 0.0 := decide_eq_true_iff.mp hwide
  rw [Double.sub_zero_eq] at hgt
  have hzero : (0 : Float) ≤ mapTolerance := by decide
  have hle : 0 ≤ origin.coords.y := Double.le_trans hzero (Double.le_of_lt hgt)
  have hlow : (0 : Float) ≤ 0.0 := by decide
  exact ⟨hlow, hle, Double.le_self_of_le hle, .inl rfl⟩

end Reduction

namespace Conversions

open Reduction

variable {via : Conversions} {gamut : Gamut} {c : Color}

/-- **Wide brackets stay between zero and the chroma of the Oklch form.** -/
theorem Reached.within {r : Reduction} (h : via.Reached gamut c r)
    (hhuge : ¬ AcceptsHuge via gamut (via.convert .oklch c)) (hwide : r.isWide = true) :
    r.Within (via.convert .oklch c).coords.y := by
  induction h with
  | start => exact within_start hwide
  | step hr hstep ih => exact (ih (isWide_of_step hstep)).step hhuge hstep

theorem candidate_self (h : c.model = .oklch) : candidate c c.coords.y = c := by
  rw [candidate, ← h]

end Conversions

end EvenChroma
