/-
  EvenChroma/Proofs/AcceptedChromas.lean
  ======================================
  **The conversions of this library accept no huge chromas.**  A candidate that fits, or that
  is hardly changed by cutting it off, is close to a colour of the cube, so its XYZ are
  bounded.  Its chroma is bounded by them.  In the other direction, a candidate of moderate
  chroma has bounded channels, so nothing is NaN on the way (`avoidsNaN_standard`).
-/
import EvenChroma.Proofs.ColourBounds
import EvenChroma.Proofs.ReductionEnd

namespace EvenChroma

open Double (Bounded Enclosed value)
open Reduction

/-! ### The cube -/

theorem Double.enclosed_of_le_of_le {l u v : Float} (hl : l.isFinite = true)
    (hu : u.isFinite = true) (hlow : l ≤ v) (hhigh : v ≤ u) : Enclosed (value l) (value u) v := by
  have hfinite := Double.isFinite_of_le_of_le hlow hhigh hl hu
  exact ⟨hfinite, (Double.le_iff_value hl hfinite).mp hlow,
    (Double.le_iff_value hfinite hu).mp hhigh⟩

theorem Double.enclosed_of_bounds {v : Float} (hlow : 0 ≤ v) (hhigh : v ≤ 1) : Enclosed 0 1 v := by
  have hzero : value (0 : Float) = 0 := rfl
  have hone : Enclosed 1 1 (1 : Float) := by decide +kernel
  exact (Double.enclosed_of_le_of_le rfl hone.finite hlow hhigh).mono hzero.ge hone.high

/-- A channel that was cut off is in the cube, unless it is NaN. -/
theorem Double.enclosed_clamp {v : Float} (h : (Scalar.clamp v 0.0 1.0).isFinite = true) :
    Enclosed 0 1 (Scalar.clamp v 0.0 1.0) := by
  cases hnan : v.isNaN with
  | false =>
    obtain ⟨hlow, hhigh⟩ := Double.clamp_bounds hnan
    exact Double.enclosed_of_bounds hlow hhigh
  | true =>
    have hlow : ¬ v < 0.0 := fun hlt => by
      rw [(Double.lt_iff.mp hlt).1] at hnan
      cases hnan
    have hhigh : ¬ v > 1.0 := fun hlt => by
      rw [(Double.lt_iff.mp hlt).2.1] at hnan
      cases hnan
    rw [Scalar.clamp, if_neg hlow, if_neg hhigh] at h
    rw [Double.isNaN_of_isFinite h] at hnan
    cases hnan

namespace Conversions

/-! ### Accepted candidates -/

variable {gamut : Gamut} {origin : Color} {chroma : Float}

theorem standardOfXyz_gamut (gamut : Gamut) (xyz : Triple) :
    standardOfXyz gamut.model xyz = gamut.system.ofXyz xyz := by
  cases gamut <;> rfl

theorem standardToXyz_gamut (gamut : Gamut) (rgb : Triple) :
    standardToXyz gamut.model rgb = gamut.system.toXyzOf rgb := by
  cases gamut <;> rfl

/-- The XYZ of the Oklch colour with another chroma. -/
def candidateXyz (origin : Color) (chroma : Float) : Triple :=
  standardToXyz .oklch (candidate origin chroma).coords

theorem coords_convert_gamut (gamut : Gamut) :
    (standard.convert gamut.model (candidate origin chroma)).coords =
      gamut.system.ofXyz (candidateXyz origin chroma) := by
  have hne : gamut.model ≠ (candidate origin chroma).model := by
    change gamut.model ≠ .oklch
    cases gamut <;> decide
  rw [convert, if_neg hne]
  exact standardOfXyz_gamut gamut _

theorem withHue_oklch (c : Triple) :
    withHue .oklch c = ⟨c.x, c.y, if c.z.isNaN then 0.0 else c.z⟩ := by
  rw [withHue]
  split <;> rfl

/-- A candidate that fits is not large. -/
theorem bounded_of_fits (h : standard.fits gamut 0.0 (candidate origin chroma) = true) :
    (candidateXyz origin chroma).Bounded (2 ^ 78) := by
  rw [fits_zero_iff, coords_convert_gamut] at h
  simp only [Triple.InCube, Triple.toList, List.forall_mem_cons] at h
  obtain ⟨⟨hx, hx'⟩, ⟨hy, hy'⟩, ⟨hz, hz'⟩, -⟩ := h
  have hbound : ∀ {v : Float}, 0 ≤ v → v ≤ 1 → Bounded 1 v := by
    intro v hlow hhigh
    have hv := Double.enclosed_of_bounds hlow hhigh
    exact .of_le hv.finite (by linarith [hv.low]) hv.high
  exact (Rgb.System.moderate gamut).bounded_of_ofXyz ⟨hbound hx hx', hbound hy hy', hbound hz hz'⟩

theorem coords_clip (gamut : Gamut) : (standard.clip gamut (candidate origin chroma)).coords =
    (gamut.system.ofXyz (candidateXyz origin chroma)).map (Scalar.clamp · 0.0 1.0) := by
  rw [clip, coords_convert_gamut]

/-- A candidate that is hardly changed by cutting off is not large. -/
theorem bounded_of_unnoticed (h : Unnoticed standard gamut origin chroma) :
    (candidateXyz origin chroma).Bounded (2 ^ 78) := by
  obtain ⟨rgb, hrgb⟩ : ∃ rgb, rgb = (standard.clip gamut (candidate origin chroma)).coords :=
    ⟨_, rfl⟩
  obtain ⟨p, hp⟩ : ∃ p, p = Oklab.ofXyz (gamut.system.toXyzOf rgb) := ⟨_, rfl⟩
  obtain ⟨q, hq⟩ : ∃ q, q = Oklab.ofXyz (candidateXyz origin chroma) := ⟨_, rfl⟩
  have hclipped : (standard.convert .oklab (standard.clip gamut (candidate origin chroma))).coords
      = p := by
    have hmodel : (standard.clip gamut (candidate origin chroma)).model = gamut.model := model_clip
    have hne : Model.oklab ≠ (standard.clip gamut (candidate origin chroma)).model := by
      rw [hmodel]
      cases gamut <;> decide
    rw [convert, if_neg hne, hp, hrgb, ← standardToXyz_gamut, ← hmodel]
    rfl
  have hcurrent : (standard.convert .oklab (candidate origin chroma)).coords = q := by
    have hne : Model.oklab ≠ (candidate origin chroma).model := Model.noConfusion
    rw [convert, if_neg hne, hq]
    rfl
  have hsmall : Bounded (1 / 4) noticeable := by decide +kernel
  rw [Unnoticed, distance, hclipped, hcurrent] at h
  obtain ⟨hfinite, hlt⟩ := Double.lt_one_of_sqrt_lt hsmall h
  obtain ⟨hx, hy, hz⟩ := Double.bounded_of_squares hfinite hlt
  -- the cut colour is finite, so it is in the cube and close to grey
  have hmoderate := Rgb.System.moderate gamut
  have hchannels := hmoderate.finite_of_toXyzOf
    (Oklab.finite_of_ofXyz (hp ▸ (Double.isFinite_of_sub hx.1).1)).x
  have hcube : Enclosed 0 1 rgb.x ∧ Enclosed 0 1 rgb.y ∧ Enclosed 0 1 rgb.z := by
    rw [hrgb, coords_clip] at hchannels ⊢
    exact ⟨Double.enclosed_clamp hchannels.x, Double.enclosed_clamp hchannels.y,
      Double.enclosed_clamp hchannels.z⟩
  have hcut : p.Bounded (2 ^ 17) :=
    hp ▸ Oklab.bounded_ofXyz (hmoderate.bounded_toXyzOf hcube.1 hcube.2.1 hcube.2.2)
  have hnear : ∀ {a b : Float}, Bounded 2 (a - b) → Bounded (2 ^ 17) a → Bounded (2 ^ 18) b := by
    intro a b hsub ha
    obtain ⟨-, hb, hclose⟩ := hsub.abs_sub_le
    have htriangle := abs_sub_abs_le_abs_sub (value b) (value a)
    rw [abs_sub_comm] at htriangle
    have hbound := ha.2
    norm_num at hclose hbound
    exact ⟨hb, by norm_num; linarith⟩
  have hcandidate : q.Bounded (2 ^ 18) := ⟨hnear hx hcut.x, hnear hy hcut.y, hnear hz hcut.z⟩
  exact Oklab.bounded_of_ofXyz (hq ▸ hcandidate)

/-- **Huge chromas are never accepted** by the conversions of this library. -/
theorem not_accepts_standard (h : Double.twoPow 36 ≤ chroma) :
    ¬ Accepts standard gamut origin chroma := by
  intro haccepts
  have hxyz : (candidateXyz origin chroma).Bounded (2 ^ 78) :=
    haccepts.elim bounded_of_fits bounded_of_unnoticed
  have hlimit : (Double.twoPow 36).isFinite = true := rfl
  have hpositive : chroma > 0.0 := by
    have hzero : (0.0 : Float) < Double.twoPow 36 := by decide
    obtain ⟨hfinite, -, hlt⟩ := Double.lt_iff.mp hzero
    obtain ⟨-, hnan, hle⟩ := Double.le_iff.mp h
    exact Double.lt_iff.mpr ⟨hfinite, hnan, hlt.trans_le hle⟩
  have haxes : (Polar.toAxes (withHue .oklch (candidate origin chroma).coords)).Bounded (2 ^ 31) :=
    Oklab.bounded_of_toXyz hxyz
  have hchroma := Polar.bounded_chroma haxes (by norm_num)
  rw [withHue_oklch, candidate, if_pos hpositive] at hchroma
  rw [Double.le_iff_value hlimit hchroma.1] at h
  have hvalue := (Double.value_twoPow (e := 36) (by norm_num) (by norm_num)).2
  rw [hvalue] at h
  have hle := (le_abs_self _).trans hchroma.2
  norm_num at h hle
  linarith

end Conversions

end EvenChroma
