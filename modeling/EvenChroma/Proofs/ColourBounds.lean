/-
  EvenChroma/Proofs/ColourBounds.lean
  ===================================
  **How large the coordinates of a colour are in other models.**  The bounds are rough, but
  hold in both directions: the linear maps between the models are nearly undone by others, and
  the curves and roots between them only grow or shrink a number so much.
-/
import EvenChroma.Color.Basic
import EvenChroma.Proofs.CircleBounds
import EvenChroma.Proofs.CubeRootBounds
import EvenChroma.Proofs.MatrixBounds
import EvenChroma.Proofs.PowerBounds

namespace EvenChroma

namespace Double

/-! ### Backwards through a formula -/

/-- The numbers of a bounded difference are close together. -/
theorem Bounded.abs_sub_le {x y : Float} {b : ℚ} (h : Bounded b (x - y)) :
    x.isFinite = true ∧ y.isFinite = true ∧ |value x - value y| ≤ b + b / 2 ^ 50 + 1 / 2 ^ 20 := by
  obtain ⟨hx, hy⟩ := isFinite_of_sub h.1
  have hclose := (approximates_sub hx hy).close_of_abs_le h.1 (le_refl _)
  have htriangle := abs_sub_abs_le_abs_sub (value x - value y) (value (x - y))
  rw [abs_sub_comm (value x - value y)] at htriangle
  have hbound := h.2
  have hnonneg : 0 ≤ b := (abs_nonneg _).trans hbound
  generalize |value x - value y| = size at *
  norm_num at hclose ⊢
  exact ⟨hx, hy, by linarith⟩

theorem bounded_of_cube {x : Float} (h : Bounded (2 ^ 80) (x * x * x)) : Bounded (2 ^ 27) x := by
  obtain ⟨hsquare, hx⟩ := isFinite_of_mul h.1
  have hclose := (approximates_mul hx hx).close_of_abs_le hsquare (le_refl _)
  have hclose' := (approximates_mul hsquare hx).close_of_abs_le h.1 (le_refl _)
  refine ⟨hx, ?_⟩
  by_contra hlarge
  rw [not_le] at hlarge
  have htriangle := abs_sub_abs_le_abs_sub (value x * value x) (value (x * x))
  have htriangle' := abs_sub_abs_le_abs_sub (value (x * x) * value x) (value (x * x * x))
  rw [abs_sub_comm] at htriangle htriangle'
  have hbound := h.2
  have hsize : (2 : ℚ) ^ 27 * 2 ^ 27 ≤ |value x * value x| := by
    rw [abs_mul]
    exact mul_le_mul hlarge.le hlarge.le (by norm_num) (abs_nonneg _)
  generalize |value x * value x| = square at *
  have hsize' : 3 / 2 * (2 : ℚ) ^ 53 ≤ |value (x * x)| := by
    norm_num at hclose hsize ⊢
    linarith
  have hproduct : 3 / 2 * (2 : ℚ) ^ 53 * 2 ^ 27 ≤ |value (x * x) * value x| := by
    rw [abs_mul]
    exact mul_le_mul hsize' hlarge.le (by norm_num) (abs_nonneg _)
  generalize |value (x * x) * value x| = cube at *
  norm_num at hclose' hproduct hbound
  linarith

theorem Bounded.cube {x : Float} (h : Bounded (2 ^ 24) x) : Bounded (2 ^ 74) (x * x * x) :=
  (h.mul h (c := 2 ^ 49) (by norm_num) (by norm_num)).mul h (by norm_num) (by norm_num)

/-- Numbers whose squares have a small sum are small. -/
theorem bounded_of_squares {x y z : Float} (h : (x * x + y * y + z * z).isFinite = true)
    (hvalue : value (x * x + y * y + z * z) < 1) : Bounded 2 x ∧ Bounded 2 y ∧ Bounded 2 z := by
  obtain ⟨hsum, hthird⟩ := isFinite_of_add h
  obtain ⟨hfirst, hsecond⟩ := isFinite_of_add hsum
  have hsquare : ∀ {v : Float}, (v * v).isFinite = true → 0 ≤ value v * value v ∧
      |value (v * v)| ≤ 2 * (value v * value v) + 1 / 2 ^ 30 ∧
      |value (v * v) - value v * value v| ≤ value v * value v / 2 ^ 52 + 1 / 2 ^ 30 := by
    intro v hv
    have hnonneg := mul_self_nonneg (value v)
    have hclose := (approximates_mul (isFinite_of_mul hv).1 (isFinite_of_mul hv).1).close_of_abs_le
      hv (abs_of_nonneg hnonneg).le
    have htriangle := abs_sub_abs_le_abs_sub (value (v * v)) (value v * value v)
    rw [abs_of_nonneg hnonneg] at htriangle
    refine ⟨hnonneg, ?_, hclose⟩
    norm_num at hclose ⊢
    linarith
  obtain ⟨hnonneg₁, hsize₁, hclose₁⟩ := hsquare hfirst
  obtain ⟨hnonneg₂, hsize₂, hclose₂⟩ := hsquare hsecond
  obtain ⟨hnonneg₃, hsize₃, hclose₃⟩ := hsquare hthird
  have hsmall : ∀ {v : Float}, (v * v).isFinite = true → value v * value v ≤ 4 → Bounded 2 v := by
    intro v hv hle
    refine ⟨(isFinite_of_mul hv).1, abs_le_of_sq_le_sq ?_ (by norm_num)⟩
    rw [pow_two]
    exact hle.trans (by norm_num)
  have hsize := (abs_add_le _ _).trans (add_le_add hsize₁ hsize₂)
  have hclose₄ := (approximates_add hfirst hsecond).close_of_abs_le hsum hsize
  have htriangle := abs_sub_abs_le_abs_sub (value (x * x + y * y))
    (value (x * x) + value (y * y))
  have hsize₄ : |value (x * x + y * y)| ≤
      3 * (value x * value x) + 3 * (value y * value y) + 1 := by
    norm_num at hclose₄ hsize ⊢
    linarith
  have hclose₅ := (approximates_add hsum hthird).close_of_abs_le h
    ((abs_add_le _ _).trans (add_le_add hsize₄ hsize₃))
  rw [abs_le] at hclose₁ hclose₂ hclose₃ hclose₄ hclose₅
  norm_num at hclose₁ hclose₂ hclose₃ hclose₄ hclose₅
  exact ⟨hsmall hfirst (by linarith), hsmall hsecond (by linarith), hsmall hthird (by linarith)⟩

end Double

/-! ### Oklab -/

namespace Oklab

theorem nearlyInverse_cones :
    Matrix.NearlyInverse 3 5 toCones ofCones ∧ Matrix.NearlyInverse 5 3 ofCones toCones := by
  decide +kernel

theorem nearlyInverse_xyz : Matrix.NearlyInverse 2 3 xyzToCones conesToXyz ∧
    Matrix.NearlyInverse 3 2 conesToXyz xyzToCones := by
  decide +kernel

variable {xyz lab : Triple}

theorem bounded_ofXyz (h : xyz.Bounded (2 ^ 17)) : (ofXyz xyz).Bounded (2 ^ 17) := by
  have hcones := (Matrix.bounded_apply nearlyInverse_xyz.1.forth (by norm_num) h (by norm_num)
    (by norm_num)).mono (show _ ≤ (2 : ℚ) ^ 23 by norm_num)
  have hroots := hcones.map fun _ => Double.bounded_cubeRoot
  exact (Matrix.bounded_apply nearlyInverse_cones.2.forth (by norm_num) hroots (by norm_num)
    (by norm_num)).mono (by norm_num)

theorem finite_of_ofXyz (h : (ofXyz xyz).x.isFinite = true) : xyz.Finite := by
  have hcones := (finite_of_dot h).of_map fun _ => Double.isFinite_of_cubeRoot
  exact finite_of_dot hcones.x

theorem bounded_of_ofXyz (h : (ofXyz xyz).Bounded (2 ^ 18)) : xyz.Bounded (2 ^ 78) := by
  have hroots := (nearlyInverse_cones.2.bounded (by norm_num) (by norm_num)
    (by norm_num) (by norm_num) h).mono (show _ ≤ (2 : ℚ) ^ 21 by norm_num)
  have hcones := hroots.of_map fun _ => Double.bounded_of_bounded_cubeRoot
  exact (nearlyInverse_xyz.1.bounded (by norm_num) (by norm_num)
    (by norm_num) (by norm_num) hcones).mono (by norm_num)

theorem bounded_of_toXyz (h : (toXyz lab).Bounded (2 ^ 78)) : lab.Bounded (2 ^ 31) := by
  have hcubes := (nearlyInverse_xyz.2.bounded (by norm_num) (by norm_num)
    (by norm_num) (by norm_num) h).mono (show _ ≤ (2 : ℚ) ^ 80 by norm_num)
  have hcones := hcubes.of_map fun _ => Double.bounded_of_cube
  exact (nearlyInverse_cones.1.bounded (by norm_num) (by norm_num)
    (by norm_num) (by norm_num) hcones).mono (by norm_num)

end Oklab

/-! ### Chroma -/

namespace Polar

theorem toAxes_eq (lch : Triple) : toAxes lch =
    ⟨lch.x, (Double.sinCos (Double.toRadians lch.z)).2 * (if lch.y > 0.0 then lch.y else 0.0),
      (Double.sinCos (Double.toRadians lch.z)).1 * (if lch.y > 0.0 then lch.y else 0.0)⟩ := rfl

/-- **The chroma is bounded by the two axes**, for one of them has a large part of it. -/
theorem bounded_chroma {lch : Triple} {b : ℚ} (h : (toAxes lch).Bounded b) (hb : 1 ≤ b) :
    Double.Bounded (3 * b) (if lch.y > 0.0 then lch.y else 0.0) := by
  rw [toAxes_eq] at h
  obtain ⟨-, hcosine, hsine⟩ := h
  cases hfinite : (Double.toRadians lch.z).isFinite with
  | true =>
    rcases Double.exceeds_sinCos hfinite with hlarge | hlarge
    · exact hlarge.bounded_of_mul hsine hb
    · exact hlarge.bounded_of_mul hcosine hb
  | false =>
    have hnan : Double.sinCos (Double.toRadians lch.z) = (Double.nan, Double.nan) := by
      rw [Double.sinCos, if_neg (Bool.eq_false_iff.mp hfinite)]
    have hfactor := (Double.isFinite_of_mul hcosine.1).1
    rw [hnan] at hfactor
    cases hfactor

end Polar

/-! ### Transfer curves -/

open Double (Bounded Enclosed Exceeds copySign power value)

namespace Rgb

/-- The power in a curve is bounded by what the curve makes of it. -/
theorem bounded_of_curve {c p d : Float} (hc : Exceeds (2 / 5) c) (hd : Bounded (1 / 4) d)
    (h : Bounded 1 (c * p - d)) : Bounded 4 p := by
  obtain ⟨hfinite, -, hclose⟩ := h.abs_sub_le
  have htriangle := abs_sub_abs_le_abs_sub (value (c * p)) (value d)
  have hproduct : Bounded (4 / 3) (c * p) := by
    have hbound := hd.2
    norm_num at hclose
    exact ⟨hfinite, by linarith⟩
  exact (hc.bounded_of_mul hproduct (by norm_num)).mono (by norm_num)

/-- How large the numbers of a transfer curve are: of a scaled power of linear light less an
    offset, and of a line below `start`.  Backwards the line ends at `shoulder`, and `back` is
    the power. -/
structure Curve (scale exponent offset slope start shoulder back : Float) : Prop where
  scale : Enclosed 1 (11 / 10) scale
  exponent : Enclosed (2 / 5) (1 / 2) exponent
  offset : Enclosed (1 / 20) (1 / 10) offset
  slope : Enclosed 4 13 slope
  start : Enclosed (1 / 512) 1 start
  shoulder : Enclosed (1 / 25) 1 shoulder
  back : Enclosed (2 / 5) (5 / 2) back

theorem curve_srgb : Curve 1.055 (1.0 / 2.4) 0.055 12.92 0.0031308 0.04045 2.4 :=
  ⟨by decide +kernel, by decide +kernel, by decide +kernel, by decide +kernel, by decide +kernel,
    by decide +kernel, by decide +kernel⟩

theorem curve_rec2020 : Curve rec2020Alpha 0.45 (rec2020Alpha - 1.0) 4.5 rec2020Beta
    (rec2020Beta * 4.5) (1.0 / 0.45) :=
  ⟨by decide +kernel, by decide +kernel, by decide +kernel, by decide +kernel, by decide +kernel,
    by decide +kernel, by decide +kernel⟩

variable {c e d s a b r : Float}

/-- What is encoded by a scaled power, or by a line near zero, is bounded by its code. -/
theorem Curve.bounded_of_encoded {curved : Prop} [Decidable curved] {v : Float}
    (hcurve : Curve c e d s a b r)
    (h : Bounded 1 (if curved then copySign (c * power v.abs e - d) v else s * v)) :
    Bounded (2 ^ 25) v := by
  split at h
  · rw [Double.bounded_copySign_iff] at h
    rw [← Double.bounded_abs_iff]
    exact Double.bounded_of_bounded_power hcurve.exponent (bounded_of_curve
      (hcurve.scale.exceeds (by norm_num)) (hcurve.offset.bounded (by norm_num) (by norm_num)) h)
  · have hslope := hcurve.slope.exceeds (show 2 / 5 ≤ (4 : ℚ) by norm_num)
    exact (hslope.bounded_of_mul h (le_refl _)).mono (by norm_num)

theorem bounded_of_encodeSrgb {v : Float} (h : Bounded 1 (encodeSrgb v)) : Bounded (2 ^ 25) v :=
  curve_srgb.bounded_of_encoded h

theorem bounded_of_encodeRec2020 {v : Float} (h : Bounded 1 (encodeRec2020 v)) :
    Bounded (2 ^ 25) v :=
  curve_rec2020.bounded_of_encoded h

/-- What is encoded from a number that may be large, by a line near zero or by a root of a
    number that is not small. -/
theorem Curve.bounded_encoded {curved : Prop} [Decidable curved] {v : Float}
    (hcurve : Curve c e d s a b r) (hv : Bounded (2 ^ 95) v)
    (hcurved : curved → value a ≤ value v.abs) :
    Bounded (2 ^ 99) (if curved then copySign (c * power v.abs e - d) v else s * v) := by
  split
  · next hlarge =>
    have hfinite : v.abs.isFinite = true := (Double.isFinite_abs v).trans hv.1
    have habove : (1 : ℚ) / 512 ≤ value v.abs := hcurve.start.low.trans (hcurved hlarge)
    have hbelow : value v.abs < 2 ^ (96 : ℤ) := by
      rw [Double.value_abs]
      exact hv.2.trans_lt (by norm_num)
    have hpower := Double.bounded_power_of_large hfinite (le_trans (by norm_num) habove) hbelow
      hcurve.exponent
    have hscale : Bounded 2 c := hcurve.scale.bounded (by norm_num) (by norm_num)
    have hoffset : Bounded 1 d := hcurve.offset.bounded (by norm_num) (by norm_num)
    rw [Double.bounded_copySign_iff]
    exact (hscale.mul hpower (c := 2 ^ 62) (by norm_num) (by norm_num)).sub hoffset (by norm_num)
      (by norm_num)
  · have hslope : Bounded 13 s := hcurve.slope.bounded (by norm_num) (le_refl _)
    exact hslope.mul hv (by norm_num) (by norm_num)

theorem bounded_encodeSrgb {v : Float} (hv : Bounded (2 ^ 95) v) :
    Bounded (2 ^ 99) (encodeSrgb v) := by
  refine curve_srgb.bounded_encoded hv fun hlarge => ?_
  rw [gt_iff_lt, Double.lt_iff_value curve_srgb.start.finite
    ((Double.isFinite_abs v).trans hv.1)] at hlarge
  exact hlarge.le

theorem bounded_encodeRec2020 {v : Float} (hv : Bounded (2 ^ 95) v) :
    Bounded (2 ^ 99) (encodeRec2020 v) := by
  refine curve_rec2020.bounded_encoded hv fun hlarge => ?_
  rw [ge_iff_le, Double.le_iff_value curve_rec2020.start.finite
    ((Double.isFinite_abs v).trans hv.1)] at hlarge
  exact hlarge

theorem enclosed_abs {v : Float} (hv : Enclosed 0 1 v) : Enclosed 0 1 v.abs := by
  have hvalue : value v.abs = value v := by rw [Double.value_abs, abs_of_nonneg hv.low]
  exact ⟨(Double.isFinite_abs v).trans hv.finite, hvalue ▸ hv.low, hvalue ▸ hv.high⟩

/-- What is decoded from a channel of the cube, by a line near zero or by a power of a number
    around one, is moderate. -/
theorem Curve.bounded_decoded {straight : Prop} [Decidable straight] {v p : Float}
    (hcurve : Curve c e d s a b r) (hv : Enclosed 0 1 v)
    (hp : ¬ straight → Enclosed (1 / 32) (3 / 2) p) :
    Bounded (2 ^ 15) (if straight then v / s else copySign (power p r) v) := by
  split
  · rw [Double.bounded_iff_enclosed]
    exact (hv.div hcurve.slope (l := -1) (u := 1) (by norm_num) (by norm_num) (by norm_num)
      (by norm_num) (by norm_num)).mono (by norm_num) (by norm_num)
  · next hcurved =>
    rw [Double.bounded_copySign_iff]
    exact Double.bounded_power (hp hcurved) hcurve.back

theorem bounded_decodeSrgb {v : Float} (hv : Enclosed 0 1 v) : Bounded (2 ^ 15) (decodeSrgb v) := by
  have hrange := enclosed_abs hv
  refine curve_srgb.bounded_decoded hv fun hlarge => ?_
  rw [Double.le_iff_value hrange.finite curve_srgb.shoulder.finite, not_le] at hlarge
  have habove : Enclosed (1 / 25) 1 v.abs :=
    ⟨hrange.finite, curve_srgb.shoulder.low.trans hlarge.le, hrange.high⟩
  have hsum := habove.add curve_srgb.offset (l := 1 / 15) (u := 6 / 5) (by norm_num)
    (by norm_num) (by norm_num) (by norm_num)
  exact hsum.div curve_srgb.scale (by norm_num) (by norm_num) (by norm_num) (by norm_num)
    (by norm_num)

theorem bounded_decodeRec2020 {v : Float} (hv : Enclosed 0 1 v) :
    Bounded (2 ^ 15) (decodeRec2020 v) := by
  have hrange := enclosed_abs hv
  refine curve_rec2020.bounded_decoded hv fun hlarge => ?_
  rw [Double.lt_iff_value hrange.finite curve_rec2020.shoulder.finite, not_lt] at hlarge
  have habove : Enclosed (1 / 25) 1 v.abs :=
    ⟨hrange.finite, curve_rec2020.shoulder.low.trans hlarge, hrange.high⟩
  have hone : Enclosed 1 1 (1.0 : Float) := .of_value rfl Double.value_one
  have hsum := habove.add curve_rec2020.scale (l := 1039 / 1000) (u := 11 / 5) (by norm_num)
    (by norm_num) (by norm_num) (by norm_num)
  have hdifference := hsum.sub hone (l := 19 / 500) (u := 6 / 5 + 1 / 100) (by norm_num)
    (by norm_num) (by norm_num) (by norm_num)
  exact hdifference.div curve_rec2020.scale (by norm_num) (by norm_num) (by norm_num)
    (by norm_num) (by norm_num)

/-- What decodes to a finite number is finite. -/
theorem isFinite_of_decoded {straight : Prop} [Decidable straight] {v s p e : Float} (he : e > 0.0)
    (hp : p.isFinite = true → v.abs.isFinite = true)
    (h : (if straight then v / s else copySign (power p e) v).isFinite = true) :
    v.isFinite = true := by
  split at h
  · exact Double.isFinite_of_div h
  · rw [Double.isFinite_copySign] at h
    rw [← Double.isFinite_abs]
    exact hp (Double.nonneg_of_isFinite_power he h).1

theorem isFinite_of_decodeSrgb {v : Float} (h : (decodeSrgb v).isFinite = true) :
    v.isFinite = true := by
  refine isFinite_of_decoded (by decide) (fun hbase => ?_) h
  exact (Double.isFinite_of_add (Double.isFinite_of_div hbase)).1

theorem isFinite_of_decodeRec2020 {v : Float} (h : (decodeRec2020 v).isFinite = true) :
    v.isFinite = true := by
  refine isFinite_of_decoded (by decide) (fun hbase => ?_) h
  exact (Double.isFinite_of_add (Double.isFinite_of_sub (Double.isFinite_of_div hbase)).1).1

end Rgb

/-! ### RGB systems -/

/-- The RGB system of a gamut. -/
def Gamut.system : Gamut → Rgb.System
  | .srgb => Rgb.srgb
  | .p3 => Rgb.p3
  | .rec2020 => Rgb.rec2020

namespace Rgb.System

/-- The curves and matrices neither grow nor shrink numbers much. -/
structure Moderate (s : System) : Prop where
  encode : ∀ v, Bounded 1 (s.encode v) → Bounded (2 ^ 25) v
  encoded : ∀ v, Bounded (2 ^ 95) v → Bounded (2 ^ 99) (s.encode v)
  decode : ∀ v, Enclosed 0 1 v → Bounded (2 ^ 15) (s.decode v)
  finite : ∀ v, (s.decode v).isFinite = true → v.isFinite = true
  matrices : Matrix.NearlyInverse 8 2 s.fromXyz s.toXyz

theorem moderate (gamut : Gamut) : gamut.system.Moderate := by
  cases gamut with
  | srgb =>
    exact ⟨fun _ => bounded_of_encodeSrgb, fun _ => bounded_encodeSrgb,
      fun _ => bounded_decodeSrgb, fun _ => isFinite_of_decodeSrgb, by decide +kernel⟩
  | p3 =>
    exact ⟨fun _ => bounded_of_encodeSrgb, fun _ => bounded_encodeSrgb,
      fun _ => bounded_decodeSrgb, fun _ => isFinite_of_decodeSrgb, by decide +kernel⟩
  | rec2020 =>
    exact ⟨fun _ => bounded_of_encodeRec2020, fun _ => bounded_encodeRec2020,
      fun _ => bounded_decodeRec2020, fun _ => isFinite_of_decodeRec2020, by decide +kernel⟩

variable {s : System} {xyz rgb : Triple}

theorem Moderate.bounded_of_ofXyz (hs : s.Moderate) (h : (s.ofXyz xyz).Bounded 1) :
    xyz.Bounded (2 ^ 78) := by
  have hlinear := h.of_map hs.encode
  exact (hs.matrices.bounded (le_refl _) (by norm_num) (by norm_num) (by norm_num) hlinear).mono
    (by norm_num)

theorem Moderate.bounded_ofXyz (hs : s.Moderate) (h : xyz.Bounded (2 ^ 76)) :
    (s.ofXyz xyz).Bounded (2 ^ 99) := by
  have hlinear := (Matrix.bounded_apply hs.matrices.forth (le_refl _) h (by norm_num)
    (by norm_num)).mono (show _ ≤ (2 : ℚ) ^ 95 by norm_num)
  exact hlinear.map hs.encoded

theorem Moderate.bounded_toXyzOf (hs : s.Moderate) (hx : Enclosed 0 1 rgb.x)
    (hy : Enclosed 0 1 rgb.y) (hz : Enclosed 0 1 rgb.z) : (s.toXyzOf rgb).Bounded (2 ^ 17) := by
  have hlinear : (rgb.map s.decode).Bounded (2 ^ 15) :=
    ⟨hs.decode _ hx, hs.decode _ hy, hs.decode _ hz⟩
  exact (Matrix.bounded_apply hs.matrices.back (by norm_num) hlinear
    (by norm_num) (by norm_num)).mono (by norm_num)

theorem Moderate.finite_of_toXyzOf (hs : s.Moderate)
    (h : (s.toXyzOf rgb).x.isFinite = true) : rgb.Finite :=
  (finite_of_dot h).of_map hs.finite

end Rgb.System

end EvenChroma
