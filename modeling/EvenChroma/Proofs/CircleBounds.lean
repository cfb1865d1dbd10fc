/-
  EvenChroma/Proofs/CircleBounds.lean
  ===================================
  **Sine and cosine are bounded, and do not vanish together.**  An angle is reduced to at most
  seven eighths of a radian, whatever its size (`Reduced.Small`), and the power series of the
  cosine stays above two fifths there.  One of the two functions is this cosine, up to its sign.
-/
import EvenChroma.Proofs.FormulaBounds

namespace EvenChroma.Double

/-! ### The functions at a small angle -/

/-- The series of the cosine behind its first two terms. -/
theorem bounded_cos_tail {z : Float} (hz : Bounded (4 / 5) z) :
    Bounded (1 / 16) (0.041666666666666664 + z * (-0.001388888888888889
      + z * (2.48015873015873e-05 + z * (-2.755731922398589e-07 + z * (2.08767569878681e-09
      + z * (-1.1470745597729725e-11 + z * 4.779477332387385e-14)))))) := by
  have hfirst : Bounded (1 / 23) (0.041666666666666664 : Float) := by decide +kernel
  have hlater : ∀ c ∈ [(-0.001388888888888889 : Float), 2.48015873015873e-05,
      -2.755731922398589e-07, 2.08767569878681e-09, -1.1470745597729725e-11],
      Bounded (1 / 500) c := by decide +kernel
  have hlast : Bounded (1 / 90) (4.779477332387385e-14 : Float) := by decide +kernel
  have hseries := Bounded.series hlater hlast hz (by norm_num) (by norm_num) (by norm_num)
    (by norm_num)
  simp only [List.foldr_cons, List.foldr_nil] at hseries
  exact hfirst.horner hz hseries (by norm_num) (by norm_num) (by norm_num) (by norm_num)

/-- **The cosine of a small angle is not small.** -/
theorem Pair.enclosed_cos {p : Pair} (hhigh : Bounded (7 / 8) p.high)
    (hlow : Bounded (1 / 32) p.low) : Enclosed (2 / 5) 2 p.cos := by
  obtain ⟨z, hz⟩ : ∃ z, z = p.high * p.high := ⟨_, rfl⟩
  obtain ⟨half, hhalf⟩ : ∃ half, half = 0.5 * z := ⟨_, rfl⟩
  obtain ⟨w, hw⟩ : ∃ w, w = 1.0 - half := ⟨_, rfl⟩
  have hbound : Bounded (4 / 5) z := by
    rw [hz]
    exact hhigh.mul hhigh (by norm_num) (by norm_num)
  have hone : Bounded 1 (1.0 : Float) :=
    (Enclosed.of_value rfl value_one).bounded (by norm_num) (le_refl _)
  have hhalfbound : Bounded (41 / 100) half := by
    rw [hhalf]
    exact bounded_half.mul hbound (by norm_num) (by norm_num)
  -- the first two terms, and what rounding took from them
  have hhalfabs := abs_le.mp hhalfbound.2
  obtain ⟨hwfinite, hwclose⟩ := close_sub hone.1 hhalfbound.1 (by linarith [value_one])
    (by linarith [value_one])
  have hlost := bounded_lost (hone.mono (by norm_num)) (hhalfbound.mono (by norm_num))
  rw [← hw] at hwfinite hwclose hlost
  rw [value_one] at hwclose
  -- the other terms
  have htail := hbound.mul (bounded_cos_tail hbound) (c := 1 / 15) (by norm_num) (by norm_num)
  have hterms := hbound.mul htail (c := 1 / 16) (by norm_num) (by norm_num)
  have hcross := hhigh.mul hlow (c := 1 / 32) (by norm_num) (by norm_num)
  have hrest := hlost.add (hterms.sub hcross (c := 1 / 10) (by norm_num) (by norm_num))
    (c := 1 / 8) (by norm_num) (by norm_num)
  have hrestabs := abs_le.mp hrest.2
  obtain ⟨hfinite, hclose⟩ := close_add hwfinite hrest.1 (by linarith) (by linarith)
  have hcos : p.cos = w + (((1.0 - w) - half) + (z * (z * (0.041666666666666664
      + z * (-0.001388888888888889 + z * (2.48015873015873e-05 + z * (-2.755731922398589e-07
      + z * (2.08767569878681e-09 + z * (-1.1470745597729725e-11
      + z * 4.779477332387385e-14))))))) - p.high * p.low)) := by
    rw [hw, hhalf, hz]
    rfl
  rw [hcos]
  exact ⟨hfinite, by linarith, by linarith⟩

/-- What is left of the angle is small. -/
structure Reduced.Small (r : Reduced) : Prop where
  high : Bounded (7 / 8) r.rest.high
  low : Bounded (1 / 32) r.rest.low

/-- Three parts of the right angle are taken off, and what rounding took is kept. -/
theorem small_reduceModerate {x : Float} (hx : Bounded 1000000 x) : (reduceModerate x).Small := by
  obtain ⟨n, hn⟩ : ∃ n, n = nearestInt (x * 0.6366197723675814) := ⟨_, rfl⟩
  obtain ⟨k, hk⟩ : ∃ k, k = ofInt n := ⟨_, rfl⟩
  obtain ⟨r, hr⟩ : ∃ r, r = x - k * 1.5707963267341256 := ⟨_, rfl⟩
  obtain ⟨w, hw⟩ : ∃ w, w = k * 6.077100506303966e-11 := ⟨_, rfl⟩
  obtain ⟨r', hr'⟩ : ∃ r', r' = r - w := ⟨_, rfl⟩
  obtain ⟨w', hw'⟩ : ∃ w', w' = k * 2.0222662487959506e-21 - ((r - r') - w) := ⟨_, rfl⟩
  obtain ⟨high, hhigh⟩ : ∃ high, high = r' - w' := ⟨_, rfl⟩
  have c₀ : value (0.6366197723675814 : Float) = 5734161139222659 / 2 ^ 53 := by decide +kernel
  have c₁ : value (1.5707963267341256 : Float) = 1686629713 / 2 ^ 30 := by decide +kernel
  have c₂ : Bounded (1 / 2 ^ 33) (6.077100506303966e-11 : Float) := by decide +kernel
  have c₃ : Bounded (1 / 2 ^ 60) (2.0222662487959506e-21 : Float) := by decide +kernel
  have hxabs := abs_le.mp hx.2
  -- the number of right angles
  obtain ⟨hkfinite, hkclose, hnclose⟩ := close_multiple (c := 0.6366197723675814) hx.1 rfl
    (by rw [c₀]; linarith) (by rw [c₀]; linarith)
  rw [c₀, ← hn] at hnclose
  rw [← hn, ← hk] at hkfinite hkclose
  have hkbound : Bounded (2 ^ 20) k := .of_le hkfinite (by linarith) (by linarith)
  -- the first part
  obtain ⟨hmfinite, hm⟩ := close_mul (y := 1.5707963267341256) hkfinite rfl
    (by rw [c₁]; linarith) (by rw [c₁]; linarith)
  rw [c₁] at hm
  obtain ⟨hrfinite, hrclose⟩ := close_sub hx.1 hmfinite (by linarith) (by linarith)
  rw [← hr] at hrfinite hrclose
  have hrbound : Bounded (43 / 50) r := .of_le hrfinite (by linarith) (by linarith)
  -- the second part
  have hwbound : Bounded (1 / 2 ^ 12) w := by
    rw [hw]
    exact hkbound.mul c₂ (by norm_num) (by norm_num)
  have hrbound' : Bounded (87 / 100) r' := by
    rw [hr']
    exact hrbound.sub hwbound (by norm_num) (by norm_num)
  -- the third part, less what the second rounding took
  have hlost := bounded_lost (hrbound.mono (by norm_num)) (hwbound.mono (by norm_num))
  rw [← hr'] at hlost
  have hwbound' : Bounded (1 / 2 ^ 17) w' := by
    rw [hw']
    exact (hkbound.mul c₃ (c := 1 / 2 ^ 30) (by norm_num) (by norm_num)).sub hlost (by norm_num)
      (by norm_num)
  have hhighbound : Bounded (7 / 8) high := by
    rw [hhigh]
    exact hrbound'.sub hwbound' (by norm_num) (by norm_num)
  have hlost' := bounded_lost (hrbound'.mono (by norm_num)) (hwbound'.mono (by norm_num))
  rw [← hhigh] at hlost'
  have hreduce : reduceModerate x = ⟨(n % 4).toNat, ⟨high, (r' - high) - w'⟩⟩ := by
    rw [hhigh, hw', hr', hw, hr, hk, hn]
    rfl
  rw [hreduce]
  exact ⟨hhighbound, hlost'.mono (by norm_num)⟩

theorem piScaled_bounds : 5 * (piScaled / 2) < 8 * 2 ^ 1200 ∧ 2 ≤ piScaled / 2 := by
  decide +kernel

/-- Taking off the nearest multiple leaves at most half. -/
theorem natAbs_sub_nearest_le {right : ℕ} (hright : 0 < right) (angle : ℕ) :
    2 * ((angle : ℤ) - ((2 * angle + right) / (2 * right) * right : ℕ)).natAbs ≤ right := by
  obtain ⟨q, hq⟩ : ∃ q, q = (2 * angle + right) / (2 * right) := ⟨_, rfl⟩
  have hlow : q * (2 * right) ≤ 2 * angle + right := hq ▸ Nat.div_mul_le_self _ _
  have hhigh : 2 * angle + right < (q + 1) * (2 * right) := by
    rw [hq, ← Nat.div_lt_iff_lt_mul (by omega)]
    exact Nat.lt_succ_self _
  rw [← hq]
  have hproduct : q * (2 * right) = 2 * (q * right) := by ring
  rw [hproduct] at hlow
  rw [add_mul, hproduct] at hhigh
  generalize q * right = p at *
  omega

/-- The leading digits of a whole number fit into a word. -/
theorem shiftRight_log2_lt (n : ℕ) : n >>> (n.log2 - 63) < 2 ^ 64 := by
  rcases Nat.eq_zero_or_pos n with rfl | hpos
  · decide
  · rw [Nat.shiftRight_eq_div_pow, Nat.div_lt_iff_lt_mul (Nat.two_pow_pos _), ← pow_add]
    exact Nat.lt_log2_self.trans_le (Nat.pow_le_pow_right two_pos (by omega))

/-- Without its last digits a number is no larger. -/
theorem shiftRight_scaled_le {n : ℕ} (hn : 5 * n < 4 * 2 ^ 1200) (drop : ℕ) :
    ((n >>> drop : ℕ) : ℚ) * 2 ^ ((drop : ℤ) - 1200) ≤ 4 / 5 := by
  have hle : (n >>> drop) * 2 ^ drop ≤ n := by
    rw [Nat.shiftRight_eq_div_pow]
    exact Nat.div_mul_le_self _ _
  have hle' : ((n >>> drop : ℕ) : ℚ) * 2 ^ drop ≤ n := by exact_mod_cast hle
  have hn' : (5 : ℚ) * n ≤ 4 * 2 ^ 1200 := by exact_mod_cast hn.le
  rw [zpow_sub₀ (by norm_num), zpow_natCast, ← mul_div_assoc, zpow_ofNat,
    div_le_div_iff₀ (by positivity) (by norm_num)]
  generalize (2 : ℚ) ^ 1200 = top at *
  linarith

/-- A word as a double, scaled down. -/
theorem bounded_scale_toFloat {short : ℕ} {e : ℤ} (hshort : short < 2 ^ 64) (hlow : -1200 ≤ e)
    (hhigh : e ≤ 0) (hscaled : (short : ℚ) * 2 ^ e ≤ 4 / 5) :
    Bounded (7 / 8) (scale short.toUInt64.toFloat e) := by
  have hround : short.toUInt64.toNat = short := Nat.mod_eq_of_lt hshort
  have happrox := approximates_toFloat short.toUInt64
  rw [hround] at happrox
  have hnonneg : (0 : ℚ) ≤ short := Nat.cast_nonneg _
  have hshort' : |(short : ℚ)| ≤ 2 ^ 64 := by
    rw [abs_of_nonneg hnonneg]
    exact_mod_cast hshort.le
  have hbound : Bounded (2 ^ 70) short.toUInt64.toFloat :=
    happrox.bounded hshort' (by norm_num) (by norm_num)
  have hfinite := isFinite_scale (e := e) hbound (by omega) (by omega)
  have hclose := close_scale (by omega) (by omega) hfinite
  obtain ⟨-, hvalue⟩ := happrox.of_small (hshort'.trans (by norm_num))
  rw [abs_of_nonneg hnonneg] at hvalue
  have hunit : (2 : ℚ) ^ e ≤ 1 := zpow_le_one_of_nonpos₀ one_le_two hhigh
  have hunitpos := two_zpow_pos e
  have htiny : (1 : ℚ) / 2 ^ 400 ≤ 1 / 2 ^ 20 :=
    one_div_le_one_div_of_le (by positivity) (pow_le_pow_right₀ one_le_two (by norm_num))
  generalize value short.toUInt64.toFloat = whole at hclose hvalue
  have hsize : |whole| ≤ short + (short / 2 ^ 52 + 1 / 2 ^ 200) := by
    have htriangle := abs_add_le (whole - short) short
    rw [sub_add_cancel, abs_of_nonneg hnonneg] at htriangle
    linarith
  have htriangle := abs_sub_abs_le_abs_sub (value (scale short.toUInt64.toFloat e)) (whole * 2 ^ e)
  rw [abs_mul, abs_of_pos hunitpos] at htriangle
  generalize (2 : ℚ) ^ e = unit at *
  have hwhole : |whole| * unit ≤ 5 / 6 := by
    calc |whole| * unit ≤ (short + (short / 2 ^ 52 + 1 / 2 ^ 200)) * unit :=
          mul_le_mul_of_nonneg_right hsize hunitpos.le
      _ = short * unit + short * unit / 2 ^ 52 + 1 / 2 ^ 200 * unit := by ring
      _ ≤ 5 / 6 := by norm_num; linarith
  refine ⟨hfinite, ?_⟩
  generalize (1 : ℚ) / 2 ^ 400 = tiny at *
  norm_num at hclose htiny
  linarith

/-- The leading digits of a whole number as a double, scaled back. -/
theorem bounded_leading {n : ℕ} (hn : 5 * n < 4 * 2 ^ 1200) :
    Bounded (7 / 8) (scale (n >>> (n.log2 - 63)).toUInt64.toFloat
      ((n.log2 - 63 : ℕ) - 1200 : ℤ)) := by
  have hlog : n.log2 ≤ 1200 := by
    rcases Nat.eq_zero_or_pos n with rfl | hpos
    · decide
    · have hlt : n < 2 ^ 1200 := by
        generalize 2 ^ 1200 = top at hn ⊢
        omega
      exact ((Nat.log2_lt hpos.ne').mpr hlt).le
  exact bounded_scale_toFloat (shiftRight_log2_lt n) (by omega) (by omega)
    (shiftRight_scaled_le hn _)

theorem small_reduceLarge (x : Float) : (reduceLarge x).Small := by
  obtain ⟨hright, hpos⟩ := piScaled_bounds
  obtain ⟨right, heq⟩ : ∃ right, right = piScaled / 2 := ⟨_, rfl⟩
  rw [← heq] at hright hpos
  obtain ⟨angle, hangle⟩ : ∃ angle, angle = (parts x).mantissa <<< (parts x).exponent.toNat
      <<< 1200 >>> (-(parts x).exponent).toNat := ⟨_, rfl⟩
  obtain ⟨rest, hrest⟩ : ∃ rest, rest =
      (angle : ℤ) - ((2 * angle + right) / (2 * right) * right : ℕ) := ⟨_, rfl⟩
  have hhalf : 5 * rest.natAbs < 4 * 2 ^ 1200 := by
    have hnearest := natAbs_sub_nearest_le (show 0 < right by omega) angle
    rw [← hrest] at hnearest
    generalize 2 ^ 1200 = top at hright ⊢
    omega
  have hhigh := bounded_leading hhalf
  have hlow : Bounded (1 / 32) (0.0 : Float) :=
    (Enclosed.of_value rfl (q := 0) rfl).bounded (by norm_num) (by norm_num)
  obtain ⟨high, hhigheq⟩ : ∃ high, high = scale (rest.natAbs >>> (rest.natAbs.log2 - 63)
    ).toUInt64.toFloat ((rest.natAbs.log2 - 63 : ℕ) - 1200 : ℤ) := ⟨_, rfl⟩
  rw [← hhigheq] at hhigh
  have hsigned : Bounded (7 / 8) (if rest < 0 then -high else high) := by
    split
    · exact hhigh.neg
    · exact hhigh
  have hreduce : reduceLarge x = if (parts x).negative = true
      then ⟨(4 - (2 * angle + right) / (2 * right) % 4) % 4,
        ⟨-(if rest < 0 then -high else high), 0.0⟩⟩
      else ⟨(2 * angle + right) / (2 * right) % 4, ⟨if rest < 0 then -high else high, 0.0⟩⟩ := by
    rw [hhigheq, hrest, hangle, heq]
    rfl
  rw [hreduce]
  split
  · exact ⟨hsigned.neg, hlow⟩
  · exact ⟨hsigned, hlow⟩

theorem small_reduceAngle {x : Float} (hx : x.isFinite = true) : (reduceAngle x).Small := by
  rw [reduceAngle]
  split
  · next hmoderate =>
    have hmillion : value (1000000.0 : Float) = 1000000 := by decide +kernel
    rw [lt_iff_value ((isFinite_abs x).trans hx) rfl, value_abs, hmillion] at hmoderate
    exact small_reduceModerate ⟨hx, hmoderate.le⟩
  · exact small_reduceLarge x

/-! ### The two functions together -/

/-- The double is finite and at least `b` in size. -/
def Exceeds (b : ℚ) (x : Float) : Prop := x.isFinite = true ∧ b ≤ |value x|

instance (b : ℚ) (x : Float) : Decidable (Exceeds b x) := inferInstanceAs (Decidable (_ ∧ _))

theorem Enclosed.exceeds {l u b : ℚ} {x : Float} (h : Enclosed l u x) (hb : b ≤ l) :
    Exceeds b x :=
  ⟨h.finite, (hb.trans h.low).trans (le_abs_self _)⟩

theorem Exceeds.neg {b : ℚ} {x : Float} (h : Exceeds b x) : Exceeds b (-x) := by
  rw [Exceeds, isFinite_neg, value_neg, abs_neg]
  exact h

/-- **Sine or cosine of a finite angle is not small.** -/
theorem exceeds_sinCos {x : Float} (hx : x.isFinite = true) :
    Exceeds (2 / 5) (sinCos x).1 ∨ Exceeds (2 / 5) (sinCos x).2 := by
  have hsmall := small_reduceAngle hx
  have hcos : Exceeds (2 / 5) (reduceAngle x).rest.cos :=
    (Pair.enclosed_cos hsmall.high hsmall.low).exceeds (le_refl _)
  rw [sinCos, if_pos hx]
  dsimp only
  split
  · exact .inr hcos
  · split
    · exact .inl hcos
    · split
      · exact .inr hcos.neg
      · exact .inl hcos.neg

/-- A factor of a bounded product is bounded if the other one is not small. -/
theorem Exceeds.bounded_of_mul {x y : Float} {b : ℚ} (hx : Exceeds (2 / 5) x)
    (h : Bounded b (x * y)) (hb : 1 ≤ b) : Bounded (3 * b) y := by
  obtain ⟨hfinite, hbound⟩ := h
  have hy := (isFinite_of_mul hfinite).2
  have hclose := close_of_isFinite (approximates_mul hx.1 hy) hfinite
  have htriangle := abs_sub_abs_le_abs_sub (value x * value y) (value (x * y))
  have hproduct : 2 / 5 * |value y| ≤ |value x * value y| := by
    rw [abs_mul]
    exact mul_le_mul_of_nonneg_right hx.2 (abs_nonneg _)
  have htiny : (1 : ℚ) / 2 ^ 1074 ≤ 1 / 2 ^ 10 :=
    one_div_le_one_div_of_le (by positivity) (pow_le_pow_right₀ one_le_two (by norm_num))
  rw [abs_sub_comm] at htriangle
  generalize |value x * value y| = size at *
  generalize (1 : ℚ) / 2 ^ 1074 = tiny at *
  norm_num at hclose htiny
  exact ⟨hy, by linarith⟩

end EvenChroma.Double
