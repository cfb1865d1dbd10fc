/-
  EvenChroma/Proofs/PowerBounds.lean
  ==================================
  **How large powers are**, to within a small factor.  A power of moderate exponent is a number
  around one, scaled by a power of two whose exponent is off by little from the exact one.
-/
import EvenChroma.Proofs.FormulaBounds

namespace EvenChroma.Double

/-! ### The logarithm of two -/

theorem value_ln2High : value ln2High = 726817 / 2 ^ 20 := by decide +kernel

theorem bounded_ln2Low : Bounded (1 / 2 ^ 21) ln2Low := by decide +kernel

/-! ### Exponentials -/

/-- What is summed up behind the first two terms of the exponential series. -/
theorem bounded_exp_tail {r : Float} (hr : Bounded (2 / 5) r) :
    Bounded (1 / 8) (r * r * (0.5 + r * (0.16666666666666666 + r * (0.041666666666666664
      + r * (0.008333333333333333 + r * (0.001388888888888889 + r * (0.0001984126984126984
      + r * (2.48015873015873e-05 + r * (2.7557319223985893e-06 + r * (2.755731922398589e-07
      + r * (2.505210838544172e-08 + r * (2.08767569878681e-09
      + r * 1.6059043836821613e-10)))))))))))) := by
  have hlater : ∀ c ∈ [(0.16666666666666666 : Float), 0.041666666666666664,
      0.008333333333333333, 0.001388888888888889, 0.0001984126984126984, 2.48015873015873e-05,
      2.7557319223985893e-06, 2.755731922398589e-07, 2.505210838544172e-08, 2.08767569878681e-09],
      Bounded (1 / 6) c := by decide +kernel
  have hlast : Bounded (3 / 10) (1.6059043836821613e-10 : Float) := by decide +kernel
  have hsquare := hr.mul hr (c := 1 / 6) (by norm_num) (by norm_num)
  have hseries := bounded_half.horner (d := 2 / 3) hr (.series hlater hlast hr (by norm_num)
    (by norm_num) (by norm_num) (by norm_num)) (by norm_num) (by norm_num) (by norm_num)
    (by norm_num)
  simp only [List.foldr_cons, List.foldr_nil] at hseries
  exact hsquare.mul hseries (by norm_num) (by norm_num)

/-- What is left of an exponent behind the nearest multiple of the logarithm of two. -/
theorem bounded_exp_rest {p : Pair} (hhigh : Bounded 600 p.high) (hlow : Bounded (1 / 32) p.low) :
    let n := nearestInt (p.high * 1.4426950408889634)
    let upper := p.high - ofInt n * ln2High
    let lower := ofInt n * ln2Low - p.low
    Bounded (383 / 1000) (upper - lower) ∧
      Bounded (1 / 2 ^ 10) ((upper - (upper - lower)) - lower) ∧
      value p.high * (14427 / 10000) - 3 / 5 ≤ n ∧ n ≤ value p.high * (14427 / 10000) + 3 / 5 := by
  intro n upper lower
  have hhighabs := abs_le.mp hhigh.2
  have hc : value (1.4426950408889634 : Float) = 3248660424278399 / 2 ^ 51 := by decide +kernel
  -- the multiple
  obtain ⟨hkfinite, hkclose, hnclose⟩ := close_multiple (c := 1.4426950408889634) hhigh.1 rfl
    (by rw [hc]; linarith) (by rw [hc]; linarith)
  rw [hc] at hnclose
  have hkbound : Bounded (2 ^ 10) (ofInt n) := .of_le hkfinite (by linarith) (by linarith)
  -- the remainder
  obtain ⟨hmfinite, hm⟩ := close_mul (y := ln2High) hkfinite rfl (by rw [value_ln2High]; linarith)
    (by rw [value_ln2High]; linarith)
  rw [value_ln2High] at hm
  obtain ⟨hufinite, hu⟩ := close_sub hhigh.1 hmfinite (by linarith) (by linarith)
  have hlower : Bounded (1 / 31) lower :=
    (hkbound.mul bounded_ln2Low (c := 1 / 2 ^ 10) (by norm_num) (by norm_num)).sub hlow
      (by norm_num) (by norm_num)
  have hupper : Bounded (35 / 100) upper := .of_le hufinite (by linarith) (by linarith)
  exact ⟨hupper.sub hlower (by norm_num) (by norm_num),
    (bounded_lost (hupper.mono (by norm_num)) (hlower.mono (by norm_num))).mono (by norm_num),
    by linarith, by linarith⟩

/-- **An exponential is a number between two fifths and two, scaled by a power of two** that
    is off by less than one from the exact exponent. -/
theorem Pair.exists_scale_exp {p : Pair} (hhigh : Bounded 600 p.high)
    (hlow : Bounded (1 / 32) p.low) :
    ∃ w n, p.exp = scale w n ∧ Enclosed (2 / 5) 2 w ∧
      value p.high * (14427 / 10000) - 3 / 5 ≤ n ∧ n ≤ value p.high * (14427 / 10000) + 3 / 5 := by
  have hhighabs := abs_le.mp hhigh.2
  have hsmall : ¬ p.high > 709.8 := by
    have hconstant : Enclosed 709 710 (709.8 : Float) := by decide +kernel
    rw [gt_iff_lt, lt_iff_value hconstant.finite hhigh.1]
    linarith [hconstant.low]
  have hlarge : ¬ p.high < -745.2 := by
    have hconstant : Enclosed (-746) (-745) (-745.2 : Float) := by decide +kernel
    rw [lt_iff_value hhigh.1 hconstant.finite]
    linarith [hconstant.high]
  obtain ⟨hrest, hlost, hn⟩ := bounded_exp_rest hhigh hlow
  have hone : Enclosed 1 1 (1.0 : Float) := .of_value rfl value_one
  have htail := (bounded_exp_tail (hrest.mono (by norm_num))).add hlost (c := 127 / 1000)
    (by norm_num) (by norm_num)
  have hsum := bounded_iff_enclosed.mp
    (hrest.add htail (c := 11 / 20) (by norm_num) (by norm_num))
  refine ⟨_, _, ?_, hone.add hsum (by norm_num) (by norm_num) (by norm_num) (by norm_num), hn⟩
  rw [exp, if_neg hsmall, if_neg hlarge]

/-! ### Logarithms -/

/-- What is summed up behind the first term of the logarithm series. -/
theorem bounded_log_tail {s : Float} (hs : Bounded (1 / 4) s) :
    Bounded (1 / 64) (s * (s * s) * (0.6666666666666666 + s * s * (0.4
      + s * s * (0.2857142857142857 + s * s * (0.2222222222222222 + s * s * (0.18181818181818182
      + s * s * (0.15384615384615385 + s * s * (0.13333333333333333 + s * s * (0.11764705882352941
      + s * s * (0.10526315789473684 + s * s * 0.09523809523809523)))))))))) := by
  have hz : Bounded (1 / 15) (s * s) := hs.mul hs (by norm_num) (by norm_num)
  have hcoefficients : ∀ c ∈ [(0.6666666666666666 : Float), 0.4, 0.2857142857142857,
      0.2222222222222222, 0.18181818181818182, 0.15384615384615385, 0.13333333333333333,
      0.11764705882352941, 0.10526315789473684], Bounded (2 / 3) c := by decide +kernel
  have hlast : Bounded (3 / 4) (0.09523809523809523 : Float) := by decide +kernel
  have hcube : Bounded (1 / 59) (s * (s * s)) := hs.mul hz (by norm_num) (by norm_num)
  have hseries := Bounded.series hcoefficients hlast hz (by norm_num) (by norm_num) (by norm_num)
    (by norm_num)
  simp only [List.foldr_cons, List.foldr_nil] at hseries
  exact hcube.mul hseries (by norm_num) (by norm_num)

/-- The mantissa as a logarithm takes it, between the root of a half and that of two. -/
theorem enclosed_reduced_mantissa {m : Float} (hm : Enclosed (1 - 1 / 2 ^ 18) (2 + 1 / 2 ^ 18) m) :
    Enclosed (7 / 10) (142 / 100) (if m > 1.4142135623730951 then 0.5 * m else m) := by
  have hroot : Enclosed (1414 / 1000) (1415 / 1000) (1.4142135623730951 : Float) := by
    decide +kernel
  have hhalf : Enclosed (1 / 2) (1 / 2) (0.5 : Float) := .of_value rfl value_half
  split
  · next hbig =>
    rw [gt_iff_lt, lt_iff_value hroot.finite hm.finite] at hbig
    have hlow := hroot.low
    have hm' : Enclosed (1414 / 1000) (2 + 1 / 2 ^ 18) m := ⟨hm.finite, by linarith, hm.high⟩
    exact hhalf.mul hm' (by norm_num) (by norm_num) (by norm_num)
  · next hsmall =>
    rw [gt_iff_lt, lt_iff_value hroot.finite hm.finite, not_lt] at hsmall
    have hhigh := hroot.high
    refine ⟨hm.finite, ?_, by linarith⟩
    have hlow := hm.low
    norm_num at hlow ⊢
    linarith

/-- The quotient that the logarithm is a series in, with its rounding error: both are small. -/
theorem bounded_log_quotient {m : Float} (hm : Enclosed (7 / 10) (142 / 100) m) :
    let f := m - 1.0
    let d := m + 1.0
    let s := f / d
    Bounded (1 / 4) s ∧ Bounded (7 / 10) ((((f - (Pair.product s d).high) -
      (Pair.product s d).low) - s * (m - (d - 1.0))) / d) := by
  intro f d s
  have hone : Enclosed 1 1 (1.0 : Float) := .of_value rfl value_one
  have hf : Enclosed (-301 / 1000) (421 / 1000) f :=
    hm.sub hone (by norm_num) (by norm_num) (by norm_num) (by norm_num)
  have hd : Enclosed (169 / 100) (243 / 100) d :=
    hm.add hone (by norm_num) (by norm_num) (by norm_num) (by norm_num)
  have hs : Enclosed (-1 / 5) (1 / 4) s :=
    hf.div hd (by norm_num) (by norm_num) (by norm_num) (by norm_num) (by norm_num)
  have hsbound : Bounded (1 / 4) s := hs.bounded (by norm_num) (le_refl _)
  have hdbound : Bounded (243 / 100) d := hd.bounded (by norm_num) (le_refl _)
  obtain ⟨-, hlow⟩ := Pair.bounds_product (hsbound.mono (show (1 / 4 : ℚ) ≤ 1 by norm_num))
    hdbound (le_refl _) (by norm_num) (by norm_num) (by norm_num)
  have hproduct : Enclosed (-49 / 100) (61 / 100) (Pair.product s d).high :=
    hs.mul hd (by norm_num) (by norm_num) (by norm_num)
  have hback : Enclosed (-733 / 1000) (733 / 1000) (m - (d - 1.0)) :=
    hm.sub (hd.sub hone (l := 6899 / 10000) (u := 1431 / 1000) (by norm_num) (by norm_num)
      (by norm_num) (by norm_num)) (by norm_num) (by norm_num) (by norm_num) (by norm_num)
  have hlost : Enclosed (-184 / 1000) (184 / 1000) (s * (m - (d - 1.0))) :=
    hs.mul hback (by norm_num) (by norm_num) (by norm_num)
  have hrest : Enclosed (-92 / 100) (92 / 100) (f - (Pair.product s d).high) :=
    hf.sub hproduct (by norm_num) (by norm_num) (by norm_num) (by norm_num)
  have hnumerator := (hrest.sub (bounded_iff_enclosed.mp hlow) (l := -921 / 1000)
    (u := 921 / 1000) (by norm_num) (by norm_num) (by norm_num) (by norm_num)).sub hlost
    (l := -111 / 100) (u := 111 / 100) (by norm_num) (by norm_num) (by norm_num) (by norm_num)
  exact ⟨hsbound, bounded_iff_enclosed.mpr (hnumerator.div hd (by norm_num) (by norm_num)
    (by norm_num) (by norm_num) (by norm_num))⟩

/-- A large sum, and what is added to it later, in the lower half first. -/
theorem Pair.bounds_sum_sum {a b c : Float} (ha : Bounded (2 ^ 11) a) (hb : Bounded (51 / 100) b)
    (hc : Bounded (8 / 5) c) :
    let main := Pair.sum a b
    let total := Pair.sum main.high (main.low + c)
    Enclosed (value a - 12 / 5) (value a + 12 / 5) total.high ∧ Bounded (1 / 2 ^ 16) total.low := by
  intro main total
  have haabs := abs_le.mp ha.2
  have hbabs := abs_le.mp hb.2
  obtain ⟨⟨hmain, hmainlow, hmainhigh⟩, hmainlost⟩ :=
    Pair.bounds_sum (ha.mono (by norm_num)) (hb.mono (by norm_num))
  have hsecond := hmainlost.add hc (c := 9 / 5) (by norm_num) (by norm_num)
  have hsecondabs := abs_le.mp hsecond.2
  obtain ⟨htotal, htotallost⟩ := Pair.bounds_sum (.of_le hmain (by linarith) (by linarith))
    (hsecond.mono (by norm_num))
  exact ⟨htotal.mono (by linarith) (by linarith), htotallost⟩

/-- **A logarithm is the exponent times that of two**, up to a small number. -/
theorem logOf_bounds {n : ℤ} {m : Float} (hnlow : -1100 ≤ (n : ℚ)) (hnhigh : (n : ℚ) ≤ 1100)
    (hm : Enclosed (7 / 10) (142 / 100) m) :
    Enclosed (n * (69315 / 100000) - 5 / 2) (n * (69315 / 100000) + 5 / 2) (logOf n m).high ∧
      Bounded (1 / 2 ^ 16) (logOf n m).low := by
  obtain ⟨hs, hslow⟩ := bounded_log_quotient hm
  have htwo : Bounded 2 (2.0 : Float) :=
    (Enclosed.of_value rfl value_two).bounded (by norm_num) (le_refl _)
  obtain ⟨hkfinite, hkclose⟩ := close_ofInt (n := n) (by linarith) (by linarith)
  have hk : Bounded (2 ^ 11) (ofInt n) := .of_le hkfinite (by linarith) (by linarith)
  obtain ⟨hfinite, hclose⟩ := close_mul (y := ln2High) hkfinite rfl
    (by rw [value_ln2High]; linarith) (by rw [value_ln2High]; linarith)
  rw [value_ln2High] at hclose
  have hmultiple : Bounded (2 ^ 11) (ofInt n * ln2High) :=
    .of_le hfinite (by linarith) (by linarith)
  have hdouble := htwo.mul hs (c := 51 / 100) (by norm_num) (by norm_num)
  have hrest := (hk.mul bounded_ln2Low (c := 1 / 2 ^ 9) (by norm_num) (by norm_num)).add
    ((htwo.mul hslow (c := 141 / 100) (by norm_num) (by norm_num)).add (bounded_log_tail hs)
      (c := 3 / 2) (by norm_num) (by norm_num)) (c := 8 / 5) (by norm_num) (by norm_num)
  obtain ⟨htotal, hlow⟩ := Pair.bounds_sum_sum hmultiple hdouble hrest
  exact ⟨htotal.mono (by linarith) (by linarith), hlow⟩

theorem exists_logPair {x : Float} (hx : x.isFinite = true) (hne : value x ≠ 0) :
    ∃ n : ℤ, (n = leading x ∨ n = leading x + 1) ∧
      Enclosed (n * (69315 / 100000) - 5 / 2) (n * (69315 / 100000) + 5 / 2) (logPair x).high ∧
      Bounded (1 / 2 ^ 16) (logPair x).low := by
  obtain ⟨hge, hle, -, -⟩ := leading_bounds hx hne
  have hm := enclosed_reduced_mantissa (enclosed_normalMantissa (parts_canonical_of_ne hx hne))
  have hn : ∀ n : ℤ, n = leading x ∨ n = leading x + 1 → -1100 ≤ (n : ℚ) ∧ (n : ℚ) ≤ 1100 := by
    intro n hn
    have hlow : -1100 ≤ n := by omega
    have hhigh : n ≤ 1100 := by omega
    exact ⟨by exact_mod_cast hlow, by exact_mod_cast hhigh⟩
  have hcases : ∀ (big : Prop) [Decidable big], leading x + (if big then 1 else 0) = leading x ∨
      leading x + (if big then 1 else 0) = leading x + 1 := by
    intro big _
    split <;> omega
  exact ⟨_, hcases _, logOf_bounds (hn _ (hcases _)).1 (hn _ (hcases _)).2 hm⟩

/-! ### Powers -/

theorem power_eq {x y : Float} (hx : x.isFinite = true) (hpos : 0 < value x)
    (hy : y.isFinite = true) :
    power x y = Pair.exp ⟨(Pair.product y (logPair x).high).high,
      (Pair.product y (logPair x).high).low + y * (logPair x).low⟩ := by
  have hnonneg : ¬ x < 0.0 := by
    rw [lt_zero_iff_value hx]
    exact not_lt.mpr hpos.le
  rw [power, isNaN_of_isFinite hx, isNaN_of_isFinite hy, isInf_of_isFinite hx,
    beq_zero_of_ne hx hpos.ne', decide_eq_false hnonneg]
  rfl

/-- **A power is a number around one, scaled by a power of two** whose exponent is the product
    of exponent and logarithm. -/
theorem exists_scale_power {x y : Float} {b c : ℚ} (hx : x.isFinite = true) (hpos : 0 < value x)
    (hy : Enclosed (2 / 5) c y) (hhigh : Bounded b (logPair x).high)
    (hlow : Bounded (1 / 2 ^ 16) (logPair x).low) (hb : 1 ≤ b) (htop : b ≤ 2 ^ 10)
    (hc : c ≤ 5 / 2) (hbc : c * b ≤ 599) :
    ∃ w n, power x y = scale w n ∧ Enclosed (2 / 5) 2 w ∧
      value y * value (logPair x).high * (14427 / 10000) - 7 / 10 ≤ n ∧
      n ≤ value y * value (logPair x).high * (14427 / 10000) + 7 / 10 := by
  have hcpos : 2 / 5 ≤ c := hy.low.trans hy.high
  have hyc : Bounded c y := hy.bounded (by linarith) (le_refl _)
  have hproduct : |value y * value (logPair x).high| ≤ 599 := by
    rw [abs_mul]
    exact (mul_le_mul hyc.2 hhigh.2 (abs_nonneg _) (by linarith)).trans hbc
  have hproductabs := abs_le.mp hproduct
  obtain ⟨q, hq⟩ : ∃ q, q = Pair.product y (logPair x).high := ⟨_, rfl⟩
  obtain ⟨⟨hqfinite, hqlow, hqhigh⟩, hqlost⟩ := Pair.bounds_product (hyc.mono hc) hhigh
    (by norm_num) hb (by norm_num) htop
  rw [← hq] at hqfinite hqlow hqhigh hqlost
  have hqbound : Bounded 600 q.high := .of_le hqfinite (by linarith) (by linarith)
  have hlost : Bounded (1 / 64) q.low := hqlost.mono (by linarith)
  have hrest := hlost.add ((hyc.mono hc).mul hlow (c := 1 / 2 ^ 14) (by norm_num) (by norm_num))
    (c := 1 / 32) (by norm_num) (by norm_num)
  obtain ⟨w, n, hexp, hw, hn⟩ :=
    Pair.exists_scale_exp (p := ⟨q.high, q.low + y * (logPair x).low⟩) hqbound hrest
  dsimp only at hn
  refine ⟨w, n, ?_, hw, by linarith, by linarith⟩
  rw [power_eq hx hpos hy.finite, ← hq]
  exact hexp

/-- The logarithm of a number between two powers of two. -/
theorem bounds_logPair {x : Float} {l u : ℤ} (hx : x.isFinite = true) (hlow : 2 ^ l ≤ value x)
    (hhigh : value x < 2 ^ u) :
    Enclosed (l * (69315 / 100000) - 5 / 2) (u * (69315 / 100000) + 5 / 2) (logPair x).high ∧
      Bounded (1 / 2 ^ 16) (logPair x).low := by
  have hpos : 0 < value x := (two_zpow_pos l).trans_le hlow
  obtain ⟨-, -, hlarge, hsmall⟩ := leading_bounds hx hpos.ne'
  rw [abs_of_pos hpos] at hlarge hsmall
  have hleading : l < leading x + 1 :=
    (zpow_lt_zpow_iff_right₀ one_lt_two).mp (hlow.trans_lt hsmall)
  have hleading' : leading x < u := (zpow_lt_zpow_iff_right₀ one_lt_two).mp (hlarge.trans_lt hhigh)
  obtain ⟨n, hn, hlog, hlost⟩ := exists_logPair hx hpos.ne'
  have hnlow : (l : ℚ) ≤ n := by
    have : l ≤ n := by omega
    exact_mod_cast this
  have hnhigh : (n : ℚ) ≤ u := by
    have : n ≤ u := by omega
    exact_mod_cast this
  exact ⟨hlog.mono (by linarith) (by linarith), hlost⟩

/-- A power is bounded by the product of exponent and logarithm. -/
theorem bounded_power_of_log {x y : Float} {b c u : ℚ} {k : ℤ} (hx : x.isFinite = true)
    (hpos : 0 < value x) (hy : Enclosed (2 / 5) c y) (hhigh : Bounded b (logPair x).high)
    (hlow : Bounded (1 / 2 ^ 16) (logPair x).low) (hb : 1 ≤ b) (htop : b ≤ 2 ^ 10)
    (hc : c ≤ 5 / 2) (hbc : c * b ≤ 599) (hu : value y * value (logPair x).high ≤ u)
    (hk : u * (14427 / 10000) + 7 / 10 < k + 1) (hk' : k ≤ 100) :
    Bounded (4 * 2 ^ k + 1) (power x y) := by
  obtain ⟨w, n, hpower, hw, hn, hn'⟩ :=
    exists_scale_power hx hpos hy hhigh hlow hb htop hc hbc
  have hproduct : -599 ≤ value y * value (logPair x).high := by
    have hsize : |value y * value (logPair x).high| ≤ 599 := by
      rw [abs_mul, abs_of_pos (lt_of_lt_of_le (by norm_num) hy.low)]
      exact (mul_le_mul hy.high hhigh.2 (abs_nonneg _) (by linarith [hy.low, hy.high])).trans hbc
    exact (abs_le.mp hsize).1
  have hnlow : -1000 ≤ n := by
    have : (-1000 : ℚ) ≤ n := by linarith
    exact_mod_cast this
  have hnhigh : n ≤ k := by
    have : (n : ℚ) < k + 1 := by linarith
    have : n < k + 1 := by exact_mod_cast this
    omega
  have hwbound : Bounded 2 w := hw.bounded (by norm_num) (le_refl _)
  rw [hpower]
  exact bounded_scale hwbound (by norm_num) (by omega) hnhigh hk' (by linarith)

/-- The power of a number around one, with a moderate exponent, is of moderate size. -/
theorem bounded_power {x y : Float} (hx : Enclosed (1 / 32) (3 / 2) x)
    (hy : Enclosed (2 / 5) (5 / 2) y) : Bounded (2 ^ 15) (power x y) := by
  have hpos : 0 < value x := lt_of_lt_of_le (by norm_num) hx.low
  obtain ⟨⟨hfinite, hlog, hlog'⟩, hlost⟩ := bounds_logPair (l := -5) (u := 1) hx.finite
    (le_trans (by norm_num) hx.low) (hx.high.trans_lt (by norm_num))
  norm_num at hlog hlog'
  have hproduct : value y * value (logPair x).high ≤ 8 := by
    have hylow := hy.low
    have hyhigh := hy.high
    nlinarith
  have hlogbound : Bounded 7 (logPair x).high := .of_le hfinite (by linarith) (by linarith)
  exact (bounded_power_of_log (k := 12) hx.finite hpos hy hlogbound hlost (by norm_num)
    (by norm_num) (le_refl _) (by norm_num) hproduct (by norm_num) (by norm_num)).mono
    (by norm_num)

/-- The power of a number that may be large, with an exponent of at most a half. -/
theorem bounded_power_of_large {x y : Float} (hx : x.isFinite = true)
    (hlow : 2 ^ (-9 : ℤ) ≤ value x) (hhigh : value x < 2 ^ (96 : ℤ))
    (hy : Enclosed (2 / 5) (1 / 2) y) : Bounded (2 ^ 60) (power x y) := by
  have hpos : 0 < value x := (two_zpow_pos _).trans_le hlow
  obtain ⟨⟨hfinite, hlog, hlog'⟩, hlost⟩ := bounds_logPair hx hlow hhigh
  norm_num at hlog hlog'
  have hproduct : value y * value (logPair x).high ≤ 35 := by
    have hylow := hy.low
    have hyhigh := hy.high
    nlinarith
  have hlogbound : Bounded 70 (logPair x).high := .of_le hfinite (by linarith) (by linarith)
  exact (bounded_power_of_log (k := 55) hx hpos hy hlogbound hlost (by norm_num) (by norm_num)
    (by norm_num) (by norm_num) hproduct (by norm_num) (by norm_num)).mono (by norm_num)

/-- A number with a small power is not large. -/
theorem le_of_bounded_power {x y : Float} (hx : x.isFinite = true) (hpos : 0 < value x)
    (hy : Enclosed (2 / 5) (1 / 2) y) (hpower : Bounded 4 (power x y)) : value x ≤ 2 ^ 25 := by
  by_contra hlarge
  obtain ⟨-, htop, -, hsize⟩ := leading_bounds hx hpos.ne'
  rw [abs_of_pos hpos] at hsize
  have hbelow : value x < 2 ^ (1024 : ℤ) :=
    hsize.trans_le (zpow_le_zpow_right₀ one_le_two (by omega))
  obtain ⟨⟨hfinite, hlog, hlog'⟩, hlow⟩ := bounds_logPair (l := 25) hx (not_le.mp hlarge).le hbelow
  norm_num at hlog hlog'
  have hlogbound : Bounded 800 (logPair x).high := .of_le hfinite (by linarith) (by linarith)
  obtain ⟨w, n, heq, hw, hn⟩ := exists_scale_power hx hpos hy hlogbound hlow (by norm_num)
    (by norm_num) (by norm_num) (by norm_num)
  have hproduct : 5 ≤ value y * value (logPair x).high ∧
      value y * value (logPair x).high ≤ 400 := by
    have hlogabs := (abs_le.mp hlogbound.2).2
    have hylow := hy.low
    have hyhigh := hy.high
    constructor <;> nlinarith
  have hnlow : 6 ≤ n := by
    have : (5 : ℚ) < n := by linarith
    have : 5 < n := by exact_mod_cast this
    omega
  have hnhigh : n ≤ 1000 := by
    have : (n : ℚ) ≤ 1000 := by linarith
    exact_mod_cast this
  rw [heq] at hpower
  have hsmall := mul_le_of_bounded_scale hpower (by norm_num) (by omega) (by omega)
  have hpow : (2 : ℚ) ^ (6 : ℤ) ≤ 2 ^ n := zpow_le_zpow_right₀ one_le_two hnlow
  have hwlow : 2 / 5 ≤ |value w| := hw.low.trans (le_abs_self _)
  norm_num at hpow hsmall
  nlinarith

/-- Only numbers from zero on have finite powers of positive exponent. -/
theorem nonneg_of_isFinite_power {x y : Float} (hy : y > 0.0) (h : (power x y).isFinite = true) :
    x.isFinite = true ∧ 0 ≤ value x := by
  have hnan : nan.isFinite = false := rfl
  have hinfinity : infinity.isFinite = false := rfl
  rw [power] at h
  split at h
  · rw [hnan] at h
    cases h
  · next hvalid =>
    simp only [Bool.or_eq_true, decide_eq_true_eq, not_or, Bool.not_eq_true] at hvalid
    obtain ⟨⟨hxnan, -⟩, hnonneg⟩ := hvalid
    split at h
    · next hzero =>
      obtain ⟨hfinite, hvalue⟩ := value_of_beq_zero hzero
      exact ⟨hfinite, hvalue.ge⟩
    · next hzero =>
      split at h
      · rw [hinfinity] at h
        cases h
      · next hxinf =>
        have hfinite := isFinite_of_not hxnan (Bool.eq_false_iff.mpr hxinf)
        rw [lt_zero_iff_value hfinite, not_lt] at hnonneg
        exact ⟨hfinite, hnonneg⟩

/-- Only a moderate number has a small power. -/
theorem bounded_of_bounded_power {x y : Float} (hy : Enclosed (2 / 5) (1 / 2) y)
    (h : Bounded 4 (power x y)) : Bounded (2 ^ 25) x := by
  have hpos : y > 0.0 := by
    have hzero : (0.0 : Float).isFinite = true := rfl
    have hvalue : value (0.0 : Float) = 0 := rfl
    rw [gt_iff_lt, lt_iff_value hzero hy.finite, hvalue]
    linarith [hy.low]
  obtain ⟨hfinite, hnonneg⟩ := nonneg_of_isFinite_power hpos h.1
  rcases eq_or_lt_of_le hnonneg with heq | hpos
  · exact ⟨hfinite, by rw [← heq, abs_zero]; norm_num⟩
  · exact .of_le hfinite (by linarith) (le_of_bounded_power hfinite hpos hy h)

end EvenChroma.Double
