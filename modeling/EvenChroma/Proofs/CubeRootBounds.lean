/-
  EvenChroma/Proofs/CubeRootBounds.lean
  =====================================
  **How large cube roots are**, to within a small factor: a number around one, scaled by a third
  of the exponent.  A refinement of the guess stays between a half and four, and the last
  correction stays close to a step of Newton's method, which is positive.
-/
import EvenChroma.Proofs.FormulaBounds

namespace EvenChroma.Double

/-! ### Cube roots -/

theorem refined_ge {r c m : ℚ} (hr : 1 / 2 ≤ r) (hc : |c - r * r * r| ≤ 1 / 2 ^ 16)
    (hm : 99 / 100 ≤ m) : (2 * c + m) / 2 + 1 / 8 ≤ r * (c + 2 * m) := by
  obtain ⟨hlow, hhigh⟩ := abs_le.mp hc
  norm_num at hlow hhigh
  have hcube : -1 / 4 ≤ c * (r - 1) := by
    rcases le_total 1 r with h | h
    · have hge : 1 ≤ r * r * r := one_le_mul_of_one_le_of_one_le
        (one_le_mul_of_one_le_of_one_le h h) h
      exact le_trans (by norm_num) (mul_nonneg (by linarith) (by linarith : 0 ≤ r - 1))
    · nlinarith [sq_nonneg (r - 1 / 2), mul_nonneg (sub_nonneg.mpr hr) (sub_nonneg.mpr h)]
  have hlinear : 99 / 100 * (1 / 2) ≤ m * (2 * r - 1 / 2) :=
    mul_le_mul hm (by linarith) (by norm_num) (by linarith)
  linarith

theorem refined_le {r c m : ℚ} (hr : 1 / 2 ≤ r) (hr' : r ≤ 4) (hc : |c - r * r * r| ≤ 1 / 2 ^ 16)
    (hm : 0 ≤ m) (hm' : m ≤ 9) : r * (c + 2 * m) + 1 / 8 ≤ 4 * (2 * c + m) := by
  obtain ⟨hlow, hhigh⟩ := abs_le.mp hc
  norm_num at hlow hhigh
  have hsquare : 1 / 4 ≤ r * r := by nlinarith
  rcases le_total r 2 with h | h
  · have hcube : 1 / 10 ≤ c := by nlinarith
    have h₁ : 1 / 10 * 6 ≤ c * (8 - r) := mul_le_mul hcube (by linarith) (by norm_num) (by linarith)
    have h₂ : 0 ≤ m * (4 - 2 * r) := mul_nonneg hm (by linarith)
    linarith
  · have hcube : 4 * r - 1 ≤ c := by nlinarith
    have h₁ : (4 * r - 1) * 4 ≤ c * (8 - r) :=
      mul_le_mul hcube (by linarith) (by norm_num) (by linarith)
    have h₂ : m * (2 * r - 4) ≤ 9 * (2 * r - 4) := mul_le_mul_of_nonneg_right hm' (by linarith)
    linarith

theorem cube_bounds {r : Float} (hr : Enclosed (1 / 2) 4 r) :
    Enclosed (1 / 11) 69 (r * r * r) ∧
      |value (r * r * r) - value r * value r * value r| ≤ 1 / 2 ^ 16 := by
  have hsquare : Enclosed (1 / 5) 17 (r * r) :=
    hr.mul hr (by norm_num) (by norm_num) (by norm_num)
  have hcube : Enclosed (1 / 11) 69 (r * r * r) :=
    hsquare.mul hr (by norm_num) (by norm_num) (by norm_num)
  obtain ⟨hbelow, habove⟩ := hsquare.close (approximates_mul hr.finite hr.finite) (by norm_num)
    (by norm_num)
  obtain ⟨hbelow', habove'⟩ := hcube.close (approximates_mul hsquare.finite hr.finite)
    (by norm_num) (by norm_num)
  have hnonneg : 0 ≤ value r := by linarith [hr.low]
  have hhigh := hr.high
  have hlow := mul_le_mul_of_nonneg_right hbelow hnonneg
  have hupp := mul_le_mul_of_nonneg_right habove hnonneg
  refine ⟨hcube, abs_le.mpr ⟨?_, ?_⟩⟩
  · linarith
  · linarith

/-- The factor of a refinement, with `c` for the cube of the guess: the exact factor keeps the
    guess in range with room to spare, and rounding takes little of it. -/
theorem refinement_bounds {c m r : Float} (hc : Enclosed (1 / 11) 69 c)
    (hm : Enclosed (99 / 100) 9 m) (hr : Enclosed (1 / 2) 4 r)
    (hclose : |value c - value r * value r * value r| ≤ 1 / 2 ^ 16) :
    let q := (c + 2.0 * m) / (2.0 * c + m)
    Enclosed (1 / 2000) 300 q ∧ 1 / 2 + 1 / 2 ^ 17 ≤ value r * value q ∧
      value r * value q ≤ 4 - 1 / 2 ^ 17 := by
  intro q
  have htwo : Enclosed 2 2 (2.0 : Float) := .of_value rfl value_two
  have hdouble : Enclosed (19 / 10) 19 (2.0 * m) :=
    htwo.mul hm (by norm_num) (by norm_num) (by norm_num)
  have hdouble' : Enclosed (1 / 6) 139 (2.0 * c) :=
    htwo.mul hc (by norm_num) (by norm_num) (by norm_num)
  have hnumerator : Enclosed 1 89 (c + 2.0 * m) :=
    hc.add hdouble (by norm_num) (by norm_num) (by norm_num) (by norm_num)
  have hdenominator : Enclosed 1 149 (2.0 * c + m) :=
    hdouble'.add hm (by norm_num) (by norm_num) (by norm_num) (by norm_num)
  have hq : Enclosed (1 / 2000) 300 q :=
    hnumerator.div hdenominator (by norm_num) (by norm_num) (by norm_num) (by norm_num)
      (by norm_num)
  have hpos : 0 < value (2.0 * c + m) := lt_of_lt_of_le one_pos hdenominator.low
  -- what rounding changes
  have h₁ := hdouble.close (approximates_mul htwo.finite hm.finite) (by norm_num) (by norm_num)
  have h₂ := hnumerator.close (approximates_add hc.finite hdouble.finite) (by norm_num)
    (by norm_num)
  have h₃ := hdouble'.close (approximates_mul htwo.finite hc.finite) (by norm_num) (by norm_num)
  have h₄ := hdenominator.close (approximates_add hdouble'.finite hm.finite) (by norm_num)
    (by norm_num)
  have h₅ := hq.close (approximates_div hnumerator.finite hdenominator.finite hpos.ne')
    (by norm_num) (by norm_num)
  have hge := refined_ge hr.low hclose hm.low
  have hle := refined_le hr.low hr.high hclose (by linarith [hm.low]) hm.high
  have hrlow := hr.low
  have hrhigh := hr.high
  have hdhigh := hdenominator.high
  rw [value_two] at h₁ h₃
  generalize value (c + 2.0 * m) = n at *
  generalize value (2.0 * c + m) = d at *
  have hquotient : value r * (n / d) * d = value r * n := by
    field_simp
  have hnonneg : 0 ≤ value r := by linarith
  refine ⟨hq, ?_, ?_⟩
  · have hfactor : value r * (value c + 2 * value m - 1 / 2 ^ 19) ≤ value r * n :=
      mul_le_mul_of_nonneg_left (by linarith) hnonneg
    have hexact : 1 / 2 + 1 / 2 ^ 16 ≤ value r * (n / d) := by
      refine le_of_mul_le_mul_right ?_ hpos
      rw [hquotient]
      linarith
    linarith [mul_le_mul_of_nonneg_left h₅.1 hnonneg]
  · have hfactor : value r * n ≤ value r * (value c + 2 * value m + 1 / 2 ^ 19) :=
      mul_le_mul_of_nonneg_left (by linarith) hnonneg
    have hexact : value r * (n / d) ≤ 4 - 1 / 2 ^ 16 := by
      refine le_of_mul_le_mul_right ?_ hpos
      rw [hquotient]
      linarith
    linarith [mul_le_mul_of_nonneg_left h₅.2 hnonneg]

/-- **A refinement stays in range.** -/
theorem enclosed_cubeRootStep {m r : Float} (hm : Enclosed (99 / 100) 9 m)
    (hr : Enclosed (1 / 2) 4 r) : Enclosed (1 / 2) 4 (cubeRootStep m r) := by
  obtain ⟨hcube, hclose⟩ := cube_bounds hr
  obtain ⟨hq, hlow, hhigh⟩ := refinement_bounds hcube hm hr hclose
  exact .of_approximates (approximates_mul hr.finite hq.finite) (by linarith) (by linarith)
    (by norm_num) (by norm_num)

/-- The square of a root, and by how much its cube misses the number. -/
theorem residue_bounds {m r : Float} (hm : Enclosed (99 / 100) 9 m) (hr : Enclosed (1 / 2) 4 r) :
    let square := Pair.product r r
    let cube := Pair.product square.high r
    let residue := (cube.high - m) + (cube.low + square.low * r)
    Enclosed (24 / 100) (161 / 10) square.high ∧ Enclosed (-10) 66 residue ∧
      value residue ≤ value square.high * value r - value m + 1 / 900 := by
  intro square cube residue
  have hrbound : Bounded 4 r := hr.bounded (by norm_num) (le_refl _)
  have hsquare : Enclosed (24 / 100) (161 / 10) square.high :=
    hr.mul hr (by norm_num) (by norm_num) (by norm_num)
  have hsquarebound : Bounded (161 / 10) square.high :=
    hsquare.bounded (by norm_num) (le_refl _)
  have hcube : Enclosed (1 / 10) 65 cube.high :=
    hsquare.mul hr (by norm_num) (by norm_num) (by norm_num)
  obtain ⟨-, hsquarelow⟩ := Pair.bounds_product hrbound hrbound (by norm_num) (by norm_num)
    (by norm_num) (by norm_num)
  obtain ⟨-, hcubelow⟩ := Pair.bounds_product hsquarebound hrbound (by norm_num) (by norm_num)
    (by norm_num) (by norm_num)
  have hlost := hcubelow.add (hsquarelow.mul hrbound (c := 1 / 2000) (by norm_num) (by norm_num))
    (c := 1 / 1000) (by norm_num) (by norm_num)
  have hdifference : Enclosed (-9) 65 (cube.high - m) :=
    hcube.sub hm (by norm_num) (by norm_num) (by norm_num) (by norm_num)
  have hresidue : Enclosed (-10) 66 residue :=
    hdifference.add (bounded_iff_enclosed.mp hlost) (by norm_num) (by norm_num) (by norm_num)
      (by norm_num)
  have h₁ := hcube.close (approximates_mul hsquare.finite hr.finite) (by norm_num) (by norm_num)
  have h₂ := hdifference.close (approximates_sub hcube.finite hm.finite) (by norm_num)
    (by norm_num)
  have h₃ := hresidue.close (approximates_add hdifference.finite hlost.1) (by norm_num)
    (by norm_num)
  have hlostabs := abs_le.mp hlost.2
  exact ⟨hsquare, hresidue, by linarith⟩

/-- The corrected root is close to a step of Newton's method, which is positive. -/
theorem enclosed_correction {m r : Float} (hm : Enclosed (99 / 100) 9 m)
    (hr : Enclosed (1 / 2) 4 r) :
    let square := Pair.product r r
    let cube := Pair.product square.high r
    let residue := (cube.high - m) + (cube.low + square.low * r)
    Enclosed (1 / 4) 32 (r - residue / (3.0 * square.high)) := by
  intro square cube residue
  have hvalue : value (3.0 : Float) = 3 := by decide +kernel
  have hthree : Enclosed 3 3 (3.0 : Float) := .of_value rfl hvalue
  obtain ⟨hsquare, hresidue, hresiduele⟩ := residue_bounds hm hr
  have hdenominator : Enclosed (7 / 10) 49 (3.0 * square.high) :=
    hthree.mul hsquare (by norm_num) (by norm_num) (by norm_num)
  have hcorrection : Enclosed (-20) 100 (residue / (3.0 * square.high)) :=
    hresidue.div hdenominator (by norm_num) (by norm_num) (by norm_num) (by norm_num) (by norm_num)
  have hresult : Enclosed (-100) 32 (r - residue / (3.0 * square.high)) :=
    hr.sub hcorrection (by norm_num) (by norm_num) (by norm_num) (by norm_num)
  -- what rounding changes
  have hpos : 0 < value (3.0 * square.high) := lt_of_lt_of_le (by norm_num) hdenominator.low
  have h₁ := hdenominator.close (approximates_mul hthree.finite hsquare.finite) (by norm_num)
    (by norm_num)
  have h₂ := hcorrection.close (approximates_div hresidue.finite hdenominator.finite hpos.ne')
    (by norm_num) (by norm_num)
  have h₃ := hresult.close (approximates_sub hr.finite hcorrection.finite) (by norm_num)
    (by norm_num)
  rw [hvalue] at h₁
  have hbound : value residue / value (3.0 * square.high) ≤ value r - 26 / 100 := by
    rw [div_le_iff₀ hpos]
    have hmlow := hm.low
    have hrlow := hr.low
    have hrhigh := hr.high
    have hslow := hsquare.low
    have hnewton : 0 ≤ value square.high * (2 * value r - 78 / 100) :=
      mul_nonneg (by linarith) (by linarith)
    have hfactor : (value r - 26 / 100) * (3 * value square.high - 1 / 2 ^ 20) ≤
        (value r - 26 / 100) * value (3.0 * square.high) :=
      mul_le_mul_of_nonneg_left h₁.1 (by linarith)
    linarith
  exact ⟨hresult.finite, by linarith, hresult.high⟩

/-- **The cube root of a mantissa is neither small nor large.** -/
theorem enclosed_cubeRootOf {m : Float} (hm : Enclosed (99 / 100) 9 m) :
    Enclosed (1 / 4) 32 (cubeRootOf m) := by
  have hfirst : Enclosed (89 / 100) (91 / 100) (0.9 : Float) := by decide +kernel
  have hfactor : Enclosed (14 / 100) (16 / 100) (0.15 : Float) := by decide +kernel
  have hguess : Enclosed (1 / 2) 4 (0.9 + 0.15 * m) :=
    hfirst.add (hfactor.mul hm (l := 1 / 10) (u := 3 / 2) (by norm_num) (by norm_num)
      (by norm_num)) (by norm_num) (by norm_num) (by norm_num) (by norm_num)
  exact enclosed_correction hm (enclosed_cubeRootStep hm (enclosed_cubeRootStep hm
    (enclosed_cubeRootStep hm hguess)))

/-- **The cube root is scaled by a third of the exponent.** -/
theorem exists_scale_cubeRoot {x : Float} (hx : x.isFinite = true) (hne : value x ≠ 0) :
    ∃ w, cubeRoot x = copySign (scale w (leading x / 3)) x ∧ Enclosed (1 / 4) 32 w := by
  have hmantissa := enclosed_normalMantissa (parts_canonical_of_ne hx hne)
  have hshift : Enclosed 1 4 (twoPow (leading x - 3 * (leading x / 3))) := by
    obtain ⟨hfinite, hvalue⟩ := value_twoPow (e := leading x - 3 * (leading x / 3)) (by omega)
      (by omega)
    have hlow : (2 : ℚ) ^ (0 : ℤ) ≤ 2 ^ (leading x - 3 * (leading x / 3)) :=
      zpow_le_zpow_right₀ one_le_two (by omega)
    have hhigh : (2 : ℚ) ^ (leading x - 3 * (leading x / 3)) ≤ 2 ^ (2 : ℤ) :=
      zpow_le_zpow_right₀ one_le_two (by omega)
    have hfour : (2 : ℚ) ^ (2 : ℤ) = 4 := by norm_num
    rw [zpow_zero] at hlow
    rw [hfour] at hhigh
    exact ⟨hfinite, by rw [hvalue]; exact hlow, by rw [hvalue]; exact hhigh⟩
  have hm : Enclosed (99 / 100) 9
      (normalMantissa (parts x) * twoPow (leading x - 3 * (leading x / 3))) :=
    hmantissa.mul hshift (by norm_num) (by norm_num) (by norm_num)
  refine ⟨_, ?_, enclosed_cubeRootOf hm⟩
  have hcondition : (x == 0.0 || !x.isFinite) = false := by
    rw [beq_zero_of_ne hx hne, hx]
    rfl
  rw [cubeRoot, hcondition]
  rfl

theorem cubeRoot_of_zero {x : Float} (hx : x.isFinite = true) (hzero : value x = 0) :
    cubeRoot x = x := by
  have hunpack : ∃ s, x.toModel.unpack = .zero s := by
    change x.toModel.unpack.isFinite = true at hx
    change unpackedValue x.toModel.unpack = 0 at hzero
    generalize x.toModel.unpack = u at hx hzero
    rcases u with _ | _ | s | ⟨s, m, e, hm⟩
    · cases hx
    · cases hx
    · exact ⟨s, rfl⟩
    · rw [unpackedValue_finite, ← abs_eq_zero, abs_withSign, abs_eq_zero] at hzero
      have hpos : (0 : ℚ) < m * 2 ^ e := mul_pos (Nat.cast_pos.mpr hm) (two_zpow_pos e)
      exact absurd hzero hpos.ne'
  have hbeq : (x == 0.0) = true := (beq_zero_unpacked x.toModel.unpack).mpr hunpack
  have hcondition : (x == 0.0 || !x.isFinite) = true := by
    rw [hbeq, Bool.true_or]
  rw [cubeRoot, if_pos hcondition]

/-- Cube roots of moderate numbers are moderate. -/
theorem bounded_cubeRoot {x : Float} (hx : Bounded (2 ^ 23) x) : Bounded (2 ^ 14) (cubeRoot x) := by
  by_cases hne : value x = 0
  · rw [cubeRoot_of_zero hx.1 hne, Bounded, hne, abs_zero]
    exact ⟨hx.1, by norm_num⟩
  · obtain ⟨w, heq, hw⟩ := exists_scale_cubeRoot hx.1 hne
    obtain ⟨hlow, -, hsize, -⟩ := leading_bounds hx.1 hne
    have hleading : leading x ≤ 23 := by
      have hpow : (2 : ℚ) ^ leading x ≤ 2 ^ (23 : ℤ) := hsize.trans (by exact_mod_cast hx.2)
      exact (zpow_le_zpow_iff_right₀ one_lt_two).mp hpow
    rw [heq, bounded_copySign_iff]
    have hwbound : Bounded 32 w := hw.bounded (by norm_num) (le_refl _)
    exact bounded_scale hwbound (by norm_num) (by omega) (show leading x / 3 ≤ 7 by omega)
      (by norm_num) (by norm_num)

theorem isFinite_of_cubeRoot {x : Float} (h : (cubeRoot x).isFinite = true) :
    x.isFinite = true := by
  by_contra hinfinite
  have hcondition : (x == 0.0 || !x.isFinite) = true := by
    rw [Bool.eq_false_iff.mpr hinfinite, Bool.not_false, Bool.or_true]
  rw [cubeRoot, if_pos hcondition] at h
  exact hinfinite h

/-- Only a moderate number has a moderate cube root. -/
theorem bounded_of_bounded_cubeRoot {x : Float} (h : Bounded (2 ^ 21) (cubeRoot x)) :
    Bounded (2 ^ 75) x := by
  have hfinite := isFinite_of_cubeRoot h.1
  by_cases hne : value x = 0
  · exact ⟨hfinite, by rw [hne, abs_zero]; norm_num⟩
  · obtain ⟨w, heq, hw⟩ := exists_scale_cubeRoot hfinite hne
    obtain ⟨hlow, hhigh, -, hsize⟩ := leading_bounds hfinite hne
    rw [heq, bounded_copySign_iff] at h
    have hsmall := mul_le_of_bounded_scale h (by norm_num) (by omega) (by omega)
    have hwlow : 1 / 4 ≤ |value w| := hw.low.trans (le_abs_self _)
    have hpow : (2 : ℚ) ^ (leading x / 3) ≤ 2 ^ (24 : ℤ) := by
      have hpos := two_zpow_pos (leading x / 3)
      norm_num at hsmall ⊢
      nlinarith
    have hthird : leading x / 3 ≤ 24 := (zpow_le_zpow_iff_right₀ one_lt_two).mp hpow
    refine ⟨hfinite, hsize.le.trans ?_⟩
    rw [← zpow_natCast]
    exact zpow_le_zpow_right₀ one_le_two (by push_cast; omega)

end EvenChroma.Double
