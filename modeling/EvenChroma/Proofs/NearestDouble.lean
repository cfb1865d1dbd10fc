/-
  EvenChroma/Proofs/NearestDouble.lean
  ====================================
  **Decimals are rounded correctly.**  No finite double is nearer to a number than the one that it
  is rounded to, and of two that are equally near the one with the even mantissa is taken; what
  lies half a step above the largest double is infinite (`Nearest`).  Products and quotients are
  rounded once, and a decimal is a whole number times or over a power of ten, both of which are
  exact (`nearest_ofDecimal`).
-/
import EvenChroma.Double.Reading
import EvenChroma.Proofs.DoubleQuotients

namespace EvenChroma.Double

open Float.Model Float.Model.UnpackedFloat

/-! ### The nearest double -/

/-- Where infinity begins: half a step above the largest double. -/
def overflowBound : ℚ := (2 ^ 53 - 1 / 2) * 2 ^ (971 : ℤ)

theorem overflowBound_pos : 0 < overflowBound := mul_pos (by norm_num) (two_zpow_pos 971)

/-- No finite double is nearer to the number, and if another one is as near, the mantissa is even.
    Numbers that are too large have infinity instead. -/
inductive Nearest (x : Float) (q : ℚ) : Prop
  | finite (hfinite : x.isFinite = true) (hq : |q| < overflowBound)
    (hle : ∀ y : Float, y.isFinite = true → |value x - q| ≤ |value y - q|)
    (heven : ∀ y : Float, y.isFinite = true → |value y - q| = |value x - q| →
      value y = value x ∨ Even (mantissa x))
  | infinite (hx : x = if q < 0 then -infinity else infinity) (hq : overflowBound ≤ |q|)

/-- Positive and negative numbers are rounded alike. -/
theorem Nearest.neg {x : Float} {q : ℚ} (h : Nearest x q) : Nearest (-x) (-q) := by
  cases h with
  | finite hfinite hq hle heven =>
    have hdistance : ∀ y : Float, |value y - -q| = |value (-y) - q| := by
      intro y
      rw [value_neg, ← abs_neg]
      congr 1
      ring
    refine .finite ((isFinite_neg x).trans hfinite) (by rwa [abs_neg]) ?_ ?_
    · intro y hy
      rw [hdistance, hdistance, neg_neg_eq]
      exact hle (-y) ((isFinite_neg y).trans hy)
    · intro y hy heq
      rw [hdistance, hdistance, neg_neg_eq] at heq
      rcases heven (-y) ((isFinite_neg y).trans hy) heq with hvalue | hmantissa
      · left
        rw [value_neg, ← hvalue, value_neg, neg_neg]
      · right
        rwa [mantissa_neg]
  | infinite hx hq =>
    refine .infinite ?_ (by rwa [abs_neg])
    have hpos := overflowBound_pos
    rcases lt_trichotomy q 0 with hneg | rfl | hqpos
    · rw [hx, if_pos hneg, if_neg (by linarith), neg_neg_eq]
    · rw [abs_zero] at hq
      exact absurd hq (not_le.mpr hpos)
    · rw [hx, if_neg (by linarith), if_pos (by linarith)]

theorem nearest_infinity {q : ℚ} (hq : overflowBound ≤ q) : Nearest infinity q := by
  have hpos := overflowBound_pos
  refine .infinite ?_ (hq.trans (le_abs_self q))
  rw [if_neg (by linarith)]

/-! ### Nearest on a grid -/

/-- The whole number that is nearest to another number. -/
theorem nearest_whole {n : ℕ} {t : ℚ} (hnear : |n - t| ≤ 1 / 2)
    (heven : |n - t| = 1 / 2 → Even n) (k : ℤ) :
    |n - t| ≤ |k - t| ∧ (|k - t| = |n - t| → k = n ∨ Even n) := by
  by_cases heq : k = n
  · subst heq
    simp
  · have hone : (1 : ℚ) ≤ |(k : ℚ) - n| := by
      have h := Int.one_le_abs (sub_ne_zero.mpr heq)
      exact_mod_cast h
    have htriangle := abs_sub_le (k : ℚ) t n
    rw [abs_sub_comm t n] at htriangle
    constructor
    · linarith
    · intro htie
      right
      apply heven
      linarith

/-- A finite double is zero or a mantissa with a sign. -/
theorem value_cases {x : Float} (hx : x.isFinite = true) :
    (value x = 0 ∧ mantissa x = 0) ∨
      ∃ (s : Sign) (e : ℤ), (⟨false, mantissa x, e⟩ : Parts).Canonical ∧
        value x = withSign s (mantissa x * 2 ^ e) := by
  change x.toModel.unpack.isFinite = true at hx
  rw [value, mantissa]
  cases hu : x.toModel.unpack with
  | infinity s =>
    rw [hu] at hx
    cases hx
  | notANumber =>
    rw [hu] at hx
    cases hx
  | zero s => exact .inl ⟨rfl, rfl⟩
  | finite s m e hm => exact .inr ⟨s, e, canonical_of_unpack hu, unpackedValue_finite s e hm⟩

/-- A finite double lies on a grid, or is smaller than every number that the grid is used for. -/
theorem value_on_grid {y : Float} (hy : y.isFinite = true) {grid : ℤ} (hge : -1074 ≤ grid) :
    (∃ k : ℤ, value y = k * 2 ^ grid) ∨ -1074 < grid ∧ value y < (2 ^ 52 : ℕ) * 2 ^ grid := by
  rcases value_cases hy with ⟨hzero, -⟩ | ⟨s, e, hcanonical, hvalue⟩
  · exact .inl ⟨0, by simp [hzero]⟩
  · have hstands := Stands.positive hcanonical.mantissa_pos hcanonical
    have hnonneg := hstands.nonneg
    rw [hvalue]
    rcases hstands.on_grid hge with ⟨k, hk⟩ | ⟨hgt, hlt⟩
    · rw [hk]
      left
      cases s with
      | negative => exact ⟨-k, by simp [withSign]⟩
      | positive => exact ⟨k, by simp [withSign]⟩
    · refine .inr ⟨hgt, ?_⟩
      cases s with
      | negative => exact (neg_nonpos.mpr hnonneg).trans_lt (hnonneg.trans_lt hlt)
      | positive => exact hlt

section

variable {n : ℕ} {grid : ℤ} {q : ℚ}

/-- What is nearest on its grid is nearest among all doubles: finer doubles are all too small. -/
theorem nearest_value (hnear : |n - q / 2 ^ grid| ≤ 1 / 2)
    (heven : |n - q / 2 ^ grid| = 1 / 2 → Even n) (hge : -1074 ≤ grid)
    (hfull : -1074 < grid → (2 ^ 52 : ℕ) ≤ q / 2 ^ grid) {y : Float} (hy : y.isFinite = true) :
    |n * 2 ^ grid - q| ≤ |value y - q| ∧
      (|value y - q| = |n * 2 ^ grid - q| → value y = n * 2 ^ grid ∨ Even n) := by
  have hpos := two_zpow_pos grid
  have hscaled : ∀ a : ℚ, |a * 2 ^ grid - q| = |a - q / 2 ^ grid| * 2 ^ grid := by
    intro a
    rw [← abs_of_pos hpos, ← abs_mul, abs_of_pos hpos, sub_mul, div_mul_cancel₀ _ hpos.ne']
  rcases value_on_grid hy hge with ⟨k, hk⟩ | ⟨hgt, hlt⟩
  · obtain ⟨hle, htie⟩ := nearest_whole hnear heven k
    rw [hk, hscaled, hscaled]
    constructor
    · exact mul_le_mul_of_nonneg_right hle hpos.le
    · intro heq
      rcases htie (mul_right_cancel₀ hpos.ne' heq) with rfl | hn
      · exact .inl rfl
      · exact .inr hn
  · -- the first double of the grid is nearer
    have hlarge := hfull hgt
    rw [le_div_iff₀ hpos] at hlarge
    obtain ⟨hle, -⟩ := nearest_whole hnear heven (2 ^ 52 : ℕ)
    have hfirst := mul_le_mul_of_nonneg_right hle hpos.le
    rw [← hscaled, ← hscaled, Int.cast_natCast, abs_of_nonpos (sub_nonpos.mpr hlarge)] at hfirst
    have hfar : |n * 2 ^ grid - q| < |value y - q| := by
      rw [abs_of_neg (a := value y - q) (by linarith)]
      linarith
    exact ⟨hfar.le, fun heq => absurd heq hfar.ne'⟩

/-- A number whose mantissa is too large for a double is out of their range. -/
theorem overflowBound_le_of_carry (hnear : |n - q / 2 ^ grid| ≤ 1 / 2) (hgrid : 971 ≤ grid)
    (hcarry : grid = 971 → n = 2 ^ 53) (hfull : (2 ^ 52 : ℕ) ≤ q / 2 ^ grid) :
    overflowBound ≤ q := by
  have hpos := two_zpow_pos grid
  obtain ⟨-, hhigh⟩ := abs_le.mp hnear
  rcases eq_or_lt_of_le hgrid with rfl | hgt
  · have hn : (n : ℚ) = 2 ^ 53 := by exact_mod_cast hcarry rfl
    rw [overflowBound, ← le_div_iff₀ hpos]
    linarith
  · rw [le_div_iff₀ hpos] at hfull
    calc overflowBound ≤ (2 ^ 53 : ℕ) * 2 ^ (971 : ℤ) :=
          mul_le_mul_of_nonneg_right (by norm_num) (two_zpow_pos 971).le
      _ = (2 ^ 52 : ℕ) * 2 ^ ((971 : ℤ) + 1) := two_pow_53_mul 971
      _ ≤ (2 ^ 52 : ℕ) * 2 ^ grid := by
        have hpow : (2 : ℚ) ^ ((971 : ℤ) + 1) ≤ 2 ^ grid := zpow_le_zpow_right₀ (by norm_num) hgt
        exact mul_le_mul_of_nonneg_left hpow (by positivity)
      _ ≤ q := hfull

/-- A number whose mantissa fits is in the range of doubles. -/
theorem lt_overflowBound (hnear : |n - q / 2 ^ grid| ≤ 1 / 2)
    (heven : |n - q / 2 ^ grid| = 1 / 2 → Even n) (hle : n ≤ 2 ^ 53) (hgrid : grid ≤ 971)
    (hlt : grid = 971 → n < 2 ^ 53) : q < overflowBound := by
  have hpos := two_zpow_pos grid
  obtain ⟨hlow, -⟩ := abs_le.mp hnear
  rw [overflowBound]
  rcases eq_or_lt_of_le hgrid with rfl | hless
  · -- the largest mantissa is odd, so half a step above it goes to infinity
    have hn : n + 1 ≤ 2 ^ 53 := hlt rfl
    have hcast : (n : ℚ) + 1 ≤ 2 ^ 53 := by exact_mod_cast hn
    rw [← div_lt_iff₀ hpos]
    by_contra hge
    have htie : |n - q / 2 ^ (971 : ℤ)| = 1 / 2 := by
      rw [abs_of_neg (by linarith)]
      linarith
    obtain ⟨k, hk⟩ := heven htie
    have hodd : (n : ℚ) + 1 = 2 ^ 53 := by linarith
    have : n + 1 = 2 ^ 53 := by exact_mod_cast hodd
    omega
  · have hcast : (n : ℚ) ≤ 2 ^ 53 := by exact_mod_cast hle
    have hq : q ≤ (2 ^ 53 + 1 / 2) * 2 ^ grid := by
      rw [← div_le_iff₀ hpos]
      linarith
    have hpow : (2 : ℚ) ^ (grid + 1) ≤ 2 ^ (971 : ℤ) := zpow_le_zpow_right₀ (by norm_num) hless
    rw [two_zpow_succ] at hpow
    generalize (2 : ℚ) ^ (971 : ℤ) = bound at hpow ⊢
    linarith

/-- **A mantissa that is nearest on its grid gives the nearest double.** -/
theorem nearest_onGrid (hq : 0 ≤ q) (hnear : |n - q / 2 ^ grid| ≤ 1 / 2)
    (heven : |n - q / 2 ^ grid| = 1 / 2 → Even n) (hle : n ≤ 2 ^ 53) (hge : -1074 ≤ grid)
    (hhidden : -1074 < grid → 2 ^ 52 ≤ n)
    (hfull : -1074 < grid → (2 ^ 52 : ℕ) ≤ q / 2 ^ grid) :
    Nearest (Float.ofModel (pack (onGrid .positive n grid))) q := by
  cases packsOnGrid .positive hle hge hhidden with
  | infinite hx hgrid hcarry =>
    rw [hx]
    exact nearest_infinity (overflowBound_le_of_carry hnear hgrid hcarry (hfull (by omega)))
  | finite hfinite hvalue hmantissa hgrid hlt =>
    have hsmall := lt_overflowBound hnear heven hle hgrid hlt
    rw [withSign] at hvalue
    refine .finite hfinite (by rwa [abs_of_nonneg hq]) ?_ ?_
    · intro y hy
      rw [hvalue]
      exact (nearest_value hnear heven hge hfull hy).1
    · intro y hy heq
      rw [hvalue] at heq ⊢
      exact ((nearest_value hnear heven hge hfull hy).2 heq).imp_right hmantissa

end

/-- What is at most half of the smallest double is rounded to zero. -/
theorem nearest_zero {q : ℚ} (hq : 0 ≤ q) (hsmall : q ≤ 2 ^ (-1075 : ℤ)) : Nearest 0.0 q := by
  have hhalf : q / 2 ^ (-1074 : ℤ) ≤ 1 / 2 := by
    have hpow := two_zpow_succ (-1075)
    norm_num only at hpow
    rw [div_le_iff₀ (two_zpow_pos _), hpow]
    linarith
  have hnonneg : 0 ≤ q / 2 ^ (-1074 : ℤ) := div_nonneg hq (two_zpow_pos _).le
  have hnear : |((0 : ℕ) : ℚ) - q / 2 ^ (-1074 : ℤ)| ≤ 1 / 2 := by
    rwa [Nat.cast_zero, zero_sub, abs_neg, abs_of_nonneg hnonneg]
  have hnearest := nearest_onGrid hq hnear (fun _ => Even.zero) (by norm_num) (le_refl _)
    (by omega) (by omega)
  rw [onGrid_zero _ (le_refl _)] at hnearest
  exact hnearest

/-! ### Products and quotients -/

/-- **What is rounded is rounded to the nearest double.** -/
theorem nearest_roundWithAccuracy {m : ℕ} {e : ℤ} {accuracy : Accuracy} {q : ℚ}
    (hhalves : Halves (ExtendedMantissa.ofMantissaAndAccuracy m accuracy) (q / 2 ^ e))
    (hfine : e ≤ Format.binary64.targetExponent (totalExponent m e)) :
    Nearest (Float.ofModel (pack (roundWithAccuracy .binary64 .positive m e accuracy))) q := by
  obtain ⟨k, em, grid, rfl, hgrid, hcovers, hge, hle, hfull, hresult⟩ :=
    roundWithAccuracy_cases (s := .positive) hhalves.toCovers hfine
  have hshifted := hhalves.shiftRight k
  rw [div_div, ← zpow_natCast, ← zpow_add₀ (by norm_num), ← hgrid] at hshifted
  obtain ⟨hnear, heven⟩ := hshifted.roundedMantissa_nearest
  have hq : 0 ≤ q := by
    have hlow := (Nat.cast_nonneg _).trans hhalves.low
    rwa [le_div_iff₀ (two_zpow_pos e), zero_mul] at hlow
  rw [hresult]
  apply nearest_onGrid hq hnear heven hle hge _ hfull
  intro hgt
  exact hcovers.natCast_le (hfull hgt)

section

variable {m m' : ℕ} {e e' : ℤ} (hm : 0 < m) (hm' : 0 < m')

theorem nearest_product
    (hfine : e + e' ≤ Format.binary64.targetExponent (totalExponent (m * m') (e + e'))) :
    Nearest (Float.ofModel (pack (UnpackedFloat.mul .binary64 (.finite .positive m e hm)
      (.finite .positive m' e' hm')))) (m * 2 ^ e * (m' * 2 ^ e')) :=
  nearest_roundWithAccuracy (halves_product m m' e e') hfine

theorem nearest_quotient (e e' : ℤ) :
    Nearest (Float.ofModel (pack (UnpackedFloat.div .binary64 (.finite .positive m e hm)
      (.finite .positive m' e' hm')))) (m * 2 ^ e / (m' * 2 ^ e')) := by
  obtain ⟨n, grid, accuracy, hdiv, hhalves, hfine⟩ := exists_div .positive .positive e e' hm hm'
  rw [hdiv]
  exact nearest_roundWithAccuracy hhalves hfine

end

section

variable {x y : Float} {p q : ℚ}

/-- **Products of positive doubles are rounded correctly.** -/
theorem nearest_mul (hx : Stands x.toModel.unpack p) (hy : Stands y.toModel.unpack q)
    (hp : 0 < p) (hq : 0 < q) : Nearest (x * y) (p * q) := by
  change Nearest (Float.ofModel (pack (UnpackedFloat.mul .binary64 x.toModel.unpack
    y.toModel.unpack))) (p * q)
  generalize x.toModel.unpack = u at hx ⊢
  generalize y.toModel.unpack = v at hy ⊢
  cases hx with
  | zero s => exact absurd hp (lt_irrefl 0)
  | positive hm h =>
    cases hy with
    | zero s => exact absurd hq (lt_irrefl 0)
    | positive hm' h' => exact nearest_product hm hm' (product_fine h h')

/-- **Quotients of positive doubles are rounded correctly.** -/
theorem nearest_div (hx : Stands x.toModel.unpack p) (hy : Stands y.toModel.unpack q)
    (hp : 0 < p) (hq : 0 < q) : Nearest (x / y) (p / q) := by
  change Nearest (Float.ofModel (pack (UnpackedFloat.div .binary64 x.toModel.unpack
    y.toModel.unpack))) (p / q)
  generalize x.toModel.unpack = u at hx ⊢
  generalize y.toModel.unpack = v at hy ⊢
  cases hx with
  | zero s => exact absurd hp (lt_irrefl 0)
  | positive hm h =>
    cases hy with
    | zero s => exact absurd hq (lt_irrefl 0)
    | positive hm' h' => exact nearest_quotient hm hm' _ _

end

/-! ### Whole numbers and powers of ten -/

theorem exists_stands_natCast {m : ℕ} (hpos : 0 < m) (hm : m < 2 ^ 53) :
    ∃ u, Stands u m := by
  have hlog : m.log2 ≤ 52 := Nat.le_of_lt_succ ((Nat.log2_lt hpos.ne').mpr hm)
  obtain ⟨k, hk⟩ := Nat.le.dest hlog
  have hwhole : (m * 2 ^ k).log2 = 52 := (log2_mul_two_pow hpos.ne' k).trans hk
  have hscaled : 0 < m * 2 ^ k := Nat.mul_pos hpos (Nat.two_pow_pos k)
  have hcanonical : (⟨false, m * 2 ^ k, -k⟩ : Parts).Canonical := by
    refine ⟨hscaled, ?_, ?_, ?_, fun _ => ?_⟩
    · exact (Nat.log2_lt hscaled.ne').mp (by omega)
    · dsimp only
      omega
    · dsimp only
      omega
    · exact (Nat.le_log2 hscaled.ne').mp hwhole.ge
  have hvalue : ((m * 2 ^ k : ℕ) : ℚ) * 2 ^ (-k : ℤ) = m := by
    rw [zpow_neg, zpow_natCast]
    push_cast
    field_simp
  refine ⟨.finite .positive (m * 2 ^ k) (-k) hscaled, ?_⟩
  rw [← hvalue]
  exact .positive hscaled hcanonical

/-- Whole numbers with as many digits as a mantissa are exact. -/
theorem stands_toFloat {m : ℕ} (hpos : 0 < m) (hm : m < 2 ^ 53) :
    Stands m.toUInt64.toFloat.toModel.unpack m := by
  have hnat : m.toUInt64.toNat = m := UInt64.toNat_ofNat_of_lt' (by
    change m < 2 ^ 64
    omega)
  have hnormalize : UnpackedFloat.normalize .binary64 (m.toUInt64.toNat : ℤ) 0 .positive =
      UnpackedFloat.round .binary64 .positive m 0 := by
    have hcompare : compare (m : ℤ) 0 = .gt := compare_gt_iff_gt.mpr (by omega)
    rw [UnpackedFloat.normalize, hnat, hcompare, Int.toNat_natCast]
  have hsmall : (m : ℚ) < 2 ^ 1023 := by
    have h : (m : ℚ) < 2 ^ 53 := by exact_mod_cast hm
    exact h.trans (pow_lt_pow_right₀ (by norm_num) (by norm_num))
  obtain ⟨r, hr, hrounds⟩ := exists_round (e := 0) hpos.ne' (by simpa using hsmall)
  obtain ⟨u, hu⟩ := exists_stands_natCast hpos hm
  rw [zpow_zero, mul_one] at hrounds
  have hexact : r = m := le_antisymm (hrounds.ge_of_ge hu (le_refl _))
    (hrounds.le_of_le hu (le_refl _))
  change Stands (pack (UnpackedFloat.normalize .binary64 (m.toUInt64.toNat : ℤ) 0
    .positive)).unpack m
  rw [hnormalize, hr.unpack_pack, ← hexact]
  exact hr

/-- Whether an unpacked double is this power of ten. -/
def isTenPower (e : ℕ) : UnpackedFloat → Bool
  | .finite .positive m f _ => m * 2 ^ f.toNat == 10 ^ e * 2 ^ (-f).toNat
  | _ => false

theorem isTenPower_table : ∀ e : Fin 23,
    isTenPower e (Float.exactlyRepresentablePowersOfTen[e]).toModel.unpack = true := by
  decide +kernel

theorem stands_tenPower {e : ℕ} (he : e < 23) :
    Stands (Float.exactlyRepresentablePowersOfTen[e]).toModel.unpack (10 ^ e : ℕ) := by
  have htable := isTenPower_table ⟨e, he⟩
  change isTenPower e (Float.exactlyRepresentablePowersOfTen[e]).toModel.unpack = true at htable
  cases hu : (Float.exactlyRepresentablePowersOfTen[e]).toModel.unpack with
  | infinity s => simp [hu, isTenPower] at htable
  | notANumber => simp [hu, isTenPower] at htable
  | zero s => simp [hu, isTenPower] at htable
  | finite s m f hm =>
    rw [hu] at htable
    cases s with
    | negative => cases htable
    | positive =>
      have heq : m * 2 ^ f.toNat = 10 ^ e * 2 ^ (-f).toNat := by
        simpa [isTenPower] using htable
      have hvalue : ((10 ^ e : ℕ) : ℚ) = m * 2 ^ f := by
        have hcast : (m : ℚ) * 2 ^ f.toNat = (10 ^ e : ℕ) * 2 ^ (-f).toNat := by
          exact_mod_cast heq
        rw [← two_zpow_mul_pow, ← mul_assoc] at hcast
        exact (mul_right_cancel₀ (by positivity) hcast).symm
      rw [hvalue]
      exact .positive hm (canonical_of_unpack hu)

/-! ### Decimals -/

theorem overflowBound_le : overflowBound ≤ 2 ^ (1024 : ℤ) := by
  have hpow : (2 : ℚ) ^ (1024 : ℤ) = 2 ^ 53 * 2 ^ (971 : ℤ) := by
    rw [← zpow_natCast, ← zpow_add₀ (by norm_num)]
    norm_num
  rw [overflowBound, hpow]
  exact mul_le_mul_of_nonneg_right (by norm_num) (two_zpow_pos 971).le

section

variable {m : ℕ}

theorem nearest_times_tenPower (hm : 0 < m) (n : ℕ) (hshifted : 0 < m <<< 53) (hten : 0 < 10 ^ n) :
    Nearest (Float.ofModel (pack (UnpackedFloat.mul .binary64
      (.finite .positive (m <<< 53) (-53) hshifted) (.finite .positive (10 ^ n) 0 hten))))
      (m * 10 ^ n) := by
  have hfine : (-53 : ℤ) + 0 ≤ Format.binary64.targetExponent
      (totalExponent (m <<< 53 * 10 ^ n) (-53 + 0)) := by
    have hlarge : 2 ^ 53 ≤ m <<< 53 * 10 ^ n := by
      calc 2 ^ 53 ≤ m * 2 ^ 53 := Nat.le_mul_of_pos_left (2 ^ 53) hm
        _ = m <<< 53 := (Nat.shiftLeft_eq m 53).symm
        _ ≤ m <<< 53 * 10 ^ n := Nat.le_mul_of_pos_right (m <<< 53) hten
    have hlog := (Nat.le_log2 (Nat.mul_pos hshifted hten).ne').mpr hlarge
    rw [targetExponent_eq, totalExponent]
    omega
  have hvalue : (m : ℚ) * (10 : ℚ) ^ n =
      (m <<< 53 : ℕ) * 2 ^ (-53 : ℤ) * ((10 ^ n : ℕ) * 2 ^ (0 : ℤ)) := by
    have hback := shiftLeft_mul_two_zpow m (show (-53 : ℤ) ≤ 0 by decide)
    rw [show (0 - -53 : ℤ).toNat = 53 from rfl, zpow_zero, mul_one] at hback
    rw [hback]
    simp
  rw [hvalue]
  exact nearest_product hshifted hten hfine

theorem nearest_over_tenPower (hm : 0 < m) (n : ℕ) (hten : 0 < 10 ^ n) :
    Nearest (Float.ofModel (pack (UnpackedFloat.div .binary64 (.finite .positive m 0 hm)
      (.finite .positive (10 ^ n) 0 hten)))) (m / 10 ^ n) := by
  have hvalue : (m : ℚ) / 10 ^ n = m * 2 ^ (0 : ℤ) / ((10 ^ n : ℕ) * 2 ^ (0 : ℤ)) := by
    push_cast
    simp
  rw [hvalue]
  exact nearest_quotient hm hten 0 0

/-- A power of ten is computed exactly, whether the number is multiplied or divided by it. -/
theorem nearest_ofScientific_wide (hm : 0 < m) (e : ℤ) :
    Nearest (Float.ofModel (Float.Model.ofScientific m e)) (m * 10 ^ e) := by
  have hpos : (0 : ℚ) < 10 ^ e := by positivity
  have hone : (1 : ℚ) ≤ m := by exact_mod_cast hm
  rw [Float.Model.ofScientific, UnpackedFloat.ofScientific, dif_neg hm.ne']
  split_ifs with hlarge hsmall hwhole
  · change 2 ^ 11 < e at hlarge
    apply nearest_infinity
    calc overflowBound ≤ 2 ^ (1024 : ℤ) := overflowBound_le
      _ ≤ 2 ^ e := zpow_le_zpow_right₀ (by norm_num) (by omega)
      _ ≤ 10 ^ e := zpow_le_zpow_left₀ (by omega) (by norm_num) (by norm_num)
      _ ≤ m * 10 ^ e := le_mul_of_one_le_left hpos.le hone
  · change e < -(2 ^ 11 + (m.log2 : ℤ)) at hsmall
    have hm' : (m : ℚ) ≤ 2 ^ ((m.log2 : ℤ) + 1) := by
      have h := (Nat.lt_log2_self (n := m)).le
      exact_mod_cast h
    have hpow : (10 : ℚ) ^ e ≤ 2 ^ e := by
      obtain ⟨k, rfl⟩ := Int.exists_eq_neg_ofNat (show e ≤ 0 by omega)
      rw [zpow_neg, zpow_neg, zpow_natCast, zpow_natCast]
      exact inv_anti₀ (by positivity) (pow_le_pow_left₀ (by norm_num) (by norm_num) k)
    apply nearest_zero (by positivity)
    calc (m : ℚ) * 10 ^ e ≤ 2 ^ ((m.log2 : ℤ) + 1) * 2 ^ e :=
          mul_le_mul hm' hpow hpos.le (by positivity)
      _ = 2 ^ ((m.log2 : ℤ) + 1 + e) := (zpow_add₀ (by norm_num) _ _).symm
      _ ≤ 2 ^ (-1075 : ℤ) := zpow_le_zpow_right₀ (by norm_num) (by omega)
  · obtain ⟨n, rfl⟩ := Int.eq_ofNat_of_zero_le hwhole
    rw [zpow_natCast]
    exact nearest_times_tenPower hm n _ _
  · obtain ⟨n, rfl⟩ := Int.exists_eq_neg_ofNat (not_le.mp hwhole).le
    rw [zpow_neg, zpow_natCast, ← div_eq_mul_inv]
    simp only [neg_neg, Int.toNat_natCast]
    exact nearest_over_tenPower hm n _

/-- A number below `2 ^ 53` and a small power of ten are both doubles. -/
theorem nearest_ofScientific (hm : 0 < m) (e : ℤ) :
    Nearest (Float.ofScientific m (e < 0) e.natAbs) (m * 10 ^ e) := by
  rw [Float.ofScientific]
  split
  · next h =>
    obtain ⟨hfits, hpower⟩ := h
    have hwhole := stands_toFloat hm hfits
    have hten := stands_tenPower (Nat.lt_succ_of_le hpower)
    have hm' : (0 : ℚ) < m := by exact_mod_cast hm
    have hten' : (0 : ℚ) < (10 ^ e.natAbs : ℕ) := by positivity
    dsimp only
    split
    · next hneg =>
      have hvalue : (m : ℚ) * 10 ^ e = m / (10 ^ e.natAbs : ℕ) := by
        have he : e = -(e.natAbs : ℤ) := by
          simp at hneg
          omega
        conv_lhs => rw [he, zpow_neg, zpow_natCast]
        push_cast
        rfl
      rw [hvalue]
      exact nearest_div hwhole hten hm' hten'
    · next hpos =>
      have hvalue : (m : ℚ) * 10 ^ e = m * (10 ^ e.natAbs : ℕ) := by
        have he : e = (e.natAbs : ℤ) := by
          simp at hpos
          omega
        conv_lhs => rw [he, zpow_natCast]
        push_cast
        rfl
      rw [hvalue]
      exact nearest_mul hwhole hten hm' hten'
  · have hexponent : (if decide (e < 0) = true then Int.negOfNat e.natAbs
        else Int.ofNat e.natAbs) = e := by
      rw [Int.negOfNat_eq, Int.ofNat_eq_natCast]
      simp only [decide_eq_true_eq]
      split <;> omega
    dsimp only
    rw [hexponent]
    exact nearest_ofScientific_wide hm e

end

theorem two_pow_1024_le : (2 : ℚ) ^ (1024 : ℤ) ≤ 10 ^ (310 : ℤ) := by
  have h : 2 ^ 1024 ≤ 10 ^ 310 := by decide +kernel
  exact_mod_cast h

theorem ten_pow_neg_330_le : (10 : ℚ) ^ (-330 : ℤ) ≤ 2 ^ (-1075 : ℤ) := by
  have h : 2 ^ 1075 ≤ 10 ^ 330 := by decide +kernel
  rw [zpow_neg, zpow_neg]
  apply inv_anti₀ (by positivity)
  exact_mod_cast h

/-- A number lies between the powers of ten that its decimal digits tell. -/
theorem ten_pow_length_bounds {n : ℕ} (hn : 0 < n) :
    10 ^ ((Nat.toDigits 10 n).length - 1) ≤ n ∧ n < 10 ^ (Nat.toDigits 10 n).length := by
  have hlength : 0 < (Nat.toDigits 10 n).length := Nat.length_toDigits_pos
  constructor
  · by_contra hless
    rcases Nat.eq_zero_or_pos ((Nat.toDigits 10 n).length - 1) with hone | hmore
    · rw [hone] at hless
      omega
    · have h := (Nat.length_toDigits_le_iff (by norm_num) hmore).mpr (not_le.mp hless)
      omega
  · exact (Nat.length_toDigits_le_iff (by norm_num) hlength).mp (le_refl _)

/-- **A decimal is read as the nearest double.**  Where the guards answer, the number is too small
    or too large for a double. -/
theorem nearest_ofDecimal (digits : ℕ) (exponent : ℤ) :
    Nearest (ofDecimal digits exponent) (digits * 10 ^ exponent) := by
  have hpos : (0 : ℚ) < 10 ^ exponent := by positivity
  rcases Nat.eq_zero_or_pos digits with rfl | hdigits
  · rw [ofDecimal, if_pos (.inl rfl), Nat.cast_zero, zero_mul]
    exact nearest_zero (le_refl _) (by positivity)
  obtain ⟨hlow, hhigh⟩ := ten_pow_length_bounds hdigits
  have hlength : 0 < (Nat.toDigits 10 digits).length := Nat.length_toDigits_pos
  rw [ofDecimal]
  split_ifs with hsmall hlarge
  · have hleading := hsmall.resolve_left hdigits.ne'
    have hdigits' : (digits : ℚ) ≤ 10 ^ ((Nat.toDigits 10 digits).length : ℤ) := by
      exact_mod_cast hhigh.le
    apply nearest_zero (by positivity)
    calc (digits : ℚ) * 10 ^ exponent
        ≤ 10 ^ ((Nat.toDigits 10 digits).length : ℤ) * 10 ^ exponent :=
          mul_le_mul_of_nonneg_right hdigits' hpos.le
      _ = 10 ^ (exponent + (Nat.toDigits 10 digits).length) := by
          rw [← zpow_add₀ (by norm_num), add_comm]
      _ ≤ 10 ^ (-330 : ℤ) := zpow_le_zpow_right₀ (by norm_num) hleading.le
      _ ≤ 2 ^ (-1075 : ℤ) := ten_pow_neg_330_le
  · have hdigits' : (10 : ℚ) ^ (((Nat.toDigits 10 digits).length - 1 : ℕ) : ℤ) ≤ digits := by
      exact_mod_cast hlow
    apply nearest_infinity
    calc overflowBound ≤ 2 ^ (1024 : ℤ) := overflowBound_le
      _ ≤ 10 ^ (310 : ℤ) := two_pow_1024_le
      _ ≤ 10 ^ ((((Nat.toDigits 10 digits).length - 1 : ℕ) : ℤ) + exponent) :=
          zpow_le_zpow_right₀ (by norm_num) (by omega)
      _ = 10 ^ (((Nat.toDigits 10 digits).length - 1 : ℕ) : ℤ) * 10 ^ exponent :=
          zpow_add₀ (by norm_num) _ _
      _ ≤ digits * 10 ^ exponent := mul_le_mul_of_nonneg_right hdigits' hpos.le
  · exact nearest_ofScientific hdigits exponent

end EvenChroma.Double
