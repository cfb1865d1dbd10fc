/-
  EvenChroma/Proofs/FormulaBounds.lean
  ====================================
  **Following a formula in doubles** with a lower and an upper bound for each intermediate
  result (`Enclosed`), and with its exact counterpart only where two results nearly cancel.
  Here are the pieces that the elementary functions have in common: power series, the nearest
  whole number, and sums and products that carry their rounding errors.
-/
import EvenChroma.Double.Elementary
import EvenChroma.Proofs.DoubleQuotients

namespace EvenChroma.Double

/-! ### Enclosures -/

/-- The double is finite and lies between the bounds. -/
structure Enclosed (lo hi : ℚ) (x : Float) : Prop where
  finite : x.isFinite = true
  low : lo ≤ value x
  high : value x ≤ hi

instance (lo hi : ℚ) (x : Float) : Decidable (Enclosed lo hi x) :=
  decidable_of_iff (x.isFinite = true ∧ lo ≤ value x ∧ value x ≤ hi)
    ⟨fun h => ⟨h.1, h.2.1, h.2.2⟩, fun h => ⟨h.finite, h.low, h.high⟩⟩

theorem bounded_iff_enclosed {b : ℚ} {x : Float} : Bounded b x ↔ Enclosed (-b) b x := by
  rw [Bounded, abs_le]
  exact ⟨fun h => ⟨h.1, h.2.1, h.2.2⟩, fun h => ⟨h.finite, h.low, h.high⟩⟩

/-- A product with a number in an interval is between the products with its ends. -/
theorem le_mul_of_ends {a b p x y : ℚ} (hlow : a ≤ x) (hhigh : x ≤ b) (ha : p ≤ a * y)
    (hb : p ≤ b * y) : p ≤ x * y := by
  rcases le_total 0 y with hy | hy
  · exact ha.trans (mul_le_mul_of_nonneg_right hlow hy)
  · exact hb.trans (mul_le_mul_of_nonpos_right hhigh hy)

theorem mul_le_of_ends {a b p x y : ℚ} (hlow : a ≤ x) (hhigh : x ≤ b) (ha : a * y ≤ p)
    (hb : b * y ≤ p) : x * y ≤ p := by
  rcases le_total 0 y with hy | hy
  · exact (mul_le_mul_of_nonneg_right hhigh hy).trans hb
  · exact (mul_le_mul_of_nonpos_right hlow hy).trans ha

namespace Enclosed

variable {a b c d l u : ℚ} {x y : Float}

theorem mono (h : Enclosed a b x) (hlo : l ≤ a) (hhi : b ≤ u) : Enclosed l u x :=
  ⟨h.finite, hlo.trans h.low, h.high.trans hhi⟩

theorem of_value {q : ℚ} (hx : x.isFinite = true) (h : value x = q) : Enclosed q q x :=
  ⟨hx, h.ge, h.le⟩

theorem bounded (h : Enclosed a b x) (hlo : -d ≤ a) (hhi : b ≤ d) : Bounded d x :=
  .of_le h.finite (hlo.trans h.low) (h.high.trans hhi)

theorem of_approximates {q : ℚ} (h : Approximates x q) (hlo : l + 1 / 2 ^ 20 ≤ q)
    (hhi : q + 1 / 2 ^ 20 ≤ u) (hlow : -2 ^ 30 ≤ l) (hhigh : u ≤ 2 ^ 30) :
    Enclosed l u x := by
  have htiny : (0 : ℚ) < 1 / 2 ^ 20 := by positivity
  obtain ⟨hfinite, hclose⟩ := h.close_of_le (by linarith) (by linarith)
  exact ⟨hfinite, by linarith, by linarith⟩

theorem add (hx : Enclosed a b x) (hy : Enclosed c d y) (hlo : l + 1 / 2 ^ 20 ≤ a + c)
    (hhi : b + d + 1 / 2 ^ 20 ≤ u) (hlow : -2 ^ 30 ≤ l) (hhigh : u ≤ 2 ^ 30) :
    Enclosed l u (x + y) :=
  of_approximates (approximates_add hx.finite hy.finite)
    (hlo.trans (add_le_add hx.low hy.low))
    (by linarith [hx.high, hy.high]) hlow hhigh

theorem sub (hx : Enclosed a b x) (hy : Enclosed c d y) (hlo : l + 1 / 2 ^ 20 ≤ a - d)
    (hhi : b - c + 1 / 2 ^ 20 ≤ u) (hlow : -2 ^ 30 ≤ l) (hhigh : u ≤ 2 ^ 30) :
    Enclosed l u (x - y) :=
  of_approximates (approximates_sub hx.finite hy.finite)
    (hlo.trans (sub_le_sub hx.low hy.high))
    (by linarith [hx.high, hy.low]) hlow hhigh

theorem mul (hx : Enclosed a b x) (hy : Enclosed c d y)
    (hends : ∀ p ∈ [a * c, a * d, b * c, b * d], l + 1 / 2 ^ 20 ≤ p ∧ p + 1 / 2 ^ 20 ≤ u)
    (hlow : -2 ^ 30 ≤ l) (hhigh : u ≤ 2 ^ 30) : Enclosed l u (x * y) := by
  simp only [List.forall_mem_cons] at hends
  obtain ⟨hac, had, hbc, hbd, -⟩ := hends
  refine of_approximates (approximates_mul hx.finite hy.finite) ?_ ?_ hlow hhigh
  · refine le_mul_of_ends hx.low hx.high ?_ ?_
    · rw [mul_comm a] at hac had ⊢
      exact le_mul_of_ends hy.low hy.high (by linarith) (by linarith)
    · rw [mul_comm b] at hbc hbd ⊢
      exact le_mul_of_ends hy.low hy.high (by linarith) (by linarith)
  · rw [← le_sub_iff_add_le]
    refine mul_le_of_ends hx.low hx.high ?_ ?_
    · rw [mul_comm a] at hac had ⊢
      exact mul_le_of_ends hy.low hy.high (by linarith) (by linarith)
    · rw [mul_comm b] at hbc hbd ⊢
      exact mul_le_of_ends hy.low hy.high (by linarith) (by linarith)

/-- The bounds of a quotient by a positive number, with the division done away with. -/
theorem div (hx : Enclosed a b x) (hy : Enclosed c d y) (hc : 0 < c)
    (hlo : ∀ e ∈ [c, d], (l + 1 / 2 ^ 20) * e ≤ a) (hhi : ∀ e ∈ [c, d], b ≤ (u - 1 / 2 ^ 20) * e)
    (hlow : -2 ^ 30 ≤ l) (hhigh : u ≤ 2 ^ 30) : Enclosed l u (x / y) := by
  simp only [List.forall_mem_cons] at hlo hhi
  have hpos : 0 < value y := hc.trans_le hy.low
  refine of_approximates (approximates_div hx.finite hy.finite hpos.ne') ?_ ?_ hlow hhigh
  · rw [le_div_iff₀ hpos, mul_comm]
    refine (mul_le_of_ends hy.low hy.high ?_ ?_).trans hx.low
    · linarith
    · linarith
  · rw [← le_sub_iff_add_le, div_le_iff₀ hpos, mul_comm]
    refine hx.high.trans (le_mul_of_ends hy.low hy.high ?_ ?_)
    · linarith
    · linarith

end Enclosed

/-- How far off the result of an operation is, from the bounds of the result. -/
theorem Enclosed.close {x : Float} {lo hi q : ℚ} (h : Enclosed lo hi x) (happrox : Approximates x q)
    (hlo : -2 ^ 29 ≤ lo) (hhi : hi ≤ 2 ^ 29) :
    q - 1 / 2 ^ 20 ≤ value x ∧ value x ≤ q + 1 / 2 ^ 20 := by
  have hclose := close_of_isFinite happrox h.finite
  have htiny : (1 : ℚ) / 2 ^ 1074 ≤ 1 / 2 ^ 30 :=
    one_div_le_one_div_of_le (by positivity) (pow_le_pow_right₀ one_le_two (by norm_num))
  have hvalue : |value x| ≤ 2 ^ 29 := abs_le.mpr ⟨hlo.trans h.low, h.high.trans hhi⟩
  have htriangle := abs_sub_abs_le_abs_sub q (value x)
  rw [abs_sub_comm] at htriangle
  generalize (1 : ℚ) / 2 ^ 1074 = tiny at *
  have hwithin : |value x - q| ≤ 1 / 2 ^ 20 := by
    norm_num at hvalue htiny hclose ⊢
    linarith
  obtain ⟨hbelow, habove⟩ := abs_le.mp hwithin
  exact ⟨by linarith, by linarith⟩

/-! ### Power series -/

/-- One step of a power series. -/
theorem Bounded.horner {c z acc : Float} {a b d t : ℚ} (hc : Bounded a c) (hz : Bounded t z)
    (hacc : Bounded b acc) (ha : a ≤ 1) (hb : b ≤ 1) (ht : t ≤ 1)
    (hd : a + t * b + 1 / 2 ^ 20 ≤ d) : Bounded d (c + z * acc) := by
  have hnonneg : 0 ≤ a := (abs_nonneg _).trans hc.2
  have hnonneg' : 0 ≤ b := (abs_nonneg _).trans hacc.2
  have hle : t * b ≤ 1 := mul_le_one₀ ht hnonneg' hb
  have hproduct : Bounded (t * b + 1 / 2 ^ 22) (z * acc) := by
    refine hz.mul hacc (by linarith) ?_
    norm_num
    linarith
  have hnonneg'' : 0 ≤ t * b := mul_nonneg ((abs_nonneg _).trans hz.2) hnonneg'
  refine hc.add hproduct (by norm_num; linarith) ?_
  norm_num at hd ⊢
  linarith

/-- A power series whose later coefficients are small. -/
theorem Bounded.series {cs : List Float} {last z : Float} {a d t : ℚ} (hcs : ∀ c ∈ cs, Bounded a c)
    (hlast : Bounded d last) (hz : Bounded t z) (ha : a ≤ 1) (hd : d ≤ 1) (ht : t ≤ 1)
    (hstep : a + t * d + 1 / 2 ^ 20 ≤ d) :
    Bounded d (cs.foldr (fun c acc => c + z * acc) last) := by
  induction cs with
  | nil => exact hlast
  | cons c cs ih =>
    obtain ⟨hc, hcs⟩ := List.forall_mem_cons.mp hcs
    exact hc.horner hz (ih hcs) ha hd ht hstep

/-! ### Whole numbers -/

theorem value_one : value (1.0 : Float) = 1 := by decide +kernel

theorem value_two : value (2.0 : Float) = 2 := by decide +kernel

theorem value_half : value (0.5 : Float) = 1 / 2 := by decide +kernel

theorem bounded_half : Bounded (1 / 2) (0.5 : Float) :=
  (Enclosed.of_value rfl value_half).bounded (by norm_num) (le_refl _)

/-- The sign of a finite double shows in its value. -/
theorem lt_zero_iff_value {x : Float} (hx : x.isFinite = true) : x < 0.0 ↔ value x < 0 := by
  have hzero : (0.0 : Float).isFinite = true := rfl
  have hvalue : value (0.0 : Float) = 0 := rfl
  rw [lt_iff_value hx hzero, hvalue]

/-- A whole number that a double is cut off to. -/
theorem toNat_toUInt64_bounds {x : Float} (hx : x.isFinite = true) (hnonneg : 0 ≤ value x)
    (htop : value x < 2 ^ 64) :
    (x.toUInt64.toNat : ℚ) ≤ value x ∧ value x < x.toUInt64.toNat + 1 := by
  rw [toNat_toUInt64 hx hnonneg htop]
  exact ⟨Nat.floor_le hnonneg, Nat.lt_floor_add_one _⟩

/-- The nearest whole number to a double of moderate size is at most a half away, but for
    rounding. -/
theorem nearestInt_bounds {x : Float} (hx : Bounded (2 ^ 20) x) :
    value x - 1 / 2 - 1 / 2 ^ 20 ≤ nearestInt x ∧ nearestInt x ≤ value x + 1 / 2 + 1 / 2 ^ 20 := by
  have hhalf : (0.5 : Float).isFinite = true := rfl
  have habs := abs_le.mp hx.2
  rw [nearestInt]
  split
  · next hneg =>
    rw [lt_zero_iff_value hx.1] at hneg
    obtain ⟨hfinite, hclose⟩ := close_sub hhalf hx.1 (by linarith [value_half])
      (by linarith [value_half])
    rw [value_half] at hclose
    have hnat := toNat_toUInt64_bounds hfinite (by linarith) (by linarith)
    push_cast
    constructor <;> linarith
  · next hnonneg =>
    rw [lt_zero_iff_value hx.1, not_lt] at hnonneg
    obtain ⟨hfinite, hclose⟩ := close_add hx.1 hhalf (by linarith [value_half])
      (by linarith [value_half])
    rw [value_half] at hclose
    have hnat := toNat_toUInt64_bounds hfinite (by linarith) (by linarith)
    push_cast
    constructor <;> linarith

/-- Whole numbers of moderate size as doubles. -/
theorem close_ofInt {n : ℤ} (hlow : -2 ^ 21 ≤ (n : ℚ)) (hhigh : (n : ℚ) ≤ 2 ^ 21) :
    (ofInt n).isFinite = true ∧ n - 1 / 2 ^ 20 ≤ value (ofInt n) ∧
      value (ofInt n) ≤ n + 1 / 2 ^ 20 := by
  have hnat : ∀ k : ℕ, (k : ℚ) ≤ 2 ^ 21 → k.toUInt64.toFloat.isFinite = true ∧
      k - 1 / 2 ^ 20 ≤ value k.toUInt64.toFloat ∧ value k.toUInt64.toFloat ≤ k + 1 / 2 ^ 20 := by
    intro k hk
    have hlt : k < 2 ^ 64 := by
      have hk' : k ≤ 2 ^ 21 := by exact_mod_cast hk
      exact hk'.trans_lt (by norm_num)
    have hround : k.toUInt64.toNat = k := Nat.mod_eq_of_lt hlt
    have happrox := approximates_toFloat k.toUInt64
    rw [hround] at happrox
    have hnonneg : (0 : ℚ) ≤ k := Nat.cast_nonneg k
    exact happrox.close_of_le (by linarith) (by linarith)
  cases n with
  | ofNat k => exact hnat k hhigh
  | negSucc k =>
    rw [Int.cast_negSucc] at hlow ⊢
    obtain ⟨hfinite, hclose⟩ := hnat (k + 1) (by linarith)
    change (-(k + 1).toUInt64.toFloat).isFinite = true ∧
      _ ≤ value (-(k + 1).toUInt64.toFloat) ∧ value (-(k + 1).toUInt64.toFloat) ≤ _
    rw [isFinite_neg, value_neg]
    exact ⟨hfinite, by linarith, by linarith⟩

/-- The nearest multiple of a unit, with `c` for the inverse of the unit. -/
theorem close_multiple {x c : Float} (hx : x.isFinite = true) (hc : c.isFinite = true)
    (hlow : -10 ^ 6 ≤ value x * value c) (hhigh : value x * value c ≤ 10 ^ 6) :
    let n := nearestInt (x * c)
    (ofInt n).isFinite = true ∧
      (n - 1 / 2 ^ 20 ≤ value (ofInt n) ∧ value (ofInt n) ≤ n + 1 / 2 ^ 20) ∧
      value x * value c - 1 / 2 - 1 / 2 ^ 19 ≤ n ∧
      n ≤ value x * value c + 1 / 2 + 1 / 2 ^ 19 := by
  intro n
  obtain ⟨hfinite, hclose⟩ := close_mul hx hc (by linarith) (by linarith)
  have hn : _ ≤ (n : ℚ) ∧ (n : ℚ) ≤ _ :=
    nearestInt_bounds (.of_le hfinite (by linarith) (by linarith))
  obtain ⟨hkfinite, hkclose⟩ := close_ofInt (n := n) (by linarith) (by linarith)
  exact ⟨hkfinite, hkclose, by linarith, by linarith⟩

/-! ### Sums and products with their rounding errors -/

/-- What rounding takes from a difference is small, also when it is computed. -/
theorem bounded_lost {x y : Float} (hx : Bounded (2 ^ 22) x) (hy : Bounded (2 ^ 22) y) :
    Bounded (1 / 2 ^ 18) ((x - (x - y)) - y) := by
  have hxabs := abs_le.mp hx.2
  have hyabs := abs_le.mp hy.2
  obtain ⟨hfinite, hclose⟩ := close_sub hx.1 hy.1 (by linarith) (by linarith)
  obtain ⟨hfinite', hclose'⟩ := close_sub hx.1 hfinite (by linarith) (by linarith)
  obtain ⟨hfinite'', hclose''⟩ := close_sub hfinite' hy.1 (by linarith) (by linarith)
  exact .of_le hfinite'' (by linarith) (by linarith)

theorem Pair.bounds_sum {a b : Float} (ha : Bounded (2 ^ 12) a) (hb : Bounded (2 ^ 12) b) :
    Enclosed (value a + value b - 1 / 2 ^ 20) (value a + value b + 1 / 2 ^ 20) (Pair.sum a b).high ∧
      Bounded (1 / 2 ^ 16) (Pair.sum a b).low := by
  obtain ⟨s, hs⟩ : ∃ s, s = a + b := ⟨_, rfl⟩
  obtain ⟨back, hback⟩ : ∃ back, back = s - a := ⟨_, rfl⟩
  have haabs := abs_le.mp ha.2
  have hbabs := abs_le.mp hb.2
  obtain ⟨hsfinite, hsclose⟩ := close_add ha.1 hb.1 (by linarith) (by linarith)
  rw [← hs] at hsfinite hsclose
  obtain ⟨hbackfinite, hbackclose⟩ := close_sub hsfinite ha.1 (by linarith) (by linarith)
  rw [← hback] at hbackfinite hbackclose
  obtain ⟨hfinite₁, hclose₁⟩ := close_sub hsfinite hbackfinite (by linarith) (by linarith)
  obtain ⟨hfinite₂, hclose₂⟩ := close_sub ha.1 hfinite₁ (by linarith) (by linarith)
  obtain ⟨hfinite₃, hclose₃⟩ := close_sub hb.1 hbackfinite (by linarith) (by linarith)
  obtain ⟨hfinite₄, hclose₄⟩ := close_add hfinite₂ hfinite₃ (by linarith) (by linarith)
  have hsum : Pair.sum a b = ⟨s, (a - (s - back)) + (b - back)⟩ := by
    rw [hback, hs]
    rfl
  rw [hsum]
  exact ⟨⟨hsfinite, hsclose.1, hsclose.2⟩, .of_le hfinite₄ (by linarith) (by linarith)⟩

/-- The upper digits are close to the number. -/
theorem close_upperDigits {x : Float} {b : ℚ} (hx : Bounded b x) (hb : 1 ≤ b) (htop : b ≤ 2 ^ 10) :
    (upperDigits x).isFinite = true ∧ |value (upperDigits x) - value x| ≤ b / 2 ^ 23 := by
  have hxabs := abs_le.mp hx.2
  have hc : value (134217729.0 : Float) = 134217729 := by decide +kernel
  have hcfinite : (134217729.0 : Float).isFinite = true := rfl
  obtain ⟨product, hproduct⟩ : ∃ product, product = 134217729.0 * x := ⟨_, rfl⟩
  have hwithin : ∀ {y : Float} {q : ℚ}, Approximates y q → -(134217732 * b) ≤ q →
      q ≤ 134217732 * b → y.isFinite = true ∧ q - b * (1 / 2 ^ 25 + 1 / 2 ^ 45) ≤ value y ∧
        value y ≤ q + b * (1 / 2 ^ 25 + 1 / 2 ^ 45) := by
    intro y q h hlow hhigh
    have hq : |q| ≤ 134217732 * b := abs_le.mpr ⟨hlow, hhigh⟩
    obtain ⟨hfinite, hclose⟩ := h.of_small (hq.trans (by norm_num; linarith))
    obtain ⟨hbelow, habove⟩ := abs_le.mp hclose
    norm_num at hbelow habove ⊢
    exact ⟨hfinite, by linarith, by linarith⟩
  obtain ⟨hpfinite, hp⟩ := hwithin (approximates_mul hcfinite hx.1) (by rw [hc]; linarith)
    (by rw [hc]; linarith)
  rw [← hproduct] at hpfinite hp
  rw [hc] at hp
  obtain ⟨hrfinite, hr⟩ := hwithin (approximates_sub hpfinite hx.1) (by linarith) (by linarith)
  obtain ⟨hfinite, hclose⟩ := hwithin (approximates_sub hpfinite hrfinite) (by linarith)
    (by linarith)
  have hupper : upperDigits x = product - (product - x) := by rw [hproduct]; rfl
  rw [hupper]
  exact ⟨hfinite, abs_le.mpr ⟨by linarith, by linarith⟩⟩

theorem bounded_upperDigits {x : Float} {b : ℚ} (hx : Bounded b x) (hb : 1 ≤ b)
    (htop : b ≤ 2 ^ 10) : Bounded (2 * b) (upperDigits x) := by
  obtain ⟨hfinite, hclose⟩ := close_upperDigits hx hb htop
  have hxabs := abs_le.mp hx.2
  rw [abs_le] at hclose
  exact .of_le hfinite (by linarith) (by linarith)

/-- The lower digits are a small part of the number. -/
theorem bounded_lowerDigits {x : Float} {b : ℚ} (hx : Bounded b x) (hb : 1 ≤ b)
    (htop : b ≤ 2 ^ 10) : Bounded (b / 2 ^ 22) (x - upperDigits x) := by
  obtain ⟨hfinite, hclose⟩ := close_upperDigits hx hb htop
  refine (approximates_sub hx.1 hfinite).bounded (b := b / 2 ^ 23) ?_ ?_ ?_
  · rwa [abs_sub_comm]
  · norm_num
    linarith
  · norm_num
    linarith

/-- The error of a product, next to a bound of the factors. -/
theorem Approximates.close_of_product {x : Float} {q c : ℚ} (h : Approximates x q)
    (hq : |q| ≤ 2 * c) (hc : 1 ≤ c) (htop : c ≤ 2 ^ 20) :
    x.isFinite = true ∧ |value x - q| ≤ c / 2 ^ 40 := by
  obtain ⟨hfinite, hclose⟩ := h.of_small (hq.trans (by norm_num at htop ⊢; linarith))
  refine ⟨hfinite, hclose.trans ?_⟩
  norm_num
  linarith

section

variable {x y : Float} {a b : ℚ} (hx : Bounded a x) (hy : Bounded b y) (ha : 1 ≤ a) (hb : 1 ≤ b)
  (htopa : a ≤ 2 ^ 10) (htopb : b ≤ 2 ^ 10)

include hx hy ha hb htopa htopb

theorem product_le : 1 ≤ a * b ∧ a * b ≤ 2 ^ 20 ∧ |value x * value y| ≤ a * b := by
  refine ⟨one_le_mul_of_one_le_of_one_le ha hb, ?_, ?_⟩
  · exact (mul_le_mul htopa htopb (by linarith) (by norm_num)).trans (by norm_num)
  · rw [abs_mul]
    exact mul_le_mul hx.2 hy.2 (abs_nonneg _) (by linarith)

/-- The upper digits have nearly the same product. -/
theorem close_product_upperDigits :
    |value (upperDigits x) * value (upperDigits y) - value x * value y| ≤ 3 * (a * b) / 2 ^ 23 := by
  obtain ⟨-, hclose⟩ := close_upperDigits hx ha htopa
  obtain ⟨-, hclose'⟩ := close_upperDigits hy hb htopb
  have hbound := (bounded_upperDigits hx ha htopa).2
  generalize value (upperDigits x) = v at *
  generalize value (upperDigits y) = v' at *
  have hsplit : v * v' - value x * value y =
      (v - value x) * value y + v * (v' - value y) := by ring
  calc |v * v' - value x * value y|
      ≤ |v - value x| * |value y| + |v| * |v' - value y| := by
        rw [hsplit, ← abs_mul, ← abs_mul]
        exact abs_add_le _ _
    _ ≤ a / 2 ^ 23 * b + 2 * a * (b / 2 ^ 23) :=
        add_le_add (mul_le_mul hclose hy.2 (abs_nonneg _) (by positivity))
          (mul_le_mul hbound hclose' (abs_nonneg _) (by linarith))
    _ = 3 * (a * b) / 2 ^ 23 := by ring

/-- The product of the upper digits, less the product. -/
theorem bounded_product_sub :
    Bounded (a * b / 2 ^ 20) (upperDigits x * upperDigits y - x * y) := by
  obtain ⟨hone, htop, hproduct⟩ := product_le hx hy ha hb htopa htopb
  have hclose := close_product_upperDigits hx hy ha hb htopa htopb
  have hupper : |value (upperDigits x) * value (upperDigits y)| ≤ 2 * (a * b) := by
    rw [abs_le] at hclose hproduct ⊢
    constructor <;> linarith
  obtain ⟨hfinite, hrounded⟩ := (approximates_mul (bounded_upperDigits hx ha htopa).1
    (bounded_upperDigits hy hb htopb).1).close_of_product hupper hone htop
  obtain ⟨hfinite', hrounded'⟩ :=
    (approximates_mul hx.1 hy.1).close_of_product (by linarith) hone htop
  refine (approximates_sub hfinite hfinite').bounded (b := 4 * (a * b) / 2 ^ 23) ?_ ?_ ?_
  · rw [abs_le] at hrounded hrounded' hclose ⊢
    constructor <;> linarith
  · norm_num at htop ⊢
    linarith
  · norm_num
    linarith

/-- A product of doubles is close to the exact one, and what rounding took from it is small. -/
theorem Pair.bounds_product :
    Enclosed (value x * value y - 1 / 2 ^ 20) (value x * value y + 1 / 2 ^ 20)
        (Pair.product x y).high ∧
      Bounded (a * b / 2 ^ 18) (Pair.product x y).low := by
  obtain ⟨hone, htop, hproduct⟩ := product_le hx hy ha hb htopa htopb
  obtain ⟨hproductlow, hproducthigh⟩ := abs_le.mp hproduct
  obtain ⟨hfinite, hclose⟩ := close_mul hx.1 hy.1 (by linarith) (by linarith)
  have hdifference := bounded_product_sub hx hy ha hb htopa htopb
  have hupper := bounded_upperDigits hx ha htopa
  have hupper' := bounded_upperDigits hy hb htopb
  have hlower := bounded_lowerDigits hx ha htopa
  have hlower' := bounded_lowerDigits hy hb htopb
  -- the other three products of digits, the last of which is tiny
  have h₁ := hupper.mul hlower' (c := a * b / 2 ^ 20) (by norm_num at htop ⊢; linarith)
    (by norm_num; linarith)
  have h₂ := hlower.mul hupper' (c := a * b / 2 ^ 20) (by norm_num at htop ⊢; linarith)
    (by norm_num; linarith)
  have h₃ := hlower.mul hlower' (c := a * b / 2 ^ 40) (by norm_num at htop ⊢; linarith)
    (by norm_num; linarith)
  have hsum := (hdifference.add h₁ (c := 5 * (a * b) / 2 ^ 21) (by norm_num at htop ⊢; linarith)
    (by norm_num; linarith)).add h₂ (c := 15 * (a * b) / 2 ^ 22) (by norm_num at htop ⊢; linarith)
    (by norm_num; linarith)
  exact ⟨⟨hfinite, hclose.1, hclose.2⟩,
    hsum.add h₃ (by norm_num at htop ⊢; linarith) (by norm_num; linarith)⟩

end

/-! ### Mantissas and exponents -/

theorem isInf_of_isFinite {x : Float} (hx : x.isFinite = true) : x.isInf = false := by
  change x.toModel.unpack.isInf = false
  change x.toModel.unpack.isFinite = true at hx
  generalize x.toModel.unpack = u at hx ⊢
  rcases u with _ | _ | _ | _
  · cases hx
  · rfl
  · rfl
  · rfl

theorem beq_zero_of_ne {x : Float} (hx : x.isFinite = true) (hne : value x ≠ 0) :
    (x == 0.0) = false := by
  refine Bool.eq_false_iff.mpr fun hzero => ?_
  obtain ⟨hexponent, hfraction⟩ := (beq_zero_iff x).mp hzero
  have hmagnitude := magnitude_parts hx
  rw [Parts.magnitude, parts_eq, if_pos hexponent, hfraction, Nat.cast_zero, zero_mul] at hmagnitude
  exact hne (abs_eq_zero.mp hmagnitude.symm)

theorem value_of_beq_zero {x : Float} (h : (x == 0.0) = true) :
    x.isFinite = true ∧ value x = 0 := by
  obtain ⟨s, hs⟩ := (beq_zero_unpacked x.toModel.unpack).mp h
  change x.toModel.unpack.isFinite = true ∧ unpackedValue x.toModel.unpack = 0
  rw [hs]
  exact ⟨rfl, rfl⟩

theorem isFinite_of_not {x : Float} (hnan : x.isNaN = false) (hinf : x.isInf = false) :
    x.isFinite = true := by
  change x.toModel.unpack.isNaN = false at hnan
  change x.toModel.unpack.isInf = false at hinf
  change x.toModel.unpack.isFinite = true
  generalize x.toModel.unpack = u at hnan hinf ⊢
  rcases u with _ | _ | _ | _
  · cases hinf
  · cases hnan
  · rfl
  · rfl

/-- A mantissa brought between one and two. -/
theorem enclosed_normalMantissa {p : Parts} (h : p.Canonical) :
    Enclosed (1 - 1 / 2 ^ 18) (2 + 1 / 2 ^ 18) (normalMantissa p) := by
  have hpos := h.mantissa_pos
  have hlt := h.mantissa_lt
  rw [normalMantissa]
  generalize p.mantissa = n at hpos hlt
  obtain ⟨hlow, hhigh⟩ := (Nat.log2_eq_iff hpos.ne').mp rfl
  have hlog : n.log2 < 53 := (Nat.log2_lt hpos.ne').mpr hlt
  have hround : n.toUInt64.toNat = n := Nat.mod_eq_of_lt (hlt.trans (by norm_num))
  have happrox := approximates_toFloat n.toUInt64
  rw [hround] at happrox
  have hn : (n : ℚ) ≤ 2 ^ 53 := by exact_mod_cast hlt.le
  obtain ⟨hfinite, hclose⟩ := happrox.of_small (by
    rw [abs_of_nonneg (Nat.cast_nonneg n)]
    exact hn.trans (by norm_num))
  rw [abs_of_nonneg (a := (n : ℚ)) (Nat.cast_nonneg n), abs_le] at hclose
  obtain ⟨hpow, hvalue⟩ := value_twoPow (e := -(n.log2 : ℤ)) (by omega) (by omega)
  have hone : (1 : ℚ) ≤ n := by exact_mod_cast hpos
  have hscaled : (1 : ℚ) ≤ n * 2 ^ (-(n.log2 : ℤ)) ∧ (n : ℚ) * 2 ^ (-(n.log2 : ℤ)) ≤ 2 := by
    have hlow' : ((2 : ℚ) ^ n.log2) ≤ n := by exact_mod_cast hlow
    have hhigh' : (n : ℚ) ≤ 2 * 2 ^ n.log2 := by
      rw [mul_comm, ← pow_succ]
      exact_mod_cast hhigh.le
    have hpos : (0 : ℚ) < 2 ^ n.log2 := by positivity
    rw [zpow_neg, zpow_natCast, ← div_eq_mul_inv, le_div_iff₀ hpos, div_le_iff₀ hpos, one_mul]
    exact ⟨hlow', hhigh'⟩
  have hunit : (2 : ℚ) ^ (-(n.log2 : ℤ)) ≤ 1 := by
    rw [zpow_neg, zpow_natCast]
    exact inv_le_one_of_one_le₀ (one_le_pow₀ one_le_two)
  have hpos' := two_zpow_pos (-(n.log2 : ℤ))
  refine Enclosed.of_approximates (approximates_mul hfinite hpow) ?_ ?_ (by norm_num) (by norm_num)
  · rw [hvalue]
    generalize (2 : ℚ) ^ (-(n.log2 : ℤ)) = p at *
    nlinarith [hscaled.1, hclose.1]
  · rw [hvalue]
    generalize (2 : ℚ) ^ (-(n.log2 : ℤ)) = p at *
    nlinarith [hscaled.2, hclose.2]

theorem parts_canonical_of_ne {x : Float} (hx : x.isFinite = true) (hne : value x ≠ 0) :
    (parts x).Canonical :=
  parts_canonical (isNaN_of_isFinite hx) (isInf_of_isFinite hx) (beq_zero_of_ne hx hne)

/-- The exponent of the leading digit. -/
def leading (x : Float) : ℤ := (parts x).exponent + (parts x).mantissa.log2

theorem leading_bounds {x : Float} (hx : x.isFinite = true) (hne : value x ≠ 0) :
    -1074 ≤ leading x ∧ leading x ≤ 1023 ∧
      2 ^ leading x ≤ |value x| ∧ |value x| < 2 ^ (leading x + 1) := by
  obtain ⟨hpos, hlt, hge, hle, -⟩ := parts_canonical_of_ne hx hne
  obtain ⟨hlow, hhigh⟩ := (Nat.log2_eq_iff hpos.ne').mp rfl
  have hlog : (parts x).mantissa.log2 < 53 := (Nat.log2_lt hpos.ne').mpr hlt
  have hexponent := two_zpow_pos (parts x).exponent
  rw [← magnitude_parts hx, Parts.magnitude, leading]
  refine ⟨by omega, by omega, ?_, ?_⟩
  · rw [zpow_add₀ (by norm_num), zpow_natCast, mul_comm]
    refine mul_le_mul_of_nonneg_right ?_ hexponent.le
    exact_mod_cast hlow
  · rw [add_assoc, zpow_add₀ (by norm_num), mul_comm]
    refine mul_lt_mul_of_pos_left ?_ hexponent
    exact_mod_cast hhigh

end EvenChroma.Double
