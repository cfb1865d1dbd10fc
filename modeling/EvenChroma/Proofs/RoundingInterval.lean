/-
  EvenChroma/Proofs/RoundingInterval.lean
  =======================================
  **The shortest decimal names one double only.**  The rounding intervals of two doubles
  never meet: where two of them touch, one of the mantissas is odd and leaves its end out
  (`Parts.unique_of_holds`).  The search for the shortest decimal always ends inside the
  interval, since a grid of eighteen digits is finer than a quarter of the spacing of
  the doubles (`holds_shortest`).
-/
import EvenChroma.Double.Shortest
import EvenChroma.Proofs.DoubleFields

namespace EvenChroma.Double

/-! ### Exact values -/

/-- The number that a decimal stands for. -/
def Decimal.value (d : Decimal) : ℚ := d.digits * 10 ^ d.exponent

/-- The number that mantissa and exponent stand for, without the sign. -/
def Parts.magnitude (p : Parts) : ℚ := p.mantissa * 2 ^ p.exponent

/-- Mantissa and exponent as a positive finite double has them. -/
structure Parts.Canonical (p : Parts) : Prop where
  mantissa_pos : 0 < p.mantissa
  mantissa_lt : p.mantissa < 2 ^ 53
  exponent_ge : -1074 ≤ p.exponent
  exponent_le : p.exponent ≤ 971
  /-- Only the smallest exponent goes without the hidden bit. -/
  hidden : -1074 < p.exponent → 2 ^ 52 ≤ p.mantissa

theorem parts_eq (x : Float) :
    parts x = if exponentField x = 0 then ⟨isNegative x, fractionField x, -1074⟩
      else ⟨isNegative x, fractionField x + 2 ^ 52, (exponentField x : ℤ) - 1075⟩ := rfl

theorem parts_canonical {x : Float} (hnan : x.isNaN = false) (hinf : x.isInf = false)
    (hzero : (x == 0.0) = false) : (parts x).Canonical := by
  have hexponent := exponentField_lt x
  have hfraction := fractionField_lt x
  have hfinite : exponentField x ≠ 2047 := by
    intro h
    by_cases hf : fractionField x = 0
    · rw [(isInf_iff x).mpr ⟨h, hf⟩] at hinf
      cases hinf
    · rw [(isNaN_iff x).mpr ⟨h, hf⟩] at hnan
      cases hnan
  have hnonzero : ¬ (exponentField x = 0 ∧ fractionField x = 0) := by
    rw [← beq_zero_iff, hzero]
    decide
  rw [parts_eq]
  split_ifs with h <;> constructor <;> intros <;> dsimp only at * <;> omega

/-- Sign, mantissa and exponent give the double back. -/
theorem eq_of_parts {x y : Float} (hsign : isNegative x = isNegative y)
    (hmantissa : (parts x).mantissa = (parts y).mantissa)
    (hexponent : (parts x).exponent = (parts y).exponent) : x = y := by
  have := fractionField_lt x
  have := fractionField_lt y
  rw [parts_eq, parts_eq] at hmantissa hexponent
  apply eq_of_fields hsign <;> split_ifs at hmantissa hexponent <;> dsimp only at * <;> omega

theorem ten_zpow_mul_pow (k : ℤ) : (10 : ℚ) ^ k * 10 ^ (-k).toNat = 10 ^ k.toNat := by
  rw [← zpow_natCast, ← zpow_natCast, ← zpow_add₀ (by norm_num)]
  congr 1
  omega

theorem two_zpow_mul_pow (e : ℤ) : (2 : ℚ) ^ e * 2 ^ (-e).toNat = 2 ^ e.toNat := by
  rw [← zpow_natCast, ← zpow_natCast, ← zpow_add₀ (by norm_num)]
  congr 1
  omega

/-! ### What an interval holds -/

namespace RoundingInterval

/-- Whether a number lies in the interval. -/
def Holds (i : RoundingInterval) (q : ℚ) : Prop :=
  if i.closed then i.low ≤ q * i.denominator ∧ q * i.denominator ≤ i.high
  else i.low < q * i.denominator ∧ q * i.denominator < i.high

theorem holds_iff (i : RoundingInterval) (n : ℕ) :
    i.holds n = true ↔
      if i.closed then i.low ≤ n * i.denominator ∧ n * i.denominator ≤ i.high
      else i.low < n * i.denominator ∧ n * i.denominator < i.high := by
  unfold holds
  split <;> simp

/-- Both sides of a comparison on the grid, brought back to units of one. -/
theorem cast_scaled (i : RoundingInterval) (k : ℤ) (n : ℕ) :
    ((n * (i.scaled k).denominator : ℕ) : ℚ) =
      n * 10 ^ k * i.denominator * 10 ^ (-k).toNat := by
  change ((n * (i.denominator * 10 ^ k.toNat) : ℕ) : ℚ) = _
  push_cast
  rw [← ten_zpow_mul_pow k]
  ring

theorem holds_scaled (i : RoundingInterval) (k : ℤ) (n : ℕ) :
    (i.scaled k).holds n = true ↔ i.Holds (n * 10 ^ k) := by
  have hpow : (0 : ℚ) < 10 ^ (-k).toNat := by positivity
  have hlow : ((i.scaled k).low : ℚ) = i.low * 10 ^ (-k).toNat := by
    change ((i.low * 10 ^ (-k).toNat : ℕ) : ℚ) = _
    push_cast
    rfl
  have hhigh : ((i.scaled k).high : ℚ) = i.high * 10 ^ (-k).toNat := by
    change ((i.high * 10 ^ (-k).toNat : ℕ) : ℚ) = _
    push_cast
    rfl
  rw [holds_iff]
  simp only [← Nat.cast_le (α := ℚ), ← Nat.cast_lt (α := ℚ), cast_scaled, hlow, hhigh,
    mul_le_mul_iff_of_pos_right hpow, mul_lt_mul_iff_of_pos_right hpow]
  rfl

theorem scaled_le_iff (i : RoundingInterval) (k : ℤ) (n : ℕ) :
    n * (i.scaled k).denominator ≤ (i.scaled k).value ↔
      n * 10 ^ k * i.denominator ≤ (i.value : ℚ) := by
  have hpow : (0 : ℚ) < 10 ^ (-k).toNat := by positivity
  have hvalue : ((i.scaled k).value : ℚ) = i.value * 10 ^ (-k).toNat := by
    change ((i.value * 10 ^ (-k).toNat : ℕ) : ℚ) = _
    push_cast
    rfl
  rw [← Nat.cast_le (α := ℚ), cast_scaled, hvalue, mul_le_mul_iff_of_pos_right hpow]

end RoundingInterval

namespace Parts

/-- Distance from the value to the lower end, in quarters of the spacing. -/
def gapBelow (p : Parts) : Nat := if p.mantissa = 2 ^ 52 ∧ p.exponent > -1074 then 1 else 2

theorem gapBelow_bounds (p : Parts) : 1 ≤ p.gapBelow ∧ p.gapBelow ≤ 2 := by
  unfold gapBelow
  split_ifs <;> omega

theorem interval_low (p : Parts) :
    p.interval.low = (4 * p.mantissa - p.gapBelow) * 2 ^ p.exponent.toNat := by
  simp only [interval, gapBelow, Nat.shiftLeft_eq, Nat.one_mul]

theorem interval_high (p : Parts) :
    p.interval.high = (4 * p.mantissa + 2) * 2 ^ p.exponent.toNat := by
  simp only [interval, Nat.shiftLeft_eq, Nat.one_mul]

theorem interval_denominator (p : Parts) :
    p.interval.denominator = 2 ^ (2 + (-p.exponent).toNat) := by
  simp only [interval, Nat.shiftLeft_eq, pow_add]
  rfl

theorem interval_denominator_pos (p : Parts) : (0 : ℚ) < p.interval.denominator := by
  rw [interval_denominator]
  positivity

theorem interval_value (p : Parts) :
    (p.interval.value : ℚ) = p.magnitude * p.interval.denominator := by
  rw [interval_denominator]
  simp only [interval, magnitude, Nat.shiftLeft_eq]
  push_cast
  rw [← two_zpow_mul_pow p.exponent]
  ring

/-- The interval in quarters `r` of the spacing of the doubles. -/
theorem holds_interval_iff {p : Parts} (hp : 0 < p.mantissa) (r : ℚ) :
    p.interval.Holds (r / 4 * 2 ^ p.exponent) ↔
      if p.mantissa % 2 = 0 then 4 * p.mantissa - p.gapBelow ≤ r ∧ r ≤ 4 * p.mantissa + 2
      else 4 * p.mantissa - p.gapBelow < r ∧ r < 4 * p.mantissa + 2 := by
  have hpow : (0 : ℚ) < 2 ^ p.exponent.toNat := by positivity
  have hgap := p.gapBelow_bounds
  have hle : p.gapBelow ≤ 4 * p.mantissa := by omega
  have hmiddle : (r / 4 * 2 ^ p.exponent) * p.interval.denominator =
      r * 2 ^ p.exponent.toNat := by
    rw [interval_denominator]
    push_cast
    rw [← two_zpow_mul_pow p.exponent]
    ring
  have hlow : (p.interval.low : ℚ) = (4 * p.mantissa - p.gapBelow) * 2 ^ p.exponent.toNat := by
    rw [interval_low]
    push_cast [Nat.cast_sub hle]
    rfl
  have hhigh : (p.interval.high : ℚ) = (4 * p.mantissa + 2) * 2 ^ p.exponent.toNat := by
    rw [interval_high]
    push_cast
    rfl
  simp only [RoundingInterval.Holds, hmiddle, hlow, hhigh, mul_le_mul_iff_of_pos_right hpow,
    mul_lt_mul_iff_of_pos_right hpow]
  simp [interval]

theorem exists_quarters (p : Parts) (q : ℚ) : ∃ r : ℚ, r / 4 * 2 ^ p.exponent = q :=
  ⟨q / 2 ^ p.exponent * 4, by field_simp⟩

theorem not_holds_zero {p : Parts} (hp : 0 < p.mantissa) : ¬ p.interval.Holds 0 := by
  have h := holds_interval_iff hp 0
  rw [zero_div, zero_mul] at h
  have hm : (1 : ℚ) ≤ p.mantissa := by exact_mod_cast hp
  have hgap : (p.gapBelow : ℚ) ≤ 2 := by exact_mod_cast p.gapBelow_bounds.2
  rw [h]
  split_ifs <;> rintro ⟨hlow, -⟩ <;> linarith

end Parts

/-! ### Intervals do not meet -/

namespace Parts

/-- The interval of the larger of two doubles begins where that of the smaller one ends, or
    later.  Ends are counted in quarters of the smaller spacing; `d` is the distance of
    the exponents. -/
theorem ends_in_order {p p' : Parts} (hp : p.Canonical) (hp' : p'.Canonical) (d : ℕ)
    (hd : p'.exponent = p.exponent + d) (hlt : d = 0 → p.mantissa < p'.mantissa) :
    4 * p.mantissa + 2 < (4 * p'.mantissa - p'.gapBelow) * 2 ^ d ∨
      4 * p.mantissa + 2 = (4 * p'.mantissa - p'.gapBelow) * 2 ^ d ∧
        (p.mantissa % 2 = 1 ∨ p'.mantissa % 2 = 1) := by
  have hmax := hp.mantissa_lt
  cases d with
  | zero =>
    have := hlt rfl
    have := p'.gapBelow_bounds
    omega
  | succ d =>
    have hge := hp.exponent_ge
    have hidden := hp'.hidden (by omega)
    have hlow : 2 ^ 54 - 1 ≤ 4 * p'.mantissa - p'.gapBelow := by
      unfold gapBelow
      split_ifs <;> omega
    have hgrow : 4 * p'.mantissa - p'.gapBelow ≤ (4 * p'.mantissa - p'.gapBelow) * 2 ^ d :=
      Nat.le_mul_of_pos_right _ Nat.one_le_two_pow
    rw [pow_succ, ← mul_assoc]
    omega

theorem not_holds_both {p p' : Parts} (hp : p.Canonical) (hp' : p'.Canonical) {q : ℚ} (d : ℕ)
    (hd : p'.exponent = p.exponent + d) (hlt : d = 0 → p.mantissa < p'.mantissa)
    (h : p.interval.Holds q) : ¬ p'.interval.Holds q := by
  intro h'
  obtain ⟨r, rfl⟩ := p.exists_quarters q
  have hpow : (0 : ℚ) < 2 ^ d := by positivity
  have hr : r / 4 * 2 ^ p.exponent = r / 2 ^ d / 4 * 2 ^ p'.exponent := by
    rw [hd, zpow_add₀ (by norm_num), zpow_natCast]
    field_simp
  rw [holds_interval_iff hp.mantissa_pos] at h
  rw [hr, holds_interval_iff hp'.mantissa_pos] at h'
  have hgap := p'.gapBelow_bounds
  have hpos := hp'.mantissa_pos
  have hle : p'.gapBelow ≤ 4 * p'.mantissa := by omega
  have hcast : (((4 * p'.mantissa - p'.gapBelow) * 2 ^ d : ℕ) : ℚ) =
      (4 * p'.mantissa - p'.gapBelow) * 2 ^ d := by
    push_cast [Nat.cast_sub hle]
    rfl
  have hupper : r ≤ 4 * p.mantissa + 2 := by split_ifs at h <;> linarith
  have hlower : (4 * p'.mantissa - p'.gapBelow) * 2 ^ d ≤ r := by
    rw [← le_div_iff₀ hpow]
    split_ifs at h' <;> linarith
  rcases ends_in_order hp hp' d hd hlt with hapart | ⟨htouch, hodd⟩
  · rw [← Nat.cast_lt (α := ℚ), hcast] at hapart
    push_cast at hapart
    linarith
  · rw [← Nat.cast_inj (R := ℚ), hcast] at htouch
    push_cast at htouch
    -- an odd mantissa leaves its end out, and the end is all that is shared
    rcases hodd with hodd | hodd
    · rw [if_neg (by omega)] at h
      linarith
    · rw [if_neg (by omega), lt_div_iff₀ hpow] at h'
      linarith

/-- A number lies in the interval of one positive double at most. -/
theorem unique_of_holds {p p' : Parts} (hp : p.Canonical) (hp' : p'.Canonical) {q : ℚ}
    (h : p.interval.Holds q) (h' : p'.interval.Holds q) :
    p.mantissa = p'.mantissa ∧ p.exponent = p'.exponent := by
  rcases lt_trichotomy p.exponent p'.exponent with hlt | heq | hgt
  · obtain ⟨d, hd⟩ := Int.le.dest hlt.le
    exact (not_holds_both hp hp' d hd.symm (by omega) h h').elim
  · rcases lt_trichotomy p.mantissa p'.mantissa with hm | hm | hm
    · exact (not_holds_both hp hp' 0 (by simp [heq]) (fun _ => hm) h h').elim
    · exact ⟨hm, heq⟩
    · exact (not_holds_both hp' hp 0 (by simp [heq]) (fun _ => hm) h' h).elim
  · obtain ⟨d, hd⟩ := Int.le.dest hgt.le
    exact (not_holds_both hp' hp d hd.symm (by omega) h' h).elim

end Parts

/-! ### The search ends inside the interval -/

namespace RoundingInterval

/-- The tie rule only chooses between two neighbours that both lie in the interval. -/
theorem nearest?_eq (i : RoundingInterval) (tie : Tie) :
    ∃ upper : Bool, i.nearest? tie =
      if i.holds (i.value / i.denominator) &&
          (!i.holds (i.value / i.denominator + 1) || !upper) then some (i.value / i.denominator)
      else if i.holds (i.value / i.denominator + 1) then some (i.value / i.denominator + 1)
      else none :=
  ⟨_, rfl⟩

theorem holds_of_nearest? {i : RoundingInterval} {tie : Tie} {n : ℕ}
    (h : i.nearest? tie = some n) : i.holds n = true := by
  obtain ⟨upper, heq⟩ := i.nearest?_eq tie
  rw [heq] at h
  split_ifs at h with hbelow habove
  · cases h
    exact ((Bool.and_eq_true _ _).mp hbelow).1
  · cases h
    exact habove

theorem nearest?_ne_none {i : RoundingInterval} (tie : Tie)
    (h : i.holds (i.value / i.denominator) = true) : i.nearest? tie ≠ none := by
  obtain ⟨upper, heq⟩ := i.nearest?_eq tie
  rw [heq]
  cases i.holds (i.value / i.denominator + 1) <;> cases upper <;> simp [h]

theorem shortestFrom_succ (i : RoundingInterval) (tie : Tie) (leading : ℤ) (fuel places : ℕ) :
    i.shortestFrom tie leading (fuel + 1) places =
      match (i.scaled (leading + 1 - places)).nearest? tie with
      | some n => ⟨n, leading + 1 - places⟩
      | none => i.shortestFrom tie leading fuel (places + 1) := rfl

/-- A search that comes to a grid with a hit ends inside the interval. -/
theorem holds_shortestFrom {i : RoundingInterval} {tie : Tie} {leading : ℤ} {last : ℕ}
    (hlast : (i.scaled (leading + 1 - last)).nearest? tie ≠ none) :
    ∀ fuel places : ℕ, places ≤ last → last < places + fuel →
      i.Holds (i.shortestFrom tie leading fuel places).value := by
  intro fuel
  induction fuel with
  | zero => omega
  | succ fuel ih =>
    intro places hle hlt
    rw [shortestFrom_succ]
    cases hnear : (i.scaled (leading + 1 - places)).nearest? tie with
    | some n => exact (i.holds_scaled _ n).mp (holds_of_nearest? hnear)
    | none =>
      have hne : places ≠ last := fun heq => hlast (heq ▸ hnear)
      exact ih (places + 1) (by omega) (by omega)

end RoundingInterval

theorem Decimal.value_trim (fuel : ℕ) (d : Decimal) : (d.trim fuel).value = d.value := by
  induction fuel generalizing d with
  | zero => rfl
  | succ fuel ih =>
    unfold Decimal.trim
    split
    · rename_i h
      obtain ⟨n, hn⟩ := Nat.dvd_of_mod_eq_zero h.2
      rw [ih]
      simp only [Decimal.value]
      rw [zpow_add₀ (by norm_num), hn, Nat.mul_div_cancel_left _ (by norm_num)]
      push_cast
      ring
    · rfl

/-! ### The first digit -/

/-- `30103 / 100000` is a little more than the logarithm of two, for all exponents of doubles. -/
theorem ten_pow_le_two_pow : ∀ n < 1100, 10 ^ (n * 30103 / 100000) ≤ 2 ^ (n + 1) := by
  decide +kernel

theorem two_pow_le_ten_pow : ∀ n < 1100, 2 ^ n ≤ 2 * 10 ^ ((n * 30103 + 99999) / 100000) := by
  decide +kernel

theorem ten_zpow_le_two_zpow {s : ℤ} (hlow : -1100 < s) (hhigh : s < 1100) :
    (10 : ℚ) ^ (s * 30103 / 100000) ≤ 2 ^ (s + 1) := by
  rcases le_or_gt 0 s with hs | hs
  · obtain ⟨n, rfl⟩ := Int.eq_ofNat_of_zero_le hs
    have h := ten_pow_le_two_pow n (by omega)
    exact_mod_cast h
  · obtain ⟨n, rfl⟩ : ∃ n : ℕ, s = -n := ⟨(-s).toNat, by omega⟩
    have h := two_pow_le_ten_pow n (by omega)
    have hfloor : -(n : ℤ) * 30103 / 100000 = -(((n * 30103 + 99999) / 100000 : ℕ) : ℤ) := by
      omega
    rw [hfloor, zpow_neg, zpow_natCast, zpow_add₀ (by norm_num), zpow_neg, zpow_natCast, zpow_one,
      inv_le_comm₀ (by positivity) (by positivity), mul_inv, inv_inv, ← div_eq_mul_inv,
      div_le_iff₀ (by norm_num), mul_comm]
    exact_mod_cast h

namespace Parts

/-- Exponent of the leading binary digit. -/
def size (p : Parts) : ℤ := (p.interval.value.log2 : ℤ) - p.interval.denominator.log2

theorem two_zpow_size {p : Parts} (hp : 0 < p.mantissa) :
    (2 : ℚ) ^ p.size ≤ p.magnitude ∧ p.magnitude < 2 ^ (p.size + 1) := by
  have hden := p.interval_denominator_pos
  have hpow : (2 : ℚ) ^ (p.interval.denominator.log2 : ℤ) = p.interval.denominator := by
    rw [interval_denominator, Nat.log2_two_pow, zpow_natCast]
    push_cast
    rfl
  have hvalue : p.interval.value ≠ 0 := by
    simp only [interval, Nat.shiftLeft_eq]
    positivity
  have hlow : (2 : ℚ) ^ (p.interval.value.log2 : ℤ) ≤ p.interval.value := by
    rw [zpow_natCast]
    exact_mod_cast Nat.log2_self_le hvalue
  have hhigh : (p.interval.value : ℚ) < 2 ^ ((p.interval.value.log2 : ℤ) + 1) := by
    have h := Nat.lt_log2_self (n := p.interval.value)
    exact_mod_cast h
  rw [interval_value] at hlow hhigh
  have hsucc : p.size + 1 = (p.interval.value.log2 : ℤ) + 1 - p.interval.denominator.log2 := by
    unfold size
    ring
  constructor
  · rw [size, zpow_sub₀ (by norm_num), hpow, div_le_iff₀ hden]
    exact hlow
  · rw [hsucc, zpow_sub₀ (by norm_num), hpow, lt_div_iff₀ hden]
    exact hhigh

theorem ten_zpow_le_iff (p : Parts) (e : ℤ) :
    (p.interval.scaled e).denominator ≤ (p.interval.scaled e).value ↔
      (10 : ℚ) ^ e ≤ p.magnitude := by
  have h := p.interval.scaled_le_iff e 1
  rw [Nat.one_mul, Nat.cast_one, one_mul, interval_value,
    mul_le_mul_iff_of_pos_right p.interval_denominator_pos] at h
  exact h

namespace Canonical

variable {p : Parts}

theorem size_bounds (hp : p.Canonical) : -1076 < p.size ∧ p.size < 1024 := by
  obtain ⟨hlow, hhigh⟩ := two_zpow_size hp.mantissa_pos
  have hm : (1 : ℚ) ≤ p.mantissa := by exact_mod_cast hp.mantissa_pos
  have hm' : (p.mantissa : ℚ) < 2 ^ 53 := by exact_mod_cast hp.mantissa_lt
  have hsmallest : (2 : ℚ) ^ (-1074 : ℤ) < 2 ^ (p.size + 1) :=
    calc (2 : ℚ) ^ (-1074 : ℤ) ≤ 2 ^ p.exponent :=
          zpow_le_zpow_right₀ (by norm_num) hp.exponent_ge
      _ ≤ p.mantissa * 2 ^ p.exponent := le_mul_of_one_le_left (by positivity) hm
      _ < 2 ^ (p.size + 1) := hhigh
  have hlargest : (2 : ℚ) ^ p.size < 2 ^ (1024 : ℤ) :=
    calc (2 : ℚ) ^ p.size ≤ p.mantissa * 2 ^ p.exponent := hlow
      _ < 2 ^ 53 * 2 ^ p.exponent := by gcongr
      _ ≤ 2 ^ 53 * 2 ^ (971 : ℤ) := by
          gcongr
          · norm_num
          · exact hp.exponent_le
      _ = 2 ^ (1024 : ℤ) := by
          rw [← zpow_natCast, ← zpow_add₀ (by norm_num)]
          rfl
  have h1 := (zpow_lt_zpow_iff_right₀ (by norm_num : (1 : ℚ) < 2)).mp hsmallest
  have h2 := (zpow_lt_zpow_iff_right₀ (by norm_num : (1 : ℚ) < 2)).mp hlargest
  omega

/-- The estimate of the leading digit is never too large. -/
theorem ten_zpow_leading (hp : p.Canonical) :
    (10 : ℚ) ^ p.interval.leading ≤ p.magnitude := by
  obtain ⟨hlow, hhigh⟩ := hp.size_bounds
  have hguess : (10 : ℚ) ^ ((p.size - 1) * 30103 / 100000) ≤ p.magnitude :=
    calc (10 : ℚ) ^ ((p.size - 1) * 30103 / 100000) ≤ 2 ^ (p.size - 1 + 1) :=
          ten_zpow_le_two_zpow (by omega) (by omega)
      _ ≤ p.magnitude := by
          rw [sub_add_cancel]
          exact (two_zpow_size hp.mantissa_pos).1
  simp only [RoundingInterval.leading, decide_eq_true_eq, ten_zpow_le_iff]
  split_ifs with hone htwo
  · exact htwo
  · exact hone
  · exact hguess

/-- On a grid finer than a quarter of the spacing, the grid point below the value is a hit. -/
theorem holds_below (hp : p.Canonical) {k : ℤ} (hk : 4 * (10 : ℚ) ^ k ≤ 2 ^ p.exponent) :
    (p.interval.scaled k).holds
      ((p.interval.scaled k).value / (p.interval.scaled k).denominator) = true := by
  have hden := p.interval_denominator_pos
  have hden' : 0 < (p.interval.scaled k).denominator := by
    change 0 < p.interval.denominator * 10 ^ k.toNat
    rw [interval_denominator]
    positivity
  have hpos : (0 : ℚ) < 2 ^ p.exponent := by positivity
  generalize hn : (p.interval.scaled k).value / (p.interval.scaled k).denominator = n
  have hle : (n : ℚ) * 10 ^ k ≤ p.magnitude := by
    have h := (p.interval.scaled_le_iff k n).mp (hn ▸ Nat.div_mul_le_self _ _)
    rwa [interval_value, mul_le_mul_iff_of_pos_right hden] at h
  have hlt : p.magnitude < ((n : ℚ) + 1) * 10 ^ k := by
    have hnext : ¬ (n + 1) * (p.interval.scaled k).denominator ≤ (p.interval.scaled k).value := by
      rw [not_le, ← hn, Nat.mul_comm]
      exact Nat.lt_mul_div_succ _ hden'
    rw [p.interval.scaled_le_iff, interval_value, mul_le_mul_iff_of_pos_right hden,
      not_le] at hnext
    exact_mod_cast hnext
  obtain ⟨r, hr⟩ := p.exists_quarters (n * 10 ^ k)
  have hgap : (1 : ℚ) ≤ p.gapBelow := by exact_mod_cast p.gapBelow_bounds.1
  have hupper : r ≤ 4 * p.mantissa := by
    rw [← hr, magnitude, mul_le_mul_iff_of_pos_right hpos] at hle
    linarith
  have hlower : 4 * p.mantissa < r + 1 := by
    have h : p.magnitude < (r / 4 + 1 / 4) * 2 ^ p.exponent := by
      rw [add_mul, ← hr] at hlt
      linarith
    rw [magnitude, mul_lt_mul_iff_of_pos_right hpos] at h
    linarith
  rw [RoundingInterval.holds_scaled, ← hr, holds_interval_iff hp.mantissa_pos]
  split_ifs <;> constructor <;> linarith

theorem eighteen_digits (hp : p.Canonical) :
    4 * (10 : ℚ) ^ (p.interval.leading + 1 - (18 : ℕ)) ≤ 2 ^ p.exponent := by
  have hpos : (0 : ℚ) < 2 ^ p.exponent := by positivity
  have hm : (p.mantissa : ℚ) < 2 ^ 53 := by exact_mod_cast hp.mantissa_lt
  have hshift : p.interval.leading + 1 - (18 : ℕ) = p.interval.leading + -17 := by
    push_cast
    ring
  have htiny : (10 : ℚ) ^ (-17 : ℤ) = 1 / 10 ^ 17 := by norm_num
  have hleading := hp.ten_zpow_leading
  rw [magnitude] at hleading
  rw [hshift, zpow_add₀ (by norm_num), htiny]
  nlinarith

end Canonical

end Parts

/-- The shortest decimal of a double lies in its rounding interval. -/
theorem holds_shortest {x : Float} (tie : Tie) (hp : (parts x).Canonical) :
    (parts x).interval.Holds (shortest tie x).value := by
  simp only [shortest, Decimal.value_trim]
  have hlast := RoundingInterval.nearest?_ne_none tie (hp.holds_below hp.eighteen_digits)
  exact RoundingInterval.holds_shortestFrom hlast 18 1 (by omega) (by omega)

end EvenChroma.Double
