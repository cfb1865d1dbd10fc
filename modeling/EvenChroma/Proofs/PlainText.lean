/-
  EvenChroma/Proofs/PlainText.lean
  ================================
  **The plain digits of a double determine it** (`plain_injective`): zeros keep their sign,
  and the digits of every other number lie in the rounding interval of that number
  alone.  Plain text has no separators in it, so several of them can be joined.
-/
import EvenChroma.Double.Text
import EvenChroma.Proofs.RoundingInterval

namespace EvenChroma.Double

/-! ### Positional digits -/

/-- The number that positional digits stand for. -/
def positionalValue (t : Text) : ℚ :=
  let fraction := (t.dropWhile Char.isDigit).drop 1
  Nat.ofDigitChars 10 (t.takeWhile Char.isDigit ++ fraction) 0 / 10 ^ fraction.length

theorem isDigit_of_mem_digitsOf {n : ℕ} {c : Char} (h : c ∈ digitsOf n) : c.isDigit = true :=
  Nat.isDigit_of_mem_toDigits (by decide) (by decide) h

theorem positionalValue_of_digits {t : Text} (h : ∀ c ∈ t, c.isDigit = true) :
    positionalValue t = Nat.ofDigitChars 10 t 0 := by
  have htake : t.takeWhile Char.isDigit = t := List.takeWhile_eq_self_iff.mpr h
  have hdrop : t.dropWhile Char.isDigit = [] := List.dropWhile_eq_nil_iff.mpr h
  simp [positionalValue, htake, hdrop]

theorem positionalValue_of_point {whole fraction : Text} (h : ∀ c ∈ whole, c.isDigit = true) :
    positionalValue (whole ++ '.' :: fraction) =
      Nat.ofDigitChars 10 (whole ++ fraction) 0 / 10 ^ fraction.length := by
  have htake : (whole ++ '.' :: fraction).takeWhile Char.isDigit = whole := by
    rw [List.takeWhile_append_of_pos h]
    simp
  have hdrop : (whole ++ '.' :: fraction).dropWhile Char.isDigit = '.' :: fraction := by
    rw [List.dropWhile_append_of_pos h]
    simp
  simp [positionalValue, htake, hdrop]

namespace Decimal

/-- Digits before and after the point are the digits of the decimal behind some zeros. -/
theorem positional_negSucc (n k : ℕ) :
    ∃ whole fraction : Text, (Decimal.mk n (.negSucc k)).positional = whole ++ '.' :: fraction ∧
      fraction.length = k + 1 ∧
      whole ++ fraction =
        List.replicate (k + 1 + 1 - (digitsOf n).length) '0' ++ digitsOf n := by
  refine ⟨_, _, rfl, ?_, List.take_append_drop _ _⟩
  simp only [List.length_drop, List.length_append, List.length_replicate]
  omega

theorem isDigit_of_mem_padded {m n : ℕ} {c : Char}
    (h : c ∈ List.replicate m '0' ++ digitsOf n) : c.isDigit = true := by
  rcases List.mem_append.mp h with h | h
  · rw [List.eq_of_mem_replicate h]
    rfl
  · exact isDigit_of_mem_digitsOf h

/-- Positional text holds digits and a point. -/
theorem mem_positional {d : Decimal} {c : Char} (h : c ∈ d.positional) :
    c.isDigit = true ∨ c = '.' := by
  obtain ⟨n, e⟩ := d
  cases e with
  | ofNat k =>
    rcases List.mem_append.mp h with h | h
    · exact .inl (isDigit_of_mem_digitsOf h)
    · rw [List.eq_of_mem_replicate h]
      exact .inl rfl
  | negSucc k =>
    obtain ⟨whole, fraction, heq, -, happend⟩ := positional_negSucc n k
    rw [heq, List.mem_append, List.mem_cons] at h
    have hdigit : c ∈ whole ++ fraction → c.isDigit = true := by
      rw [happend]
      exact isDigit_of_mem_padded
    rcases h with h | h | h
    · exact .inl (hdigit (List.mem_append_left _ h))
    · exact .inr h
    · exact .inl (hdigit (List.mem_append_right _ h))

theorem positional_ne_nil (d : Decimal) : d.positional ≠ [] := by
  obtain ⟨n, e⟩ := d
  cases e with
  | ofNat k => exact List.append_ne_nil_of_left_ne_nil Nat.toDigits_ne_nil _
  | negSucc k =>
    obtain ⟨whole, fraction, heq, -, -⟩ := positional_negSucc n k
    rw [heq]
    simp

/-- The positional text of a decimal reads back as the number it stands for. -/
theorem positionalValue_positional (d : Decimal) : positionalValue d.positional = d.value := by
  obtain ⟨n, e⟩ := d
  cases e with
  | ofNat k =>
    have hdigits : ∀ c ∈ (Decimal.mk n (.ofNat k)).positional, c.isDigit = true := by
      intro c hc
      rcases List.mem_append.mp hc with h | h
      · exact isDigit_of_mem_digitsOf h
      · rw [List.eq_of_mem_replicate h]
        rfl
    rw [positionalValue_of_digits hdigits]
    change ((Nat.ofDigitChars 10 (digitsOf n ++ List.replicate k '0') 0 : ℕ) : ℚ) = _
    rw [Nat.ofDigitChars_append, Nat.ofDigitChars_replicate_zero, digitsOf,
      Nat.ofDigitChars_ten_toDigits]
    simp only [Decimal.value, Int.ofNat_eq_natCast, zpow_natCast]
    push_cast
    ring
  | negSucc k =>
    obtain ⟨whole, fraction, heq, hlength, happend⟩ := positional_negSucc n k
    have hdigits : ∀ c ∈ whole, c.isDigit = true := fun c hc =>
      isDigit_of_mem_padded (happend ▸ List.mem_append_left _ hc)
    rw [heq, positionalValue_of_point hdigits, happend, hlength, Nat.ofDigitChars_append,
      Nat.ofDigitChars_replicate_zero, Nat.mul_zero, digitsOf, Nat.ofDigitChars_ten_toDigits]
    simp only [Decimal.value, zpow_negSucc]
    rfl

end Decimal

/-! ### Plain text -/

/-- Plain text without the sign, of anything but NaN. -/
def plainMagnitude (x : Float) : Text :=
  if x.isInf then "inf".toList
  else if x == 0.0 then ['0'] else (shortest .up x).positional

theorem plain_eq (x : Float) :
    plain x = if x.isNaN then "NaN".toList
      else if isNegative x then '-' :: plainMagnitude x else plainMagnitude x := rfl

theorem mem_plainMagnitude {x : Float} {c : Char} (h : c ∈ plainMagnitude x) :
    c.isDigit = true ∨ c = '.' ∨ x.isInf = true ∧ c ∈ "inf".toList := by
  unfold plainMagnitude at h
  split_ifs at h with hinf hzero
  · exact .inr (.inr ⟨hinf, h⟩)
  · rw [List.mem_singleton.mp h]
    exact .inl rfl
  · rcases Decimal.mem_positional h with h | h
    · exact .inl h
    · exact .inr (.inl h)

theorem plainMagnitude_ne_nil (x : Float) : plainMagnitude x ≠ [] := by
  unfold plainMagnitude
  split_ifs
  · decide
  · decide
  · exact Decimal.positional_ne_nil _

theorem not_mem_plainMagnitude {x : Float} {c : Char} (hdigit : c.isDigit = false)
    (hpoint : c ≠ '.') (hinf : c ∉ "inf".toList) : c ∉ plainMagnitude x := by
  intro h
  rcases mem_plainMagnitude h with h | h | h
  · rw [h] at hdigit
    cases hdigit
  · exact hpoint h
  · exact hinf h.2

/-- No underscore, no comma and the like. -/
theorem not_mem_plain {c : Char} (hdigit : c.isDigit = false)
    (hother : c ∉ ".-infNa".toList) (x : Float) : c ∉ plain x := by
  have hinf : "inf".toList ⊆ ".-infNa".toList := by decide
  have hnan : "NaN".toList ⊆ ".-infNa".toList := by decide
  have hmagnitude : c ∉ plainMagnitude x := not_mem_plainMagnitude hdigit
    (by rintro rfl; exact hother (by decide)) (fun h => hother (hinf h))
  rw [plain_eq]
  split_ifs
  · exact fun h => hother (hnan h)
  · rw [List.mem_cons, not_or]
    exact ⟨by rintro rfl; exact hother (by decide), hmagnitude⟩
  · exact hmagnitude

theorem plain_ne_nil (x : Float) : plain x ≠ [] := by
  rw [plain_eq]
  split_ifs
  · decide
  · exact List.cons_ne_nil _ _
  · exact plainMagnitude_ne_nil x

theorem isInf_iff_mem_plainMagnitude (x : Float) : x.isInf = true ↔ 'i' ∈ plainMagnitude x := by
  constructor
  · intro hx
    simp [plainMagnitude, hx]
  · intro hi
    rcases mem_plainMagnitude hi with h | h | h
    · exact absurd h (by decide)
    · exact absurd h (by decide)
    · exact h.1

theorem positionalValue_plainMagnitude_zero {x : Float} (hinf : x.isInf = false)
    (hzero : (x == 0.0) = true) : positionalValue (plainMagnitude x) = 0 := by
  rw [plainMagnitude, hinf, hzero, if_neg (by decide), if_pos rfl]
  decide +kernel

theorem holds_plainMagnitude {x : Float} (hinf : x.isInf = false) (hzero : (x == 0.0) = false)
    (hp : (parts x).Canonical) :
    (parts x).interval.Holds (positionalValue (plainMagnitude x)) := by
  rw [plainMagnitude, hinf, hzero, if_neg (by decide), if_neg (by decide),
    Decimal.positionalValue_positional]
  exact holds_shortest .up hp

/-- Zero does not read back as another number. -/
theorem plainMagnitude_ne {x y : Float} (hxinf : x.isInf = false) (hxzero : (x == 0.0) = true)
    (hynan : y.isNaN = false) (hyinf : y.isInf = false) (hyzero : (y == 0.0) = false) :
    plainMagnitude x ≠ plainMagnitude y := by
  intro h
  have hp := parts_canonical hynan hyinf hyzero
  have hholds := holds_plainMagnitude hyinf hyzero hp
  rw [← h, positionalValue_plainMagnitude_zero hxinf hxzero] at hholds
  exact Parts.not_holds_zero hp.mantissa_pos hholds

theorem plainMagnitude_injective {x y : Float} (hx : x.isNaN = false) (hy : y.isNaN = false)
    (hsign : isNegative x = isNegative y) (h : plainMagnitude x = plainMagnitude y) : x = y := by
  have hinf : x.isInf = y.isInf := by
    rw [Bool.eq_iff_iff, isInf_iff_mem_plainMagnitude, isInf_iff_mem_plainMagnitude, h]
  cases hxinf : x.isInf with
  | true => exact eq_of_isInf hsign hxinf (hinf ▸ hxinf)
  | false =>
    have hyinf : y.isInf = false := hinf ▸ hxinf
    cases hxzero : (x == 0.0) <;> cases hyzero : (y == 0.0)
    · have hp := parts_canonical hx hxinf hxzero
      have hp' := parts_canonical hy hyinf hyzero
      have hholds := holds_plainMagnitude hxinf hxzero hp
      rw [h] at hholds
      obtain ⟨hmantissa, hexponent⟩ :=
        Parts.unique_of_holds hp hp' hholds (holds_plainMagnitude hyinf hyzero hp')
      exact eq_of_parts hsign hmantissa hexponent
    · exact (plainMagnitude_ne hyinf hyzero hx hxinf hxzero h.symm).elim
    · exact (plainMagnitude_ne hxinf hxzero hy hyinf hyzero h).elim
    · exact eq_of_zero hsign hxzero hyzero

/-- Doubles with the same plain text are the same, signed zeros and NaN included. -/
theorem plain_injective {x y : Float} (h : plain x = plain y) : x = y := by
  have nan : ∀ z : Float, 'N' ∈ plain z ↔ z.isNaN = true := by
    intro z
    have hmagnitude : 'N' ∉ plainMagnitude z :=
      not_mem_plainMagnitude (by decide) (by decide) (by decide)
    rw [plain_eq]
    cases z.isNaN <;> cases isNegative z <;> simp [hmagnitude]
  have minus : ∀ z : Float, z.isNaN = false → ('-' ∈ plain z ↔ isNegative z = true) := by
    intro z hz
    have hmagnitude : '-' ∉ plainMagnitude z :=
      not_mem_plainMagnitude (by decide) (by decide) (by decide)
    rw [plain_eq, hz]
    cases isNegative z <;> simp [hmagnitude]
  have hnan : x.isNaN = y.isNaN := by rw [Bool.eq_iff_iff, ← nan, ← nan, h]
  cases hx : x.isNaN with
  | true => exact eq_of_isNaN hx (hnan ▸ hx)
  | false =>
    have hy : y.isNaN = false := hnan ▸ hx
    have hsign : isNegative x = isNegative y := by
      rw [Bool.eq_iff_iff, ← minus x hx, ← minus y hy, h]
    rw [plain_eq, plain_eq, hx, hy, ← hsign] at h
    have hmagnitude : plainMagnitude x = plainMagnitude y := by
      cases hs : isNegative x <;> simpa [hs] using h
    exact plainMagnitude_injective hx hy hsign hmagnitude

theorem text_injective {x y : Float} (h : text x = text y) : x = y :=
  plain_injective (String.ofList_injective h)

@[simp] theorem toList_text (x : Float) : (text x).toList = plain x := String.toList_ofList

end EvenChroma.Double
