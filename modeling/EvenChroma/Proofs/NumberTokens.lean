/-
  EvenChroma/Proofs/NumberTokens.lean
  ===================================
  **Numbers are read by their grammar.**  A number, a percentage or a dimension begins exactly
  where some text of the grammar does, its characters are the longest such text, and the double
  nearest to their value is its value: the reader of decimals accepts every text of the grammar
  (`NumberText.exists_ofText?`), so no token is ever given NaN.
-/
import EvenChroma.Proofs.NearestDouble
import EvenChroma.Proofs.PlainText
import EvenChroma.Proofs.TokenTiling

namespace EvenChroma.Css

/-! ### The value of a number -/

/-- The number that a decimal with or without a sign stands for. -/
def signedValue : Text → ℚ
  | '-' :: t => -Double.positionalValue t
  | '+' :: t => Double.positionalValue t
  | t => Double.positionalValue t

section

variable {w : Text}

/-- Digits and a point are read as a decimal that stands for the same number. -/
theorem UnsignedText.exists_ofUnsigned? (h : UnsignedText w) :
    ∃ digits exponent, Double.ofUnsigned? w = some (Double.ofDecimal digits exponent) ∧
      digits * (10 : ℚ) ^ exponent = Double.positionalValue w := by
  cases h with
  | whole hdigits hne =>
    obtain ⟨htake, hdrop⟩ := takeWhile_isDigit_append (r := []) hdigits nofun
    rw [List.append_nil] at htake hdrop
    refine ⟨Nat.ofDigitChars 10 w 0, 0, ?_, ?_⟩
    · simp [Double.ofUnsigned?, htake, hdrop, hne]
      rfl
    · rw [Double.positionalValue_of_digits hdigits, zpow_zero, mul_one]
  | @point digits fraction hdigits hfraction hne =>
    obtain ⟨htake, hdrop⟩ := takeWhile_isDigit_append (r := '.' :: fraction) hdigits (by simp)
    obtain ⟨htake', hdrop'⟩ := takeWhile_isDigit_append (r := []) hfraction nofun
    rw [List.append_nil] at htake' hdrop'
    refine ⟨Nat.ofDigitChars 10 (digits ++ fraction) 0, -fraction.length, ?_, ?_⟩
    · have hsome : (digits.isEmpty && fraction.isEmpty) = false := by
        rw [← Bool.not_eq_true]
        simpa using hne
      simp [Double.ofUnsigned?, htake, hdrop, htake', hdrop', hsome]
      rw [Nat.ofDigitChars_append]
      rfl
    · rw [Double.positionalValue_of_point hdigits, zpow_neg, zpow_natCast, div_eq_mul_inv]

theorem UnsignedText.exists_cons (h : UnsignedText w) :
    ∃ c v, w = c :: v ∧ isNumeric c = true ∧ c ≠ '+' ∧ c ≠ '-' := by
  have hstarts := h.startsUnsigned_append []
  have hnumeric := isNumeric_of_startsUnsigned hstarts
  rw [List.append_nil] at hstarts hnumeric
  cases w with
  | nil => cases hstarts
  | cons c v =>
    refine ⟨c, v, rfl, hnumeric, ?_, ?_⟩
    · rintro rfl
      cases hstarts
    · rintro rfl
      cases hstarts

/-- A number is neither of the words for NaN and infinity. -/
theorem not_sameIgnoringCase_of_isNumeric {c d : Char} (hc : isNumeric c = true)
    (hd : d.toLower.isAlpha = true) (w word : Text) :
    Text.sameIgnoringCase (c :: w) (d :: word) = false := by
  have hne : c.toLower ≠ d.toLower := by
    intro heq
    rw [← heq] at hd
    have hnumeric := isNumeric_of_isAlpha (isAlpha_of_toLower hd)
    rw [hc] at hnumeric
    cases hnumeric
  simp [Text.sameIgnoringCase, hne]

theorem UnsignedText.ofText?_eq (h : UnsignedText w) :
    Double.ofText? w = Double.ofUnsigned? w ∧
    Double.ofText? ('+' :: w) = Double.ofUnsigned? w ∧
    Double.ofText? ('-' :: w) = (Double.ofUnsigned? w).map fun x => -x := by
  obtain ⟨c, v, rfl, hnumeric, hplus, hminus⟩ := h.exists_cons
  have hnan := not_sameIgnoringCase_of_isNumeric (d := 'n') hnumeric rfl v "an".toList
  have hinf := not_sameIgnoringCase_of_isNumeric (d := 'i') hnumeric rfl v "nf".toList
  have hinfinity := not_sameIgnoringCase_of_isNumeric (d := 'i') hnumeric rfl v "nfinity".toList
  simp at hnan hinf hinfinity
  simp [Double.ofText?, hminus, hplus, hnan, hinf, hinfinity]

/-- **Every text of the grammar is read, as the double nearest to its value.** -/
theorem NumberText.exists_ofText? (h : NumberText w) :
    ∃ x, Double.ofText? w = some x ∧ Double.Nearest x (signedValue w) := by
  cases h with
  | unsigned hw =>
    obtain ⟨digits, exponent, hread, hvalue⟩ := hw.exists_ofUnsigned?
    obtain ⟨hplain, -, -⟩ := hw.ofText?_eq
    refine ⟨_, hplain.trans hread, ?_⟩
    have hsigned : signedValue w = Double.positionalValue w := by
      obtain ⟨c, v, rfl, -, hplus, hminus⟩ := hw.exists_cons
      simp [signedValue, hminus, hplus]
    rw [hsigned, ← hvalue]
    exact Double.nearest_ofDecimal digits exponent
  | @signed sign w hsign hw =>
    obtain ⟨digits, exponent, hread, hvalue⟩ := hw.exists_ofUnsigned?
    obtain ⟨-, hplus, hminus⟩ := hw.ofText?_eq
    have hnearest := Double.nearest_ofDecimal digits exponent
    rw [hvalue] at hnearest
    simp only [isSign, Bool.or_eq_true, decide_eq_true_eq] at hsign
    rcases hsign with rfl | rfl
    · exact ⟨_, hplus.trans hread, hnearest⟩
    · refine ⟨_, hminus.trans (congrArg _ hread), ?_⟩
      exact hnearest.neg

end

/-! ### The longest number -/

section

variable {v w r : Text}

theorem UnsignedText.prefix_splitUnsigned (h : UnsignedText v) (r : Text) :
    v <+: (splitUnsigned (v ++ r)).1 := by
  cases h with
  | whole hdigits hne =>
    have htake : (v ++ r).takeWhile Char.isDigit = v ++ r.takeWhile Char.isDigit :=
      List.takeWhile_append_of_pos hdigits
    rw [splitUnsigned, htake]
    split
    · rw [List.append_assoc]
      exact List.prefix_append _ _
    · exact List.prefix_append _ _
  | @point digits fraction hdigits hfraction hne =>
    obtain ⟨htake, hdrop⟩ := takeWhile_isDigit_append (r := '.' :: (fraction ++ r)) hdigits
      (by simp)
    have htake' : (fraction ++ r).takeWhile Char.isDigit = fraction ++ r.takeWhile Char.isDigit :=
      List.takeWhile_append_of_pos hfraction
    rw [List.append_assoc, List.cons_append, splitUnsigned, htake, hdrop]
    change digits ++ '.' :: fraction <+: digits ++ '.' :: (fraction ++ r).takeWhile Char.isDigit
    rw [htake']
    simp

/-- Wherever a number of the grammar stands, a number is read that is no shorter. -/
theorem NumberText.prefix_splitNumber (h : NumberText v) (r : Text) :
    startsNumber (v ++ r) = true ∧ v <+: (splitNumber (v ++ r)).1 := by
  cases h with
  | unsigned hv =>
    obtain ⟨hstarts, hsplit⟩ := startsNumber_of_startsUnsigned (hv.startsUnsigned_append r)
    rw [hsplit]
    exact ⟨hstarts, hv.prefix_splitUnsigned r⟩
  | signed hsign hv =>
    rw [List.cons_append, startsNumber, splitNumber, if_pos hsign, if_pos hsign]
    refine ⟨hv.startsUnsigned_append r, ?_⟩
    rw [List.cons_prefix_cons]
    exact ⟨rfl, hv.prefix_splitUnsigned r⟩

/-- Where the digits do not go on, no longer number begins. -/
theorem NumberText.longest (hw : NumberText w) (hends : EndsDigits w r) (hv : NumberText v)
    (hbegins : v <+: w ++ r) : v <+: w := by
  obtain ⟨s, hs⟩ := hbegins
  obtain ⟨-, hsplit⟩ := hw.split_append hends
  obtain ⟨-, hlonger⟩ := hv.prefix_splitNumber s
  rwa [hs, hsplit] at hlonger

end

/-! ### Tokens with a number -/

/-- The token has this value, and these characters behind the number. -/
inductive TokenKind.Measures (x : Float) : (tail : Text) → TokenKind → Prop where
  | number : Measures x [] (.number x)
  | percentage : Measures x ['%'] (.percentage x)
  | dimension (unit : Text) : Measures x unit (.dimension x unit)

section

variable {w r tail : Text} {kind : TokenKind} {x : Float}

theorem Written.exists_number (h : Written w kind r) (hkind : kind.Measures x tail) :
    ∃ u, w = u ++ tail ∧ NumberText u ∧ EndsDigits u (tail ++ r) ∧ x = numberValue u := by
  cases h with
  | number hw hends _ _ =>
    cases hkind
    exact ⟨w, by simp, hw, hends, rfl⟩
  | percentage hw =>
    cases hkind
    exact ⟨_, rfl, hw, endsDigits_percent _ r, rfl⟩
  | dimension hw hends _ _ =>
    cases hkind
    exact ⟨_, rfl, hw, hends, rfl⟩
  | single =>
    unfold Css.single at hkind
    split_ifs at hkind <;> cases hkind
  | _ => cases hkind

theorem exists_measures_numberToken (x : Float) (t : Text) :
    ∃ tail, (numberToken x t).1.Measures x tail := by
  by_cases hpercent : t.head? = some '%'
  · obtain ⟨r, rfl⟩ := List.head?_eq_some_iff.mp hpercent
    exact ⟨_, .percentage⟩
  · rw [numberToken_of_ne hpercent]
    split
    · exact ⟨_, .dimension _⟩
    · exact ⟨_, .number⟩

/-- What begins like a number is a token with one. -/
theorem ReadsAs.exists_measures (h : ReadsAs w kind r) (hstarts : startsNumber (w ++ r) = true) :
    ∃ x tail, kind.Measures x tail := by
  obtain ⟨c, v, rfl, hfirst⟩ := h
  obtain ⟨hnumber, hends⟩ := numberText_splitNumber hstarts
  have hmeasures := exists_measures_numberToken (numberValue (splitNumber (c :: v ++ r)).1)
    (splitNumber (c :: v ++ r)).2
  rw [← hnumber.firstToken_eq hends (splitNumber_append (c :: (v ++ r))), hfirst] at hmeasures
  exact ⟨_, hmeasures⟩

end

/-- **Numbers, percentages and dimensions begin exactly where the grammar of numbers does, with
    the longest number there, and their value is the double nearest to it.** -/
theorem number_tokens_follow_grammar (t : Text) : ∀ token ∈ tokens t,
    let rest := Text.dropBytes token.span.start t
    ((∃ x tail, token.kind.Measures x tail) ↔ ∃ w, w <+: rest ∧ NumberText w) ∧
    ∀ x tail, token.kind.Measures x tail → ∃ w,
      Text.slice t token.span = w ++ tail ∧ w <+: rest ∧ NumberText w ∧
      (∀ v, v <+: rest → NumberText v → v <+: w) ∧
      Double.ofText? w = some x ∧ Double.Nearest x (signedValue w) := by
  intro token htoken
  obtain ⟨front, w, back, rfl, hspan, hreads⟩ := exists_standsIn_of_mem_tokens htoken
  have hslice := Text.slice_append front w back
  rw [← hspan] at hslice
  have hrest : Text.dropBytes token.span.start (front ++ (w ++ back)) = w ++ back := by
    rw [hspan]
    exact Text.dropBytes_append front (w ++ back)
  rw [hslice, hrest]
  refine ⟨⟨?_, ?_⟩, ?_⟩
  · rintro ⟨x, tail, hmeasures⟩
    obtain ⟨u, rfl, hu, -, -⟩ := hreads.written.exists_number hmeasures
    exact ⟨u, by simp, hu⟩
  · rintro ⟨u, ⟨s, hs⟩, hu⟩
    apply hreads.exists_measures
    rw [← hs]
    exact (hu.prefix_splitNumber s).1
  · intro x tail hmeasures
    obtain ⟨u, rfl, hu, hends, rfl⟩ := hreads.written.exists_number hmeasures
    obtain ⟨x, hread, hnearest⟩ := hu.exists_ofText?
    have hvalue : numberValue u = x := by simp [numberValue, hread]
    rw [hvalue]
    refine ⟨u, rfl, by simp, hu, ?_, hread, hnearest⟩
    intro v hbegins hv
    rw [List.append_assoc] at hbegins
    exact hu.longest hends hv hbegins

/-- What looks like an exponent is a unit, and a point without digits belongs to the number. -/
theorem number_tokens_follow_grammar_exponent :
    let t : Text := ".-12.e1%".toList
    let x := numberValue "-12.".toList
    tokens t = [⟨.other '.', 0, 1⟩, ⟨.dimension x "e1".toList, 1, 7⟩, ⟨.percent, 7, 8⟩] ∧
    Double.ofText? "-12.".toList = some x ∧ Double.Nearest x (-12) := by
  intro t x
  have htokens : tokens t = [⟨.other '.', 0, 1⟩, ⟨.dimension x "e1".toList, 1, 7⟩,
      ⟨.percent, 7, 8⟩] := by with_unfolding_all rfl
  obtain ⟨-, hnumber⟩ := number_tokens_follow_grammar t ⟨.dimension x "e1".toList, 1, 7⟩
    (by rw [htokens]; exact .tail _ (.head _))
  obtain ⟨w, hslice, -, -, -, hread, hnearest⟩ := hnumber x _ (.dimension _)
  have hslice : "-12.".toList ++ "e1".toList = w ++ "e1".toList := hslice
  obtain rfl := List.append_cancel_right hslice
  have hvalue : signedValue "-12.".toList = -12 := by
    change -((12 : ℕ) / 10 ^ 0 : ℚ) = -12
    norm_num
  rw [hvalue] at hnearest
  exact ⟨htokens, hread, hnearest⟩

end EvenChroma.Css
