/-
  EvenChroma/Proofs/TokenOutlook.lean
  ===================================
  **A token sees little of what follows it.**  It is determined by its own characters and
  by the first one or two behind it (`outlook`): before any text with the same outlook the
  same token is read (`ReadsAs.again`).  A comma or a slash sees nothing of what follows,
  and blanks only whether they go on.
-/
import EvenChroma.Proofs.JsonLexemes
import EvenChroma.Proofs.Literals

namespace EvenChroma.Css

/-! ### What a token sees of the text behind it -/

/-- The first character, and the second one if the first is a point or a hyphen. -/
def outlook : Text → Text
  | [] => []
  | c :: t => if c = '.' || c = '-' then c :: t.take 1 else [c]

section

variable {r r' : Text}

theorem head?_outlook (t : Text) : (outlook t).head? = t.head? := by
  cases t with
  | nil => rfl
  | cons c t =>
    rw [outlook]
    split
    · rfl
    · rfl

theorem head?_eq_of_outlook (h : outlook r' = outlook r) : r'.head? = r.head? := by
  rw [← head?_outlook, h, head?_outlook]

theorem outlook_of_ne {c : Char} (hpoint : c ≠ '.') (hminus : c ≠ '-') (t : Text) :
    outlook (c :: t) = [c] := by
  rw [outlook, if_neg (by simp [hpoint, hminus])]

/-- Behind a point or a hyphen the second character is seen as well. -/
theorem exists_of_outlook {c : Char} {t : Text} (hc : c = '.' ∨ c = '-')
    (h : outlook r' = outlook (c :: t)) : ∃ t', r' = c :: t' ∧ t'.take 1 = t.take 1 := by
  have hseen : outlook (c :: t) = c :: t.take 1 := by
    rw [outlook, if_pos (by simpa using hc)]
  rw [hseen] at h
  cases r' with
  | nil => cases h
  | cons d t' =>
    rw [outlook] at h
    split_ifs at h with hd
    · obtain ⟨rfl, htake⟩ := List.cons.inj h
      exact ⟨t', rfl, htake⟩
    · obtain ⟨rfl, -⟩ := List.cons.inj h
      exact (hd (by simpa using hc)).elim

theorem begins_eq (p : Char → Bool) (t : Text) : begins p t = t.head?.any p := by
  cases t with
  | nil => rfl
  | cons c t => rfl

theorem begins_congr (p : Char → Bool) (h : r'.head? = r.head?) : begins p r' = begins p r := by
  rw [begins_eq, begins_eq, h]

theorem head?_eq_of_take (h : r'.take 1 = r.take 1) : r'.head? = r.head? := by
  cases r with
  | nil =>
    cases r' with
    | nil => rfl
    | cons d r' => cases h
  | cons c r =>
    cases r' with
    | nil => cases h
    | cons d r' => exact congrArg some (List.cons.inj h).1

theorem startsUnsigned_congr (h : outlook r' = outlook r) :
    startsUnsigned r' = startsUnsigned r := by
  cases r with
  | nil =>
    obtain rfl : r' = [] := List.head?_eq_none_iff.mp (head?_eq_of_outlook h)
    rfl
  | cons c t =>
    by_cases hc : c = '.'
    · subst hc
      obtain ⟨t', rfl, htake⟩ := exists_of_outlook (.inl rfl) h
      exact begins_congr _ (head?_eq_of_take htake)
    · obtain ⟨t', rfl⟩ := List.head?_eq_some_iff.mp (head?_eq_of_outlook h)
      simp [startsUnsigned, hc, begins]

/-- A name begins with a character for names, or with a hyphen before one or before another
    hyphen. -/
theorem startsName_cons (c : Char) (t : Text) :
    startsName (c :: t)
      = (isNameStart c || c = '-' && t.head?.any fun d => isNameStart d || d = '-') := by
  by_cases hc : c = '-'
  · subst hc
    cases t with
    | nil => rfl
    | cons d t => rfl
  · simp [startsName, hc, begins]

theorem startsName_congr (h : outlook r' = outlook r) : startsName r' = startsName r := by
  cases r with
  | nil =>
    obtain rfl : r' = [] := List.head?_eq_none_iff.mp (head?_eq_of_outlook h)
    rfl
  | cons c t =>
    by_cases hc : c = '-'
    · subst hc
      obtain ⟨t', rfl, htake⟩ := exists_of_outlook (.inr rfl) h
      rw [startsName_cons, startsName_cons, head?_eq_of_take htake]
    · obtain ⟨t', rfl⟩ := List.head?_eq_some_iff.mp (head?_eq_of_outlook h)
      simp [startsName_cons, hc]

theorem startsName_append {w : Text} (hw : w ≠ []) (h : r'.head? = r.head?) :
    startsName (w ++ r') = startsName (w ++ r) := by
  cases w with
  | nil => exact (hw rfl).elim
  | cons c w =>
    rw [List.cons_append, List.cons_append, startsName_cons, startsName_cons, List.head?_append,
      List.head?_append, h]

theorem startsNumber_cons_congr (c : Char) (h : outlook r' = outlook r) :
    startsNumber (c :: r') = startsNumber (c :: r) := by
  rw [startsNumber, startsNumber]
  split
  · exact startsUnsigned_congr h
  · by_cases hc : c = '.'
    · subst hc
      exact begins_congr _ (head?_eq_of_outlook h)
    · simp [startsUnsigned, hc, begins]

theorem outlook_append (h : outlook r' = outlook r) (w : Text) :
    outlook (w ++ r') = outlook (w ++ r) := by
  cases w with
  | nil => exact h
  | cons c w =>
    have hnext : (w ++ r').take 1 = (w ++ r).take 1 := by
      rw [List.take_one, List.take_one, Json.head?_append_congr (head?_eq_of_outlook h)]
    rw [List.cons_append, List.cons_append, outlook, outlook, hnext]

end

/-! ### Where names, numbers and quoted texts end -/

theorem isAscii_of_isNumeric {c : Char} (h : isNumeric c = true) : isAscii c = true := by
  simp only [isNumeric, isSign, Bool.or_eq_true, decide_eq_true_eq] at h
  rcases h with (hdigit | rfl) | rfl | rfl
  · have hle : c.val ≤ '9'.val := of_decide_eq_true (Bool.and_eq_true_iff.mp hdigit).2
    have hle : c.val.toNat ≤ 57 := UInt32.le_iff_toNat_le.mp hle
    have hlt : c.toNat < 128 := Nat.lt_of_le_of_lt hle (by decide)
    exact decide_eq_true hlt
  · rfl
  · rfl
  · rfl

theorem isNumeric_of_isNameStart {c : Char} (h : isNameStart c = true) : isNumeric c = false := by
  simp only [isNameStart, Bool.or_eq_true, decide_eq_true_eq, Bool.not_eq_true'] at h
  rcases h with (halpha | rfl) | hascii
  · exact isNumeric_of_isAlpha halpha
  · rfl
  · rw [← Bool.not_eq_true]
    intro hnumeric
    rw [isAscii_of_isNumeric hnumeric] at hascii
    cases hascii

theorem isNumeric_of_startsUnsigned {t : Text} (h : startsUnsigned t = true) :
    t.head?.any isNumeric = true := by
  cases t with
  | nil => cases h
  | cons c t =>
    by_cases hpoint : c = '.'
    · subst hpoint
      rfl
    · have hdigit : c.isDigit = true := by simpa [startsUnsigned, hpoint, begins] using h
      simp [isNumeric, hdigit]

/-- No number begins where a name does. -/
theorem startsNumber_of_startsName {t : Text} (h : startsName t = true) :
    startsNumber t = false := by
  cases t with
  | nil => rfl
  | cons c t =>
    rw [← Bool.not_eq_true]
    intro hnumber
    rw [startsName_cons, Bool.or_eq_true, Bool.and_eq_true, decide_eq_true_eq] at h
    rcases h with hstart | ⟨rfl, hnext⟩
    · have hnumeric := isNumeric_of_startsNumber hnumber
      rw [isNumeric_of_isNameStart hstart] at hnumeric
      cases hnumeric
    · have hnumeric := isNumeric_of_startsUnsigned (t := t) hnumber
      cases t with
      | nil => cases hnext
      | cons d t =>
        simp only [List.head?_cons, Option.any_some, Bool.or_eq_true, decide_eq_true_eq]
          at hnext hnumeric
        rcases hnext with hstart | rfl
        · rw [isNumeric_of_isNameStart hstart] at hnumeric
          cases hnumeric
        · cases hnumber

theorem ne_nil_of_splitName {w r : Text} (hstarts : startsName (w ++ r) = true)
    (hsplit : splitName (w ++ r) = (w, r)) : w ≠ [] := by
  have hne := splitName_ne_nil hstarts
  rwa [hsplit] at hne

theorem splitName_again {w r r' : Text} (hsplit : splitName (w ++ r) = (w, r))
    (h : outlook r' = outlook r) : splitName (w ++ r') = (w, r') := by
  induction w with
  | nil =>
    cases r with
    | nil =>
      obtain rfl : r' = [] := List.head?_eq_none_iff.mp (head?_eq_of_outlook h)
      rfl
    | cons c t =>
      have hends : (isNameChar c || c = '.' && begins Text.isAlphanumeric t) = false := by
        rw [← Bool.not_eq_true]
        intro hc
        rw [List.nil_append, splitName, if_pos hc] at hsplit
        cases hsplit
      obtain ⟨t', rfl, hends'⟩ : ∃ t', r' = c :: t' ∧
          (isNameChar c || c = '.' && begins Text.isAlphanumeric t') = false := by
        by_cases hpoint : c = '.'
        · obtain ⟨t', rfl, htake⟩ := exists_of_outlook (.inl hpoint) h
          refine ⟨t', rfl, ?_⟩
          rw [begins_congr _ (head?_eq_of_take htake), hends]
        · obtain ⟨t', rfl⟩ := List.head?_eq_some_iff.mp (head?_eq_of_outlook h)
          exact ⟨t', rfl, by simpa [hpoint] using hends⟩
      rw [List.nil_append, splitName, if_neg (by simp [hends'])]
  | cons c w ih =>
    have hbegins : begins Text.isAlphanumeric (w ++ r') = begins Text.isAlphanumeric (w ++ r) := by
      apply begins_congr
      rw [List.head?_append, List.head?_append, head?_eq_of_outlook h]
    rw [List.cons_append, splitName] at hsplit ⊢
    rw [hbegins]
    split at hsplit
    · next hc =>
      obtain ⟨hw, hr⟩ := Prod.mk.inj hsplit
      have hrest : splitName (w ++ r) = (w, r) := Prod.ext (List.cons.inj hw).2 hr
      rw [if_pos hc, ih hrest]
    · cases hsplit

/-- Where a name ends, no character of one comes next. -/
theorem isNameChar_of_splitName {w r : Text} (h : splitName (w ++ r) = (w, r)) :
    ∀ c ∈ r.head?, isNameChar c = false := by
  induction w with
  | nil =>
    cases r with
    | nil => nofun
    | cons c r =>
      rintro d ⟨⟩
      rw [← Bool.not_eq_true]
      intro hname
      rw [List.nil_append, splitName, hname, Bool.true_or, if_pos rfl] at h
      cases h
  | cons c w ih =>
    rw [List.cons_append, splitName] at h
    split at h
    · obtain ⟨hw, hr⟩ := Prod.mk.inj h
      exact ih (Prod.ext (List.cons.inj hw).2 hr)
    · cases h

/-- A name that ends before one text ends before every other that no name goes on over. -/
theorem splitName_before {w r r' : Text} (hsplit : splitName (w ++ r) = (w, r))
    (hr : begins Text.isAlphanumeric r = false) (hr' : EndsName r') :
    splitName (w ++ r') = (w, r') := by
  induction w with
  | nil =>
    cases r' with
    | nil => rfl
    | cons c r' =>
      obtain ⟨hname, hpoint⟩ := hr' c rfl
      simp [splitName, hname, hpoint]
  | cons c w ih =>
    have hgoes : (isNameChar c || c = '.' && begins Text.isAlphanumeric (w ++ r)) = true := by
      rw [← Bool.not_eq_false]
      intro hstop
      rw [List.cons_append, splitName, hstop, if_neg Bool.false_ne_true] at hsplit
      cases hsplit
    have hgoes' : (isNameChar c || c = '.' && begins Text.isAlphanumeric (w ++ r')) = true := by
      cases w with
      | nil =>
        rw [List.nil_append, hr, Bool.and_false, Bool.or_false] at hgoes
        rw [hgoes, Bool.true_or]
      | cons d w => exact hgoes
    rw [List.cons_append, splitName, if_pos hgoes] at hsplit
    obtain ⟨hw, hr⟩ := Prod.mk.inj hsplit
    rw [List.cons_append, splitName, if_pos hgoes', ih (Prod.ext (List.cons.inj hw).2 hr)]

theorem unsignedText_splitUnsigned {t : Text} (h : startsUnsigned t = true) :
    UnsignedText (splitUnsigned t).1 ∧ EndsDigits (splitUnsigned t).1 (splitUnsigned t).2 := by
  have hrun : ∀ t : Text, ∀ c ∈ t.takeWhile Char.isDigit, c.isDigit = true :=
    fun _ => List.all_eq_true.mp List.all_takeWhile
  have hnext : ∀ t : Text, ∀ c ∈ (t.dropWhile Char.isDigit).head?, c.isDigit = false := by
    intro t c hc
    have hhead := List.head?_dropWhile_not Char.isDigit t
    rwa [hc] at hhead
  unfold splitUnsigned
  split
  · next r hpoint =>
    refine ⟨.point (hrun t) (hrun r) ?_, fun c hc => ⟨hnext r c hc, fun _ => by simp⟩⟩
    -- without digits before it the point stands at the front, and a digit follows it
    intro hnil
    obtain ⟨hwhole, hfraction⟩ := List.append_eq_nil_iff.mp hnil
    have hall := List.takeWhile_append_dropWhile (p := Char.isDigit) (l := t)
    rw [hwhole, hpoint, List.nil_append] at hall
    subst hall
    cases r with
    | nil => cases h
    | cons d r =>
      have hdigit : d.isDigit = true := h
      rw [List.takeWhile_cons_of_pos hdigit] at hfraction
      cases hfraction
  · next hpoint =>
    refine ⟨.whole (hrun t) ?_, fun c hc => ⟨hnext t c hc, ?_⟩⟩
    · cases t with
      | nil => cases h
      | cons d t =>
        have hd : d ≠ '.' := by
          rintro rfl
          exact hpoint t (by simp)
        have hdigit : d.isDigit = true := by simpa [startsUnsigned, hd, begins] using h
        simp [hdigit]
    · rintro rfl
      obtain ⟨r, hr⟩ := List.head?_eq_some_iff.mp hc
      exact (hpoint r hr).elim

/-- What is taken as a number is one, and goes as far as it can. -/
theorem numberText_splitNumber {t : Text} (h : startsNumber t = true) :
    NumberText (splitNumber t).1 ∧ EndsDigits (splitNumber t).1 (splitNumber t).2 := by
  cases t with
  | nil => cases h
  | cons c t =>
    rw [startsNumber] at h
    rw [splitNumber]
    split at h
    · next hsign =>
      obtain ⟨hunsigned, hends⟩ := unsignedText_splitUnsigned h
      rw [if_pos hsign]
      exact ⟨.signed hsign hunsigned, fun d hd =>
        ⟨(hends d hd).1, fun hpoint => List.mem_cons_of_mem c ((hends d hd).2 hpoint)⟩⟩
    · next hsign =>
      obtain ⟨hunsigned, hends⟩ := unsignedText_splitUnsigned h
      rw [if_neg hsign]
      exact ⟨.unsigned hunsigned, hends⟩

/-- What stands between quotes, and the value of it. -/
inductive QuotedText (quote : Char) : (raw value : Text) → Prop where
  | nil : QuotedText quote [] []
  | plain {c : Char} {raw value : Text} (hescape : c ≠ '\\') (hquote : c ≠ quote)
    (hlater : QuotedText quote raw value) : QuotedText quote (c :: raw) (c :: value)
  | pair {c : Char} {raw value : Text} (hlater : QuotedText quote raw value) :
    QuotedText quote ('\\' :: c :: raw) (if c = quote then c :: value else '\\' :: c :: value)

theorem QuotedText.of_forall {quote : Char} {w : Text} (hw : ∀ c ∈ w, c ≠ '\\' ∧ c ≠ quote) :
    QuotedText quote w w := by
  induction w with
  | nil => exact nil
  | cons c w ih =>
    obtain ⟨⟨hescape, hquote⟩, hw⟩ := List.forall_mem_cons.mp hw
    exact plain hescape hquote (ih hw)

/-- A value in which its own quote does not occur is written as it is. -/
theorem QuotedText.eq_of_not_mem {quote : Char} {raw value : Text} (h : QuotedText quote raw value)
    (hquote : quote ∉ value) : raw = value := by
  induction h with
  | nil => rfl
  | plain hescape hc _ ih => exact congrArg _ (ih fun hmem => hquote (List.mem_cons_of_mem _ hmem))
  | @pair c raw value _ ih =>
    split_ifs at hquote ⊢ with hc
    · subst hc
      exact (hquote List.mem_cons_self).elim
    · rw [ih fun hmem => hquote (by simp [hmem])]

theorem QuotedText.splitQuoted_append {quote : Char} {raw value : Text} (hquote : quote ≠ '\\')
    (h : QuotedText quote raw value) (r : Text) :
    splitQuoted quote (raw ++ quote :: r) = (value, true, r) := by
  induction h with
  | nil =>
    rw [List.nil_append, splitQuoted, if_pos rfl]
    · intro hc
      exact (hquote hc).elim
    · intro c t hc
      exact (hquote hc).elim
  | plain hescape hc _ ih =>
    rw [List.cons_append, splitQuoted, if_neg hc, ih]
    · intro h
      exact (hescape h).elim
    · intro c t h
      exact (hescape h).elim
  | pair _ ih => rw [List.cons_append, List.cons_append, splitQuoted, ih]

theorem exists_quotedText {quote : Char} {t value r : Text}
    (h : splitQuoted quote t = (value, true, r)) :
    ∃ raw, t = raw ++ quote :: r ∧ QuotedText quote raw value := by
  fun_induction splitQuoted quote t generalizing value with
  | case1 => cases h
  | case2 => cases h
  | case3 c t value' terminated rest heq ih =>
    obtain ⟨rfl, hrest⟩ := Prod.mk.inj h
    obtain ⟨rfl, rfl⟩ := Prod.mk.inj hrest
    obtain ⟨raw, rfl, hraw⟩ := ih heq
    exact ⟨'\\' :: c :: raw, rfl, .pair hraw⟩
  | case4 t hend hescape =>
    obtain ⟨rfl, hrest⟩ := Prod.mk.inj h
    obtain ⟨-, rfl⟩ := Prod.mk.inj hrest
    exact ⟨[], rfl, .nil⟩
  | case5 c t hend hescape hc value' terminated rest heq ih =>
    obtain ⟨rfl, hrest⟩ := Prod.mk.inj h
    obtain ⟨rfl, rfl⟩ := Prod.mk.inj hrest
    obtain ⟨raw, rfl, hraw⟩ := ih heq
    have hbackslash : c ≠ '\\' := by
      rintro rfl
      cases raw with
      | nil => exact hescape quote _ rfl rfl
      | cons d raw => exact hescape d _ rfl rfl
    exact ⟨c :: raw, rfl, .plain hbackslash hc hraw⟩

/-! ### The first token -/

/-- The first token of `w ++ r` has the characters `w`. -/
def ReadsAs (w : Text) (kind : TokenKind) (r : Text) : Prop :=
  ∃ c v, w = c :: v ∧ firstToken c (v ++ r) = (kind, r)

/-- How a token is written, and what follows it so that it ends there. -/
inductive Written : (w : Text) → TokenKind → (r : Text) → Prop where
  | blank {w r : Text} (hw : w ≠ []) (hblanks : ∀ c ∈ w, Text.isBlank c = true)
    (hr : ∀ c ∈ r.head?, Text.isBlank c = false) : Written w .blank r
  | number {w r : Text} (hw : NumberText w) (hends : EndsDigits w r)
    (hpercent : r.head? ≠ some '%') (hname : startsName r = false) :
    Written w (.number (numberValue w)) r
  | percentage {w r : Text} (hw : NumberText w) :
    Written (w ++ ['%']) (.percentage (numberValue w)) r
  | dimension {w unit r : Text} (hw : NumberText w) (hends : EndsDigits w (unit ++ r))
    (hstarts : startsName (unit ++ r) = true) (hsplit : splitName (unit ++ r) = (unit, r)) :
    Written (w ++ unit) (.dimension (numberValue w) unit) r
  | name {w r : Text} (hblank : ∀ c ∈ w.head?, Text.isBlank c = false)
    (hstarts : startsName (w ++ r) = true) (hsplit : splitName (w ++ r) = (w, r)) :
    Written w (.ident w) r
  | quoted {quote : Char} {raw value r : Text} (hquote : isQuote quote = true)
    (hraw : QuotedText quote raw value) :
    Written (quote :: (raw ++ [quote])) (.quoted quote value true) r
  | unterminated {quote : Char} {v value : Text} (hquote : isQuote quote = true)
    (hv : splitQuoted quote v = (value, false, [])) :
    Written (quote :: v) (.quoted quote value false) []
  | single {c : Char} {r : Text} (hblank : Text.isBlank c = false)
    (hnumber : startsNumber (c :: r) = false) (hname : startsName (c :: r) = false)
    (hquote : isQuote c = false) : Written [c] (single c) r

section

variable {w r r' : Text} {kind : TokenKind}

theorem firstToken_quote {c : Char} (hquote : isQuote c = true) (t : Text) :
    firstToken c t
      = (.quoted c (splitQuoted c t).1 (splitQuoted c t).2.1, (splitQuoted c t).2.2) := by
  simp only [isQuote, Bool.or_eq_true, decide_eq_true_eq] at hquote
  rcases hquote with rfl | rfl
  · rfl
  · rfl

theorem ne_backslash_of_isQuote {c : Char} (h : isQuote c = true) : c ≠ '\\' := by
  rintro rfl
  cases h

theorem numberToken_of_ne {t : Text} (h : t.head? ≠ some '%') (x : Float) :
    numberToken x t
      = if startsName t then (.dimension x (splitName t).1, (splitName t).2)
        else (.number x, t) := by
  rw [numberToken]
  rintro r rfl
  exact h rfl

theorem endsDigits_percent (w r : Text) : EndsDigits w ('%' :: r) :=
  (endsNumber_of_isNumeric (by decide) r).endsDigits w

theorem head?_ne_percent_of_startsName {t : Text} (h : startsName t = true) :
    t.head? ≠ some '%' := by
  intro hpercent
  obtain ⟨s, rfl⟩ := List.head?_eq_some_iff.mp hpercent
  rw [startsName_cons] at h
  cases h

theorem NumberText.exists_written {rest : Text} (hw : NumberText w) (hends : EndsDigits w rest)
    (hkind : numberToken (numberValue w) rest = (kind, r)) :
    ∃ tail, rest = tail ++ r ∧ Written (w ++ tail) kind r := by
  by_cases hpercent : rest.head? = some '%'
  · obtain ⟨s, rfl⟩ := List.head?_eq_some_iff.mp hpercent
    obtain ⟨rfl, rfl⟩ := Prod.mk.inj hkind
    exact ⟨['%'], rfl, .percentage hw⟩
  rw [numberToken_of_ne hpercent] at hkind
  split at hkind
  · next hname =>
    obtain ⟨rfl, rfl⟩ := Prod.mk.inj hkind
    have hrest := splitName_append rest
    refine ⟨_, hrest.symm, .dimension hw ?_ ?_ ?_⟩
    · rwa [hrest]
    · rwa [hrest]
    · rw [hrest]
  · next hname =>
    obtain ⟨rfl, rfl⟩ := Prod.mk.inj hkind
    refine ⟨[], rfl, ?_⟩
    rw [List.append_nil]
    exact .number hw hends hpercent (by simpa using hname)

/-- Every token is written in one of these ways. -/
theorem ReadsAs.written (h : ReadsAs w kind r) : Written w kind r := by
  obtain ⟨c, v, rfl, hfirst⟩ := h
  unfold firstToken at hfirst
  split at hfirst
  · next hblank =>
    obtain ⟨rfl, hrest⟩ := Prod.mk.inj hfirst
    have hall := List.takeWhile_append_dropWhile (p := Text.isBlank) (l := v ++ r)
    rw [hrest] at hall
    have hv : v.all Text.isBlank = true := by
      rw [← List.append_cancel_right hall]
      exact List.all_takeWhile
    refine .blank (List.cons_ne_nil c v) ?_ fun d hd => ?_
    · exact List.forall_mem_cons.mpr ⟨hblank, List.all_eq_true.mp hv⟩
    · have hhead := List.head?_dropWhile_not Text.isBlank (v ++ r)
      rwa [hrest, hd] at hhead
  next hblank =>
  rw [Bool.not_eq_true] at hblank
  split at hfirst
  · next hstarts =>
    obtain ⟨hnumber, hends⟩ := numberText_splitNumber hstarts
    obtain ⟨tail, htail, hwritten⟩ := hnumber.exists_written hends hfirst
    have hall := splitNumber_append (c :: (v ++ r))
    rw [htail, ← List.append_assoc] at hall
    rwa [show c :: v = _ from (List.append_cancel_right hall).symm]
  next hnumber =>
  split at hfirst
  · next hstarts =>
    have hfirst : (TokenKind.ident (splitName (c :: (v ++ r))).1, (splitName (c :: (v ++ r))).2)
        = (kind, r) := hfirst
    obtain ⟨rfl, hrest⟩ := Prod.mk.inj hfirst
    have hsplit := splitName_append (c :: (v ++ r))
    rw [hrest] at hsplit
    have hname : (splitName (c :: (v ++ r))).1 = c :: v := List.append_cancel_right hsplit
    rw [hname]
    refine .name ?_ hstarts (Prod.ext hname hrest)
    rintro d ⟨⟩
    exact hblank
  next hname =>
  split at hfirst
  · next hquote =>
    obtain ⟨rfl, hrest⟩ := Prod.mk.inj hfirst
    cases hterminated : (splitQuoted c (v ++ r)).2.1 with
    | true =>
      obtain ⟨raw, hraw, hvalue⟩ := exists_quotedText (Prod.ext rfl (Prod.ext hterminated hrest))
      obtain rfl : v = raw ++ [c] := List.append_cancel_right (hraw.trans (by simp))
      exact .quoted hquote hvalue
    | false =>
      -- only the end of the text keeps the quotes open
      obtain ⟨-, -, -, -, hend⟩ := takes_quoted hquote (v ++ r)
      obtain rfl : r = [] := hrest ▸ hend _ _ (by rw [hterminated])
      rw [List.append_nil] at hterminated hrest ⊢
      exact .unterminated hquote (Prod.ext rfl (Prod.ext hterminated hrest))
  · next hquote =>
    obtain ⟨rfl, hrest⟩ := Prod.mk.inj hfirst
    obtain rfl : v = [] := List.self_eq_append_left.mp hrest.symm
    exact .single hblank (by simpa using hnumber) (by simpa using hname) (by simpa using hquote)

theorem NumberText.readsAs {tail : Text} (h : NumberText w) (hr : EndsDigits w (tail ++ r))
    (hkind : numberToken (numberValue w) (tail ++ r) = (kind, r)) : ReadsAs (w ++ tail) kind r := by
  obtain ⟨c, v, rfl⟩ := List.exists_cons_of_ne_nil h.ne_nil
  refine ⟨c, v ++ tail, rfl, ?_⟩
  rw [← hkind]
  exact h.firstToken_eq hr (by simp)

/-- What is written in one of these ways is read as such a token. -/
theorem Written.readsAs (h : Written w kind r) : ReadsAs w kind r := by
  cases h with
  | blank hw hblanks hr =>
    obtain ⟨c, v, rfl⟩ := List.exists_cons_of_ne_nil hw
    obtain ⟨hc, hv⟩ := List.forall_mem_cons.mp hblanks
    refine ⟨c, v, rfl, ?_⟩
    rw [firstToken, if_pos hc, List.dropWhile_append_of_pos hv]
    cases r with
    | nil => rfl
    | cons d r => rw [List.dropWhile_cons_of_neg (by simp [hr d rfl])]
  | number hw hends hpercent hname =>
    have hkind : numberToken (numberValue w) r = (.number (numberValue w), r) := by
      rw [numberToken_of_ne hpercent, hname]
      rfl
    have hread : ReadsAs (w ++ []) (.number (numberValue w)) r := hw.readsAs hends hkind
    rwa [List.append_nil] at hread
  | percentage hw => exact hw.readsAs (endsDigits_percent _ r) rfl
  | dimension hw hends hstarts hsplit =>
    apply hw.readsAs hends
    rw [numberToken_of_ne (head?_ne_percent_of_startsName hstarts), if_pos hstarts, hsplit]
  | name hblank hstarts hsplit =>
    obtain ⟨c, v, rfl⟩ := List.exists_cons_of_ne_nil (ne_nil_of_splitName hstarts hsplit)
    refine ⟨c, v, rfl, ?_⟩
    rw [List.cons_append] at hstarts hsplit
    rw [firstToken, if_neg (by simp [hblank c rfl]),
      if_neg (by simp [startsNumber_of_startsName hstarts]), if_pos hstarts, hsplit]
  | @quoted quote raw value _ hquote hraw =>
    refine ⟨quote, raw ++ [quote], rfl, ?_⟩
    rw [firstToken_quote hquote, List.append_assoc, List.singleton_append,
      hraw.splitQuoted_append (ne_backslash_of_isQuote hquote)]
  | @unterminated quote v value hquote hv =>
    refine ⟨quote, v, rfl, ?_⟩
    rw [List.append_nil, firstToken_quote hquote, hv]
  | @single c _ hblank hnumber hname hquote =>
    refine ⟨c, [], rfl, ?_⟩
    rw [List.nil_append, firstToken, if_neg (by simp [hblank]), if_neg (by simp [hnumber]),
      if_neg (by simp [hname]), if_neg (by simp [hquote])]

/-- **A token is read again before any text with the same outlook.** -/
theorem ReadsAs.again (h : ReadsAs w kind r) (hr : outlook r' = outlook r) : ReadsAs w kind r' := by
  have hhead := head?_eq_of_outlook hr
  apply Written.readsAs
  cases h.written with
  | blank hw hblanks hnext => exact .blank hw hblanks (by rwa [hhead])
  | number hw hends hpercent hname =>
    refine .number hw ?_ (by rwa [hhead]) (by rwa [startsName_congr hr])
    rwa [EndsDigits, hhead]
  | percentage hw => exact .percentage hw
  | @dimension w unit _ hw hends hstarts hsplit =>
    have hne := ne_nil_of_splitName hstarts hsplit
    refine .dimension hw ?_ (by rwa [startsName_append hne hhead]) (splitName_again hsplit hr)
    rwa [EndsDigits, Json.head?_append_congr hhead]
  | name hblank hstarts hsplit =>
    have hne := ne_nil_of_splitName hstarts hsplit
    exact .name hblank (by rwa [startsName_append hne hhead]) (splitName_again hsplit hr)
  | quoted hquote hraw => exact .quoted hquote hraw
  | unterminated hquote hv =>
    obtain rfl : r' = [] := List.head?_eq_none_iff.mp hhead
    exact .unterminated hquote hv
  | @single c _ hblank hnumber hname hquote =>
    refine .single hblank (by rwa [startsNumber_cons_congr c hr]) ?_ hquote
    rwa [show c :: r' = [c] ++ r' from rfl, startsName_append (List.cons_ne_nil c []) hhead]

end

/-- Between quotes that open and close it, a text is one token. -/
theorem QuotedText.readsAs {quote : Char} {raw value : Text} (hquote : isQuote quote = true)
    (h : QuotedText quote raw value) (r : Text) :
    ReadsAs (quote :: (raw ++ [quote])) (.quoted quote value true) r :=
  (Written.quoted hquote h).readsAs

/-! ### Tokens that divide -/

/-- A token that ends before any text, or if it is a blank, before any text that does not go on
    with one. -/
def TokenKind.Divides (kind : TokenKind) : Prop := kind = .blank ∨ kind = .comma ∨ kind = .slash

/-- Dividing tokens begin with their own characters only. -/
theorem ReadsAs.exists_divider {w r : Text} {kind : TokenKind} (h : ReadsAs w kind r)
    (hkind : kind.Divides) :
    ∃ c v, w = c :: v ∧ c ≠ '.' ∧ c ≠ '-' ∧
      ∀ r', (∀ d ∈ r'.head?, Text.isBlank d = false) → ReadsAs w kind r' := by
  cases h.written with
  | blank hw hblanks hr =>
    obtain ⟨c, v, rfl⟩ := List.exists_cons_of_ne_nil hw
    have hblank := hblanks c List.mem_cons_self
    refine ⟨c, v, rfl, ?_, ?_, fun r' hr' => (Written.blank hw hblanks hr').readsAs⟩
    · rintro rfl
      cases hblank
    · rintro rfl
      cases hblank
  | @single c _ hblank hnumber hname hquote =>
    have hc : c = ',' ∨ c = '/' := by
      unfold single TokenKind.Divides at hkind
      split_ifs at hkind with hcomma hslash
      · exact .inl hcomma
      · exact .inr hslash
      all_goals simp at hkind
    rcases hc with rfl | rfl
    · exact ⟨',', [], rfl, by decide, by decide, fun r' _ => ⟨',', [], rfl, rfl⟩⟩
    · exact ⟨'/', [], rfl, by decide, by decide, fun r' _ => ⟨'/', [], rfl, rfl⟩⟩
  | _ => simp [TokenKind.Divides] at hkind

/-! ### Tokens of one kind -/

section

variable {w r : Text}

theorem ReadsAs.exists_quoted {quote : Char} {value : Text}
    (h : ReadsAs w (.quoted quote value true) r) :
    ∃ raw, w = quote :: (raw ++ [quote]) ∧ QuotedText quote raw value := by
  have hwritten := h.written
  generalize hkind : TokenKind.quoted quote value true = kind at hwritten
  cases hwritten with
  | @quoted _ raw _ _ hquote hraw =>
    obtain ⟨rfl, rfl, -⟩ := TokenKind.quoted.inj hkind
    exact ⟨raw, rfl, hraw⟩
  | single hblank hnumber hname hquote =>
    unfold single at hkind
    split_ifs at hkind
  | _ => cases hkind

theorem ReadsAs.exists_percentage {x : Float} (h : ReadsAs w (.percentage x) r) :
    ∃ digits, w = digits ++ ['%'] ∧ NumberText digits := by
  have hwritten := h.written
  generalize hkind : TokenKind.percentage x = kind at hwritten
  cases hwritten with
  | percentage hw => exact ⟨_, rfl, hw⟩
  | single hblank hnumber hname hquote =>
    unfold single at hkind
    split_ifs at hkind
  | _ => cases hkind

theorem ReadsAs.eq_name {name : Text} (h : ReadsAs w (.ident name) r) : w = name := by
  have hwritten := h.written
  generalize hkind : TokenKind.ident name = kind at hwritten
  cases hwritten with
  | name hblank hstarts hsplit => exact (TokenKind.ident.inj hkind).symm
  | single hblank hnumber hname hquote =>
    unfold single at hkind
    split_ifs at hkind
  | _ => cases hkind

end

end EvenChroma.Css
