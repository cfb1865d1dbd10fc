/-
  EvenChroma/Proofs/BlankExchange.lean
  ====================================
  **Which blanks part the arguments of a call.**  A token begins anew at every blank of any
  script, but a number or a name that has begun goes on over a blank beyond ASCII, which it
  takes for a letter (`Glued`).  No call with such a blank is read.  A call that is read may
  have any other blanks outside its quotes (`Reblanked`), and is read as before as long as
  none of them is glued to an argument.
-/
import EvenChroma.Proofs.ArgumentRoles
import EvenChroma.Proofs.OptionsTokens
import Mathlib.Data.List.Basic

namespace EvenChroma.Css

/-! ### Texts that differ in their blanks -/

/-- The second text is the first one, read on from `q`, with other blanks for some of its blanks
    outside quotes. -/
inductive Reblanked : Quoting → Text → Text → Prop where
  | nil (q : Quoting) : Reblanked q [] []
  | keep {q : Quoting} {c : Char} {t t' : Text} (hlater : Reblanked (q.next c) t t') :
    Reblanked q (c :: t) (c :: t')
  | exchange {b b' : Char} {t t' : Text} (hb : Text.isBlank b = true)
    (hb' : Text.isBlank b' = true) (hlater : Reblanked .outside t t') :
    Reblanked .outside (b :: t) (b' :: t')

/-- Letters, digits and points: behind one of them a number or a name goes on. -/
def joinsBlank (c : Char) : Bool := c.isAlphanum || c = '.'

/-- A blank beyond ASCII stands outside quotes and right behind a letter, a digit or a point. -/
def Glued (t : Text) : Prop :=
  ∃ pre a b post, t = pre ++ b :: post ∧ pre.foldl Quoting.next .outside = .outside ∧
    pre.getLast? = some a ∧ joinsBlank a = true ∧ Text.isBlank b = true ∧ isAscii b = false

/-- A text with all its blanks in quotes, which are closed at its end. -/
structure Sealed (w : Text) : Prop where
  closed : w.foldl Quoting.next .outside = .outside
  no_blank : ∀ pre c post, w = pre ++ c :: post → pre.foldl Quoting.next .outside = .outside →
    Text.isBlank c = false

section

variable {q : Quoting} {t t' u v w : Text}

theorem next_of_isBlank {b : Char} (hb : Text.isBlank b = true) :
    Quoting.outside.next b = .outside := by
  have hquote : isQuote b = false := eq_false_of_isBlank (by decide +kernel) hb
  simp [Quoting.next, hquote]

theorem foldl_next_blanks (h : ∀ c ∈ w, Text.isBlank c = true) :
    w.foldl Quoting.next .outside = .outside := by
  induction w with
  | nil => rfl
  | cons b w ih =>
    obtain ⟨hb, hw⟩ := List.forall_mem_cons.mp h
    rw [List.foldl_cons, next_of_isBlank hb]
    exact ih hw

namespace Reblanked

theorem split (h : Reblanked q (u ++ v) t') :
    ∃ u' v', t' = u' ++ v' ∧ Reblanked q u u' ∧ Reblanked (u.foldl Quoting.next q) v v' := by
  induction u generalizing q t' with
  | nil => exact ⟨[], t', rfl, nil q, h⟩
  | cons c u ih =>
    cases h with
    | keep hlater =>
      obtain ⟨u', v', rfl, hu, hv⟩ := ih hlater
      exact ⟨c :: u', v', rfl, keep hu, hv⟩
    | @exchange _ b' _ _ hb hb' hlater =>
      obtain ⟨u', v', rfl, hu, hv⟩ := ih hlater
      refine ⟨b' :: u', v', rfl, exchange hb hb' hu, ?_⟩
      rwa [List.foldl_cons, next_of_isBlank hb]

/-- Without blanks outside quotes there is nothing to exchange. -/
theorem eq_of_no_blank (h : Reblanked q t t')
    (hblank : ∀ pre c post, t = pre ++ c :: post → pre.foldl Quoting.next q = .outside →
      Text.isBlank c = false) : t' = t := by
  induction h with
  | nil q => rfl
  | @keep q c t t' _ ih =>
    rw [ih fun pre d post ht hpre => hblank (c :: pre) d post (by rw [ht, List.cons_append]) hpre]
  | @exchange b b' t t' hb _ _ _ =>
    have hnone := hblank [] b t rfl rfl
    rw [hb] at hnone
    cases hnone

theorem blanks (h : Reblanked .outside t t') (ht : ∀ c ∈ t, Text.isBlank c = true) :
    ∀ c ∈ t', Text.isBlank c = true := by
  generalize hq : Quoting.outside = q at h
  induction h with
  | nil q => simp
  | @keep q c t t' _ ih =>
    obtain ⟨hc, ht⟩ := List.forall_mem_cons.mp ht
    refine List.forall_mem_cons.mpr ⟨hc, ih ht ?_⟩
    rw [← hq, next_of_isBlank hc]
  | exchange _ hb' _ ih =>
    obtain ⟨-, ht⟩ := List.forall_mem_cons.mp ht
    exact List.forall_mem_cons.mpr ⟨hb', ih ht rfl⟩

theorem foldl_next (h : Reblanked q t t') :
    t'.foldl Quoting.next q = t.foldl Quoting.next q := by
  induction h with
  | nil q => rfl
  | keep _ ih => exact ih
  | exchange hb hb' _ ih => rw [List.foldl_cons, List.foldl_cons, next_of_isBlank hb,
      next_of_isBlank hb', ih]

theorem head_cases (h : Reblanked q t t') :
    t'.head? = t.head? ∨ ∃ b b', t.head? = some b ∧ t'.head? = some b' ∧
      Text.isBlank b = true ∧ Text.isBlank b' = true := by
  cases h with
  | nil => exact .inl rfl
  | keep => exact .inl rfl
  | exchange hb hb' => exact .inr ⟨_, _, rfl, rfl, hb, hb'⟩

end Reblanked

theorem reblanked_cons_iff {c c' : Char} :
    Reblanked q (c :: t) (c' :: t') ↔
      (c' = c ∨ q = .outside ∧ Text.isBlank c = true ∧ Text.isBlank c' = true) ∧
        Reblanked (q.next c) t t' := by
  constructor
  · intro h
    cases h with
    | keep hlater => exact ⟨.inl rfl, hlater⟩
    | exchange hb hb' hlater =>
      rw [next_of_isBlank hb]
      exact ⟨.inr ⟨rfl, hb, hb'⟩, hlater⟩
  · rintro ⟨rfl | ⟨rfl, hb, hb'⟩, hlater⟩
    · exact .keep hlater
    · rw [next_of_isBlank hb] at hlater
      exact .exchange hb hb' hlater

instance decidableReblanked : (q : Quoting) → (t t' : Text) → Decidable (Reblanked q t t')
  | q, [], [] => isTrue (.nil q)
  | _, [], _ :: _ => isFalse nofun
  | _, _ :: _, [] => isFalse nofun
  | q, c :: t, _ :: t' =>
    have := decidableReblanked (q.next c) t t'
    decidable_of_iff _ reblanked_cons_iff.symm

theorem Sealed.eq_of_reblanked (h : Sealed w) (hre : Reblanked .outside w t') : t' = w :=
  hre.eq_of_no_blank h.no_blank

theorem isQuote_eq_false_of_kind {p : Char → Bool} (hp : p '\x27' = false ∧ p '"' = false)
    {c : Char} (hc : p c = true) : isQuote c = false := by
  simp [isQuote, ne_of_kind hc hp.1, ne_of_kind hc hp.2]

/-- A text of one kind of characters, with neither blanks nor quotes among them. -/
theorem sealed_of_forall {p : Char → Bool} (hblank : ∀ n ∈ blankCodes, p (Char.ofNat n) = false)
    (hquote : p '\x27' = false ∧ p '"' = false) (h : ∀ c ∈ w, p c = true) : Sealed w where
  closed := by
    induction w with
    | nil => rfl
    | cons c w ih =>
      obtain ⟨hc, hw⟩ := List.forall_mem_cons.mp h
      have hnext : Quoting.outside.next c = .outside := by
        simp [Quoting.next, isQuote_eq_false_of_kind hquote hc]
      rw [List.foldl_cons, hnext]
      exact ih hw
  no_blank := by
    rintro pre c post rfl -
    have hc := not_isBlank_of_kind hblank (h c (by simp))
    simpa using hc

/-- Between its quotes a text is inside them. -/
theorem QuotedText.foldl_next {quote : Char} {raw value : Text} (h : QuotedText quote raw value) :
    raw.foldl Quoting.next (.inside quote) = .inside quote ∧
      ∀ pre post, raw = pre ++ post → pre.foldl Quoting.next (.inside quote) ≠ .outside := by
  induction h with
  | nil =>
    refine ⟨rfl, ?_⟩
    intro pre post h
    obtain ⟨rfl, -⟩ := List.append_eq_nil_iff.mp h.symm
    simp
  | @plain c raw value hescape hquote _ ih =>
    have hnext : (Quoting.inside quote).next c = .inside quote := by
      simp [Quoting.next, hescape, hquote]
    refine ⟨by rw [List.foldl_cons, hnext, ih.1], ?_⟩
    intro pre post h
    cases pre with
    | nil => simp
    | cons d pre =>
      obtain ⟨rfl, hlater⟩ := List.cons.inj h
      rw [List.foldl_cons, hnext]
      exact ih.2 pre post hlater
  | @pair c raw value _ ih =>
    have hnext : (Quoting.inside quote).next '\\' = .escaped quote := by simp [Quoting.next]
    refine ⟨by rw [List.foldl_cons, hnext]; exact ih.1, ?_⟩
    intro pre post h
    cases pre with
    | nil => simp
    | cons d pre =>
      obtain ⟨rfl, hlater⟩ := List.cons.inj h
      rw [List.foldl_cons, hnext]
      cases pre with
      | nil => simp
      | cons d pre =>
        obtain ⟨rfl, hrest⟩ := List.cons.inj hlater
        exact ih.2 pre post hrest

theorem QuotedText.sealed {quote : Char} {raw value : Text} (hquote : isQuote quote = true)
    (h : QuotedText quote raw value) : Sealed (quote :: (raw ++ [quote])) := by
  have hopen : Quoting.outside.next quote = .inside quote := by simp [Quoting.next, hquote]
  have hclose : (Quoting.inside quote).next quote = .outside := by
    simp [Quoting.next, ne_backslash_of_isQuote hquote]
  have hblank : Text.isBlank quote = false := by
    rw [← Bool.not_eq_true]
    exact not_isBlank_of_kind (by decide +kernel) hquote
  constructor
  · rw [List.foldl_cons, hopen, List.foldl_append, h.foldl_next.1, List.foldl_cons, hclose,
      List.foldl_nil]
  · intro pre c post hw hpre
    cases pre with
    | nil =>
      obtain ⟨rfl, -⟩ := List.cons.inj hw
      exact hblank
    | cons d pre =>
      obtain ⟨rfl, hlater⟩ := List.cons.inj hw
      rw [List.foldl_cons, hopen] at hpre
      rcases List.append_eq_append_iff.mp hlater with ⟨pre', rfl, hpost⟩ | ⟨post', hraw, -⟩
      · cases pre' with
        | nil =>
          obtain ⟨rfl, -⟩ := List.cons.inj hpost
          exact hblank
        | cons d pre' => simp at hpost
      · exact (h.foldl_next.2 pre _ hraw hpre).elim

end

/-! ### Glued blanks -/

section

variable {u v : Text}

theorem not_isBlank_of_joinsBlank {a : Char} (h : joinsBlank a = true) :
    ¬ Text.isBlank a = true :=
  not_isBlank_of_kind (by decide +kernel) h

theorem Sealed.not_glued (h : Sealed u) : ¬ Glued u := by
  rintro ⟨pre, a, b, post, hu, hpre, -, -, hb, -⟩
  rw [h.no_blank pre b post hu hpre] at hb
  cases hb

theorem not_glued_blanks (h : ∀ c ∈ u, Text.isBlank c = true) : ¬ Glued u := by
  rintro ⟨pre, a, b, post, rfl, -, ha, hjoins, -, -⟩
  have hmem : a ∈ pre := List.mem_of_getLast? ha
  exact not_isBlank_of_joinsBlank hjoins (h a (by simp [hmem]))

/-- Where two texts meet outside quotes, a blank is glued within one of them or to the end of
    the first. -/
theorem glued_append (hu : u.foldl Quoting.next .outside = .outside) :
    Glued (u ++ v) ↔ Glued u ∨ (∃ a b, u.getLast? = some a ∧ v.head? = some b ∧
      joinsBlank a = true ∧ Text.isBlank b = true ∧ isAscii b = false) ∨ Glued v := by
  constructor
  · rintro ⟨pre, a, b, post, ht, hpre, ha, hglued⟩
    rcases List.append_eq_append_iff.mp ht with ⟨pre', rfl, rfl⟩ | ⟨post', rfl, hpost⟩
    · cases hpre' : pre'.getLast? with
      | none =>
        obtain rfl := List.getLast?_eq_none_iff.mp hpre'
        rw [List.append_nil] at ha
        exact .inr (.inl ⟨a, b, ha, rfl, hglued⟩)
      | some a' =>
        rw [List.getLast?_append, hpre', Option.some_or] at ha
        obtain rfl := Option.some.inj ha
        rw [List.foldl_append, hu] at hpre
        exact .inr (.inr ⟨pre', a', b, post, rfl, hpre, hpre', hglued⟩)
    · cases post' with
      | nil =>
        rw [List.nil_append] at hpost
        rw [List.append_nil]
        exact .inr (.inl ⟨a, b, ha, by rw [← hpost]; rfl, hglued⟩)
      | cons d post' =>
        obtain ⟨rfl, -⟩ := List.cons.inj hpost
        exact .inl ⟨pre, a, b, post', rfl, hpre, ha, hglued⟩
  · rintro (⟨pre, a, b, post, rfl, hglued⟩ | ⟨a, b, ha, hb, hglued⟩ |
      ⟨pre, a, b, post, rfl, hpre, ha, hglued⟩)
    · exact ⟨pre, a, b, post ++ v, by simp, hglued⟩
    · obtain ⟨post, rfl⟩ := List.head?_eq_some_iff.mp hb
      exact ⟨u, a, b, post, rfl, hu, ha, hglued⟩
    · refine ⟨u ++ pre, a, b, post, by simp, ?_, ?_, hglued⟩
      · rw [List.foldl_append, hu, hpre]
      · rw [List.getLast?_append, ha, Option.some_or]

end

/-! ### Where the tokens of a call end -/

/-- The text is at its end, or goes on with a blank or a mark that no token goes on over. -/
def Delimits (t : Text) : Prop :=
  ∀ c ∈ t.head?, Text.isBlank c = true ∨ c = ',' ∨ c = '/' ∨ c = ')'

/-- The token can stand in a call that is read: its name or its unit has letters, digits and
    points only, and its quotes are closed. -/
def TokenKind.Usual : TokenKind → Prop
  | .blank | .comma | .slash | .closeParen | .number _ | .percentage _ => True
  | .dimension _ unit => ∀ c ∈ unit, joinsBlank c = true
  | .ident name => ∀ c ∈ name, joinsBlank c = true
  | .quoted _ _ terminated => terminated = true
  | .percent | .openParen | .other _ => False

/-- How a token of a call ends. -/
inductive Ending (w : Text) (kind : TokenKind) (r : Text) : Prop where
  /-- Blanks end before whatever is none. -/
  | blank (hkind : kind = .blank) (hne : w ≠ []) (hblanks : ∀ c ∈ w, Text.isBlank c = true)
    (hnext : ∀ c ∈ r.head?, Text.isBlank c = false)
  /-- A mark, a percentage and a text in quotes end before every text. -/
  | shut (hsealed : Sealed w) (hlast : ∀ a, w.getLast? = some a → joinsBlank a = false)
    (hreads : ∀ r', ReadsAs w kind r')
  /-- A number and a name end before a blank or a mark of ASCII. -/
  | joining (hkind : ¬ kind.Divides) (hne : w ≠ []) (hsealed : Sealed w)
    (hlast : ∀ a, w.getLast? = some a → joinsBlank a = true)
    (hnext : ∀ c ∈ r.head?, Text.isBlank c = true → isAscii c = true)
    (hreads : ∀ r', Delimits r' → (∀ c ∈ r'.head?, isAscii c = true) → ReadsAs w kind r')

section

variable {w r r' : Text} {kind : TokenKind}

theorem joinsBlank_of_isAlpha {c : Char} (h : c.isAlpha = true) : joinsBlank c = true := by
  simp [joinsBlank, Char.isAlphanum, h]

theorem Letters.joinsBlank (h : Letters w) : ∀ c ∈ w, joinsBlank c = true :=
  fun c hc => joinsBlank_of_isAlpha (h.2 c hc)

theorem Amount.usual {x : Float} (h : Amount kind x) : kind.Usual := by
  cases h with
  | number => trivial
  | percentage => trivial
  | none hname => exact (letters_of_toLower hname (by decide)).joinsBlank

theorem Angle.usual {x : Float} (h : Angle kind x) : kind.Usual := by
  cases h with
  | number => trivial
  | dimension n hunit => exact hunit.letters.joinsBlank
  | none hname => exact (letters_of_toLower hname (by decide)).joinsBlank

theorem Role.usual {strict : Bool} {pre post : List Token} (h : Role strict pre kind post) :
    kind.Usual := by
  cases h with
  | divider hkind =>
    rcases hkind with rfl | rfl | rfl
    all_goals trivial
  | amount hahead hkind => exact hkind.usual
  | angle hahead hkind => exact hkind.usual
  | gamut hpart hsep hname =>
    intro c hc
    simpa [joinsBlank] using Gamut.mem_keyword hname hc
  | options hpart hsep hvalue => rfl
  | closeParen => trivial

theorem joinsBlank_of_isDigit {c : Char} (h : c.isDigit = true) : joinsBlank c = true := by
  simp [joinsBlank, Char.isAlphanum, h]

theorem joinsBlank_of_isQuote {c : Char} (h : isQuote c = true) : joinsBlank c = false := by
  rw [← Bool.not_eq_true]
  intro hjoins
  rw [isQuote_eq_false_of_kind (by decide) hjoins] at h
  cases h

/-- The last character of a number is a digit or a point. -/
theorem UnsignedText.joinsBlank_last (h : UnsignedText w) :
    ∀ a, w.getLast? = some a → joinsBlank a = true := by
  intro a ha
  cases h with
  | whole hdigits hne => exact joinsBlank_of_isDigit (hdigits a (List.mem_of_getLast? ha))
  | @point digits fraction hdigits hfraction hne =>
    rw [List.getLast?_append_cons] at ha
    rcases List.mem_cons.mp (List.mem_of_getLast? ha) with rfl | hmem
    · rfl
    · exact joinsBlank_of_isDigit (hfraction a hmem)

theorem UnsignedText.ne_nil (h : UnsignedText w) : w ≠ [] := by
  rintro rfl
  cases h.startsUnsigned_append []

theorem NumberText.joinsBlank_last (h : NumberText w) :
    ∀ a, w.getLast? = some a → joinsBlank a = true := by
  cases h with
  | unsigned hw => exact hw.joinsBlank_last
  | @signed sign w hsign hw =>
    intro a ha
    rw [← List.singleton_append, List.getLast?_append_of_ne_nil _ hw.ne_nil] at ha
    exact hw.joinsBlank_last a ha

/-- No word goes on over a blank or a mark. -/
theorem Delimits.begins_isAlphanumeric (h : Delimits r) :
    begins Text.isAlphanumeric r = false := by
  cases r with
  | nil => rfl
  | cons c r =>
    rcases h c rfl with hblank | rfl | rfl | rfl
    · exact eq_false_of_isBlank (p := Text.isAlphanumeric) (by decide +kernel) hblank
    all_goals rfl

theorem Delimits.endsName (h : Delimits r) (hascii : ∀ c ∈ r.head?, isAscii c = true) :
    EndsName r ∧ r.head? ≠ some '%' := by
  have hnone : ∀ c ∈ r.head?, isNameChar c = false ∧ c ≠ '.' ∧ c ≠ '%' := by
    intro c hc
    rcases h c hc with hblank | rfl | rfl | rfl
    · have hother : (c.isAlphanum || c = '_' || c = '-' || c = '.' || c = '%') = false :=
        eq_false_of_isBlank (p := fun c => c.isAlphanum || c = '_' || c = '-' || c = '.' || c = '%')
          (by decide +kernel) hblank
      simp only [Bool.or_eq_false_iff, decide_eq_false_iff_not] at hother
      obtain ⟨⟨⟨⟨halphanum, hline⟩, hminus⟩, hpoint⟩, hpercent⟩ := hother
      exact ⟨by simp [isNameChar, halphanum, hline, hminus, hascii c hc], hpoint, hpercent⟩
    all_goals decide
  exact ⟨fun c hc => ⟨(hnone c hc).1, (hnone c hc).2.1⟩, fun hc => (hnone _ hc).2.2 rfl⟩

theorem startsName_of_endsName (h : EndsName r) : startsName r = false := by
  cases r with
  | nil => rfl
  | cons c r =>
    rw [← Bool.not_eq_true]
    intro hstarts
    have hname := (h c rfl).1
    rw [isNameChar_of_startsName hstarts] at hname
    cases hname

theorem EndsName.endsDigits (h : EndsName r) (w : Text) : EndsDigits w r := by
  intro c hc
  obtain ⟨hname, hpoint⟩ := h c hc
  refine ⟨?_, fun heq => (hpoint heq).elim⟩
  rw [← Bool.not_eq_true]
  intro hdigit
  simp [isNameChar, Char.isAlphanum, hdigit] at hname

/-- Where a name ends, no character beyond ASCII comes next. -/
theorem isAscii_of_splitName (h : splitName (w ++ r) = (w, r)) :
    ∀ c ∈ r.head?, isAscii c = true := by
  intro c hc
  by_contra hascii
  have hname := isNameChar_of_splitName h c hc
  simp [isNameChar, hascii] at hname

/-- The characters that numbers and names in a call are made of, and the percent sign. -/
def isPlain (c : Char) : Bool := isNumeric c || joinsBlank c || c = '%'

theorem sealed_of_isPlain (h : ∀ c ∈ w, isPlain c = true) : Sealed w :=
  sealed_of_forall (p := isPlain) (by decide +kernel) (by decide) h

theorem NumberText.isPlain (h : NumberText w) : ∀ c ∈ w, isPlain c = true := by
  intro c hc
  have hsplit := (h.split_append (r := []) nofun).2
  have hnumeric : isNumeric c = true := by
    apply mem_splitNumber (t := w ++ [])
    rwa [hsplit]
  simp [Css.isPlain, hnumeric]

theorem isPlain_of_joinsBlank (h : ∀ c ∈ w, joinsBlank c = true) : ∀ c ∈ w, isPlain c = true := by
  intro c hc
  simp [isPlain, h c hc]

theorem startsName_before {c : Char} (hc : joinsBlank c = true) (t t' : Text) :
    startsName (c :: t') = startsName (c :: t) := by
  have hminus : c ≠ '-' := ne_of_kind hc rfl
  simp [startsName_cons, hminus]

/-- A name of letters and digits is read before whatever ends a name. -/
theorem readsName_before {v : Text} (hstarts : startsName (v ++ r) = true)
    (hsplit : splitName (v ++ r) = (v, r)) (hjoins : ∀ c ∈ v, joinsBlank c = true)
    (hr : begins Text.isAlphanumeric r = false) (hr' : EndsName r') :
    startsName (v ++ r') = true ∧ splitName (v ++ r') = (v, r') := by
  have hsplit' := splitName_before hsplit hr hr'
  obtain ⟨c, v, rfl⟩ := List.exists_cons_of_ne_nil (ne_nil_of_splitName hstarts hsplit)
  exact ⟨(startsName_before (hjoins c List.mem_cons_self) _ _).trans hstarts, hsplit'⟩

theorem ending_mark {c : Char} (hc : c = ',' ∨ c = '/' ∨ c = ')') : Ending [c] (single c) r := by
  have hsealed : Sealed [c] := by
    apply sealed_of_forall (p := fun c => c = ',' || c = '/' || c = ')') (by decide +kernel)
      (by decide)
    simpa [or_assoc] using hc
  refine .shut hsealed ?_ ?_
  · rintro a ⟨⟩
    rcases hc with rfl | rfl | rfl
    all_goals rfl
  · intro r'
    rcases hc with rfl | rfl | rfl
    all_goals exact ⟨_, [], rfl, rfl⟩

/-- **Each token of a call ends in one of three ways**, if no word goes on behind it. -/
theorem ReadsAs.ending (h : ReadsAs w kind r) (husual : kind.Usual)
    (hr : kind.Divides ∨ begins Text.isAlphanumeric r = false) : Ending w kind r := by
  cases h.written with
  | blank hw hblanks hnext => exact .blank rfl hw hblanks hnext
  | number hw hends hpercent hname =>
    refine .joining (by simp [TokenKind.Divides]) hw.ne_nil (sealed_of_isPlain hw.isPlain)
      hw.joinsBlank_last ?_ ?_
    · intro c hc hblank
      obtain ⟨r, rfl⟩ := List.head?_eq_some_iff.mp hc
      by_contra hascii
      simp [startsName_cons, isNameStart, hascii] at hname
    · intro r' hr' hascii
      obtain ⟨hends', hpercent'⟩ := hr'.endsName hascii
      exact (Written.number hw (hends'.endsDigits _) hpercent'
        (startsName_of_endsName hends')).readsAs
  | percentage hw =>
    refine .shut ?_ ?_ fun r' => (Written.percentage hw).readsAs
    · exact sealed_of_isPlain (List.forall_mem_append.mpr ⟨hw.isPlain, by simp [isPlain]⟩)
    · intro a ha
      rw [List.getLast?_concat] at ha
      obtain rfl := Option.some.inj ha
      rfl
  | @dimension w unit _ hw hends hstarts hsplit =>
    have hne := ne_nil_of_splitName hstarts hsplit
    have hkind : ¬ (TokenKind.dimension (numberValue w) unit).Divides := by
      simp [TokenKind.Divides]
    have hr := hr.resolve_left hkind
    refine .joining hkind (by simp [hne]) ?_ ?_ (fun c hc _ => isAscii_of_splitName hsplit c hc) ?_
    · exact sealed_of_isPlain
        (List.forall_mem_append.mpr ⟨hw.isPlain, isPlain_of_joinsBlank husual⟩)
    · intro a ha
      rw [List.getLast?_append_of_ne_nil _ hne] at ha
      exact husual a (List.mem_of_getLast? ha)
    · intro r' hr' hascii
      obtain ⟨hstarts', hsplit'⟩ :=
        readsName_before hstarts hsplit husual hr (hr'.endsName hascii).1
      obtain ⟨c, unit, rfl⟩ := List.exists_cons_of_ne_nil hne
      have hends' : EndsDigits w (c :: unit ++ r') := hends
      exact (Written.dimension hw hends' hstarts' hsplit').readsAs
  | name hblank hstarts hsplit =>
    have hne := ne_nil_of_splitName hstarts hsplit
    have hkind : ¬ (TokenKind.ident w).Divides := by simp [TokenKind.Divides]
    have hr := hr.resolve_left hkind
    refine .joining hkind hne (sealed_of_isPlain (isPlain_of_joinsBlank husual)) ?_
      (fun c hc _ => isAscii_of_splitName hsplit c hc) ?_
    · intro a ha
      exact husual a (List.mem_of_getLast? ha)
    · intro r' hr' hascii
      obtain ⟨hstarts', hsplit'⟩ :=
        readsName_before hstarts hsplit husual hr (hr'.endsName hascii).1
      obtain ⟨c, v, rfl⟩ := List.exists_cons_of_ne_nil hne
      exact (Written.name hblank hstarts' hsplit').readsAs
  | quoted hquote hraw =>
    refine .shut (hraw.sealed hquote) ?_ fun r' => (Written.quoted hquote hraw).readsAs
    intro a ha
    rw [← List.cons_append, List.getLast?_concat] at ha
    obtain rfl := Option.some.inj ha
    exact joinsBlank_of_isQuote hquote
  | unterminated hquote hv => cases husual
  | @single c _ hblank hnumber hname hquote =>
    have hc : c = ',' ∨ c = '/' ∨ c = ')' := by
      unfold single at husual
      split_ifs at husual with hcomma hslash hpercent hopen hclose
      · exact .inl hcomma
      · exact .inr (.inl hslash)
      · exact husual.elim
      · exact husual.elim
      · exact .inr (.inr hclose)
      · exact husual.elim
    exact ending_mark hc

end

/-! ### One token with other blanks -/

section

variable {w w' r r' : Text} {kind : TokenKind}

theorem Reblanked.delimits {t t' : Text} (h : Reblanked .outside t t') (ht : Delimits t) :
    Delimits t' := by
  intro c hc
  rcases h.head_cases with hhead | ⟨b, b', -, hb', -, hblank⟩
  · rw [hhead] at hc
    exact ht c hc
  · rw [hb'] at hc
    obtain rfl := Option.some.inj hc
    exact .inl hblank

namespace Ending

theorem closed (h : Ending w kind r) : w.foldl Quoting.next .outside = .outside := by
  cases h with
  | blank hkind hne hblanks hnext => exact foldl_next_blanks hblanks
  | shut hsealed hlast hreads => exact hsealed.closed
  | joining hkind hne hsealed hlast hnext hreads => exact hsealed.closed

/-- No blank is glued to a token that is followed by what follows it in a call. -/
theorem not_glued (h : Ending w kind r) (hr : ¬ Glued r) : ¬ Glued (w ++ r) := by
  rw [glued_append h.closed]
  cases h with
  | blank hkind hne hblanks hnext =>
    rintro (hglued | ⟨a, b, ha, -, hjoins, -⟩ | hglued)
    · exact not_glued_blanks hblanks hglued
    · exact not_isBlank_of_joinsBlank hjoins (hblanks a (List.mem_of_getLast? ha))
    · exact hr hglued
  | shut hsealed hlast hreads =>
    rintro (hglued | ⟨a, b, ha, -, hjoins, -⟩ | hglued)
    · exact hsealed.not_glued hglued
    · rw [hlast a ha] at hjoins
      cases hjoins
    · exact hr hglued
  | joining hkind hne hsealed hlast hnext hreads =>
    rintro (hglued | ⟨a, b, -, hb, -, hblank, hascii⟩ | hglued)
    · exact hsealed.not_glued hglued
    · rw [hnext b hb hblank] at hascii
      cases hascii
    · exact hr hglued

/-- **A token is read again among other blanks**, if none of them is glued. -/
theorem reblanked (h : Ending w kind r) (hr : kind.Divides ∨ Delimits r)
    (hrew : Reblanked .outside w w') (hrer : Reblanked .outside r r')
    (hglued : ¬ Glued (w' ++ r')) : ReadsAs w' kind r' := by
  cases h with
  | blank hkind hne hblanks hnext =>
    subst hkind
    apply Written.readsAs
    apply Written.blank _ (hrew.blanks hblanks)
    · intro d hd
      rcases hrer.head_cases with hhead | ⟨b, b', hb, -, hblank, -⟩
      · exact hnext d (hhead ▸ hd)
      · rw [hnext b hb] at hblank
        cases hblank
    · rintro rfl
      cases hrew
      exact hne rfl
  | shut hsealed hlast hreads =>
    obtain rfl := hsealed.eq_of_reblanked hrew
    exact hreads r'
  | joining hkind hne hsealed hlast hnext hreads =>
    obtain rfl := hsealed.eq_of_reblanked hrew
    have hdelimits : Delimits r' := hrer.delimits (hr.resolve_left hkind)
    apply hreads r' hdelimits
    intro d hd
    rcases hdelimits d hd with hblank | rfl | rfl | rfl
    · -- a blank beyond ASCII would be glued to the last character of the token
      by_contra hascii
      rw [Bool.not_eq_true] at hascii
      have hend := List.getLast?_eq_some_getLast hne
      exact hglued ((glued_append hsealed.closed).mpr
        (.inr (.inl ⟨_, d, hend, hd, hlast _ hend, hblank, hascii⟩)))
    all_goals rfl

end Ending

end

/-! ### The tokens of a call -/

section

variable {strict : Bool} {start : Nat} {pre ts ts' : List Token} {t : Token} {c : CallArguments}
  {w w' later : Text}

theorem ReadsAs.delimits {kind : TokenKind} {r : Text} (h : ReadsAs w kind r)
    (hkind : kind.Divides ∨ kind = .closeParen) (r' : Text) : Delimits (w ++ r') := by
  cases h.written with
  | blank hw hblanks hnext =>
    obtain ⟨b, w, rfl⟩ := List.exists_cons_of_ne_nil hw
    rintro d ⟨⟩
    exact .inl (hblanks b List.mem_cons_self)
  | @single d _ hblank hnumber hname hquote =>
    rintro e ⟨⟩
    unfold single TokenKind.Divides at hkind
    split_ifs at hkind with hcomma hslash hpercent hopen hclose
    · exact .inr (.inl hcomma)
    · exact .inr (.inr (.inl hslash))
    · simp at hkind
    · simp at hkind
    · exact .inr (.inr (.inr hclose))
    · simp at hkind
  | _ => simp [TokenKind.Divides] at hkind

/-- Behind an argument a call goes on with a token that divides, or is closed. -/
theorem CallTokens.delimits (hcall : CallTokens strict (pre ++ t :: ts) c)
    (hlater : Lexed start later ts []) : t.kind.Divides ∨ Delimits later := by
  cases hlater with
  | nil => exact .inr nofun
  | @cons _ w later _ kind ts hfirst _ =>
    rw [List.append_cons] at hcall
    by_cases hkind : kind.Divides ∨ kind = .closeParen
    · exact .inr (hfirst.delimits hkind later)
    · obtain ⟨hdivides, hclose⟩ := not_or.mp hkind
      exact .inl (hcall.role.divides_last hdivides hclose t List.getLast?_concat)

theorem CallTokens.ending (hcall : CallTokens strict (pre ++ t :: ts) c)
    (hlater : Lexed start later ts []) (hfirst : ReadsAs w t.kind later) :
    Ending w t.kind later :=
  hfirst.ending hcall.role.usual ((hcall.delimits hlater).imp_right Delimits.begins_isAlphanumeric)

/-- **No blank is glued to an argument of a call that is read.** -/
theorem Lexed.not_glued (h : Lexed start w ts []) (hcall : CallTokens strict (pre ++ ts) c) :
    ¬ Glued w := by
  generalize hrest : ([] : Text) = rest at h
  -- over the tokens; those passed move to `pre`, so that the roles are those of the whole call
  induction h generalizing pre with
  | nil => exact not_glued_blanks nofun
  | cons hfirst hlater ih =>
    subst hrest
    rw [List.append_nil] at hfirst
    apply (hcall.ending hlater hfirst).not_glued
    rw [List.append_cons] at hcall
    exact ih hcall rfl

/-- **With other blanks a call has tokens of the same kinds**, if none of the blanks is glued to an
    argument. -/
theorem Lexed.exists_reblanked (h : Lexed start w ts [])
    (hcall : CallTokens strict (pre ++ ts) c) (hre : Reblanked .outside w w') (hglued : ¬ Glued w')
    (start' : Nat) :
    ∃ ts', Lexed start' w' ts' [] ∧ ts'.map Token.kind = ts.map Token.kind := by
  generalize hrest : ([] : Text) = rest at h
  induction h generalizing pre w' start' with
  | nil start rest =>
    subst hrest
    cases hre
    exact ⟨[], nil _ _, rfl⟩
  | @cons start w later rest kind ts hfirst hlater ih =>
    subst hrest
    rw [List.append_nil] at hfirst
    have hending := hcall.ending hlater hfirst
    obtain ⟨v', later', rfl, hrew, hrelater⟩ := hre.split
    have hclosed' : v'.foldl Quoting.next .outside = .outside :=
      hrew.foldl_next.trans hending.closed
    rw [hending.closed] at hrelater
    have hread : ReadsAs v' kind later' :=
      hending.reblanked (hcall.delimits hlater) hrew hrelater hglued
    have hglued' : ¬ Glued later' := by
      intro hlater'
      exact hglued ((glued_append hclosed').mpr (.inr (.inr hlater')))
    rw [List.append_cons] at hcall
    obtain ⟨ts', hlexed, hkinds⟩ := ih hcall hrelater hglued' (start' + Text.byteSize v') rfl
    refine ⟨_, cons (by rwa [List.append_nil]) hlexed, ?_⟩
    rw [List.map_cons, List.map_cons, hkinds]

end

/-! ### Calls with other blanks -/

theorem sealed_name {name : Text} (h : name.map Char.toLower = callStart) :
    Sealed name ∧ name.getLast? = some '(' := by
  simp only [callStart, List.map_eq_cons_iff, List.map_eq_nil_iff] at h
  obtain ⟨e, _, rfl, he, g, _, rfl, hg, a, _, rfl, ha, l, _, rfl, hl, paren, _, rfl, hparen, rfl⟩ :=
    h
  obtain rfl := Text.eq_openParen_of_toLower hparen
  have hletter : ∀ {c d : Char}, c.toLower = d → d.isAlpha = true → c.isAlpha = true := by
    rintro c _ rfl hd
    exact isAlpha_of_toLower hd
  refine ⟨?_, rfl⟩
  apply sealed_of_forall (p := fun c => c.isAlpha || c = '(') (by decide +kernel) (by decide)
  simp [hletter he rfl, hletter hg rfl, hletter ha rfl, hletter hl rfl]

/-- Nothing is glued to the name of a call. -/
theorem glued_name {name u : Text} (h : name.map Char.toLower = callStart) :
    Glued (name ++ u) ↔ Glued u := by
  obtain ⟨hsealed, hlast⟩ := sealed_name h
  rw [glued_append hsealed.closed]
  constructor
  · rintro (hglued | ⟨a, b, ha, -, hjoins, -⟩ | hglued)
    · exact (hsealed.not_glued hglued).elim
    · rw [hlast] at ha
      obtain rfl := Option.some.inj ha
      cases hjoins
    · exact hglued
  · intro hglued
    exact .inr (.inr hglued)

theorem not_glued_of_parseCall {strict : Bool} {call : Text} {c : CallArguments}
    (h : (parseCall strict call).value = .ok c) : ¬ Glued call := by
  obtain ⟨hstarts, htokens⟩ := callTokens_of_value_parseCall h
  obtain ⟨name, u, rfl, hname⟩ := startsCall_iff.mp hstarts
  have hlexed := lexed_callTokens (name ++ u)
  rw [drop_name hname] at hlexed
  have hcall : CallTokens strict ([] ++ callTokens (name ++ u)) c := htokens
  rw [glued_name hname]
  exact hlexed.not_glued hcall

/-- **Other blanks outside its quotes leave a call as it was, but for a blank beyond ASCII that is
    glued to a number, a unit or a name.**  With one of these it is no call at all. -/
theorem parseCall_reblanked {strict : Bool} {call call' : Text} {c : CallArguments}
    (h : (parseCall strict call).value = .ok c) (hre : Reblanked .outside call call') :
    ((parseCall strict call').value = .ok c ↔ ¬ Glued call') ∧
      (Glued call' → ∃ problem, (parseCall strict call').value = .error problem) := by
  refine ⟨⟨not_glued_of_parseCall, fun hglued => ?_⟩, fun hglued => ?_⟩
  · obtain ⟨hstarts, htokens⟩ := callTokens_of_value_parseCall h
    obtain ⟨name, u, rfl, hname⟩ := startsCall_iff.mp hstarts
    obtain ⟨name', u', rfl, hrename, hreu⟩ := hre.split
    obtain rfl := (sealed_name hname).1.eq_of_reblanked hrename
    rw [(sealed_name hname).1.closed] at hreu
    rw [glued_name hname] at hglued
    have hlexed := lexed_callTokens (name' ++ u)
    rw [drop_name hname] at hlexed
    have hcall : CallTokens strict ([] ++ callTokens (name' ++ u)) c := htokens
    obtain ⟨ts', hlexed', hkinds⟩ :=
      hlexed.exists_reblanked hcall hreu hglued callStart.length
    have hts' : callTokens (name' ++ u') = ts' := by
      apply callTokens_eq
      rwa [drop_name hname]
    apply value_parseCall_of_callTokens (startsCall_iff.mpr ⟨name', u', rfl, hname⟩)
    rw [hts']
    exact CallTokens.congr htokens hkinds
  · cases hread : (parseCall strict call').value with
    | error problem => exact ⟨problem, rfl⟩
    | ok c' => exact (not_glued_of_parseCall hread hglued).elim

theorem parseCall_reblanked_apart :
    let call : Text := "egal(50% .1, 120deg / 1 p3 '{}' )".toList
    let call' : Text := "egal(50%\u00a0.1,\u3000120deg\t/\u20031 p3\n'{}'\u00a0)".toList
    let c : CallArguments := ⟨numberValue "50".toList / 100.0, numberValue ".1".toList,
      numberValue "120".toList * 1.0, some (numberValue "1".toList), some .p3, some .empty⟩
    (parseCall false call).value = .ok c ∧ Reblanked .outside call call' ∧
      (parseCall false call').value = .ok c ∧ ¬ Glued call' := by
  intro call call' c
  have hread : (parseCall false call).value = .ok c := by with_unfolding_all rfl
  have hread' : (parseCall false call').value = .ok c := by with_unfolding_all rfl
  have hre : Reblanked .outside call call' := by decide +kernel
  exact ⟨hread, hre, hread', (parseCall_reblanked hread hre).1.mp hread'⟩

theorem parseCall_reblanked_glued :
    let call : Text := "egal(0.5 1 250)".toList
    let call' : Text := "egal(0.5\u00a01 250)".toList
    Reblanked .outside call call' ∧
      (parseCall false call).value = .ok (.plain (numberValue "0.5".toList)
        (numberValue "1".toList) (numberValue "250".toList)) ∧
      (parseCall false call').value = .error ⟨.unparsable, 0, 16⟩ := by
  refine ⟨?_, ?_, ?_⟩
  · decide +kernel
  · with_unfolding_all rfl
  · with_unfolding_all rfl

end EvenChroma.Css
