/-
  EvenChroma/Proofs/OptionsTokens.lean
  ====================================
  **Options in double quotes fall apart.**  The double quotes of their strings end the quotes
  around them and open new ones: what stood between two strings is a quoted text, and the
  strings are bare words.  A string of letters and digits leaves no percent sign, and a mark
  is left between two strings, so none of the tokens is a mistake of its own (`Fragments`).
-/
import EvenChroma.Proofs.EmbeddedOptions
import EvenChroma.Proofs.JsonStrings
import EvenChroma.Proofs.TokenPlaces

namespace EvenChroma

/-! ### Keywords and blanks -/

theorem Text.exists_trim (t : Text) :
    ∃ front back, t = front ++ (trim t ++ back) ∧ (∀ c ∈ front, isBlank c = true) ∧
      ∀ c ∈ back, isBlank c = true := by
  have hstart : t = t.takeWhile isBlank ++ trimStart t := List.takeWhile_append_dropWhile.symm
  have hend : trimStart t = trim t ++ ((trimStart t).reverse.takeWhile isBlank).reverse := by
    rw [trim, trimEnd, ← List.reverse_append, List.takeWhile_append_dropWhile,
      List.reverse_reverse]
  refine ⟨_, _, hstart.trans (congrArg (t.takeWhile isBlank ++ ·) hend), ?_, fun c hc => ?_⟩
  · exact List.all_eq_true.mp List.all_takeWhile
  · exact List.all_eq_true.mp List.all_takeWhile c (List.mem_reverse.mp hc)

theorem Text.mem_trim {t : Text} {c : Char} (hc : c ∈ t) (hblank : isBlank c = false) :
    c ∈ trim t := by
  obtain ⟨front, back, ht, hfront, hback⟩ := exists_trim t
  rw [ht] at hc
  rcases List.mem_append.mp hc with hc | hc
  · simp [hfront c hc] at hblank
  rcases List.mem_append.mp hc with hc | hc
  · exact hc
  · simp [hback c hc] at hblank

theorem isUpper_or_toLower_eq (c : Char) : c.isUpper = true ∨ c.toLower = c := by
  unfold Char.toLower
  split
  · next hupper => exact .inl (decide_eq_true hupper)
  · exact .inr rfl

/-- Keywords of gamuts are made of letters, digits and points. -/
theorem Gamut.mem_keyword {name : Text} {g : Gamut} (h : ofKeyword? name = some g) {c : Char}
    (hc : c ∈ name) : c.isAlphanum = true ∨ c = '.' := by
  have hlower : ∀ d ∈ Text.toLower name, d.isAlphanum = true ∨ d = '.' := by
    simp only [ofKeyword?, Css.ofList_eq_iff] at h
    split_ifs at h with hsrgb hp3 hrec
    · rcases hsrgb with heq | heq
      · rw [heq]
        exact Text.forall_of_all (by decide)
      · rw [heq]
        exact Text.forall_of_all (by decide)
    · rw [hp3]
      exact Text.forall_of_all (by decide)
    · rcases hrec with heq | heq
      · rw [heq]
        exact Text.forall_of_all (by decide)
      · rw [heq]
        exact Text.forall_of_all (by decide)
  rcases isUpper_or_toLower_eq c with hupper | heq
  · exact .inl (Json.isAlphanum_iff.mpr (.inl (.inl hupper)))
  · rw [← heq]
    exact hlower _ (List.mem_map_of_mem hc)

theorem Json.isBlank_of_isMark {c : Char} (h : isMark c = true) : Text.isBlank c = false := by
  simp only [isMark, Bool.or_eq_true, decide_eq_true_eq] at h
  rcases h with ((((rfl | rfl) | rfl) | rfl) | rfl) | rfl
  all_goals rfl

/-- No keyword has a mark. -/
theorem Gamut.ofKeyword?_of_isMark {t : Text} {c : Char} (hc : c ∈ t)
    (hmark : Json.isMark c = true) : ofKeyword? t = none := by
  rw [Option.eq_none_iff_forall_ne_some]
  intro g hg
  simp only [Json.isMark, Bool.or_eq_true, decide_eq_true_eq] at hmark
  have hkeyword := mem_keyword hg hc
  rcases hmark with ((((rfl | rfl) | rfl) | rfl) | rfl) | rfl
  all_goals exact absurd hkeyword (by decide)

namespace Css

/-! ### Tokens that are no mistake -/

/-- A token of this kind is no percent sign and no keyword of a gamut in quotes. -/
structure TokenKind.Fine (kind : TokenKind) : Prop where
  ne_percent : kind ≠ .percent
  no_keyword : ∀ quote value terminated, kind = .quoted quote value terminated →
    Gamut.ofKeyword? (Text.trim value) = none

theorem TokenKind.Fine.of_not_quoted {kind : TokenKind} (hpercent : kind ≠ .percent)
    (hquoted : ∀ quote value terminated, kind ≠ .quoted quote value terminated) : kind.Fine :=
  ⟨hpercent, fun quote value terminated h => (hquoted quote value terminated h).elim⟩

theorem TokenKind.Fine.quoted {value : Text} (hmark : ∃ c ∈ value, Json.isMark c = true)
    (quote : Char) (terminated : Bool) : (TokenKind.quoted quote value terminated).Fine where
  ne_percent := nofun
  no_keyword := by
    rintro _ _ _ ⟨⟩
    obtain ⟨c, hc, hmark⟩ := hmark
    exact Gamut.ofKeyword?_of_isMark (Text.mem_trim hc (Json.isBlank_of_isMark hmark)) hmark

/-! ### Words -/

section

variable {c : Char} {v r : Text} {kind : TokenKind}

theorem ne_of_isWordChar {d : Char} (hc : Json.IsWordChar c) (hd : ¬ Json.IsWordChar d) :
    c ≠ d := by
  rintro rfl
  exact hd hc

theorem isQuote_of_isWordChar (hc : Json.IsWordChar c) : isQuote c = false := by
  have hapostrophe : c ≠ '\x27' := ne_of_isWordChar hc (by decide)
  have hdouble : c ≠ '"' := ne_of_isWordChar hc (by decide)
  simp [isQuote, hapostrophe, hdouble]

theorem ReadsAs.fine_of_isWordChar (h : ReadsAs (c :: v) kind r) (hc : Json.IsWordChar c) :
    kind.Fine := by
  have hnot := isQuote_of_isWordChar hc
  have hwritten := h.written
  generalize hw : c :: v = w at hwritten
  cases hwritten with
  | quoted hquote hraw =>
    obtain ⟨rfl, -⟩ := List.cons.inj hw
    rw [hnot] at hquote
    cases hquote
  | unterminated hquote hv =>
    obtain ⟨rfl, -⟩ := List.cons.inj hw
    rw [hnot] at hquote
    cases hquote
  | single hblank hnumber hname hquote =>
    obtain ⟨rfl, -⟩ := List.cons.inj hw
    have hpercent : c ≠ '%' := ne_of_isWordChar hc (by decide)
    unfold single
    split_ifs
    all_goals exact .of_not_quoted nofun nofun
  | _ => exact .of_not_quoted nofun nofun

/-- A token that a word begins with has no double quote. -/
theorem ReadsAs.no_doubleQuote (h : ReadsAs (c :: v) kind r) (hc : Json.IsWordChar c) :
    '"' ∉ c :: v := by
  have hnot := isQuote_of_isWordChar hc
  obtain ⟨_, _, ⟨rfl, rfl⟩, hfirst⟩ := h
  have hlexeme := lexeme_firstToken c (v ++ r)
  rw [hfirst] at hlexeme
  generalize htext : c :: (v ++ r) = t at hlexeme
  cases hlexeme with
  | openParen t => exact (ne_of_isWordChar hc (by decide) (List.cons.inj htext).1).elim
  | closeParen t => exact (ne_of_isWordChar hc (by decide) (List.cons.inj htext).1).elim
  | @inert _ w _ _ hw ht hinert _ _ _ =>
    obtain rfl : c :: v = w := List.append_cancel_right (htext.trans ht)
    intro hmem
    cases (hinert _ hmem).2.2
  | quoted hisQuote t =>
    obtain ⟨rfl, -⟩ := List.cons.inj htext
    rw [hisQuote] at hnot
    cases hnot

end

/-- A word before a double quote is cut into tokens that are no mistake. -/
theorem exists_lexed_word {raw : Text} (hraw : ∀ c ∈ raw, Json.IsWordChar c) (start : Nat)
    (r : Text) : ∃ ts, Lexed start raw ts ('"' :: r) ∧ ∀ t ∈ ts, t.kind.Fine := by
  -- every token takes a character at least
  induction hlength : raw.length using Nat.strong_induction_on generalizing raw start with
  | _ n ih =>
    subst hlength
    cases raw with
    | nil => exact ⟨[], .nil start _, nofun⟩
    | cons c raw =>
      obtain ⟨w, kind, r', htext, hread⟩ := exists_readsAs (t := c :: raw ++ '"' :: r) nofun
      obtain ⟨d, v, rfl, -⟩ := id hread
      obtain ⟨rfl, -⟩ := List.cons.inj htext
      have hc : Json.IsWordChar c := hraw c List.mem_cons_self
      have hquote := hread.no_doubleQuote hc
      obtain ⟨later, hword, rfl⟩ :
          ∃ later, c :: raw = c :: v ++ later ∧ r' = later ++ '"' :: r := by
        rcases List.append_eq_append_iff.mp htext with ⟨beyond, hw, hr⟩ | ⟨later, hw, hr⟩
        · cases beyond with
          | nil => exact ⟨[], by simpa using hw.symm, by simpa using hr.symm⟩
          | cons q beyond =>
            obtain ⟨rfl, -⟩ := List.cons.inj hr
            exact (hquote (by simp [hw])).elim
        · exact ⟨later, hw, hr⟩
      rw [hword] at hraw ih ⊢
      obtain ⟨-, hlater⟩ := List.forall_mem_append.mp hraw
      have hshorter : later.length < (c :: v ++ later).length := by
        simp only [List.length_append, List.length_cons]
        omega
      obtain ⟨ts, hlexed, hfine⟩ := ih _ hshorter hlater (start + Text.byteSize (c :: v)) rfl
      exact ⟨_, .cons hread hlexed, List.forall_mem_cons.mpr ⟨hread.fine_of_isWordChar hc, hfine⟩⟩

/-! ### Fragments -/

/-- The text is cut into tokens that are no mistake, the first and the last of them in double
    quotes; the first goes on behind `gap`. -/
structure Fragments (start : Nat) (w gap : Text) (ts : List Token) (rest : Text) : Prop where
  lexed : Lexed start w ts rest
  fine : ∀ t ∈ ts, t.kind.Fine
  first : ∃ t value, ts.head? = some t ∧ t.kind = .quoted '"' (gap ++ value) true
  last : ∃ t, ts.getLast? = some t ∧ isDoubleQuoted t = true

/-- Of the text between the quotes `gap` was passed, and in it a mark if one was seen. -/
theorem exists_fragments {marked marked' : Bool} {w : Text} {ss : List Text}
    (h : Json.Strung marked w ss marked') (hmarked' : marked' = true)
    (hss : ∀ s ∈ ss, ∀ c ∈ s, c.isAlphanum = true) {gap : Text}
    (hgap : ∀ c ∈ gap, Json.IsPlain c)
    (hmark : marked = true → ∃ c ∈ gap, Json.isMark c = true) (start : Nat) (rest : Text) :
    ∃ ts, Fragments start ('"' :: (gap ++ (w ++ ['"']))) gap ts rest := by
  have hquoted : ∀ {gap}, (∀ c ∈ gap, Json.IsPlain c) → QuotedText '"' gap gap :=
    fun hgap => .of_forall fun c hc => ⟨(hgap c hc).2.1, (hgap c hc).1⟩
  induction h generalizing gap start with
  | nil marked =>
    have hread := (hquoted hgap).readsAs rfl rest
    exact ⟨_, .singleton hread start, by simpa using .quoted (hmark hmarked') '"' true,
      ⟨_, [], rfl, by simp⟩, _, rfl, rfl⟩
  | @plain marked marked' c w ss hc _ ih =>
    have hgap' : ∀ d ∈ gap ++ [c], Json.IsPlain d :=
      List.forall_mem_append.mpr ⟨hgap, by simpa using hc⟩
    have hmark' : (marked || Json.isMark c) = true → ∃ d ∈ gap ++ [c], Json.isMark d = true := by
      intro hseen
      rcases Bool.or_eq_true_iff.mp hseen with hseen | hseen
      · obtain ⟨d, hd, hdmark⟩ := hmark hseen
        exact ⟨d, List.mem_append_left _ hd, hdmark⟩
      · exact ⟨c, by simp, hseen⟩
    obtain ⟨ts, hlexed, hfine, ⟨t, value, hhead, hkind⟩, hlast⟩ :=
      ih hmarked' hss hgap' hmark' start
    rw [List.append_assoc, List.singleton_append] at hlexed
    exact ⟨ts, hlexed, hfine, ⟨t, c :: value, hhead, by simpa using hkind⟩, hlast⟩
  | @string marked' raw s w ss hraw _ ih =>
    obtain ⟨hs, hss⟩ := List.forall_mem_cons.mp hss
    -- the gap ends here, the string is a word, and a new gap begins behind it
    have hread := (hquoted hgap).readsAs rfl (raw ++ '"' :: (w ++ ['"']) ++ rest)
    obtain ⟨words, hwords, hfine⟩ := exists_lexed_word (hraw hs)
      (start + Text.byteSize ('"' :: (gap ++ ['"']))) (w ++ ['"'] ++ rest)
    obtain ⟨ts, hlexed, hfine', -, last, hlast, hdouble⟩ := @ih hmarked' hss [] nofun nofun
      (start + Text.byteSize ('"' :: (gap ++ ['"'])) + Text.byteSize raw)
    have hall := Lexed.cons hread (hwords.append hlexed)
    refine ⟨_, by simpa using hall, ?_, ⟨_, [], rfl, by simp⟩, last, ?_, hdouble⟩
    · refine List.forall_mem_cons.mpr ⟨.quoted (hmark rfl) '"' true, ?_⟩
      exact List.forall_mem_append.mpr ⟨hfine, hfine'⟩
    · rw [List.getLast?_cons, List.getLast?_append, hlast]
      rfl

theorem isPlain_of_isBlank {c : Char} (h : Text.isBlank c = true) : Json.IsPlain c :=
  Json.isPlain_of_kind h rfl rfl rfl

theorem opensObject_of_kind {t : Token} {front value : Text}
    (hfront : ∀ c ∈ front, Text.isBlank c = true)
    (hkind : t.kind = .quoted '"' (front ++ '\x7b' :: value) true) : opensObject t = true := by
  have htrim : Text.trimStart (front ++ '\x7b' :: value) = '\x7b' :: value :=
    Text.dropWhile_isBlank_append hfront rfl
  rw [opensObject, hkind]
  simp [htrim]

section

variable {value : Text} {members : List (Text × Json)}

theorem exists_strung_of_object (h : Json.ofText (Text.trim value) = .ok (.object members)) :
    ∃ front u, value = front ++ '\x7b' :: u ∧ (∀ c ∈ front, Text.isBlank c = true) ∧
      Json.Strung true u (Json.memberTexts members) true := by
  obtain ⟨front, back, hvalue, hfront, hback⟩ := Text.exists_trim value
  obtain ⟨front', u, back', htrim, hfront', hback', -, hhead, -, hbraced⟩ := Json.exists_braced h
  obtain ⟨u, rfl⟩ := List.head?_eq_some_iff.mp hhead
  refine ⟨front ++ front', u ++ (back' ++ back), by rw [hvalue, htrim]; simp, ?_, ?_⟩
  · exact List.forall_mem_append.mpr
      ⟨hfront, fun c hc => Text.isBlank_of_isJsonBlank (hfront' c hc)⟩
  · have hplain : ∀ c ∈ back' ++ back, Json.IsPlain c := List.forall_mem_append.mpr
      ⟨fun c hc => Json.isPlain_of_isJsonBlank (hback' c hc),
        fun c hc => isPlain_of_isBlank (hback c hc)⟩
    obtain ⟨marked, hstrung, hmarked⟩ := Json.Strung.exists_plain true hplain
    obtain rfl := hmarked rfl
    simpa using (Json.exists_strung hbraced).append hstrung

theorem no_apostrophe_of_object (h : Json.ofText (Text.trim value) = .ok (.object members))
    (hstrings : ∀ s ∈ (Json.object members).texts, ∀ c ∈ s, c.isAlphanum = true) :
    '\x27' ∉ value := by
  obtain ⟨front, u, rfl, hfront, hstrung⟩ := exists_strung_of_object h
  have hblank : '\x27' ∉ front := fun hmem => absurd (hfront _ hmem) (by decide)
  have hlater : '\x27' ∉ u := hstrung.no_apostrophe hstrings
  simp [hblank, hlater]

/-- **Options that are an object whose strings are letters and digits fall apart in double quotes
    into tokens that are no mistake, of which the first opens an object and the last is in double
    quotes.** -/
theorem exists_tokens_of_object (h : Json.ofText (Text.trim value) = .ok (.object members))
    (hstrings : ∀ s ∈ (Json.object members).texts, ∀ c ∈ s, c.isAlphanum = true) (start : Nat)
    (rest : Text) :
    ∃ ts, Lexed start ('"' :: (value ++ ['"'])) ts rest ∧ (∀ t ∈ ts, t.kind.Fine) ∧
      (∃ t, ts.head? = some t ∧ opensObject t = true) ∧
      ∃ t, ts.getLast? = some t ∧ isDoubleQuoted t = true := by
  obtain ⟨front, u, rfl, hfront, hstrung⟩ := exists_strung_of_object h
  have hgap : ∀ c ∈ front ++ ['\x7b'], Json.IsPlain c := List.forall_mem_append.mpr
    ⟨fun c hc => isPlain_of_isBlank (hfront c hc), Text.forall_of_all (by decide)⟩
  obtain ⟨ts, hlexed, hfine, ⟨t, later, hfirst, hkind⟩, hlast⟩ :=
    exists_fragments hstrung rfl hstrings hgap (fun _ => ⟨'\x7b', by simp, rfl⟩) start rest
  rw [List.append_assoc, List.singleton_append] at hlexed hkind
  rw [List.append_assoc, List.cons_append]
  exact ⟨ts, hlexed, hfine, ⟨t, hfirst, opensObject_of_kind hfront hkind⟩, hlast⟩

end

end Css

end EvenChroma
