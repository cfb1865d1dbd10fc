/-
  EvenChroma/Proofs/CommonMistakes.lean
  =====================================
  **A common mistake is called by its name.**  One edit of a call that was read makes one of the
  mistakes that people make (`Slip`).  The tokens of the new text are wrong behind those in front
  of it, which stay as they were, so in both modes the call is rejected with the words for this
  mistake, at the new text and nothing else.
-/
import EvenChroma.Proofs.Explanations

namespace EvenChroma.Css

/-! ### How mistakes are cut into tokens -/

section

variable {w r : Text} {kind : TokenKind}

theorem LexesTo.readsAs (h : LexesTo (w ++ r) [kind] r) (hw : w ≠ []) : ReadsAs w kind r := by
  obtain ⟨c, v, rfl⟩ := List.exists_cons_of_ne_nil hw
  cases h with
  | cons hfirst hlater =>
    cases hlater
    exact ⟨c, v, rfl, hfirst⟩

theorem readsAs_percent (r : Text) : ReadsAs ['%'] .percent r := ⟨'%', [], rfl, rfl⟩

theorem readsAs_none {name : Text} (hname : Text.toLower name = "none".toList) (r : Text) :
    ReadsAs name (.ident name) ('%' :: r) := by
  have hletters : Letters name := letters_of_toLower hname (by decide)
  have hends : EndsName ('%' :: r) := by
    rintro c ⟨⟩
    decide
  exact (hletters.lexesTo hends).readsAs hletters.1

/-- Blanks that no name goes on with. -/
def AsciiBlanks (blanks : Text) : Prop :=
  blanks ≠ [] ∧ ∀ c ∈ blanks, Text.isBlank c = true ∧ isAscii c = true

/-- A number before such blanks is a number, without a unit. -/
theorem readsAs_number {digits blanks : Text} (hdigits : NumberText digits)
    (hblanks : AsciiBlanks blanks) (r : Text) :
    ReadsAs digits (.number (numberValue digits)) (blanks ++ r) := by
  obtain ⟨hne, hblanks⟩ := hblanks
  obtain ⟨c, blanks, rfl⟩ := List.exists_cons_of_ne_nil hne
  obtain ⟨hblank, hascii⟩ := hblanks c List.mem_cons_self
  have hnumeric : isNumeric c = false := eq_false_of_isBlank (by decide +kernel) hblank
  have halpha : c.isAlpha = false := eq_false_of_isBlank (by decide +kernel) hblank
  have hne : ∀ d : Char, Text.isBlank d = false → c ≠ d := fun _ => ne_of_kind hblank
  have hname : startsName (c :: (blanks ++ r)) = false := by
    simp [startsName_cons, isNameStart, halpha, hascii, hne '_' rfl, hne '-' rfl]
  have hends := endsNumber_of_isNumeric hnumeric (blanks ++ r)
  have hpercent : (c :: (blanks ++ r)).head? ≠ some '%' := by simpa using hne '%' rfl
  exact (Written.number hdigits (hends.endsDigits digits) hpercent hname).readsAs

theorem lexed_detached {digits blanks : Text} (hdigits : NumberText digits)
    (hblanks : AsciiBlanks blanks) (start : Nat) (r : Text) :
    ∃ n b p, Lexed start (digits ++ (blanks ++ ['%'])) [n, b, p] r ∧
      n.kind = .number (numberValue digits) ∧ b.kind = .blank ∧ p.kind = .percent := by
  have hpercent := readsAs_percent r
  have hblank : ReadsAs blanks .blank (['%'] ++ r) :=
    (Written.blank hblanks.1 (fun c hc => (hblanks.2 c hc).1) (by rintro c ⟨⟩; rfl)).readsAs
  have hnumber := readsAs_number hdigits hblanks (['%'] ++ r)
  rw [← List.append_assoc] at hnumber
  exact ⟨_, _, _, .cons hnumber (.cons hblank (.singleton hpercent _)), rfl, rfl, rfl⟩

/-- In quotes a keyword is read as it is written. -/
theorem quotedText_of_keyword {quote : Char} {name : Text} {g : Gamut}
    (hquote : isQuote quote = true) (hname : Gamut.ofKeyword? name = some g) :
    QuotedText quote name name := by
  refine .of_forall fun c hc => ⟨?_, ?_⟩
  · rintro rfl
    exact absurd (Gamut.mem_keyword hname hc) (by decide)
  · rintro rfl
    simp only [isQuote, Bool.or_eq_true, decide_eq_true_eq] at hquote
    rcases hquote with rfl | rfl
    · exact absurd (Gamut.mem_keyword hname hc) (by decide)
    · exact absurd (Gamut.mem_keyword hname hc) (by decide)

theorem toLower_keyword_ne {name : Text} {g : Gamut} (hname : Gamut.ofKeyword? name = some g) :
    Text.toLower name ≠ "none".toList := by
  intro hnone
  simp [Gamut.ofKeyword?, hnone] at hname

theorem trim_keyword {name : Text} {g : Gamut} (hname : Gamut.ofKeyword? name = some g) :
    Text.trim name = name := by
  have hblank : ∀ c ∈ name, Text.isBlank c = false := by
    intro c hc
    rw [← Bool.not_eq_true]
    intro hblank
    rcases Gamut.mem_keyword hname hc with halnum | rfl
    · rw [eq_false_of_isBlank (p := Char.isAlphanum) (by decide +kernel) hblank] at halnum
      cases halnum
    · cases hblank
  obtain ⟨front, back, heq, hfront, hback⟩ := Text.exists_trim name
  obtain rfl : front = [] := List.eq_nil_iff_forall_not_mem.mpr fun c hc => by
    have hnot := hblank c (heq ▸ List.mem_append_left _ hc)
    rw [hfront c hc] at hnot
    cases hnot
  obtain rfl : back = [] := List.eq_nil_iff_forall_not_mem.mpr fun c hc => by
    have hnot := hblank c (heq ▸ List.mem_append_right _ (List.mem_append_right _ hc))
    rw [hback c hc] at hnot
    cases hnot
  simpa using heq.symm

end

/-! ### Edits that make a mistake -/

/-- One edit that makes a common mistake in a call, and the words for it. -/
inductive Slip (call : Text) : Edit → String → Prop where
  /-- A lightness, chroma, hue or alpha becomes `none%`. -/
  | nonePercent {pre post : List Token} {t : Token} {component : Component} {x : Float}
    {name : Text} (hts : callTokens call = pre ++ t :: post) (hahead : Ahead component pre)
    (hvalue : Amount t.kind x ∨ Angle t.kind x) (hname : Text.toLower name = "none".toList) :
    Slip call ⟨t.span, name ++ ['%']⟩ ("none% is not a valid " ++ component.name)
  /-- Blanks come between the number and the sign of a percentage. -/
  | detachedPercent {t : Token} {x : Float} {digits blanks : Text} (ht : t ∈ callTokens call)
    (hkind : t.kind = .percentage x) (htext : Text.slice call t.span = digits ++ ['%'])
    (hblanks : AsciiBlanks blanks) :
    Slip call ⟨t.span, digits ++ (blanks ++ ['%'])⟩
      "Whitespace is not allowed between a number and %"
  /-- The keyword of the gamut is put in quotes. -/
  | quotedGamut {t : Token} {name : Text} {g : Gamut} {quote : Char} (ht : t ∈ callTokens call)
    (hkind : t.kind = .ident name) (hname : Gamut.ofKeyword? name = some g)
    (hquote : isQuote quote = true) :
    Slip call ⟨t.span, quote :: (Text.slice call t.span ++ [quote])⟩
      "Gamut keywords must not be quoted"
  /-- The single quotes of options whose strings are letters and digits become double ones. -/
  | doubleQuotedJson {t : Token} {value inner : Text} {members : List (Text × Json)}
    (ht : t ∈ callTokens call) (hkind : t.kind = .quoted '\x27' value true)
    (htext : Text.slice call t.span = '\x27' :: (inner ++ ['\x27']))
    (hobject : Json.ofText (Text.trim value) = .ok (.object members))
    (hstrings : ∀ s ∈ (Json.object members).texts, ∀ c ∈ s, c.isAlphanum = true) :
    Slip call ⟨t.span, '"' :: (inner ++ ['"'])⟩ "JSON options must be single-quoted"

section

variable {call front old back new : Text} {pre post ts : List Token} {t : Token} {m : Mistake}
  {c : CallArguments}

/-- The call is rejected for this mistake at the new text. -/
def Blames (strict : Bool) (call : Text) (e : Edit) (m : Mistake) : Prop :=
  let span : Span := ⟨e.span.start, e.span.start + Text.byteSize e.replacement⟩
  (parseCall strict (applyEdits call 0 [e])).value = .error ⟨m, span⟩ ∧
    Text.slice (applyEdits call 0 [e]) span = e.replacement

theorem Lexed.not_isBlank {start : Nat} {w rest : Text} (h : Lexed start w (t :: ts) rest)
    (ht : t.kind ≠ .blank) (u : Text) : ∀ c ∈ (w ++ u).head?, Text.isBlank c = false := by
  cases h with
  | cons hread hlater =>
    obtain ⟨c, v, rfl, hfirst⟩ := hread
    rintro _ ⟨⟩
    rw [← Bool.not_eq_true]
    intro hblank
    rw [firstToken, if_pos hblank] at hfirst
    exact ht (Prod.mk.inj hfirst).1.symm

/-- **New tokens that are wrong behind those in front of them are blamed.** -/
theorem ReplaceableAt.blames {first : Token} (hplace : ReplaceableAt call front old back pre t post)
    (hpost : ∀ u ∈ post, u.kind.Sound)
    (hlexed : Lexed (Text.byteSize front) new (first :: ts) back) (hfirst : first.kind ≠ .blank)
    (hwrong : Wrong m pre (first :: ts)) (strict : Bool) : Blames strict call ⟨t.span, new⟩ m := by
  obtain ⟨hstarts, post', hkinds, hcall⟩ := hplace.exchange (hlexed.not_isBlank hfirst back) hlexed
  have hpost' : ∀ u ∈ post', u.kind.Sound := by
    have hall : ∀ kind ∈ post'.map Token.kind, kind.Sound := by
      rw [hkinds]
      exact List.forall_mem_map.mpr hpost
    exact List.forall_mem_map.mp hall
  obtain ⟨last, hlast⟩ : ∃ last, (first :: ts).getLast? = some last :=
    ⟨_, List.getLast?_eq_some_getLast (List.cons_ne_nil first ts)⟩
  have hstart : t.span.start = Text.byteSize front := by rw [hplace.span_eq]
  constructor
  · dsimp only
    rw [hplace.applyEdits_eq, value_parseCall hstarts, hcall, hwrong.stuck]
    dsimp only
    rw [hwrong.explained rfl hlast hpost', hlexed.start_eq, hlexed.stop_eq hlast, hstart]
  · dsimp only
    rw [hplace.applyEdits_eq, hstart, Text.slice_append]

/-- Behind a token that divides, or at the front, a token of a call can be exchanged. -/
theorem exists_replaceable_of_eq (hcall : (parseCall false call).value = .ok c)
    (hts : callTokens call = pre ++ t :: post) (hpre : ∀ b ∈ pre.getLast?, b.kind.Divides) :
    ∃ front old back, ReplaceableAt call front old back pre t post ∧ Text.slice call t.span = old ∧
      (∀ u ∈ pre, u.kind.Sound) ∧ ∀ u ∈ post, u.kind.Sound := by
  obtain ⟨hstarts, htokens⟩ := callTokens_of_value_parseCall hcall
  obtain ⟨front, old, back, hplace⟩ := exists_replaceableAt hstarts hts hpre
  rw [hts] at htokens
  obtain ⟨hsound, hlater⟩ := List.forall_mem_append.mp htokens.sound
  obtain ⟨-, hsound'⟩ := List.forall_mem_cons.mp hlater
  refine ⟨front, old, back, hplace, ?_, hsound, hsound'⟩
  rw [hplace.span_eq, hplace.call_eq, Text.slice_append]

/-- An argument of a call can be exchanged, and so can its options. -/
theorem exists_replaceable (hcall : (parseCall false call).value = .ok c) (ht : t ∈ callTokens call)
    (hdivides : ¬ t.kind.Divides) (hclose : t.kind ≠ .closeParen) :
    ∃ front old back pre post, ReplaceableAt call front old back pre t post ∧
      Text.slice call t.span = old ∧ Role false pre t.kind post ∧ (∀ u ∈ pre, u.kind.Sound) ∧
      ∀ u ∈ post, u.kind.Sound := by
  obtain ⟨-, htokens⟩ := callTokens_of_value_parseCall hcall
  obtain ⟨pre, post, hts⟩ := List.append_of_mem ht
  rw [hts] at htokens
  have hrole := htokens.role
  obtain ⟨front, old, back, hplace, hslice, hsound⟩ :=
    exists_replaceable_of_eq hcall hts (hrole.divides_last hdivides hclose)
  exact ⟨front, old, back, pre, post, hplace, hslice, hrole, hsound⟩

theorem blames_nonePercent {component : Component} {name : Text}
    (hcall : (parseCall false call).value = .ok c) (hts : callTokens call = pre ++ t :: post)
    (hahead : Ahead component pre) (hname : Text.toLower name = "none".toList) (strict : Bool) :
    Blames strict call ⟨t.span, name ++ ['%']⟩ (.nonePercent component) := by
  obtain ⟨front, old, back, hplace, -, hpre, hpost⟩ :=
    exists_replaceable_of_eq hcall hts hahead.divides_last
  have hlexed : Lexed (Text.byteSize front) (name ++ ['%']) _ back :=
    .cons (readsAs_none hname back) (.singleton (readsAs_percent back) _)
  exact hplace.blames hpost hlexed nofun (wrong_nonePercent hahead hpre rfl hname rfl) strict

theorem blames_detachedPercent {x : Float} {digits blanks : Text}
    (hcall : (parseCall false call).value = .ok c) (ht : t ∈ callTokens call)
    (hkind : t.kind = .percentage x) (htext : Text.slice call t.span = digits ++ ['%'])
    (hblanks : AsciiBlanks blanks) (strict : Bool) :
    Blames strict call ⟨t.span, digits ++ (blanks ++ ['%'])⟩ .detachedPercent := by
  obtain ⟨front, old, back, pre, post, hplace, hslice, hrole, hpre, hpost⟩ :=
    exists_replaceable hcall ht (by simp [hkind, TokenKind.Divides]) (by simp [hkind])
  have hread := hplace.reads
  rw [hkind] at hrole hread
  obtain ⟨digits', hold, hdigits⟩ := hread.exists_percentage
  obtain rfl : digits' = digits :=
    List.append_cancel_right (hold.symm.trans (hslice.symm.trans htext))
  obtain ⟨n, b, p, hlexed, hn, hb, hp⟩ := lexed_detached hdigits hblanks (Text.byteSize front) back
  have hwrong : Wrong .detachedPercent pre [n, b, p] := by
    cases hrole with
    | divider hdivides => simp [TokenKind.Divides] at hdivides
    | amount hahead hamount => exact wrong_detachedPercent hahead hpre hn hb hp
    | angle hahead hangle => cases hangle
  exact hplace.blames hpost hlexed (by simp [hn]) hwrong strict

theorem blames_quotedGamut {name : Text} {g : Gamut} {quote : Char}
    (hcall : (parseCall false call).value = .ok c) (ht : t ∈ callTokens call)
    (hkind : t.kind = .ident name) (hname : Gamut.ofKeyword? name = some g)
    (hquote : isQuote quote = true) (strict : Bool) :
    Blames strict call ⟨t.span, quote :: (Text.slice call t.span ++ [quote])⟩ .quotedGamut := by
  obtain ⟨front, old, back, pre, post, hplace, hslice, hrole, hpre, hpost⟩ :=
    exists_replaceable hcall ht (by simp [hkind, TokenKind.Divides]) (by simp [hkind])
  have hread := hplace.reads
  rw [hkind] at hrole hread
  obtain rfl := hread.eq_name
  rw [hslice]
  obtain ⟨part, sep, d, rfl, hpart, hsep⟩ :
      ∃ part sep d, pre = part ++ sep ∧ DirectPart part d ∧ Separator sep := by
    cases hrole with
    | divider hdivides => simp [TokenKind.Divides] at hdivides
    | amount hahead hamount =>
      cases hamount with
      | none hnone => exact (toLower_keyword_ne hname hnone).elim
    | angle hahead hangle =>
      cases hangle with
      | none hnone => exact (toLower_keyword_ne hname hnone).elim
    | gamut hpart hsep _ => exact ⟨_, _, _, rfl, hpart, hsep⟩
  have hread := (quotedText_of_keyword hquote hname).readsAs hquote back
  have hlexed := Lexed.singleton hread (Text.byteSize front)
  have hvalue : Gamut.ofKeyword? (Text.trim old) = some g := by rwa [trim_keyword hname]
  exact hplace.blames hpost hlexed (by simp) (wrong_quotedGamut hpart hsep hpre rfl hvalue)
    strict

theorem blames_doubleQuotedJson {value inner : Text} {members : List (Text × Json)}
    (hcall : (parseCall false call).value = .ok c) (ht : t ∈ callTokens call)
    (hkind : t.kind = .quoted '\x27' value true)
    (htext : Text.slice call t.span = '\x27' :: (inner ++ ['\x27']))
    (hobject : Json.ofText (Text.trim value) = .ok (.object members))
    (hstrings : ∀ s ∈ (Json.object members).texts, ∀ c ∈ s, c.isAlphanum = true) (strict : Bool) :
    Blames strict call ⟨t.span, '"' :: (inner ++ ['"'])⟩ .doubleQuotedJson := by
  obtain ⟨front, old, back, pre, post, hplace, hslice, hrole, hpre, hpost⟩ :=
    exists_replaceable hcall ht (by simp [hkind, TokenKind.Divides]) (by simp [hkind])
  have hread := hplace.reads
  rw [hkind] at hrole hread
  obtain ⟨raw, hold, hraw⟩ := hread.exists_quoted
  -- without an apostrophe among them the characters between the quotes are the value
  obtain rfl : raw = value := hraw.eq_of_not_mem (no_apostrophe_of_object hobject hstrings)
  obtain rfl : inner = raw := by
    have heq := (htext.symm.trans hslice).trans hold
    exact List.append_cancel_right (List.cons.inj heq).2
  obtain ⟨ts, hlexed, hfine, ⟨first, hfirst, hopens⟩, last, hlast, hquoted⟩ :=
    exists_tokens_of_object hobject hstrings (Text.byteSize front) back
  have hwrong : Wrong .doubleQuotedJson pre ts := by
    cases hrole with
    | divider hdivides => simp [TokenKind.Divides] at hdivides
    | amount hahead hamount => cases hamount
    | angle hahead hangle => cases hangle
    | options hpart hsep hvalue =>
      exact wrong_doubleQuotedJson hpart hsep hpre hfine hfirst hopens hlast hquoted
  obtain ⟨later, rfl⟩ := List.head?_eq_some_iff.mp hfirst
  have hblank : first.kind ≠ .blank := by
    intro hkind
    simp [opensObject, hkind] at hopens
  exact hplace.blames hpost hlexed hblank hwrong strict

end

/-- **Every common mistake is called by its name.**  Whatever call was read, an edit that makes one
    of the mistakes has it rejected in both modes with the words for this mistake, and the
    problem covers the new text, neither more nor less. -/
theorem slip_rejected_with_its_message {call : Text} {c : CallArguments} {e : Edit}
    {message : String} (hcall : (parseCall false call).value = .ok c) (hslip : Slip call e message)
    (strict : Bool) :
    ∃ p : Problem, (parseCall strict (applyEdits call 0 [e])).value = .error p ∧
      p.mistake.message = message ∧
      p.span = ⟨e.span.start, e.span.start + Text.byteSize e.replacement⟩ ∧
      Text.slice (applyEdits call 0 [e]) p.span = e.replacement := by
  suffices hblames : ∃ m : Mistake, Blames strict call e m ∧ m.message = message by
    obtain ⟨m, ⟨hvalue, hslice⟩, hmessage⟩ := hblames
    exact ⟨_, hvalue, hmessage, rfl, hslice⟩
  cases hslip with
  | @nonePercent _ _ _ component _ _ hts hahead hvalue hname =>
    exact ⟨_, blames_nonePercent hcall hts hahead hname strict, by cases component <;> rfl⟩
  | detachedPercent ht hkind htext hblanks =>
    exact ⟨_, blames_detachedPercent hcall ht hkind htext hblanks strict, rfl⟩
  | quotedGamut ht hkind hname hquote =>
    exact ⟨_, blames_quotedGamut hcall ht hkind hname hquote strict, rfl⟩
  | doubleQuotedJson ht hkind htext hobject hstrings =>
    exact ⟨_, blames_doubleQuotedJson hcall ht hkind htext hobject hstrings strict, rfl⟩

theorem slips_rejected_in_one_call :
    let call : Text := "Egal(50%, none 0/25% REC.2020 '\x7b\"k\": [\"1\", \"\"]\x7d')".toList
    let rejected (edited message : String) (start stop : Nat) : Prop :=
      ∃ p : Problem, (parseCall true edited.toList).value = .error p ∧ p.mistake.message = message ∧
        p.span = ⟨start, stop⟩
    (∃ c, (parseCall false call).value = .ok c) ∧
      rejected "Egal(NONE%, none 0/25% REC.2020 '\x7b\"k\": [\"1\", \"\"]\x7d')"
        "none% is not a valid lightness" 5 10 ∧
      rejected "Egal(50%, none 0/25\n % REC.2020 '\x7b\"k\": [\"1\", \"\"]\x7d')"
        "Whitespace is not allowed between a number and %" 17 22 ∧
      rejected "Egal(50%, none 0/25% \"REC.2020\" '\x7b\"k\": [\"1\", \"\"]\x7d')"
        "Gamut keywords must not be quoted" 21 31 ∧
      rejected "Egal(50%, none 0/25% REC.2020 \"\x7b\"k\": [\"1\", \"\"]\x7d\")"
        "JSON options must be single-quoted" 30 48 := by
  intro call rejected
  let options : Text := "\x7b\"k\": [\"1\", \"\"]\x7d".toList
  let c : CallArguments := ⟨numberValue "50".toList / 100.0, 0.0, numberValue "0".toList,
    some (numberValue "25".toList / 100.0), some .rec2020, some Layer.empty⟩
  have hcall : (parseCall false call).value = .ok c := by with_unfolding_all rfl
  have hrejected : ∀ {e edited message start stop}, Slip call e message →
      applyEdits call 0 [e] = edited.toList → e.span.start = start →
      start + Text.byteSize e.replacement = stop → rejected edited message start stop := by
    rintro e edited message _ _ hslip hedited rfl rfl
    obtain ⟨p, hvalue, hmessage, hspan, -⟩ := slip_rejected_with_its_message hcall hslip true
    exact ⟨p, hedited ▸ hvalue, hmessage, hspan⟩
  obtain ⟨post, hts⟩ :
      ∃ post, callTokens call = [] ++ ⟨.percentage (numberValue "50".toList), 5, 8⟩ :: post :=
    List.head?_eq_some_iff.mp (by with_unfolding_all rfl)
  have hpercentage : ⟨.percentage (numberValue "25".toList), 17, 20⟩ ∈ callTokens call :=
    List.mem_of_getElem? (i := 7) (by with_unfolding_all rfl)
  have hgamut : ⟨.ident "REC.2020".toList, 21, 29⟩ ∈ callTokens call :=
    List.mem_of_getElem? (i := 9) (by decide +kernel)
  have hoptions : ⟨.quoted '\x27' options true, 30, 48⟩ ∈ callTokens call :=
    List.mem_of_getElem? (i := 11) (by decide +kernel)
  let members : List (Text × Json) := [("k".toList, .array [.string "1".toList, .string []])]
  have hobject : Json.ofText (Text.trim options) = .ok (.object members) := by
    with_unfolding_all rfl
  have hall : (Json.object members).texts.all (·.all Char.isAlphanum) = true := by decide
  have hnone : Text.toLower "NONE".toList = "none".toList := by decide
  have hdigits : Text.slice call ⟨17, 20⟩ = "25".toList ++ ['%'] := by decide
  have hblanks : AsciiBlanks "\n ".toList := ⟨by decide, Text.forall_of_all (by decide)⟩
  have hquote : isQuote '"' = true := rfl
  have hinner : Text.slice call ⟨30, 48⟩ = '\x27' :: (options ++ ['\x27']) := by decide
  refine ⟨⟨c, hcall⟩, ?_, ?_, ?_, ?_⟩
  · exact hrejected (.nonePercent hts (.lightness nofun) (.inl (.percentage _)) hnone) (by decide)
      rfl (by decide)
  · exact hrejected (.detachedPercent hpercentage rfl hdigits hblanks) (by decide) rfl (by decide)
  · exact hrejected (.quotedGamut hgamut rfl rfl hquote) (by decide) rfl (by decide)
  · have hstrings : ∀ s ∈ (Json.object members).texts, ∀ c ∈ s, c.isAlphanum = true :=
      fun s hs => List.all_eq_true.mp (List.all_eq_true.mp hall s hs)
    exact hrejected (.doubleQuotedJson hoptions rfl hinner hobject hstrings) (by decide) rfl
      (by decide)

end EvenChroma.Css
