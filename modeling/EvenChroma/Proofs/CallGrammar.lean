/-
  EvenChroma/Proofs/CallGrammar.lean
  ==================================
  **A call is read if and only if it follows the grammar.**  The grammar is given as a
  relation between tokens and the arguments that they denote (`CallTokens`), with
  optional parts that may be absent; the reader decides at each of them from what comes
  after one separator, and never has to take a decision back.
-/
import EvenChroma.Css.Mistakes
import Mathlib.Tactic.SplitIfs

namespace EvenChroma.Css

/-! ### The grammar -/

/-- Any number of blanks. -/
def Blanks (ts : List Token) : Prop := ∀ t ∈ ts, t.kind = .blank

/-- Blanks with at most one comma among them, and one token at least. -/
structure Separator (ts : List Token) : Prop where
  nonempty : ts ≠ []
  separators : ∀ t ∈ ts, t.kind = .blank ∨ t.kind = .comma
  commas : ts.countP (·.kind = .comma) ≤ 1

/-- A number, a percentage or `none`, and the value of it. -/
inductive Amount : TokenKind → Float → Prop where
  | number (n : Float) : Amount (.number n) n
  | percentage (n : Float) : Amount (.percentage n) (n / 100.0)
  | none {name : Text} (hname : Text.toLower name = "none".toList) : Amount (.ident name) 0.0

/-- A unit of angles, in letters of either case, and how many degrees it has. -/
inductive AngleUnit : Text → Float → Prop where
  | deg {unit : Text} (hunit : Text.toLower unit = "deg".toList) : AngleUnit unit 1.0
  | grad {unit : Text} (hunit : Text.toLower unit = "grad".toList) :
    AngleUnit unit (360.0 / 400.0)
  | rad {unit : Text} (hunit : Text.toLower unit = "rad".toList) :
    AngleUnit unit (180.0 / Double.pi)
  | turn {unit : Text} (hunit : Text.toLower unit = "turn".toList) : AngleUnit unit 360.0

/-- A number of degrees, an angle with a unit or `none`, and the degrees of it. -/
inductive Angle : TokenKind → Float → Prop where
  | number (n : Float) : Angle (.number n) n
  | dimension (n : Float) {unit : Text} {k : Float} (hunit : AngleUnit unit k) :
    Angle (.dimension n unit) (n * k)
  | none {name : Text} (hname : Text.toLower name = "none".toList) : Angle (.ident name) 0.0

/-- Lightness, chroma and hue, apart by separators. -/
inductive RequiredPart : List Token → (lightness chroma hue : Float) → Prop where
  | intro {front sep sep' : List Token} {l c h : Token} {lightness chroma hue : Float}
    (hfront : Blanks front) (hlightness : Amount l.kind lightness)
    (hsep : Separator sep) (hchroma : Amount c.kind chroma)
    (hsep' : Separator sep') (hhue : Angle h.kind hue) :
    RequiredPart (front ++ l :: (sep ++ c :: (sep' ++ [h]))) lightness chroma hue

/-- Nothing, or a slash and an alpha, with blanks around the slash. -/
inductive AlphaPart : List Token → Option Float → Prop where
  | absent : AlphaPart [] none
  | present {before after : List Token} {slash value : Token} {x : Float}
    (hbefore : Blanks before) (hslash : slash.kind = .slash) (hafter : Blanks after)
    (hvalue : Amount value.kind x) :
    AlphaPart (before ++ slash :: (after ++ [value])) (some x)

/-- Nothing, or a separator and a gamut keyword. -/
inductive GamutPart : List Token → Option Gamut → Prop where
  | absent : GamutPart [] none
  | present {sep : List Token} {t : Token} {name : Text} {g : Gamut} (hsep : Separator sep)
    (hkind : t.kind = .ident name) (hname : Gamut.ofKeyword? name = some g) :
    GamutPart (sep ++ [t]) (some g)

/-- What stands between the single quotes, and the options that it gives: blanks give
    none, an object gives its own, and an object that is no set of options is refused in
    strict mode and gives none otherwise. -/
inductive OptionsText (strict : Bool) (value : Text) : Option (Layer Float) → Prop where
  | empty (hempty : Text.trim value = []) : OptionsText strict value none
  | object {layer : Layer Float} (hopen : (Text.trim value).head? = some '\x7b')
    (hclose : (Text.trim value).getLast? = some '\x7d')
    (hlayer : Layer.ofJson (Text.trim value) = .ok layer) : OptionsText strict value (some layer)
  | ignored {e : OptionsError} (hopen : (Text.trim value).head? = some '\x7b')
    (hclose : (Text.trim value).getLast? = some '\x7d')
    (herror : Layer.ofJson (Text.trim value) = .error e) (hlenient : strict = false) :
    OptionsText strict value none

/-- Nothing, or a separator and options in single quotes. -/
inductive OptionsPart (strict : Bool) : List Token → Option (Layer Float) → Prop where
  | absent : OptionsPart strict [] none
  | present {sep : List Token} {t : Token} {value : Text} {json : Option (Layer Float)}
    (hsep : Separator sep) (hkind : t.kind = .quoted '\x27' value true)
    (hvalue : OptionsText strict value json) :
    OptionsPart strict (sep ++ [t]) json

/-- The tokens of a call behind its opening parenthesis, and the arguments they denote. -/
inductive CallTokens (strict : Bool) : List Token → CallArguments → Prop where
  | intro {requiredPart alphaPart gamutPart optionsPart back : List Token} {close : Token}
    {lightness chroma hue : Float} {alpha : Option Float} {gamut : Option Gamut}
    {json : Option (Layer Float)}
    (hrequired : RequiredPart requiredPart lightness chroma hue)
    (halpha : AlphaPart alphaPart alpha) (hgamut : GamutPart gamutPart gamut)
    (hoptions : OptionsPart strict optionsPart json)
    (hback : Blanks back) (hclose : close.kind = .closeParen) :
    CallTokens strict
      (requiredPart ++ (alphaPart ++ (gamutPart ++ (optionsPart ++ (back ++ [close])))))
      ⟨lightness, chroma, hue, alpha, gamut, json⟩

/-! ### Only the kinds of the tokens count -/

section

variable {strict : Bool} {ts ts' : List Token} {lightness chroma hue : Float}
  {alpha : Option Float} {g : Option Gamut} {json : Option (Layer Float)} {c : CallArguments}

theorem Blanks.congr (h : Blanks ts) (hkinds : ts'.map Token.kind = ts.map Token.kind) :
    Blanks ts' := by
  have hall : ∀ k ∈ ts.map Token.kind, k = .blank := List.forall_mem_map.mpr h
  rw [← hkinds] at hall
  exact List.forall_mem_map.mp hall

theorem Separator.congr (h : Separator ts) (hkinds : ts'.map Token.kind = ts.map Token.kind) :
    Separator ts' := by
  have hall : ∀ k ∈ ts.map Token.kind, k = .blank ∨ k = .comma :=
    List.forall_mem_map.mpr h.separators
  have hcount : ∀ ts : List Token, ts.countP (·.kind = .comma)
      = (ts.map Token.kind).countP (· = .comma) := by
    intro ts
    rw [List.countP_map]
    rfl
  refine ⟨?_, ?_, ?_⟩
  · rintro rfl
    exact h.nonempty (List.map_eq_nil_iff.mp hkinds.symm)
  · rw [← hkinds] at hall
    exact List.forall_mem_map.mp hall
  · rw [hcount, hkinds, ← hcount]
    exact h.commas

theorem RequiredPart.congr (h : RequiredPart ts lightness chroma hue)
    (hkinds : ts'.map Token.kind = ts.map Token.kind) :
    RequiredPart ts' lightness chroma hue := by
  obtain ⟨hfront, hlightness, hsep, hchroma, hsep', hhue⟩ := h
  rw [List.map_append, List.map_cons, List.map_append, List.map_cons, List.map_append] at hkinds
  obtain ⟨front, _, rfl, hfront', hkinds⟩ := List.map_eq_append_iff.mp hkinds
  obtain ⟨l, _, rfl, hl, hkinds⟩ := List.map_eq_cons_iff.mp hkinds
  obtain ⟨sep, _, rfl, hseps, hkinds⟩ := List.map_eq_append_iff.mp hkinds
  obtain ⟨c, _, rfl, hc, hkinds⟩ := List.map_eq_cons_iff.mp hkinds
  obtain ⟨sep', _, rfl, hseps', hkinds⟩ := List.map_eq_append_iff.mp hkinds
  obtain ⟨h, _, rfl, hh, hkinds⟩ := List.map_eq_cons_iff.mp hkinds
  obtain rfl := List.map_eq_nil_iff.mp hkinds
  exact .intro (hfront.congr hfront') (hl ▸ hlightness) (hsep.congr hseps) (hc ▸ hchroma)
    (hsep'.congr hseps') (hh ▸ hhue)

theorem AlphaPart.congr (h : AlphaPart ts alpha)
    (hkinds : ts'.map Token.kind = ts.map Token.kind) : AlphaPart ts' alpha := by
  cases h with
  | absent =>
    obtain rfl := List.map_eq_nil_iff.mp hkinds
    exact .absent
  | present hbefore hslash hafter hvalue =>
    rw [List.map_append, List.map_cons, List.map_append] at hkinds
    obtain ⟨before, _, rfl, hbefore', hkinds⟩ := List.map_eq_append_iff.mp hkinds
    obtain ⟨slash, _, rfl, hslash', hkinds⟩ := List.map_eq_cons_iff.mp hkinds
    obtain ⟨after, _, rfl, hafter', hkinds⟩ := List.map_eq_append_iff.mp hkinds
    obtain ⟨value, _, rfl, hvalue', hkinds⟩ := List.map_eq_cons_iff.mp hkinds
    obtain rfl := List.map_eq_nil_iff.mp hkinds
    exact .present (hbefore.congr hbefore') (hslash'.trans hslash) (hafter.congr hafter')
      (hvalue' ▸ hvalue)

theorem exists_separated {sep : List Token} {t : Token} (hsep : Separator sep)
    (hkinds : ts'.map Token.kind = (sep ++ [t]).map Token.kind) :
    ∃ sep' t', ts' = sep' ++ [t'] ∧ Separator sep' ∧ t'.kind = t.kind := by
  rw [List.map_append] at hkinds
  obtain ⟨sep', _, rfl, hseps, hkinds⟩ := List.map_eq_append_iff.mp hkinds
  obtain ⟨t', _, rfl, ht, hkinds⟩ := List.map_eq_cons_iff.mp hkinds
  obtain rfl := List.map_eq_nil_iff.mp hkinds
  exact ⟨sep', t', rfl, hsep.congr hseps, ht⟩

theorem GamutPart.congr (h : GamutPart ts g)
    (hkinds : ts'.map Token.kind = ts.map Token.kind) : GamutPart ts' g := by
  cases h with
  | absent =>
    obtain rfl := List.map_eq_nil_iff.mp hkinds
    exact .absent
  | present hsep hkind hname =>
    obtain ⟨sep', t', rfl, hsep', ht'⟩ := exists_separated hsep hkinds
    exact .present hsep' (ht'.trans hkind) hname

theorem OptionsPart.congr (h : OptionsPart strict ts json)
    (hkinds : ts'.map Token.kind = ts.map Token.kind) : OptionsPart strict ts' json := by
  cases h with
  | absent =>
    obtain rfl := List.map_eq_nil_iff.mp hkinds
    exact .absent
  | present hsep hkind hvalue =>
    obtain ⟨sep', t', rfl, hsep', ht'⟩ := exists_separated hsep hkinds
    exact .present hsep' (ht'.trans hkind) hvalue

/-- **Where the tokens stand has no part in what they denote.** -/
theorem CallTokens.congr (h : CallTokens strict ts c)
    (hkinds : ts'.map Token.kind = ts.map Token.kind) : CallTokens strict ts' c := by
  obtain ⟨hrequired, halpha, hgamut, hoptions, hback, hclose⟩ := h
  rw [List.map_append, List.map_append, List.map_append, List.map_append, List.map_append]
    at hkinds
  obtain ⟨requiredPart, _, rfl, hrequired', hkinds⟩ := List.map_eq_append_iff.mp hkinds
  obtain ⟨alphaPart, _, rfl, halpha', hkinds⟩ := List.map_eq_append_iff.mp hkinds
  obtain ⟨gamutPart, _, rfl, hgamut', hkinds⟩ := List.map_eq_append_iff.mp hkinds
  obtain ⟨optionsPart, _, rfl, hoptions', hkinds⟩ := List.map_eq_append_iff.mp hkinds
  obtain ⟨back, _, rfl, hback', hkinds⟩ := List.map_eq_append_iff.mp hkinds
  obtain ⟨close, _, rfl, hclose', hkinds⟩ := List.map_eq_cons_iff.mp hkinds
  obtain rfl := List.map_eq_nil_iff.mp hkinds
  exact .intro (hrequired.congr hrequired') (halpha.congr halpha') (hgamut.congr hgamut')
    (hoptions.congr hoptions') (hback.congr hback') (hclose'.trans hclose)

end

/-! ### Values -/

theorem ofList_eq_iff {t : Text} {s : String} : String.ofList t = s ↔ t = s.toList := by
  constructor
  · rintro rfl
    exact String.toList_ofList.symm
  · rintro rfl
    exact String.ofList_toList

theorem sameIgnoringCase_noneWord {name : Text} :
    Text.sameIgnoringCase name noneWord = true ↔ Text.toLower name = "none".toList := by
  rw [Text.sameIgnoringCase, beq_iff_eq]
  rfl

theorem amount?_eq_some_iff {k : TokenKind} {x : Float} : k.amount? = some x ↔ Amount k x := by
  constructor
  · intro h
    unfold TokenKind.amount? at h
    split at h
    · obtain rfl := Option.some.inj h
      exact Amount.number _
    · obtain rfl := Option.some.inj h
      exact Amount.percentage _
    · split_ifs at h with hname
      obtain rfl := Option.some.inj h
      exact Amount.none (sameIgnoringCase_noneWord.mp hname)
    · cases h
  · intro h
    cases h with
    | number => rfl
    | percentage => rfl
    | none hname => exact if_pos (sameIgnoringCase_noneWord.mpr hname)

theorem degreesPer?_eq_some_iff {unit : Text} {k : Float} :
    degreesPer? unit = some k ↔ AngleUnit unit k := by
  unfold degreesPer?
  simp only [ofList_eq_iff]
  constructor
  · intro h
    split_ifs at h with hdeg hgrad hrad hturn
    · exact Option.some.inj h ▸ AngleUnit.deg hdeg
    · exact Option.some.inj h ▸ AngleUnit.grad hgrad
    · exact Option.some.inj h ▸ AngleUnit.rad hrad
    · exact Option.some.inj h ▸ AngleUnit.turn hturn
  · intro h
    cases h with
    | deg hunit => simp [hunit]
    | grad hunit => simp [hunit]
    | rad hunit => simp [hunit]
    | turn hunit => simp [hunit]

theorem angle?_eq_some_iff {k : TokenKind} {x : Float} : k.angle? = some x ↔ Angle k x := by
  constructor
  · intro h
    unfold TokenKind.angle? at h
    split at h
    · obtain rfl := Option.some.inj h
      exact Angle.number _
    · obtain ⟨k, hunit, rfl⟩ := Option.map_eq_some_iff.mp h
      exact Angle.dimension _ (degreesPer?_eq_some_iff.mp hunit)
    · split_ifs at h with hname
      obtain rfl := Option.some.inj h
      exact Angle.none (sameIgnoringCase_noneWord.mp hname)
    · cases h
  · intro h
    cases h with
    | number => rfl
    | dimension n hunit =>
      exact Option.map_eq_some_iff.mpr ⟨_, degreesPer?_eq_some_iff.mpr hunit, rfl⟩
    | none hname => exact if_pos (sameIgnoringCase_noneWord.mpr hname)

theorem value?_cons {read : TokenKind → Option Float} {t : Token} {ts : List Token} {x : Float}
    (h : read t.kind = some x) : value? read (t :: ts) = some (x, ts) := by
  rw [value?, h, Option.map_some]

theorem exists_value {read : TokenKind → Option Float} {ts rest : List Token} {x : Float}
    (h : value? read ts = some (x, rest)) : ∃ t, ts = t :: rest ∧ read t.kind = some x := by
  cases ts with
  | nil => cases h
  | cons t ts =>
    obtain ⟨y, hread, hpair⟩ := Option.map_eq_some_iff.mp h
    obtain ⟨rfl, rfl⟩ := Prod.mk.inj hpair
    exact ⟨t, rfl, hread⟩

/-! ### Blanks and separators -/

theorem skipBlanks_append {front ts : List Token} (hfront : Blanks front)
    (hts : ∀ t ∈ ts.head?, t.kind ≠ .blank) : skipBlanks (front ++ ts) = ts := by
  induction front with
  | nil =>
    cases ts with
    | nil => rfl
    | cons t ts => exact if_neg (hts t rfl)
  | cons b front ih =>
    obtain ⟨hb, hfront⟩ := List.forall_mem_cons.mp hfront
    rw [List.cons_append, skipBlanks, if_pos hb]
    exact ih hfront

theorem exists_blanks (ts : List Token) : ∃ front, Blanks front ∧ ts = front ++ skipBlanks ts := by
  induction ts with
  | nil => exact ⟨[], by simp [Blanks], rfl⟩
  | cons t ts ih =>
    by_cases ht : t.kind = .blank
    · obtain ⟨front, hfront, hts⟩ := ih
      refine ⟨t :: front, List.forall_mem_cons.mpr ⟨ht, hfront⟩, ?_⟩
      rw [skipBlanks, if_pos ht, List.cons_append, ← hts]
    · exact ⟨[], by simp [Blanks], by rw [skipBlanks, if_neg ht, List.nil_append]⟩

/-- Separators are passed as long as one comma at most is among them, or none if a comma
    was seen. -/
theorem afterSeparator_append {comma : Bool} {sep ts : List Token}
    (hsep : ∀ t ∈ sep, t.kind = .blank ∨ t.kind = .comma)
    (hcommas : sep.countP (·.kind = .comma) + comma.toNat ≤ 1)
    (hts : ∀ t ∈ ts.head?, t.kind ≠ .blank ∧ t.kind ≠ .comma) :
    afterSeparator comma (sep ++ ts) = ts := by
  induction sep generalizing comma with
  | nil =>
    cases ts with
    | nil => rfl
    | cons t ts =>
      obtain ⟨hblank, hcomma⟩ := hts t rfl
      simp [afterSeparator, hblank, hcomma]
  | cons t sep ih =>
    obtain ⟨ht, hsep⟩ := List.forall_mem_cons.mp hsep
    rw [List.countP_cons] at hcommas
    rcases ht with ht | ht
    · rw [List.cons_append, afterSeparator, if_pos ht]
      exact ih hsep (by simpa [ht] using hcommas)
    · cases comma with
      | true => simp [ht] at hcommas
      | false =>
        have hblank : t.kind ≠ .blank := by simp [ht]
        rw [List.cons_append, afterSeparator, if_neg hblank, if_pos (by simp [ht])]
        exact ih hsep (by simpa [ht] using hcommas)

theorem exists_separators (comma : Bool) (ts : List Token) :
    ∃ sep, (∀ t ∈ sep, t.kind = .blank ∨ t.kind = .comma) ∧
      sep.countP (·.kind = .comma) + comma.toNat ≤ 1 ∧
      ts = sep ++ afterSeparator comma ts := by
  induction ts generalizing comma with
  | nil => exact ⟨[], by simp, by cases comma <;> simp, rfl⟩
  | cons t ts ih =>
    unfold afterSeparator
    split_ifs with hblank hcomma
    · obtain ⟨sep, hsep, hcommas, hts⟩ := ih comma
      refine ⟨t :: sep, List.forall_mem_cons.mpr ⟨.inl hblank, hsep⟩, ?_, congrArg (t :: ·) hts⟩
      simpa [hblank] using hcommas
    · obtain ⟨sep, hsep, hcommas, hts⟩ := ih true
      simp only [Bool.and_eq_true, decide_eq_true_eq, Bool.not_eq_true'] at hcomma
      obtain ⟨hcomma, rfl⟩ := hcomma
      refine ⟨t :: sep, List.forall_mem_cons.mpr ⟨.inr hcomma, hsep⟩, ?_, congrArg (t :: ·) hts⟩
      simpa [hcomma] using hcommas
    · exact ⟨[], by simp, by cases comma <;> simp, rfl⟩

theorem separator?_append {sep ts : List Token} (hsep : Separator sep)
    (hts : ∀ t ∈ ts.head?, t.kind ≠ .blank ∧ t.kind ≠ .comma) :
    separator? (sep ++ ts) = some ts := by
  cases sep with
  | nil => exact (hsep.nonempty rfl).elim
  | cons t sep =>
    have hseparator : t.isSeparator = true := by
      rcases hsep.separators t (by simp) with h | h <;> simp [Token.isSeparator, h]
    rw [List.cons_append, separator?, if_pos hseparator, ← List.cons_append,
      afterSeparator_append hsep.separators (by simpa using hsep.commas) hts]

theorem exists_separator {ts rest : List Token} (h : separator? ts = some rest) :
    ∃ sep, Separator sep ∧ ts = sep ++ rest := by
  cases ts with
  | nil => cases h
  | cons t ts =>
    rw [separator?] at h
    split_ifs at h with hseparator
    obtain rfl := Option.some.inj h
    obtain ⟨sep, hsep, hcommas, hts⟩ := exists_separators false (t :: ts)
    refine ⟨sep, ⟨?_, hsep, by simpa using hcommas⟩, hts⟩
    -- the first token is a separator, so something is passed
    rintro rfl
    have hlength := congrArg List.length hts
    simp only [Token.isSeparator, Bool.or_eq_true, decide_eq_true_eq] at hseparator
    rcases hseparator with hblank | hcomma
    · obtain ⟨sep, -, -, hlater⟩ := exists_separators false ts
      have := congrArg List.length hlater
      simp [afterSeparator, hblank] at hlength this
      omega
    · obtain ⟨sep, -, -, hlater⟩ := exists_separators true ts
      have := congrArg List.length hlater
      simp [afterSeparator, hcomma] at hlength this
      omega

/-! ### Parts of a call -/

theorem Amount.ne_separator {k : TokenKind} {x : Float} (h : Amount k x) :
    k ≠ .blank ∧ k ≠ .comma := by
  cases h with
  | number => simp
  | percentage => simp
  | none => simp

theorem Angle.ne_separator {k : TokenKind} {x : Float} (h : Angle k x) :
    k ≠ .blank ∧ k ≠ .comma := by
  cases h with
  | number => simp
  | dimension => simp
  | none => simp

theorem required?_append {part rest : List Token} {lightness chroma hue : Float}
    (h : RequiredPart part lightness chroma hue) :
    required? (part ++ rest) = some (.plain lightness chroma hue, rest) := by
  obtain ⟨hfront, hlightness, hsep, hchroma, hsep', hhue⟩ := h
  simp only [required?, List.append_assoc, List.cons_append, List.nil_append,
    Option.bind_eq_bind]
  rw [skipBlanks_append hfront (by simpa using hlightness.ne_separator.1),
    value?_cons (amount?_eq_some_iff.mpr hlightness), Option.bind_some,
    separator?_append hsep (by simpa using hchroma.ne_separator), Option.bind_some,
    value?_cons (amount?_eq_some_iff.mpr hchroma), Option.bind_some,
    separator?_append hsep' (by simpa using hhue.ne_separator), Option.bind_some,
    value?_cons (angle?_eq_some_iff.mpr hhue), Option.bind_some]

theorem exists_requiredPart {ts rest : List Token} {c : CallArguments}
    (h : required? ts = some (c, rest)) :
    ∃ part lightness chroma hue, RequiredPart part lightness chroma hue ∧
      ts = part ++ rest ∧ c = .plain lightness chroma hue := by
  simp only [required?, Option.bind_eq_bind, Option.bind_eq_some_iff, Prod.exists,
    Option.some.injEq, Prod.mk.injEq] at h
  obtain ⟨x, ts₁, hx, ts₂, hts₂, y, ts₃, hy, ts₄, hts₄, z, ts₅, hz, rfl, rfl⟩ := h
  obtain ⟨front, hfront, hts⟩ := exists_blanks ts
  obtain ⟨l, hts₁, hlightness⟩ := exists_value hx
  obtain ⟨sep, hsep, rfl⟩ := exists_separator hts₂
  obtain ⟨c, rfl, hchroma⟩ := exists_value hy
  obtain ⟨sep', hsep', rfl⟩ := exists_separator hts₄
  obtain ⟨h, rfl, hhue⟩ := exists_value hz
  refine ⟨_, x, y, z, .intro hfront (amount?_eq_some_iff.mp hlightness) hsep
    (amount?_eq_some_iff.mp hchroma) hsep' (angle?_eq_some_iff.mp hhue), ?_, rfl⟩
  rw [hts, hts₁]
  simp

/-- What decides about the optional parts is the token that leads on behind a separator, or
    at once. -/
structure Leads (sep : List Token) (t : Token) : Prop where
  separators : sep = [] ∨ Separator sep
  not_separator : t.kind ≠ .blank ∧ t.kind ≠ .comma

theorem Blanks.eq_nil_or_separator {ts : List Token} (h : Blanks ts) : ts = [] ∨ Separator ts := by
  cases ts with
  | nil => exact .inl rfl
  | cons t ts =>
    refine .inr ⟨by simp, fun u hu => .inl (h u hu), ?_⟩
    have hzero : (t :: ts).countP (·.kind = .comma) = 0 :=
      List.countP_eq_zero.mpr fun u hu => by simp [h u hu]
    rw [hzero]
    exact Nat.zero_le 1

theorem separator?_leads {sep ts : List Token} {t : Token} (h : Leads sep t) :
    separator? (sep ++ t :: ts) = if sep = [] then none else some (t :: ts) := by
  rcases h.separators with rfl | hsep
  · have ht : t.isSeparator = false := by simp [Token.isSeparator, h.not_separator]
    simp [separator?, ht]
  · rw [if_neg hsep.nonempty, separator?_append hsep (by simpa using h.not_separator)]

/-- Behind the blanks of a separator comes its comma, or what comes behind the separator. -/
theorem head?_skipBlanks {sep ts : List Token} {t : Token}
    (hsep : ∀ u ∈ sep, u.kind = .blank ∨ u.kind = .comma) (ht : t.kind ≠ .blank) :
    ∀ u ∈ (skipBlanks (sep ++ t :: ts)).head?, u.kind = .comma ∨ u = t := by
  induction sep with
  | nil =>
    intro u hu
    rw [List.nil_append, skipBlanks, if_neg ht] at hu
    exact .inr (Option.some.inj hu).symm
  | cons s sep ih =>
    obtain ⟨hs, hsep⟩ := List.forall_mem_cons.mp hsep
    intro u hu
    rw [List.cons_append, skipBlanks] at hu
    rcases hs with hs | hs
    · rw [if_pos hs] at hu
      exact ih hsep u hu
    · rw [if_neg (by simp [hs])] at hu
      obtain rfl := Option.some.inj hu
      exact .inl hs

theorem alpha?_present {part rest : List Token} {x : Float} (h : AlphaPart part (some x)) :
    alpha? (part ++ rest) = some (some x, rest) := by
  cases h with
  | present hbefore hslash hafter hvalue =>
    rw [List.append_assoc, List.cons_append, List.append_assoc, alpha?,
      skipBlanks_append hbefore (by simp [hslash])]
    simp only [hslash, if_true]
    rw [skipBlanks_append hafter (by simpa using hvalue.ne_separator.1), List.singleton_append,
      value?_cons (amount?_eq_some_iff.mpr hvalue), Option.map_some]

theorem alpha?_absent {sep ts : List Token} {t : Token} (h : Leads sep t)
    (ht : t.kind ≠ .slash) : alpha? (sep ++ t :: ts) = some (none, sep ++ t :: ts) := by
  have hsep : ∀ u ∈ sep, u.kind = .blank ∨ u.kind = .comma := by
    rcases h.separators with rfl | hsep
    · simp
    · exact hsep.separators
  have hhead : ∀ u ∈ (skipBlanks (sep ++ t :: ts)).head?, u.kind = .comma ∨ u = t :=
    head?_skipBlanks hsep h.not_separator.1
  rw [alpha?]
  split
  · next u after hu =>
    have hslash : u.kind ≠ .slash := by
      rcases hhead u (by rw [hu]; rfl) with hcomma | rfl
      · simp [hcomma]
      · exact ht
    rw [if_neg hslash]
  · rfl

theorem exists_alphaPart {ts rest : List Token} {alpha : Option Float}
    (h : alpha? ts = some (alpha, rest)) : ∃ part, AlphaPart part alpha ∧ ts = part ++ rest := by
  obtain ⟨before, hbefore, hts⟩ := exists_blanks ts
  rw [alpha?] at h
  split at h
  · next slash after hslash =>
    split_ifs at h with hkind
    · obtain ⟨⟨x, rest⟩, hvalue, hpair⟩ := Option.map_eq_some_iff.mp h
      obtain ⟨rfl, rfl⟩ := Prod.mk.inj hpair
      obtain ⟨blanks, hblanks, hafter⟩ := exists_blanks after
      obtain ⟨value, hrest, hx⟩ := exists_value hvalue
      refine ⟨_, .present hbefore hkind hblanks (amount?_eq_some_iff.mp hx), ?_⟩
      rw [hts, hslash, hafter, hrest]
      simp
    · obtain ⟨rfl, rfl⟩ := Prod.mk.inj (Option.some.inj h)
      exact ⟨[], .absent, rfl⟩
  · obtain ⟨rfl, rfl⟩ := Prod.mk.inj (Option.some.inj h)
    exact ⟨[], .absent, rfl⟩

theorem gamut_present {part rest : List Token} {g : Gamut} (h : GamutPart part (some g)) :
    gamut (part ++ rest) = (some g, rest) := by
  cases h with
  | @present sep t name g hsep hkind hname =>
    obtain ⟨kind, span⟩ := t
    obtain rfl : kind = .ident name := hkind
    rw [List.append_assoc, List.singleton_append, gamut, separator?_append hsep (by simp)]
    simp only [hname]

theorem gamut_absent {sep ts : List Token} {t : Token} (h : Leads sep t)
    (ht : ∀ name, t.kind ≠ .ident name) : gamut (sep ++ t :: ts) = (none, sep ++ t :: ts) := by
  rw [gamut, separator?_leads h]
  split
  · next name span rest heq =>
    split_ifs at heq
    obtain ⟨rfl, -⟩ := List.cons.inj (Option.some.inj heq)
    exact (ht name rfl).elim
  · rfl

theorem exists_gamutPart {ts rest : List Token} {g : Option Gamut}
    (h : gamut ts = (g, rest)) : ∃ part, GamutPart part g ∧ ts = part ++ rest := by
  rw [gamut] at h
  split at h
  · next name span after hsep =>
    split at h
    · next g hname =>
      obtain ⟨rfl, rfl⟩ := Prod.mk.inj h
      obtain ⟨sep, hsep', rfl⟩ := exists_separator hsep
      exact ⟨sep ++ [⟨.ident name, span⟩], .present hsep' rfl hname, by simp⟩
    · obtain ⟨rfl, rfl⟩ := Prod.mk.inj h
      exact ⟨[], .absent, rfl⟩
  · obtain ⟨rfl, rfl⟩ := Prod.mk.inj h
    exact ⟨[], .absent, rfl⟩

theorem jsonSegment_present {sep rest : List Token} {t : Token} {value : Text}
    (hsep : Separator sep) (hkind : t.kind = .quoted '\x27' value true) :
    jsonSegment (sep ++ t :: rest) = (some (value, t.span), rest) := by
  obtain ⟨kind, span⟩ := t
  obtain rfl : kind = .quoted '\x27' value true := hkind
  rw [jsonSegment, separator?_append hsep (by simp)]
  simp

theorem jsonSegment_absent {sep ts : List Token} {t : Token} (h : Leads sep t)
    (ht : ∀ value, t.kind ≠ .quoted '\x27' value true) :
    jsonSegment (sep ++ t :: ts) = (none, sep ++ t :: ts) := by
  rw [jsonSegment, separator?_leads h]
  split
  · next quote value span rest heq =>
    split_ifs at heq
    obtain ⟨rfl, -⟩ := List.cons.inj (Option.some.inj heq)
    rw [if_neg]
    rintro rfl
    exact ht value rfl
  · rfl

theorem exists_of_jsonSegment {ts rest : List Token} {segment : Option (Text × Span)}
    (h : jsonSegment ts = (segment, rest)) :
    segment = none ∧ ts = rest ∨
      ∃ sep t value, segment = some (value, t.span) ∧ Separator sep ∧
        t.kind = .quoted '\x27' value true ∧ ts = sep ++ t :: rest := by
  rw [jsonSegment] at h
  split at h
  · next quote value span after hsep =>
    split_ifs at h with hquote
    · obtain ⟨rfl, rfl⟩ := Prod.mk.inj h
      obtain ⟨sep, hsep', rfl⟩ := exists_separator hsep
      exact .inr ⟨sep, _, value, rfl, hsep', by rw [hquote], rfl⟩
    · obtain ⟨rfl, rfl⟩ := Prod.mk.inj h
      exact .inl ⟨rfl, rfl⟩
  · obtain ⟨rfl, rfl⟩ := Prod.mk.inj h
    exact .inl ⟨rfl, rfl⟩

/-- The options of a quoted text are those that it gives. -/
theorem value_readOptions_iff {strict : Bool} {value : Text} {span : Span}
    {json : Option (Layer Float)} :
    (readOptions strict value span).value = .ok json ↔ OptionsText strict value json := by
  have hbraces : isBraced (Text.trim value) = true ↔
      (Text.trim value).head? = some '\x7b' ∧ (Text.trim value).getLast? = some '\x7d' := by
    simp [isBraced]
  simp only [readOptions]
  constructor
  · intro h
    by_cases hempty : (Text.trim value).isEmpty = true
    · rw [if_pos hempty] at h
      obtain rfl := Except.ok.inj h
      exact .empty (List.isEmpty_iff.mp hempty)
    rw [if_neg hempty] at h
    by_cases hbraced : isBraced (Text.trim value) = true
    · obtain ⟨hopen, hclose⟩ := hbraces.mp hbraced
      rw [if_neg (by simp [hbraced])] at h
      cases hjson : Layer.ofJson (Text.trim value) with
      | ok layer =>
        rw [hjson] at h
        obtain rfl := Except.ok.inj h
        exact .object hopen hclose hjson
      | error e =>
        rw [hjson] at h
        cases strict with
        | true => cases h
        | false =>
          obtain rfl := Except.ok.inj h
          exact .ignored hopen hclose hjson rfl
    · rw [if_pos (by simpa using hbraced)] at h
      cases h
  · intro h
    have hnonempty : ∀ {t : Text}, t.head? = some '\x7b' → t.isEmpty = false := by
      rintro (_ | _) h
      · cases h
      · rfl
    cases h with
    | empty hempty => simp [hempty]
    | object hopen hclose hlayer =>
      simp [hnonempty hopen, hbraces.mpr ⟨hopen, hclose⟩, hlayer]
    | ignored hopen hclose herror hlenient =>
      simp [hnonempty hopen, hbraces.mpr ⟨hopen, hclose⟩, herror, hlenient, Logged.noting]

theorem closes_iff {ts : List Token} :
    closes ts = true ↔
      ∃ back close, Blanks back ∧ close.kind = .closeParen ∧ ts = back ++ [close] := by
  constructor
  · intro h
    obtain ⟨back, hback, hts⟩ := exists_blanks ts
    rw [closes] at h
    split at h
    · next close hclose =>
      rw [hclose] at hts
      exact ⟨back, close, hback, of_decide_eq_true h, hts⟩
    · cases h
  · rintro ⟨back, close, hback, hclose, rfl⟩
    rw [closes, skipBlanks_append hback (by simp [hclose])]
    simp [hclose]

/-! ### Reading a call -/

/-- What is read when the parts are. -/
theorem value_readCall {strict : Bool} {ts ts₁ ts₂ ts₃ ts₄ : List Token} {c : CallArguments}
    {alpha : Option Float} {g : Option Gamut} {segment : Option (Text × Span)}
    (hrequired : required? ts = some (c, ts₁)) (halpha : alpha? ts₁ = some (alpha, ts₂))
    (hgamut : gamut ts₂ = (g, ts₃)) (hsegment : jsonSegment ts₃ = (segment, ts₄)) :
    (readCall strict ts).value =
      match (segmentOptions strict segment).value with
      | .error failure => .error failure
      | .ok json =>
        if closes ts₄ then .ok { c with alpha := alpha, gamut := g, json := json }
        else .error .grammar := by
  simp only [readCall, hrequired, halpha, hgamut, hsegment, Logged.value_bind]
  cases (segmentOptions strict segment).value with
  | error failure => rfl
  | ok json =>
    dsimp only
    split
    · rfl
    · rfl

/-- Only reading the options leaves records. -/
theorem log_readCall {strict : Bool} {ts ts₁ ts₂ ts₃ ts₄ : List Token} {c : CallArguments}
    {alpha : Option Float} {g : Option Gamut} {segment : Option (Text × Span)}
    (hrequired : required? ts = some (c, ts₁)) (halpha : alpha? ts₁ = some (alpha, ts₂))
    (hgamut : gamut ts₂ = (g, ts₃)) (hsegment : jsonSegment ts₃ = (segment, ts₄)) :
    (readCall strict ts).log = (segmentOptions strict segment).log := by
  simp only [readCall, hrequired, halpha, hgamut, hsegment, Logged.log_bind]
  cases (segmentOptions strict segment).value with
  | error failure => exact List.append_nil _
  | ok json =>
    dsimp only
    split
    · exact List.append_nil _
    · exact List.append_nil _

/-- The arguments before the options. -/
inductive DirectPart : List Token → CallArguments → Prop where
  | intro {requiredPart alphaPart gamutPart : List Token} {lightness chroma hue : Float}
    {alpha : Option Float} {gamut : Option Gamut}
    (hrequired : RequiredPart requiredPart lightness chroma hue)
    (halpha : AlphaPart alphaPart alpha) (hgamut : GamutPart gamutPart gamut) :
    DirectPart (requiredPart ++ (alphaPart ++ gamutPart))
      ⟨lightness, chroma, hue, alpha, gamut, none⟩

section

variable {sep ts rest gamutPart : List Token} {t : Token} {g : Option Gamut} {c : CallArguments}
  {segment : Option (Text × Span)}

theorem exists_leads_gamut (hgamut : GamutPart gamutPart g) (hleads : Leads sep t)
    (hslash : t.kind ≠ .slash) (ts : List Token) :
    ∃ sep' t' ts', gamutPart ++ (sep ++ t :: ts) = sep' ++ t' :: ts' ∧ Leads sep' t' ∧
      t'.kind ≠ .slash := by
  cases hgamut with
  | absent => exact ⟨sep, t, ts, rfl, hleads, hslash⟩
  | @present sep' t' name g hsep hkind hname =>
    exact ⟨sep', t', sep ++ t :: ts, by simp, ⟨.inr hsep, by simp [hkind]⟩, by simp [hkind]⟩

/-- Direct arguments are read as they are, if they do not go on behind them. -/
theorem DirectPart.exists_parts {part : List Token} (hpart : DirectPart part c)
    (hleads : Leads sep t) (hslash : t.kind ≠ .slash) (hident : ∀ name, t.kind ≠ .ident name)
    (ts : List Token) :
    ∃ c₀ alpha g ts₁ ts₂, required? (part ++ (sep ++ t :: ts)) = some (c₀, ts₁) ∧
      alpha? ts₁ = some (alpha, ts₂) ∧ gamut ts₂ = (g, sep ++ t :: ts) ∧
      c = { c₀ with alpha := alpha, gamut := g } := by
  cases hpart with
  | @intro requiredPart alphaPart gamutPart lightness chroma hue alpha g hrequired halpha hgamut =>
    have halpha' : alpha? (alphaPart ++ (gamutPart ++ (sep ++ t :: ts)))
        = some (alpha, gamutPart ++ (sep ++ t :: ts)) := by
      cases alpha with
      | some x => exact alpha?_present halpha
      | none =>
        cases halpha
        obtain ⟨sep', t', ts', hts, hleads', hslash'⟩ := exists_leads_gamut hgamut hleads hslash ts
        rw [List.nil_append, hts]
        exact alpha?_absent hleads' hslash'
    have hgamut' : gamut (gamutPart ++ (sep ++ t :: ts)) = (g, sep ++ t :: ts) := by
      cases g with
      | some g => exact gamut_present hgamut
      | none =>
        cases hgamut
        exact gamut_absent hleads hident
    have hrequired' :
        required? (requiredPart ++ (alphaPart ++ (gamutPart ++ (sep ++ t :: ts))))
          = some (.plain lightness chroma hue, alphaPart ++ (gamutPart ++ (sep ++ t :: ts))) :=
      required?_append hrequired
    rw [List.append_assoc, List.append_assoc]
    exact ⟨_, _, _, _, _, hrequired', halpha', hgamut', rfl⟩

/-- What is read behind the direct arguments, if these do not go on there. -/
theorem value_readCall_append {part : List Token} (hpart : DirectPart part c)
    (hleads : Leads sep t) (hslash : t.kind ≠ .slash) (hident : ∀ name, t.kind ≠ .ident name)
    (hsegment : jsonSegment (sep ++ t :: ts) = (segment, rest)) (strict : Bool) :
    (readCall strict (part ++ (sep ++ t :: ts))).value =
      match (segmentOptions strict segment).value with
      | .error failure => .error failure
      | .ok json => if closes rest then .ok { c with json := json } else .error .grammar := by
  obtain ⟨c₀, alpha, g, ts₁, ts₂, hrequired, halpha, hgamut, rfl⟩ :=
    hpart.exists_parts hleads hslash hident ts
  rw [value_readCall hrequired halpha hgamut hsegment]

theorem log_readCall_append {part : List Token} (hpart : DirectPart part c)
    (hleads : Leads sep t) (hslash : t.kind ≠ .slash) (hident : ∀ name, t.kind ≠ .ident name)
    (hsegment : jsonSegment (sep ++ t :: ts) = (segment, rest)) (strict : Bool) :
    (readCall strict (part ++ (sep ++ t :: ts))).log = (segmentOptions strict segment).log := by
  obtain ⟨c₀, alpha, g, ts₁, ts₂, hrequired, halpha, hgamut, -⟩ :=
    hpart.exists_parts hleads hslash hident ts
  exact log_readCall hrequired halpha hgamut hsegment

/-- Either the direct arguments are missing, or they are read and what follows decides. -/
theorem exists_directPart (ts : List Token) :
    (∀ strict, (readCall strict ts).value = .error .grammar) ∨
      ∃ part c back segment rest, DirectPart part c ∧ ts = part ++ back ∧
        jsonSegment back = (segment, rest) ∧
        ∀ strict, (readCall strict ts).value =
          match (segmentOptions strict segment).value with
          | .error failure => .error failure
          | .ok json => if closes rest then .ok { c with json := json } else .error .grammar := by
  cases hrequired : required? ts with
  | none =>
    left
    simp [readCall, hrequired]
  | some p =>
    obtain ⟨c, ts₁⟩ := p
    cases halpha : alpha? ts₁ with
    | none =>
      left
      simp [readCall, hrequired, halpha]
    | some q =>
      obtain ⟨alpha, ts₂⟩ := q
      obtain ⟨g, back, hgamut⟩ : ∃ g back, gamut ts₂ = (g, back) := ⟨_, _, rfl⟩
      obtain ⟨segment, rest, hsegment⟩ : ∃ segment rest, jsonSegment back = (segment, rest) :=
        ⟨_, _, rfl⟩
      obtain ⟨requiredPart, lightness, chroma, hue, hpart, hts, rfl⟩ :=
        exists_requiredPart hrequired
      obtain ⟨alphaPart, halphaPart, hts₁⟩ := exists_alphaPart halpha
      obtain ⟨gamutPart, hgamutPart, hts₂⟩ := exists_gamutPart hgamut
      right
      refine ⟨_, _, back, segment, rest, .intro hpart halphaPart hgamutPart, ?_, hsegment, ?_⟩
      · rw [hts, hts₁, hts₂, List.append_assoc, List.append_assoc]
      · intro strict
        rw [value_readCall hrequired halpha hgamut hsegment]
        rfl

end

theorem leads_back {back : List Token} {close : Token} (hback : Blanks back)
    (hclose : close.kind = .closeParen) : Leads back close where
  separators := hback.eq_nil_or_separator
  not_separator := by simp [hclose]

theorem value_readCall_of_callTokens {strict : Bool} {ts : List Token} {c : CallArguments}
    (h : CallTokens strict ts c) : (readCall strict ts).value = .ok c := by
  cases h with
  | @intro requiredPart alphaPart gamutPart optionsPart back close lightness chroma hue alpha g
      json hrequired halpha hgamut hoptions hback hclose =>
    have hdirect := DirectPart.intro hrequired halpha hgamut
    have hcloses : closes (back ++ [close]) = true :=
      closes_iff.mpr ⟨back, close, hback, hclose, rfl⟩
    cases hoptions with
    | absent =>
      have hleads := leads_back hback hclose
      have hsegment : jsonSegment (back ++ [close]) = (none, back ++ [close]) :=
        jsonSegment_absent hleads (by simp [hclose])
      have hread := value_readCall_append hdirect hleads (by simp [hclose]) (by simp [hclose])
        hsegment strict
      simpa [segmentOptions, hcloses] using hread
    | @present sep t value json hsep hkind hvalue =>
      have hsegment : jsonSegment (sep ++ t :: (back ++ [close]))
          = (some (value, t.span), back ++ [close]) := jsonSegment_present hsep hkind
      have hread := value_readCall_append hdirect ⟨.inr hsep, by simp [hkind]⟩ (by simp [hkind])
        (by simp [hkind]) hsegment strict
      simpa [segmentOptions, value_readOptions_iff.mpr hvalue, hcloses] using hread

theorem callTokens_of_value_readCall {strict : Bool} {ts : List Token} {c : CallArguments}
    (h : (readCall strict ts).value = .ok c) : CallTokens strict ts c := by
  rcases exists_directPart ts with
    hgrammar | ⟨part, direct, back, segment, rest, hpart, rfl, hsegment, hread⟩
  · simp [hgrammar] at h
  rw [hread] at h
  cases hoptions : (segmentOptions strict segment).value with
  | error failure => simp [hoptions] at h
  | ok json =>
    rw [hoptions] at h
    dsimp only at h
    split_ifs at h with hcloses
    obtain rfl := Except.ok.inj h
    obtain ⟨blanks, close, hblanks, hclose, rfl⟩ := closes_iff.mp hcloses
    obtain ⟨optionsPart, hoptionsPart, rfl⟩ :
        ∃ options, OptionsPart strict options json ∧ back = options ++ (blanks ++ [close]) := by
      rcases exists_of_jsonSegment hsegment with
        ⟨rfl, rfl⟩ | ⟨sep, t, value, rfl, hsep, hkind, rfl⟩
      · obtain rfl := Except.ok.inj hoptions
        exact ⟨[], .absent, rfl⟩
      · exact ⟨sep ++ [t], .present hsep hkind (value_readOptions_iff.mp hoptions), by simp⟩
    obtain ⟨hrequired, halpha, hgamut⟩ := hpart
    rw [List.append_assoc, List.append_assoc]
    exact .intro hrequired halpha hgamut hoptionsPart hblanks hclose

theorem value_parseCall {call : Text} (hstarts : startsCall call = true) (strict : Bool) :
    (parseCall strict call).value =
      match (readCall strict (callTokens call)).value with
      | .ok c => .ok c
      | .error (.json span) => .error ⟨.invalidJson, span⟩
      | .error .grammar => .error (explain call (callTokens call)) := by
  rw [parseCall, if_pos hstarts, Logged.value_bind]
  cases (readCall strict (callTokens call)).value with
  | ok c => rfl
  | error failure =>
    cases failure with
    | json span => rfl
    | grammar => rfl

theorem log_parseCall {call : Text} (hstarts : startsCall call = true) (strict : Bool) :
    (parseCall strict call).log = (readCall strict (callTokens call)).log := by
  rw [parseCall, if_pos hstarts, Logged.log_bind]
  cases (readCall strict (callTokens call)).value with
  | ok c => exact List.append_nil _
  | error failure =>
    cases failure with
    | json span => exact List.append_nil _
    | grammar => exact List.append_nil _

theorem callTokens_of_value_parseCall {strict : Bool} {call : Text} {c : CallArguments}
    (h : (parseCall strict call).value = .ok c) :
    startsCall call = true ∧ CallTokens strict (callTokens call) c := by
  by_cases hstarts : startsCall call = true
  · refine ⟨hstarts, callTokens_of_value_readCall ?_⟩
    rw [value_parseCall hstarts] at h
    split at h
    · next c' hread =>
      obtain rfl := Except.ok.inj h
      exact hread
    · cases h
    · cases h
  · simp [parseCall, hstarts] at h

theorem value_parseCall_of_callTokens {strict : Bool} {call : Text} {c : CallArguments}
    (hstarts : startsCall call = true) (h : CallTokens strict (callTokens call) c) :
    (parseCall strict call).value = .ok c := by
  rw [value_parseCall hstarts, value_readCall_of_callTokens h]

/-- **A call is read if and only if it begins like one and its tokens follow the grammar, and
    then what is read is what they denote.** -/
theorem parseCall_eq_ok_iff (strict : Bool) (call : Text) (c : CallArguments) :
    (parseCall strict call).value = .ok c ↔
      startsCall call = true ∧ CallTokens strict (callTokens call) c := by
  constructor
  · exact callTokens_of_value_parseCall
  · rintro ⟨hstarts, h⟩
    exact value_parseCall_of_callTokens hstarts h

/-! ### Parentheses -/

theorem Blanks.no_openParen {ts : List Token} (h : Blanks ts) : ∀ t ∈ ts, t.kind ≠ .openParen := by
  intro t ht
  simp [h t ht]

theorem Separator.no_openParen {ts : List Token} (h : Separator ts) :
    ∀ t ∈ ts, t.kind ≠ .openParen := by
  intro t ht
  rcases h.separators t ht with ht | ht
  · simp [ht]
  · simp [ht]

theorem Amount.ne_openParen {k : TokenKind} {x : Float} (h : Amount k x) : k ≠ .openParen := by
  cases h with
  | number => simp
  | percentage => simp
  | none => simp

theorem Angle.ne_openParen {k : TokenKind} {x : Float} (h : Angle k x) : k ≠ .openParen := by
  cases h with
  | number => simp
  | dimension => simp
  | none => simp

/-- Nothing that follows the grammar opens a parenthesis, and one is closed. -/
theorem CallTokens.parentheses {strict : Bool} {ts : List Token} {c : CallArguments}
    (h : CallTokens strict ts c) :
    (∀ t ∈ ts, t.kind ≠ .openParen) ∧ ∃ t ∈ ts, t.kind = .closeParen := by
  cases h with
  | @intro _ _ _ _ back close _ _ _ _ _ _ hrequired halpha hgamut hoptions hback hclose =>
    have hend : ∀ t ∈ back ++ [close], t.kind ≠ .openParen :=
      List.forall_mem_append.mpr ⟨hback.no_openParen, by simp [hclose]⟩
    refine ⟨?_, close, by simp, hclose⟩
    refine List.forall_mem_append.mpr ⟨?_, List.forall_mem_append.mpr ⟨?_,
      List.forall_mem_append.mpr ⟨?_, List.forall_mem_append.mpr ⟨?_, hend⟩⟩⟩⟩
    · obtain ⟨hfront, hlightness, hsep, hchroma, hsep', hhue⟩ := hrequired
      refine List.forall_mem_append.mpr ⟨hfront.no_openParen,
        List.forall_mem_cons.mpr ⟨hlightness.ne_openParen,
          List.forall_mem_append.mpr ⟨hsep.no_openParen,
            List.forall_mem_cons.mpr ⟨hchroma.ne_openParen,
              List.forall_mem_append.mpr ⟨hsep'.no_openParen, ?_⟩⟩⟩⟩⟩
      simpa using hhue.ne_openParen
    · cases halpha with
      | absent => simp
      | present hbefore hslash hafter hvalue =>
        refine List.forall_mem_append.mpr ⟨hbefore.no_openParen,
          List.forall_mem_cons.mpr ⟨by simp [hslash],
            List.forall_mem_append.mpr ⟨hafter.no_openParen, ?_⟩⟩⟩
        simpa using hvalue.ne_openParen
    · cases hgamut with
      | absent => simp
      | present hsep hkind hname =>
        exact List.forall_mem_append.mpr ⟨hsep.no_openParen, by simp [hkind]⟩
    · cases hoptions with
      | absent => simp
      | present hsep hkind hvalue =>
        exact List.forall_mem_append.mpr ⟨hsep.no_openParen, by simp [hkind]⟩

end EvenChroma.Css
