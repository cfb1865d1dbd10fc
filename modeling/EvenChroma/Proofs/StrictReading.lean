/-
  EvenChroma/Proofs/StrictReading.lean
  ====================================
  **What strict mode changes about a call.**  Options that are braced like an object and
  give no options are ignored by the lenient reader and refused by the strict one.  The
  strict reader refuses them where they stand, before it has seen what comes behind them:
  a call with unusable options that goes wrong behind them is refused for its options in
  strict mode and explained by its tokens otherwise.  On all other calls the two readers
  say the same.
-/
import EvenChroma.Proofs.CallGrammar

namespace EvenChroma.Css

/-! ### Unusable options -/

/-- A text that is braced like an object and gives no options. -/
structure UnusableText (value : Text) : Prop where
  opened : (Text.trim value).head? = some '\x7b'
  closed : (Text.trim value).getLast? = some '\x7d'
  refused : ∃ e, Layer.ofJson (Text.trim value) = .error e

/-- Direct arguments, a separator and an unusable text in single quotes, with the bytes of
    that text and the tokens behind it. -/
inductive UnusableOptions : List Token → Span → List Token → Prop where
  | intro {part sep rest : List Token} {t : Token} {value : Text} {c : CallArguments}
    (hpart : DirectPart part c) (hsep : Separator sep)
    (hkind : t.kind = .quoted '\x27' value true) (hvalue : UnusableText value) :
    UnusableOptions (part ++ (sep ++ t :: rest)) t.span rest

/-- Blanks and the closing parenthesis. -/
def CallEnd (ts : List Token) : Prop :=
  ∃ back close, Blanks back ∧ close.kind = .closeParen ∧ ts = back ++ [close]

/-- A call with unusable options at `span` and the tokens `rest` behind them. -/
structure UnusableCall (call : Text) (span : Span) (rest : List Token) : Prop where
  starts : startsCall call = true
  options : UnusableOptions (callTokens call) span rest

/-! ### Reading options -/

section

variable {strict : Bool} {value : Text} {span : Span}

theorem UnusableText.nonempty (h : UnusableText value) : (Text.trim value).isEmpty = false := by
  obtain ⟨hopened, -, -⟩ := h
  cases htrim : Text.trim value with
  | nil =>
    rw [htrim] at hopened
    cases hopened
  | cons c t => rfl

theorem UnusableText.isBraced (h : UnusableText value) : isBraced (Text.trim value) = true := by
  simp [Css.isBraced, h.opened, h.closed]

theorem UnusableText.value_strict (h : UnusableText value) (span : Span) :
    (readOptions true value span).value = .error (.json span) := by
  obtain ⟨e, he⟩ := h.refused
  simp [readOptions, h.nonempty, h.isBraced, he, Logged.noting]

theorem UnusableText.value_lenient (h : UnusableText value) (span : Span) :
    (readOptions false value span).value = .ok none := by
  obtain ⟨e, he⟩ := h.refused
  exact value_readOptions_iff.mpr (.ignored h.opened h.closed he rfl)

/-- A text that is not unusable is read alike in both modes, and not refused as unusable. -/
theorem value_readOptions_of_usable (h : ¬ UnusableText value) :
    (readOptions strict value span).value = (readOptions false value span).value ∧
      ∀ span', (readOptions strict value span).value ≠ .error (.json span') := by
  simp only [readOptions]
  by_cases hempty : (Text.trim value).isEmpty = true
  · rw [if_pos hempty, if_pos hempty]
    exact ⟨rfl, fun _ heq => by cases heq⟩
  rw [if_neg hempty, if_neg hempty]
  by_cases hbraced : Css.isBraced (Text.trim value) = true
  · rw [if_neg (by simp [hbraced]), if_neg (by simp [hbraced])]
    cases hjson : Layer.ofJson (Text.trim value) with
    | ok layer => exact ⟨rfl, fun _ heq => by cases heq⟩
    | error e =>
      simp only [Css.isBraced, Bool.and_eq_true, decide_eq_true_eq] at hbraced
      exact (h ⟨hbraced.1, hbraced.2, e, hjson⟩).elim
  · rw [if_pos (by simpa using hbraced), if_pos (by simpa using hbraced)]
    exact ⟨rfl, fun _ heq => by cases heq⟩

end

/-! ### Reading the tokens -/

section

variable {ts rest : List Token} {span : Span}

theorem UnusableOptions.exists_value (h : UnusableOptions ts span rest) :
    ∃ c, (readCall true ts).value = .error (.json span) ∧
      (readCall false ts).value = if closes rest then .ok c else .error .grammar := by
  cases h with
  | @intro part sep rest t value c hpart hsep hkind hvalue =>
    have hsegment : jsonSegment (sep ++ t :: rest) = (some (value, t.span), rest) :=
      jsonSegment_present hsep hkind
    have hread := value_readCall_append hpart ⟨.inr hsep, by simp [hkind]⟩ (by simp [hkind])
      (by simp [hkind]) hsegment
    refine ⟨{ c with json := none }, ?_, ?_⟩
    · rw [hread, segmentOptions, hvalue.value_strict]
    · rw [hread, segmentOptions, hvalue.value_lenient]

/-- Tokens without unusable options are read alike in both modes. -/
theorem value_readCall_of_usable (h : ∀ span rest, ¬ UnusableOptions ts span rest)
    (strict : Bool) :
    (readCall strict ts).value = (readCall false ts).value ∧
      ∀ span, (readCall strict ts).value ≠ .error (.json span) := by
  rcases exists_directPart ts with
    hgrammar | ⟨part, c, back, segment, rest, hpart, rfl, hsegment, hread⟩
  · simp [hgrammar]
  have hoptions : (segmentOptions strict segment).value = (segmentOptions false segment).value ∧
      ∀ span, (segmentOptions strict segment).value ≠ .error (.json span) := by
    rcases exists_of_jsonSegment hsegment with
      ⟨rfl, rfl⟩ | ⟨sep, t, value, rfl, hsep, hkind, rfl⟩
    · exact ⟨rfl, nofun⟩
    · exact value_readOptions_of_usable fun hvalue => h _ _ (.intro hpart hsep hkind hvalue)
  obtain ⟨hsame, hjson⟩ := hoptions
  refine ⟨by rw [hread, hread, hsame], fun span heq => ?_⟩
  rw [hread] at heq
  split at heq
  · next failure hfailure =>
    obtain rfl := Except.error.inj heq
    exact hjson span hfailure
  · split_ifs at heq
    cases heq

end

/-! ### What is said about a call -/

theorem nonePercentFrom?_mistake {position : Position} {ts : List Token} {p : Problem}
    (h : nonePercentFrom? position ts = some p) :
    ∃ component, p.mistake = .nonePercent component := by
  induction ts generalizing position with
  | nil => cases h
  | cons t ts ih =>
    cases ts with
    | nil => cases h
    | cons u us =>
      rw [nonePercentFrom?] at h
      split_ifs at h
      · obtain rfl := Option.some.inj h
        exact ⟨_, rfl⟩
      · exact ih h

theorem detachedPercent?_mistake {ts : List Token} {p : Problem}
    (h : detachedPercent? ts = some p) : p.mistake = .detachedPercent := by
  fun_induction detachedPercent? ts with
  | case1 => exact congrArg Problem.mistake (Option.some.inj h).symm
  | case2 t ts _ ih => exact ih h
  | case3 => cases h

theorem quotedGamut?_mistake {ts : List Token} {p : Problem} (h : quotedGamut? ts = some p) :
    p.mistake = .quotedGamut := by
  obtain ⟨t, -, ht⟩ := List.exists_of_findSome?_eq_some h
  split at ht
  · split_ifs at ht
    exact congrArg Problem.mistake (Option.some.inj ht).symm
  · cases ht

theorem doubleQuotedJson?_mistake {ts : List Token} {p : Problem}
    (h : doubleQuotedJson? ts = some p) : p.mistake = .doubleQuotedJson := by
  simp only [doubleQuotedJson?, Option.bind_eq_bind, Option.bind_eq_some_iff] at h
  obtain ⟨first, -, last, -, hp⟩ := h
  exact congrArg Problem.mistake (Option.some.inj hp).symm

/-- Tokens that are no call are never explained by unusable options. -/
theorem explain_mistake_ne (call : Text) (ts : List Token) :
    (explain call ts).mistake ≠ .invalidJson := by
  rw [explain]
  cases hnone : nonePercent? ts with
  | some p =>
    obtain ⟨component, hp⟩ := nonePercentFrom?_mistake hnone
    simp [hp]
  | none =>
    cases hdetached : detachedPercent? ts with
    | some p => simp [detachedPercent?_mistake hdetached]
    | none =>
      cases hgamut : quotedGamut? ts with
      | some p => simp [quotedGamut?_mistake hgamut]
      | none =>
        cases hjson : doubleQuotedJson? ts with
        | some p => simp [doubleQuotedJson?_mistake hjson]
        | none => simp [Problem.unparsable]

section

variable {call : Text} {span : Span} {rest : List Token}

theorem UnusableCall.value_strict (h : UnusableCall call span rest) :
    (parseCall true call).value = .error ⟨.invalidJson, span⟩ := by
  obtain ⟨c, hread, -⟩ := h.options.exists_value
  rw [value_parseCall h.starts, hread]

/-- The lenient reader passes unusable options and goes on to the end of the call. -/
theorem UnusableCall.value_lenient (h : UnusableCall call span rest) :
    (∃ c, (parseCall false call).value = .ok c) ∧ CallEnd rest ∨
      (parseCall false call).value = .error (explain call (callTokens call)) ∧ ¬ CallEnd rest := by
  obtain ⟨c, -, hread⟩ := h.options.exists_value
  rw [value_parseCall h.starts, hread]
  by_cases hcloses : closes rest = true
  · rw [if_pos hcloses]
    exact .inl ⟨⟨c, rfl⟩, closes_iff.mp hcloses⟩
  · rw [if_neg hcloses]
    exact .inr ⟨rfl, fun hend => hcloses (closes_iff.mpr hend)⟩

/-- A call without unusable options is read alike in both modes, and never refused for its
    options. -/
theorem value_parseCall_of_usable (h : ∀ span rest, ¬ UnusableCall call span rest) :
    (parseCall true call).value = (parseCall false call).value ∧
      ∀ span, (parseCall true call).value ≠ .error ⟨.invalidJson, span⟩ := by
  by_cases hstarts : startsCall call = true
  · have husable : ∀ span rest, ¬ UnusableOptions (callTokens call) span rest :=
      fun span rest hoptions => h span rest ⟨hstarts, hoptions⟩
    obtain ⟨hsame, hjson⟩ := value_readCall_of_usable husable true
    rw [value_parseCall hstarts, value_parseCall hstarts, ← hsame]
    refine ⟨rfl, fun span heq => ?_⟩
    split at heq
    · cases heq
    · next span' hspan => exact hjson span' hspan
    · exact explain_mistake_ne _ _ (congrArg Problem.mistake (Except.error.inj heq))
  · simp [parseCall, hstarts, Problem.unparsable]

theorem strict_eq_invalidJson_iff :
    (parseCall true call).value = .error ⟨.invalidJson, span⟩ ↔
      ∃ rest, UnusableCall call span rest := by
  constructor
  · intro hstrict
    by_cases hsome : ∃ rest, UnusableCall call span rest
    · exact hsome
    have husable : ∀ span' rest, ¬ UnusableCall call span' rest := by
      intro span' rest h
      -- the strict reader has already named the span
      obtain rfl : span = span' :=
        congrArg Problem.span (Except.error.inj (hstrict.symm.trans h.value_strict))
      exact hsome ⟨rest, h⟩
    exact ((value_parseCall_of_usable husable).2 span hstrict).elim
  · rintro ⟨rest, h⟩
    exact h.value_strict

end

/-! ### Strict and lenient -/

/-- **Strict mode refuses a call for its options exactly if these are unusable, whatever comes
    behind them.**  What it accepts, lenient mode accepts as the same call.  The two modes reject
    with the same problem, and only calls that lenient mode accepts are refused for their options,
    exactly if nothing but the end of the call comes behind unusable options. -/
theorem strict_rejects_alike_iff (call : Text) :
    let strict := (parseCall true call).value
    let lenient := (parseCall false call).value
    (∀ span, strict = .error ⟨.invalidJson, span⟩ ↔ ∃ rest, UnusableCall call span rest) ∧
    (∀ c, strict = .ok c → lenient = .ok c) ∧
    (((∀ p, lenient = .error p → strict = .error p) ∧
        ∀ span, strict = .error ⟨.invalidJson, span⟩ → ∃ c, lenient = .ok c) ↔
      ∀ span rest, UnusableCall call span rest → CallEnd rest) := by
  intro strict lenient
  have hsame : (∀ span rest, ¬ UnusableCall call span rest) → strict = lenient :=
    fun husable => (value_parseCall_of_usable husable).1
  refine ⟨fun span => strict_eq_invalidJson_iff, fun c hc => ?_, ?_, ?_⟩
  · rw [← hsame ?_, hc]
    intro span rest h
    cases hc.symm.trans h.value_strict
  · rintro ⟨halike, -⟩ span rest h
    rcases h.value_lenient with ⟨-, hend⟩ | ⟨hlenient, -⟩
    · exact hend
    · -- the lenient reader explains such a call, and no explanation speaks of options
      have hstrict := (halike _ hlenient).symm.trans h.value_strict
      exact (explain_mistake_ne _ _ (congrArg Problem.mistake (Except.error.inj hstrict))).elim
  · intro hends
    have haccepted : ∀ span rest, UnusableCall call span rest → ∃ c, lenient = .ok c := by
      intro span rest h
      rcases h.value_lenient with ⟨haccepted, -⟩ | ⟨-, hend⟩
      · exact haccepted
      · exact (hend (hends span rest h)).elim
    constructor
    · intro p hp
      rw [hsame ?_, hp]
      intro span rest h
      obtain ⟨c, hc⟩ := haccepted span rest h
      cases hc.symm.trans hp
    · intro span hstrict
      obtain ⟨rest, h⟩ := strict_eq_invalidJson_iff.mp hstrict
      exact haccepted span rest h

theorem strict_refuses_before_the_end :
    let call : Text := "egal(none none none '{x}' x)".toList
    (parseCall false call).value = .error ⟨.unparsable, ⟨0, 28⟩⟩ ∧
      (parseCall true call).value = .error ⟨.invalidJson, ⟨20, 25⟩⟩ := by
  with_unfolding_all exact ⟨rfl, rfl⟩

end EvenChroma.Css
