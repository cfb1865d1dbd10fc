/-
  EvenChroma/Proofs/IgnoredOptions.lean
  =====================================
  **Unusable options leave no trace but a warning.**  A call with options that are braced
  like an object and give no layer is, to the lenient reader, the call with empty quotes in
  their place: it is read alike and becomes the same colour in every table, and one record
  more is left.  The strict reader points at the quotes and what is between them.
-/
import EvenChroma.Proofs.ArgumentRoles
import EvenChroma.Proofs.EmbeddedOptions
import EvenChroma.Proofs.StrictReading

namespace EvenChroma.Css

/-! ### Reading the options -/

/-- The record of options that are ignored. -/
def ignoredOptions (e : OptionsError) : Log.Record :=
  ⟨.warn, "egal::css", s!"Invalid JSON options in egal color, ignoring them: {e.message}"⟩

section

variable {value : Text} {e : OptionsError}

theorem readOptions_ignored (hopen : (Text.trim value).head? = some '\x7b')
    (hclose : (Text.trim value).getLast? = some '\x7d')
    (herror : Layer.ofJson (Text.trim value) = .error e) (span : Span) :
    readOptions false value span = ⟨.ok none, [ignoredOptions e]⟩ := by
  have hunusable : UnusableText value := ⟨hopen, hclose, e, herror⟩
  simp only [readOptions, hunusable.nonempty, hunusable.isBraced, herror]
  rfl

theorem readOptions_empty (strict : Bool) (span : Span) :
    readOptions strict [] span = pure (.ok none) := rfl

end

/-! ### Reading the call -/

/-- Only the kinds of the tokens decide whether a call ends. -/
theorem closes_congr {ts ts' : List Token} (h : ts'.map Token.kind = ts.map Token.kind)
    (hcloses : closes ts = true) : closes ts' = true := by
  obtain ⟨back, close, hback, hclose, rfl⟩ := closes_iff.mp hcloses
  rw [List.map_append] at h
  obtain ⟨back', last, rfl, hback', hlast⟩ := List.map_eq_append_iff.mp h
  obtain ⟨close', rest, rfl, hclose', hrest⟩ := List.map_eq_cons_iff.mp hlast
  obtain rfl := List.map_eq_nil_iff.mp hrest
  exact closes_iff.mpr ⟨back', close', hback.congr hback', hclose'.trans hclose, rfl⟩

section

variable {part sep post : List Token} {t : Token} {value : Text} {c d : CallArguments}

theorem DirectPart.with_json_none {part : List Token} (h : DirectPart part c) :
    { c with json := none } = c := by
  cases h
  rfl

/-- What is read of direct arguments, options in quotes that give none, and what follows. -/
theorem value_readCall_options (hpart : DirectPart part c) (hsep : Separator sep)
    (hkind : t.kind = .quoted '\x27' value true)
    (hoptions : (readOptions false value t.span).value = .ok none) :
    (readCall false (part ++ (sep ++ t :: post))).value
      = if closes post then .ok c else .error .grammar := by
  have hsegment : jsonSegment (sep ++ t :: post) = (some (value, t.span), post) :=
    jsonSegment_present hsep hkind
  have hread := value_readCall_append hpart ⟨.inr hsep, by simp [hkind]⟩ (by simp [hkind])
    (by simp [hkind]) hsegment false
  rw [segmentOptions, hoptions] at hread
  dsimp only at hread
  rw [hread, hpart.with_json_none]

theorem readCall_options {log : List Log.Record} (hpart : DirectPart part c) (hsep : Separator sep)
    (hkind : t.kind = .quoted '\x27' value true)
    (hoptions : readOptions false value t.span = ⟨.ok none, log⟩) (hcloses : closes post = true) :
    readCall false (part ++ (sep ++ t :: post)) = ⟨.ok c, log⟩ := by
  have hsegment : jsonSegment (sep ++ t :: post) = (some (value, t.span), post) :=
    jsonSegment_present hsep hkind
  apply Logged.ext
  · rw [value_readCall_options hpart hsep hkind (by rw [hoptions]), if_pos hcloses]
  · rw [log_readCall_append hpart ⟨.inr hsep, by simp [hkind]⟩ (by simp [hkind])
      (by simp [hkind]) hsegment, segmentOptions, hoptions]

/-- A call with such options denotes its direct arguments, and ends behind the options. -/
theorem CallTokens.eq_direct (h : CallTokens false (part ++ (sep ++ t :: post)) c)
    (hpart : DirectPart part d) (hsep : Separator sep)
    (hkind : t.kind = .quoted '\x27' value true)
    (hoptions : (readOptions false value t.span).value = .ok none) :
    c = d ∧ closes post = true := by
  have hread := value_readCall_of_callTokens h
  rw [value_readCall_options hpart hsep hkind hoptions] at hread
  split_ifs at hread with hcloses
  exact ⟨(Except.ok.inj hread).symm, hcloses⟩

theorem parseCall_of_readCall {strict : Bool} {call : Text} {log : List Log.Record}
    (hstarts : startsCall call = true) (hread : readCall strict (callTokens call) = ⟨.ok c, log⟩) :
    parseCall strict call = ⟨.ok c, log⟩ := by
  have hvalue := value_parseCall hstarts strict
  have hlog := log_parseCall hstarts strict
  rw [hread] at hvalue hlog
  exact Logged.ext hvalue hlog

/-- A call that is read is replaced by its colour, after the records of reading it. -/
theorem expand_of_parseCall {o : HostOptions} {call : Text}
    (h : (parseCall o.strictJson call).value = .ok c) :
    expand standardReader o call = (do
      noteAll (parseCall o.strictJson call).log
      let colour ← ColorM.css (c.request o)
      pure ⟨colour, []⟩) := by
  obtain ⟨hstarts, htokens⟩ := callTokens_of_value_parseCall h
  obtain ⟨later, hsites⟩ := exists_callSites_eq_cons hstarts
  exact expandWith_accepted rfl hsites (span_at_of_callTokens hstarts htokens) h

end

/-! ### With and without the options -/

/-- **Unusable options are ignored as a whole, or refused where they stand.**  The lenient reader
    reads the call as the one with empty quotes in their place, which leaves no record, and adds
    one warning; so in every table both become the same colour.  The strict reader refuses the
    call and points at the quotes and all between them. -/
theorem unusable_options_ignored_or_refused {call value : Text} {c : CallArguments} {t : Token}
    {e : OptionsError} (hstarts : startsCall call = true)
    (htokens : CallTokens false (callTokens call) c) (ht : t ∈ callTokens call)
    (hkind : t.kind = .quoted '\x27' value true)
    (hopen : (Text.trim value).head? = some '\x7b')
    (hclose : (Text.trim value).getLast? = some '\x7d')
    (herror : Layer.ofJson (Text.trim value) = .error e) :
    let blank := applyEdits call 0 [⟨t.span, ['\x27', '\x27']⟩]
    c.json = none ∧
    parseCall false call = ⟨.ok c, [ignoredOptions e]⟩ ∧
    parseCall false blank = pure (.ok c) ∧
    (∀ (o : HostOptions) (table : FloorCache), o.strictJson = false →
      (expand standardReader o call table).value = (expand standardReader o blank table).value ∧
      (expand standardReader o call table).log
        = ignoredOptions e :: (expand standardReader o blank table).log) ∧
    (parseCall true call).value = .error ⟨.invalidJson, t.span⟩ ∧
    Mistake.invalidJson.message = "Invalid JSON options in egal color" ∧
    ∃ raw, Text.slice call t.span = '\x27' :: (raw ++ ['\x27']) ∧ QuotedText '\x27' raw value := by
  intro blank
  obtain ⟨part, sep, post, d, hts, hpart, hsep⟩ := htokens.exists_options ht hkind
  have hunusable : UnusableText value := ⟨hopen, hclose, e, herror⟩
  have hignored := readOptions_ignored hopen hclose herror t.span
  rw [hts] at htokens
  obtain ⟨rfl, hcloses⟩ := htokens.eq_direct hpart hsep hkind (congrArg Logged.value hignored)
  obtain ⟨front, old, back, hplace⟩ :=
    exists_replaceableAt hstarts (hts.trans (List.append_assoc ..).symm) (hsep.divides_last part)
  have hread := hplace.reads
  rw [hkind] at hread
  obtain ⟨raw, rfl, hraw⟩ := hread.exists_quoted
  have hwritten : parseCall false call = ⟨.ok c, [ignoredOptions e]⟩ := by
    apply parseCall_of_readCall hstarts
    rw [hts]
    exact readCall_options hpart hsep hkind hignored hcloses
  have hempty : parseCall false blank = ⟨.ok c, []⟩ := by
    have hhead : ∀ d ∈ (['\x27', '\x27'] ++ back).head?, Text.isBlank d = false := by
      rintro d ⟨⟩
      rfl
    obtain ⟨hstarts', post', hkinds, hts'⟩ :=
      hplace.exchange hhead (.singleton (QuotedText.nil.readsAs rfl back) _)
    rw [← hplace.applyEdits_eq] at hstarts' hts'
    apply parseCall_of_readCall hstarts'
    rw [hts', List.append_assoc]
    exact readCall_options hpart hsep rfl (readOptions_empty _ _) (closes_congr hkinds hcloses)
  refine ⟨?_, hwritten, hempty, fun o table hlenient => ?_, ?_, rfl, raw, ?_, hraw⟩
  · rw [← hpart.with_json_none]
  · have hread : (parseCall o.strictJson call).value = .ok c := by rw [hlenient, hwritten]
    have hread' : (parseCall o.strictJson blank).value = .ok c := by rw [hlenient, hempty]
    have hcall := expand_of_parseCall hread
    have hblank := expand_of_parseCall hread'
    rw [hcall, hblank, hlenient, hwritten, hempty]
    exact ⟨rfl, rfl⟩
  · have hoptions : UnusableOptions (callTokens call) t.span post := by
      rw [hts]
      exact .intro hpart hsep hkind hunusable
    exact UnusableCall.value_strict ⟨hstarts, hoptions⟩
  · rw [hplace.span_eq, hplace.call_eq, Text.slice_append]

theorem unusable_options_between_usable :
    let value : Text :=
      "\x7b\"gamut\": \"srgb\", \"opacity\": \"½\", \"space\": \"hct\"\x7d".toList
    let call : Text := "EGAL(50% none .5turn / .25 p3, '".toList ++ value ++ "' )".toList
    let blank : Text := "EGAL(50% none .5turn / .25 p3, '' )".toList
    let t : Token := ⟨.quoted '\x27' value true, 31, 83⟩
    let c : CallArguments := ⟨numberValue "50".toList / 100.0, 0.0, numberValue ".5".toList * 360.0,
      some (numberValue ".25".toList), some .p3, none⟩
    let e : OptionsError := .wrongShape (.unexpected (.string "½".toList) .number)
    startsCall call = true ∧ CallTokens false (callTokens call) c ∧ t ∈ callTokens call ∧
      Layer.ofJson (Text.trim value) = .error e ∧
      applyEdits call 0 [⟨t.span, ['\x27', '\x27']⟩] = blank ∧
      parseCall false call = ⟨.ok c, [ignoredOptions e]⟩ ∧ parseCall false blank = pure (.ok c) ∧
      (parseCall true call).value = .error ⟨.invalidJson, 31, 83⟩ ∧
      (expand standardReader default call FloorCache.new).value
        = (expand standardReader default blank FloorCache.new).value := by
  intro value call blank t c e
  have hstarts : startsCall call = true := by decide
  have htokens : CallTokens false (callTokens call) c :=
    (callTokens_of_value_parseCall (by with_unfolding_all rfl)).2
  have ht : t ∈ callTokens call := List.mem_of_getElem? (i := 13) (by decide +kernel)
  have herror : Layer.ofJson (Text.trim value) = .error e := by with_unfolding_all rfl
  have hblank : applyEdits call 0 [⟨t.span, ['\x27', '\x27']⟩] = blank := by decide
  obtain ⟨-, hcall, hempty, hexpand, hstrict, -⟩ := unusable_options_ignored_or_refused hstarts
    htokens ht rfl (by decide) (by decide) herror
  rw [hblank] at hempty hexpand
  exact ⟨hstarts, htokens, ht, herror, hblank, hcall, hempty, hstrict, (hexpand default _ rfl).1⟩

end EvenChroma.Css
