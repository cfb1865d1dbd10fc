/-
  EvenChroma/Proofs/EmbeddedOptions.lean
  ======================================
  **Every JSON object survives in a call.**  Put between single quotes with its apostrophes
  escaped, it is read back as it was: in a JSON text no backslash stands before an
  apostrophe, so the only escapes that the quotes resolve are those that were added.  The
  parentheses, braces and calls inside the quotes are hidden from the search for the end of
  the call, and calls that begin there are part of the call that is replaced.
-/
import EvenChroma.Proofs.JsonExtent
import EvenChroma.Proofs.Literals
import EvenChroma.Proofs.Locality
import EvenChroma.Proofs.SheetExpansion

namespace EvenChroma

/-! ### The text of an object -/

theorem Text.isBlank_of_isJsonBlank {c : Char} (h : Json.isJsonBlank c = true) :
    isBlank c = true := by
  simp only [Json.isJsonBlank, Bool.or_eq_true, decide_eq_true_eq] at h
  rcases h with ((rfl | rfl) | rfl) | rfl <;> rfl

theorem Text.dropWhile_isBlank_append {blanks u : Text}
    (hblanks : ∀ c ∈ blanks, isBlank c = true) (hu : u.head?.any (! isBlank ·) = true) :
    (blanks ++ u).dropWhile isBlank = u := by
  rw [List.dropWhile_append_of_pos hblanks]
  cases u with
  | nil => rfl
  | cons c u => exact List.dropWhile_cons_of_neg (by simpa using hu)

/-- Blanks around a text that neither begins nor ends with one are trimmed. -/
theorem Text.trim_append {front u back : Text} (hfront : ∀ c ∈ front, isBlank c = true)
    (hback : ∀ c ∈ back, isBlank c = true) (hhead : u.head?.any (! isBlank ·) = true)
    (hlast : u.getLast?.any (! isBlank ·) = true) : trim (front ++ (u ++ back)) = u := by
  have hstart : trimStart (front ++ (u ++ back)) = u ++ back := by
    apply dropWhile_isBlank_append hfront
    cases u with
    | nil => cases hhead
    | cons c u => exact hhead
  have hend : (u ++ back).reverse.dropWhile isBlank = u.reverse := by
    rw [List.reverse_append]
    apply dropWhile_isBlank_append
    · exact fun c hc => hback c (List.mem_reverse.mp hc)
    · rwa [List.head?_reverse]
  rw [trim, hstart, trimEnd, hend, List.reverse_reverse]

namespace Json

/-- A text that is an object has no backslash before an apostrophe, and what is left of it
    without the blanks around it is braced and the same object. -/
theorem trim_of_object {t : Text} {members : List (Text × Json)}
    (h : ofText t = .ok (.object members)) :
    Escaped t ∧ (Text.trim t).head? = some '\x7b' ∧ (Text.trim t).getLast? = some '\x7d' ∧
      ofText (Text.trim t) = .ok (.object members) := by
  obtain ⟨front, u, back, rfl, hfront, hback, hescaped, hhead, hlast, hobject⟩ := exists_braced h
  have htrim : Text.trim (front ++ (u ++ back)) = u :=
    Text.trim_append (fun c hc => Text.isBlank_of_isJsonBlank (hfront c hc))
      (fun c hc => Text.isBlank_of_isJsonBlank (hback c hc)) (by rw [hhead]; rfl)
      (by rw [hlast]; rfl)
  rw [htrim]
  exact ⟨(escaped_of_blanks hfront).append (hescaped.append (escaped_of_blanks hback)), hhead,
    hlast, hobject⟩

end Json

theorem Layer.ofJson_trim {t : Text} {layer : Layer Float} (h : Layer.ofJson t = .ok layer) :
    Json.Escaped t ∧ (Text.trim t).head? = some '\x7b' ∧
      (Text.trim t).getLast? = some '\x7d' ∧ Layer.ofJson (Text.trim t) = .ok layer := by
  have hmembers : ∀ {t : Text} {members : List (Text × Json)},
      OptionsError.members t = .ok members ↔ Json.ofText t = .ok (.object members) := by
    intro t members
    unfold OptionsError.members
    split
    · next members' heq => simp [heq]
    · next j hobject heq =>
      rw [heq]
      refine ⟨nofun, fun h => ?_⟩
      exact (hobject members (Except.ok.inj h)).elim
    · next fault heq => simp [heq]
  rw [Layer.ofJson] at h ⊢
  obtain ⟨members, hread, hlayer⟩ := Json.bind_eq_ok.mp h
  obtain ⟨hescaped, hhead, hlast, hobject⟩ := Json.trim_of_object (hmembers.mp hread)
  exact ⟨hescaped, hhead, hlast, Json.bind_eq_ok.mpr ⟨members, hmembers.mpr hobject, hlayer⟩⟩

namespace Css

/-! ### Quotes -/

/-- Every apostrophe with a backslash before it. -/
def escapeQuotes (t : Text) : Text := t.flatMap fun c => if c = '\x27' then ['\\', c] else [c]

theorem splitQuoted_pair (quote c : Char) (t : Text) :
    splitQuoted quote ('\\' :: c :: t)
      = (if c = quote then c :: (splitQuoted quote t).1 else '\\' :: c :: (splitQuoted quote t).1,
        (splitQuoted quote t).2) := rfl

theorem splitQuoted_plain {quote c : Char} (hescape : c ≠ '\\') (hquote : c ≠ quote) (t : Text) :
    splitQuoted quote (c :: t) = (c :: (splitQuoted quote t).1, (splitQuoted quote t).2) := by
  rw [splitQuoted, if_neg hquote]
  · intro hc
    exact (hescape hc).elim
  · intro d u hc
    exact (hescape hc).elim

/-- **Between single quotes a text with its apostrophes escaped is read as it was.** -/
theorem splitQuoted_escapeQuotes {t : Text} (h : Json.Escaped t) (rest : Text) :
    splitQuoted '\x27' (escapeQuotes t ++ '\x27' :: rest) = (t, true, rest) := by
  -- on the escapes, not on the characters: a backslash of the text takes a character of its own
  -- along, and so never the backslash that was added before an apostrophe
  induction h with
  | nil => rfl
  | @plain c t hc ht ih =>
    by_cases hquote : c = '\x27'
    · have hescaped : escapeQuotes (c :: t) = '\\' :: c :: escapeQuotes t := by
        simp [escapeQuotes, hquote]
      rw [hescaped, List.cons_append, List.cons_append, splitQuoted_pair, if_pos hquote, ih]
    · have hkept : escapeQuotes (c :: t) = c :: escapeQuotes t := by
        simp [escapeQuotes, hquote]
      rw [hkept, List.cons_append, splitQuoted_plain hc hquote, ih]
  | @pair c t hc ht ih =>
    have hkept : escapeQuotes ('\\' :: c :: t) = '\\' :: c :: escapeQuotes t := by
      simp [escapeQuotes, hc]
    rw [hkept, List.cons_append, List.cons_append, splitQuoted_pair, if_neg hc, ih]

/-! ### The tokens of the call -/

/-- The arguments of a call, one blank apart, with options in single quotes. -/
def optionsArguments (lightness chroma hue options : Text) : Text :=
  lightness ++ ' ' :: (chroma ++ ' ' :: (hue ++ ' ' ::
    '\x27' :: (escapeQuotes options ++ ['\x27'])))

/-- The call with these arguments. -/
def optionsCall (lightness chroma hue options : Text) : Text :=
  callStart ++ (optionsArguments lightness chroma hue options ++ [')'])

/-- The quotes of a quoted text, its value, and whether it has an end. -/
def TokenKind.quoted? : TokenKind → Option (Char × Text × Bool)
  | .quoted quote value terminated => some (quote, value, terminated)
  | _ => none

theorem Amount.quoted?_eq_none {kind : TokenKind} {x : Float} (h : Amount kind x) :
    kind.quoted? = Option.none := by
  cases h with
  | number => rfl
  | percentage => rfl
  | none => rfl

theorem Angle.quoted?_eq_none {kind : TokenKind} {x : Float} (h : Angle kind x) :
    kind.quoted? = Option.none := by
  cases h with
  | number => rfl
  | dimension => rfl
  | none => rfl

theorem separator_of_blank {b : Token} (hb : b.kind = .blank) : Separator [b] where
  nonempty := by simp
  separators := by simp [hb]
  commas := by simp [hb]

section

variable {l c h options : Text} {x y z : Float}

theorem lexesTo_options (hoptions : Json.Escaped options) (rest : Text) :
    LexesTo ('\x27' :: (escapeQuotes options ++ '\x27' :: rest))
      [.quoted '\x27' options true] rest := by
  refine .cons ?_ (.nil rest)
  have hfirst : ∀ t, firstToken '\x27' t
      = (.quoted '\x27' (splitQuoted '\x27' t).1 (splitQuoted '\x27' t).2.1,
        (splitQuoted '\x27' t).2.2) := fun _ => rfl
  rw [hfirst, splitQuoted_escapeQuotes hoptions]

theorem exists_lexesTo (hl : AmountText l x) (hc : AmountText c y) (hh : HueText h z)
    (hoptions : Json.Escaped options) (rest : Text) :
    ∃ kl kc kh, Amount kl x ∧ Amount kc y ∧ Angle kh z ∧
      LexesTo (optionsArguments l c h options ++ rest)
        [kl, .blank, kc, .blank, kh, .blank, .quoted '\x27' options true] rest := by
  -- from the back, since where a token ends depends on what follows
  have hjson := lexesTo_options hoptions rest
  obtain ⟨kh, hkh, hhue⟩ := hh.exists_lexesTo ('\x27' :: (escapeQuotes options ++ '\x27' :: rest))
  have hback := hhue.append (hjson.blank (by simp))
  obtain ⟨kc, hkc, hchroma⟩ := hc.exists_lexesTo _
  have hmiddle := hchroma.append (hback.blank hkh.ne_separator.1)
  obtain ⟨kl, hkl, hlightness⟩ := hl.exists_lexesTo _
  have hall := hlightness.append (hmiddle.blank hkc.ne_separator.1)
  refine ⟨kl, kc, kh, hkl, hkc, hkh, ?_⟩
  simpa [optionsArguments] using hall

theorem exists_kinds_callTokens (hl : AmountText l x) (hc : AmountText c y) (hh : HueText h z)
    (hoptions : Json.Escaped options) :
    ∃ kl kc kh, Amount kl x ∧ Amount kc y ∧ Angle kh z ∧
      (callTokens (optionsCall l c h options)).map Token.kind
        = [kl, .blank, kc, .blank, kh, .blank, .quoted '\x27' options true, .closeParen] := by
  obtain ⟨kl, kc, kh, hkl, hkc, hkh, hlexes⟩ := exists_lexesTo hl hc hh hoptions [')']
  refine ⟨kl, kc, kh, hkl, hkc, hkh, ?_⟩
  rw [callTokens, optionsCall, List.drop_left, List.map_map]
  exact (hlexes.append .closeParen).kind_tokensFrom (Nat.le_refl _)

theorem quoted?_callTokens (hl : AmountText l x) (hc : AmountText c y) (hh : HueText h z)
    (hoptions : Json.Escaped options) :
    (callTokens (optionsCall l c h options)).filterMap (·.kind.quoted?)
      = [('\x27', options, true)] := by
  obtain ⟨kl, kc, kh, hkl, hkc, hkh, hkinds⟩ := exists_kinds_callTokens hl hc hh hoptions
  have hmap := List.filterMap_map (f := Token.kind) (g := TokenKind.quoted?)
    (l := callTokens (optionsCall l c h options))
  rw [hkinds] at hmap
  refine hmap.symm.trans ?_
  rw [List.filterMap_cons_none hkl.quoted?_eq_none, List.filterMap_cons_none rfl,
    List.filterMap_cons_none hkc.quoted?_eq_none, List.filterMap_cons_none rfl,
    List.filterMap_cons_none hkh.quoted?_eq_none]
  rfl

theorem callTokens_optionsCall {strict : Bool} {json : Option (Layer Float)}
    (hl : AmountText l x) (hc : AmountText c y) (hh : HueText h z)
    (hoptions : Json.Escaped options) (hvalue : OptionsText strict options json) :
    CallTokens strict (callTokens (optionsCall l c h options)) ⟨x, y, z, none, none, json⟩ := by
  obtain ⟨kl, kc, kh, hkl, hkc, hkh, hkinds⟩ := exists_kinds_callTokens hl hc hh hoptions
  simp only [List.map_eq_cons_iff, List.map_eq_nil_iff] at hkinds
  obtain ⟨tl, _, hts, rfl, sep, _, rfl, hsep, tc, _, rfl, rfl, sep', _, rfl, hsep', th, _, rfl, rfl,
    sep'', _, rfl, hsep'', token, _, rfl, htoken, close, _, rfl, hclose, rfl⟩ := hkinds
  rw [hts]
  have hrequired : RequiredPart [tl, sep, tc, sep', th] x y z :=
    .intro (List.forall_mem_nil _) hkl (separator_of_blank hsep) hkc (separator_of_blank hsep') hkh
  have hpart : OptionsPart strict [sep'', token] json :=
    .present (separator_of_blank hsep'') htoken hvalue
  exact .intro hrequired .absent .absent hpart (List.forall_mem_nil _) hclose

end

/-! ### Where the call ends -/

section

variable {l c h options : Text} {x y z : Float}

theorem scan_optionsArguments (hl : AmountText l x) (hc : AmountText c y) (hh : HueText h z)
    (hoptions : Json.Escaped options) (depth : Nat) :
    scan .outside depth (optionsArguments l c h options) = some (.outside, depth) := by
  obtain ⟨kl, kc, kh, hkl, hkc, hkh, hlexes⟩ := exists_lexesTo hl hc hh hoptions []
  have hblank : TokenKind.blank.Level := ⟨nofun, nofun, nofun⟩
  have hquoted : (TokenKind.quoted '\x27' options true).Level := ⟨nofun, nofun, nofun⟩
  obtain ⟨w, hw, hscan⟩ := hlexes.exists_scan (by
    simp [hkl.level, hkc.level, hkh.level, hblank, hquoted])
  rw [List.append_nil, List.append_nil] at hw
  rw [hw]
  exact hscan depth

theorem at_optionsCall (hl : AmountText l x) (hc : AmountText c y) (hh : HueText h z)
    (hoptions : Json.Escaped options) :
    CallSite.at 0 (optionsCall l c h options)
      = ⟨⟨0, Text.byteSize (optionsCall l c h options)⟩,
        ⟨callStart.length, Text.byteSize (optionsCall l c h options) - 1⟩, true⟩ := by
  have hparen : Text.byteSize [')'] = 1 := by decide
  have hclosing : closingParen? .outside 0 (optionsArguments l c h options ++ [')'])
      = some (Text.byteSize (optionsArguments l c h options)) := by
    rw [closingParen?_append (scan_optionsArguments hl hc hh hoptions 0)]
    exact congrArg some (Nat.zero_add _)
  have hsize : Text.byteSize (optionsCall l c h options)
      = callStart.length + Text.byteSize (optionsArguments l c h options) + 1 := by
    rw [optionsCall, Text.byteSize_append, Text.byteSize_append, hparen, byteSize_callStart,
      Nat.add_assoc]
  rw [CallSite.at, hsize, optionsCall, List.drop_left, hclosing]
  simp only [Nat.zero_add, Nat.add_sub_cancel]

/-- The call that a text begins with is the first of its calls. -/
theorem exists_callSites_eq_cons {t : Text} (ht : startsCall t = true) :
    ∃ later, callSites t = .at 0 t :: later := by
  cases t with
  | nil => cases ht
  | cons d t =>
    refine ⟨callSitesFrom (some d) (0 + d.utf8Size) t, ?_⟩
    rw [callSites, callSitesFrom]
    simp [ht]

end

/-! ### Reading the call -/

section

variable {strict : Bool} {layer : Layer Float}

theorem readOptions_eq_pure {value : Text} (h : OptionsText strict value (some layer))
    (span : Span) : readOptions strict value span = pure (.ok (some layer)) := by
  cases h with
  | object hopen hclose hlayer =>
    have hnonempty : (Text.trim value).isEmpty = false := by
      cases htrim : Text.trim value with
      | nil =>
        rw [htrim] at hopen
        cases hopen
      | cons d t => rfl
    simp [readOptions, isBraced, hnonempty, hopen, hclose, hlayer]

theorem log_segmentOptions {segment : Option (Text × Span)}
    (h : (segmentOptions strict segment).value = .ok (some layer)) :
    (segmentOptions strict segment).log = [] := by
  cases segment with
  | none => rfl
  | some s =>
    rw [segmentOptions, readOptions_eq_pure (value_readOptions_iff.mp h)]
    rfl

/-- A call that is read with options is read without a record. -/
theorem log_readCall_of_options {ts : List Token} {c : CallArguments}
    (h : (readCall strict ts).value = .ok c) (hjson : c.json = some layer) :
    (readCall strict ts).log = [] := by
  cases hrequired : required? ts with
  | none => simp [readCall, hrequired]
  | some p =>
    obtain ⟨c₁, ts₁⟩ := p
    cases halpha : alpha? ts₁ with
    | none => simp [readCall, hrequired, halpha]
    | some q =>
      obtain ⟨alpha, ts₂⟩ := q
      obtain ⟨g, ts₃, hgamut⟩ : ∃ g ts₃, gamut ts₂ = (g, ts₃) := ⟨_, _, rfl⟩
      obtain ⟨segment, ts₄, hsegment⟩ : ∃ segment ts₄, jsonSegment ts₃ = (segment, ts₄) :=
        ⟨_, _, rfl⟩
      rw [value_readCall hrequired halpha hgamut hsegment] at h
      rw [log_readCall hrequired halpha hgamut hsegment]
      cases hoptions : (segmentOptions strict segment).value with
      | error failure => simp [hoptions] at h
      | ok json =>
        rw [hoptions] at h
        dsimp only at h
        split_ifs at h
        obtain rfl := Except.ok.inj h
        obtain rfl : json = some layer := hjson
        exact log_segmentOptions hoptions

theorem parseCall_eq_pure {call : Text} {c : CallArguments}
    (h : (parseCall strict call).value = .ok c) (hjson : c.json = some layer) :
    parseCall strict call = pure (.ok c) := by
  obtain ⟨hstarts, htokens⟩ := callTokens_of_value_parseCall h
  have hlog := log_readCall_of_options (value_readCall_of_callTokens htokens) hjson
  rw [← log_parseCall hstarts] at hlog
  exact Logged.ext h hlog

end

section

variable {l c h options : Text} {x y z : Float} {layer : Layer Float}

theorem startsCall_optionsCall (l c h options : Text) :
    startsCall (optionsCall l c h options) = true :=
  startsCall_append (by decide) _

theorem parseCall_optionsCall (hl : AmountText l x) (hc : AmountText c y) (hh : HueText h z)
    (hlayer : Layer.ofJson options = .ok layer) (strict : Bool) :
    parseCall strict (optionsCall l c h options)
      = pure (.ok ⟨x, y, z, none, none, some layer⟩) := by
  obtain ⟨hoptions, hhead, hlast, htrimmed⟩ := Layer.ofJson_trim hlayer
  have hvalue : OptionsText strict options (some layer) := .object hhead hlast htrimmed
  have htokens := callTokens_optionsCall hl hc hh hoptions hvalue
  have hread := value_parseCall_of_callTokens (startsCall_optionsCall l c h options) htokens
  exact parseCall_eq_pure hread rfl

end

/-! ### A text that is one call -/

section

variable {m : Type → Type} [Monad m] [LawfulMonad m] {render : CallArguments → m Text}
  {note : List Log.Record → m Unit}
  {read : Text → Logged Log.Record (Except Problem CallArguments)} {t : Text} {site : CallSite}
  {sites : List CallSite} {c : CallArguments}

theorem rulingsFrom_covered {done : Nat} (h : ∀ site ∈ sites, site.span.start < done) :
    rulingsFrom read t done sites = sites.map fun site => ⟨site, .covered, []⟩ := by
  induction sites with
  | nil => rfl
  | cons site sites ih =>
    obtain ⟨hsite, hsites⟩ := List.forall_mem_cons.mp h
    rw [rulingsFrom, if_pos hsite, ih hsites, List.map_cons]

theorem edits_covered (hnote : note [] = pure ()) (sites : List CallSite) :
    edits render note (sites.map fun site => ⟨site, .covered, []⟩) = pure [] := by
  induction sites with
  | nil => rfl
  | cons site sites ih =>
    rw [List.map_cons, edits, hnote, pure_bind]
    exact ih

/-- **A text that is one call is replaced as a whole, together with the calls inside it.** -/
theorem expandWith_accepted (hnote : note [] = pure ()) (hsites : callSites t = site :: sites)
    (hspan : site.span = ⟨0, Text.byteSize t⟩) (hread : (read t).value = .ok c) :
    expandWith render note read t = (do
      note (read t).log
      let colour ← render c
      pure ⟨colour, []⟩) := by
  have htext : site.text t = t := by
    rw [CallSite.text, hspan]
    have hslice := Text.slice_append [] t []
    simpa using hslice
  have hinside : ∀ inner ∈ sites, inner.span.start < site.span.stop := by
    intro inner hinner
    have hmem : inner ∈ callSites t := by
      rw [hsites]
      exact List.mem_cons_of_mem _ hinner
    rw [hspan]
    exact Nat.lt_of_lt_of_le (start_lt_stop hmem) (CallSite.stop_le_byteSize hmem)
  have hrulings : rulings read t
      = ⟨site, .replaced c, (read t).log⟩ :: sites.map fun site => ⟨site, .covered, []⟩ := by
    rw [rulings, hsites, rulingsFrom, if_neg (Nat.not_lt_zero _), htext,
      ← rulingsFrom_covered hinside]
    dsimp only
    rw [hread]
  have hdiagnostics : diagnostics t (rulings read t) = [] := by
    rw [hrulings, diagnostics, List.filterMap_eq_nil_iff]
    simp
  rw [hrulings] at hdiagnostics
  have happly : ∀ colour, applyEdits t 0 [⟨site.span, colour⟩] = colour := by
    intro colour
    have hfront : Text.slice t ⟨0, 0⟩ = [] := Text.slice_append [] [] t
    have hback := Text.dropBytes_append t []
    rw [List.append_nil] at hback
    rw [applyEdits, applyEdits, hspan, hfront, hback, List.append_nil, List.nil_append]
  simp only [expandWith, hrulings, hdiagnostics, edits, edits_covered hnote, pure_bind, bind_assoc,
    happly]

theorem expandWith_call (hnote : note [] = pure ()) (hsites : callSites t = site :: sites)
    (hspan : site.span = ⟨0, Text.byteSize t⟩) (hread : read t = pure (.ok c)) :
    expandWith render note read t = (do
      let colour ← render c
      pure ⟨colour, []⟩) := by
  rw [expandWith_accepted hnote hsites hspan (congrArg Logged.value hread), hread, Logged.log_pure,
    hnote, pure_bind]

end

/-! ### Options in a call -/

/-- **Options written as JSON survive in a call.**  The call is terminated and spans the whole
    text, the quoted text among its tokens is the one that was put in, it is read with the options
    that the JSON text gives, and the whole of it is replaced by the colour with these options on
    top of those of the host. -/
theorem optionsCall_carries_options {l c h options : Text} {x y z : Float} {layer : Layer Float}
    (hl : AmountText l x) (hc : AmountText c y) (hh : HueText h z)
    (hlayer : Layer.ofJson options = .ok layer) :
    let call := optionsCall l c h options
    (callSites call).head?
      = some ⟨⟨0, Text.byteSize call⟩, ⟨callStart.length, Text.byteSize call - 1⟩, true⟩ ∧
    (callTokens call).filterMap (·.kind.quoted?) = [('\x27', options, true)] ∧
    (∀ strict, parseCall strict call = pure (.ok ⟨x, y, z, none, none, some layer⟩)) ∧
    ∀ o : HostOptions, expand standardReader o call = (do
      let colour ← ColorM.css ⟨x, y, z, (layer.above o.base).resolve⟩
      pure ⟨colour, []⟩) := by
  intro call
  obtain ⟨hoptions, -⟩ := Layer.ofJson_trim hlayer
  obtain ⟨later, hsites⟩ := exists_callSites_eq_cons (startsCall_optionsCall l c h options)
  have hparse := parseCall_optionsCall hl hc hh hlayer
  have hat := at_optionsCall hl hc hh hoptions
  refine ⟨?_, quoted?_callTokens hl hc hh hoptions, hparse, fun o => ?_⟩
  · rw [hsites, hat]
    rfl
  · have hnote : noteAll [] = pure () := rfl
    have hrequest : (CallArguments.mk x y z none none (some layer)).request o
        = ⟨x, y, z, (layer.above o.base).resolve⟩ := rfl
    rw [expand, ← hrequest]
    exact expandWith_call hnote hsites (by rw [hat]) (hparse o.strictJson)

theorem optionsCall_carries_options_nested :
    let options : Text := " \x7b\"note\": \"it's \\\\ egal(\", \"gamut\": \"p3\"\x7d".toList
    let layer : Layer Float := { Layer.empty with gamut := some .p3 }
    let call : Text :=
      "egal(50% none .5TURN ' \x7b\"note\": \"it\\'s \\\\ egal(\", \"gamut\": \"p3\"\x7d')".toList
    let x := numberValue "50".toList / 100.0
    let z := numberValue ".5".toList * 360.0
    Layer.ofJson options = .ok layer ∧
      call = optionsCall "50%".toList "none".toList ".5TURN".toList options ∧
      (callSites call).head? = some ⟨⟨0, 66⟩, ⟨5, 65⟩, true⟩ ∧
      (callTokens call).filterMap (·.kind.quoted?) = [('\x27', options, true)] ∧
      (∀ strict, parseCall strict call = pure (.ok ⟨x, 0.0, z, none, none, some layer⟩)) ∧
      ∀ o : HostOptions, expand standardReader o call = (do
        let colour ← ColorM.css ⟨x, 0.0, z, (layer.above o.base).resolve⟩
        pure ⟨colour, []⟩) := by
  intro options layer call x z
  have hlayer : Layer.ofJson options = .ok layer := by with_unfolding_all rfl
  have hcall : call = optionsCall "50%".toList "none".toList ".5TURN".toList options := by decide
  have hl : AmountText "50%".toList x :=
    .percentage (w := "50".toList) (.unsigned (.whole (List.all_eq_true.mp rfl) (by decide)))
  have hc : AmountText "none".toList 0.0 := .none (by decide)
  have hh : HueText ".5TURN".toList z :=
    .angle (w := ".5".toList)
      (.unsigned (.point (List.forall_mem_nil _) (List.forall_mem_singleton.mpr rfl) (by decide)))
      (.turn rfl)
  have h := optionsCall_carries_options hl hc hh hlayer
  rw [← hcall] at h
  exact ⟨hlayer, hcall, h⟩

end Css

end EvenChroma
