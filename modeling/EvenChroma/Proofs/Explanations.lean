/-
  EvenChroma/Proofs/Explanations.lean
  ===================================
  **A mistake is found between tokens that are none.**  The searches pass over tokens that are
  no mistake, so what stands between such tokens explains the failure, and it is the reason of
  the failure as well: the reader gets stuck on it (`Wrong`).  The arguments are told apart by
  the position that the search has counted up to them, which is the one they have in the
  grammar.
-/
import EvenChroma.Proofs.ArgumentRoles
import EvenChroma.Proofs.OptionsTokens
import EvenChroma.Proofs.ProblemPlaces

namespace EvenChroma.Css

/-! ### Tokens of calls -/

/-- Tokens of this kind are neither a mistake nor in double quotes. -/
structure TokenKind.Sound (kind : TokenKind) : Prop where
  fine : kind.Fine
  no_doubleQuote : ∀ value terminated, kind ≠ .quoted '"' value terminated

section

variable {kind : TokenKind} {x : Float}

theorem TokenKind.Sound.of_not_quoted (hpercent : kind ≠ .percent)
    (hquoted : ∀ quote value terminated, kind ≠ .quoted quote value terminated) : kind.Sound :=
  ⟨.of_not_quoted hpercent hquoted, fun value terminated => hquoted '"' value terminated⟩

theorem Amount.sound (h : Amount kind x) : kind.Sound := by
  cases h with
  | number => exact .of_not_quoted nofun nofun
  | percentage => exact .of_not_quoted nofun nofun
  | none => exact .of_not_quoted nofun nofun

theorem Angle.sound (h : Angle kind x) : kind.Sound := by
  cases h with
  | number => exact .of_not_quoted nofun nofun
  | dimension => exact .of_not_quoted nofun nofun
  | none => exact .of_not_quoted nofun nofun

/-- Options are not a keyword. -/
theorem OptionsText.sound {strict : Bool} {value : Text} {json : Option (Layer Float)}
    (h : OptionsText strict value json) : (TokenKind.quoted '\x27' value true).Sound := by
  refine ⟨⟨nofun, ?_⟩, nofun⟩
  rintro _ _ _ ⟨⟩
  cases h with
  | empty hempty =>
    rw [hempty]
    rfl
  | object hopen hclose hlayer => exact Gamut.ofKeyword?_of_isMark (List.mem_of_mem_head? hopen) rfl
  | ignored hopen hclose herror hlenient =>
    exact Gamut.ofKeyword?_of_isMark (List.mem_of_mem_head? hopen) rfl

theorem CallTokens.sound {strict : Bool} {ts : List Token} {c : CallArguments}
    (h : CallTokens strict ts c) : ∀ t ∈ ts, t.kind.Sound := by
  intro t ht
  obtain ⟨pre, post, rfl⟩ := List.append_of_mem ht
  have hrole := h.role
  generalize t.kind = kind at hrole
  cases hrole with
  | divider hkind =>
    rcases hkind with rfl | rfl | rfl
    all_goals exact .of_not_quoted nofun nofun
  | amount hahead hkind => exact hkind.sound
  | angle hahead hkind => exact hkind.sound
  | gamut hpart hsep hname => exact .of_not_quoted nofun nofun
  | options hpart hsep hvalue => exact hvalue.sound
  | closeParen => exact .of_not_quoted nofun nofun

theorem TokenKind.Sound.isDoubleQuoted {t : Token} (h : t.kind.Sound) :
    isDoubleQuoted t = false := by
  unfold Css.isDoubleQuoted
  split
  · next quote value terminated hkind =>
    refine decide_eq_false ?_
    rintro rfl
    exact h.no_doubleQuote value terminated hkind
  · rfl

end

/-! ### Counting the arguments -/

/-- Tokens of this kind are counted as arguments. -/
def TokenKind.Counts (kind : TokenKind) : Prop :=
  kind ≠ .blank ∧ kind ≠ .comma ∧ kind ≠ .slash ∧ kind ≠ .percent

theorem Amount.counts {kind : TokenKind} {x : Float} (h : Amount kind x) : kind.Counts := by
  cases h with
  | number => exact ⟨nofun, nofun, nofun, nofun⟩
  | percentage => exact ⟨nofun, nofun, nofun, nofun⟩
  | none => exact ⟨nofun, nofun, nofun, nofun⟩

section

variable {t : Token} {ts : List Token} (p : Position)

theorem Position.next_of_counts (h : t.kind.Counts) :
    p.next t = ⟨if p.pending && !p.afterSlash then p.slot + 1 else p.slot, p.afterSlash, false,
      true⟩ := by
  obtain ⟨hblank, hcomma, hslash, hpercent⟩ := h
  unfold next
  split
  · next heq => exact (hblank heq).elim
  · next heq => exact (hcomma heq).elim
  · next heq => exact (hslash heq).elim
  · next heq => exact (hpercent heq).elim
  · rfl

/-- A separator is seen if an argument came before it. -/
theorem Position.foldl_next (h : ∀ t ∈ ts, t.kind = .blank ∨ t.kind = .comma) :
    ts.foldl next p = { p with pending := if ts = [] then p.pending else p.started } := by
  induction ts generalizing p with
  | nil => rfl
  | cons t ts ih =>
    obtain ⟨ht, hts⟩ := List.forall_mem_cons.mp h
    have hnext : p.next t = { p with pending := p.started } := by
      rcases ht with ht | ht <;> simp [next, ht]
    rw [List.foldl_cons, hnext, ih _ hts]
    simp

theorem Position.foldl_next_blanks (h : Blanks ts) :
    ts.foldl next p = { p with pending := if ts = [] then p.pending else p.started } :=
  foldl_next p fun t ht => .inl (h t ht)

theorem Position.foldl_next_separator (h : Separator ts) :
    ts.foldl next p = { p with pending := p.started } := by
  rw [foldl_next p h.separators, if_neg h.nonempty]

end

/-- **The argument that the search has counted up to is the one of the grammar.** -/
theorem Ahead.component_eq {component : Component} {pre : List Token} {t : Token}
    (h : Ahead component pre) (ht : t.kind.Counts) :
    ((pre.foldl Position.next ⟨0, false, false, false⟩).next t).component = component := by
  cases h with
  | lightness hfront =>
    rw [Position.foldl_next_blanks _ hfront, Position.next_of_counts _ ht]
    simp [Position.component]
  | chroma hfront hlightness hsep =>
    rw [List.foldl_append, Position.foldl_next_blanks _ hfront, List.foldl_cons,
      Position.next_of_counts _ hlightness.counts, Position.foldl_next_separator _ hsep,
      Position.next_of_counts _ ht]
    simp [Position.component]
  | hue hfront hlightness hsep hchroma hsep' =>
    rw [List.foldl_append, Position.foldl_next_blanks _ hfront, List.foldl_cons,
      Position.next_of_counts _ hlightness.counts, List.foldl_append,
      Position.foldl_next_separator _ hsep, List.foldl_cons,
      Position.next_of_counts _ hchroma.counts, Position.foldl_next_separator _ hsep',
      Position.next_of_counts _ ht]
    simp [Position.component]
  | alpha hpart hbefore hslash hafter =>
    rw [List.foldl_append, List.foldl_append, List.foldl_cons,
      Position.foldl_next_blanks _ hafter, Position.next_of_counts _ ht]
    simp [Position.component, Position.next, hslash]

/-! ### Searching for mistakes -/

section

variable {pre ts post : List Token} {t : Token} {p : Position}

theorem nonePercentFrom?_cons (ht : ∀ u ∈ ts.head?, isNone t = true → u.kind ≠ .percent) :
    nonePercentFrom? p (t :: ts) = nonePercentFrom? (p.next t) ts := by
  cases ts with
  | nil => rfl
  | cons u ts =>
    rw [nonePercentFrom?, if_neg]
    simpa using ht u rfl

theorem nonePercentFrom?_append (hpre : ∀ t ∈ pre, t.kind ≠ .percent)
    (hts : ∀ t ∈ ts.head?, t.kind ≠ .percent) :
    nonePercentFrom? p (pre ++ ts) = nonePercentFrom? (pre.foldl Position.next p) ts := by
  induction pre generalizing p with
  | nil => rfl
  | cons t pre ih =>
    obtain ⟨-, hpre⟩ := List.forall_mem_cons.mp hpre
    rw [List.cons_append, nonePercentFrom?_cons, ih hpre]
    · rfl
    · intro u hu _
      rw [List.head?_append, Option.mem_def, Option.or_eq_some_iff] at hu
      rcases hu with hu | ⟨-, hu⟩
      · exact hpre u (List.mem_of_mem_head? hu)
      · exact hts u hu

theorem nonePercentFrom?_eq_none (h : ∀ t ∈ ts, t.kind ≠ .percent) :
    nonePercentFrom? p ts = none := by
  have hall : nonePercentFrom? p (ts ++ []) = none := nonePercentFrom?_append h nofun
  rwa [List.append_nil] at hall

theorem detachedPercent?_cons (h : ∀ u ∈ ts[1]?, u.kind ≠ .percent) :
    detachedPercent? (t :: ts) = detachedPercent? ts := by
  rw [detachedPercent?.eq_def]
  split
  · next heq =>
    obtain ⟨-, rfl⟩ := List.cons.inj heq
    exact (h _ rfl rfl).elim
  · next heq =>
    obtain ⟨-, rfl⟩ := List.cons.inj heq
    rfl
  · next heq => cases heq

theorem detachedPercent?_append (hpre : ∀ t ∈ pre, t.kind ≠ .percent)
    (hts : ∀ t ∈ ts.take 2, t.kind ≠ .percent) :
    detachedPercent? (pre ++ ts) = detachedPercent? ts := by
  induction pre with
  | nil => rfl
  | cons t pre ih =>
    obtain ⟨-, hpre⟩ := List.forall_mem_cons.mp hpre
    rw [List.cons_append, detachedPercent?_cons, ih hpre]
    intro u hu
    have hmem : u ∈ (pre ++ ts).take 2 :=
      List.mem_of_getElem? (i := 1) (by rwa [List.getElem?_take_of_lt (by decide)])
    rw [List.take_append] at hmem
    rcases List.mem_append.mp hmem with hmem | hmem
    · exact hpre u (List.mem_of_mem_take hmem)
    · exact hts u (List.take_subset_take_left ts (Nat.sub_le _ _) hmem)

theorem detachedPercent?_eq_none (h : ∀ t ∈ ts, t.kind ≠ .percent) :
    detachedPercent? ts = none := by
  have hall : detachedPercent? (ts ++ []) = none := detachedPercent?_append h nofun
  rwa [List.append_nil] at hall

theorem quotedGamut?_eq_none (h : ∀ t ∈ ts, t.kind.Fine) : quotedGamut? ts = none := by
  rw [quotedGamut?, List.findSome?_eq_none_iff]
  intro t ht
  split
  · next quote value terminated hkind =>
    rw [(h t ht).no_keyword _ _ _ hkind]
    rfl
  · rfl

theorem quotedGamut?_append (hpre : ∀ t ∈ pre, t.kind.Fine) :
    quotedGamut? (pre ++ ts) = quotedGamut? ts := by
  have hnone := quotedGamut?_eq_none hpre
  rw [quotedGamut?] at hnone ⊢
  rw [List.findSome?_append, hnone, Option.none_or]
  rfl

/-- The first token that opens an object, and the last one in double quotes. -/
theorem doubleQuotedJson?_append {first last : Token} (hpre : ∀ t ∈ pre, t.kind.Sound)
    (hpost : ∀ t ∈ post, t.kind.Sound) (hfirst : ts.head? = some first)
    (hopens : opensObject first = true) (hlast : ts.getLast? = some last)
    (hquoted : isDoubleQuoted last = true) :
    doubleQuotedJson? (pre ++ (ts ++ post))
      = some ⟨.doubleQuotedJson, first.span.start, last.span.stop⟩ := by
  have hnone : pre.find? opensObject = none := by
    rw [List.find?_eq_none]
    intro t ht hobject
    have hdouble := isDoubleQuoted_of_opensObject hobject
    rw [(hpre t ht).isDoubleQuoted] at hdouble
    cases hdouble
  have hnone' : post.reverse.find? isDoubleQuoted = none := by
    rw [List.find?_eq_none]
    intro t ht hdouble
    rw [(hpost t (List.mem_reverse.mp ht)).isDoubleQuoted] at hdouble
    cases hdouble
  obtain ⟨later, rfl⟩ := List.head?_eq_some_iff.mp hfirst
  obtain ⟨earlier, hearlier⟩ := List.getLast?_eq_some_iff.mp hlast
  have hfind : (pre ++ (first :: later ++ post)).find? opensObject = some first := by
    rw [List.find?_append, hnone, Option.none_or, List.cons_append, List.find?_cons_of_pos hopens]
  have hfind' : (pre ++ (first :: later ++ post)).reverse.find? isDoubleQuoted = some last := by
    rw [hearlier, List.reverse_append, List.reverse_append, List.reverse_append,
      List.append_assoc, List.append_assoc, List.find?_append, hnone', Option.none_or]
    exact List.find?_cons_of_pos hquoted
  rw [doubleQuotedJson?, hfind, hfind']
  rfl

end

/-! ### Getting stuck -/

section

variable {pre sep gap ts : List Token} {t v : Token} {c : CallArguments} {x y : Float}

theorem not_closes (hleads : Leads sep t) (hclose : t.kind ≠ .closeParen) (ts : List Token) :
    closes (sep ++ t :: ts) = false := by
  rw [← Bool.not_eq_true, closes_iff]
  rintro ⟨back, close, hback, hkind, heq⟩
  have ht : t ∈ back ++ [close] := heq ▸ List.mem_append_right sep List.mem_cons_self
  rcases List.mem_append.mp ht with ht | ht
  · exact hleads.not_separator.1 (hback t ht)
  · obtain rfl := List.mem_singleton.mp ht
    exact hclose hkind

/-- A token that may not follow the direct arguments. -/
structure TokenKind.Misplaced (kind : TokenKind) : Prop where
  not_separator : kind ≠ .blank ∧ kind ≠ .comma
  ne_slash : kind ≠ .slash
  ne_ident : ∀ name, kind ≠ .ident name
  ne_options : ∀ value, kind ≠ .quoted '\x27' value true
  ne_closeParen : kind ≠ .closeParen

theorem misplaced_quoted {quote : Char} {value : Text} {terminated : Bool}
    (hquote : quote ≠ '\x27') : (TokenKind.quoted quote value terminated).Misplaced :=
  ⟨⟨nofun, nofun⟩, nofun, nofun, fun _ h => hquote (TokenKind.quoted.inj h).1, nofun⟩

theorem stuck_behind {part : List Token} (hpart : DirectPart part c)
    (hsep : sep = [] ∨ Separator sep) (ht : t.kind.Misplaced) (strict : Bool) (ts : List Token) :
    (readCall strict (part ++ (sep ++ t :: ts))).value = .error .grammar := by
  have hleads : Leads sep t := ⟨hsep, ht.not_separator⟩
  rw [value_readCall_append hpart hleads ht.ne_slash ht.ne_ident
    (jsonSegment_absent hleads ht.ne_options)]
  simp [segmentOptions, not_closes hleads ht.ne_closeParen]

theorem separator?_percent (hgap : Blanks gap) (ht : t.kind = .percent) (ts : List Token) :
    separator? (gap ++ t :: ts) = none ∨ separator? (gap ++ t :: ts) = some (t :: ts) := by
  rw [separator?_leads ⟨hgap.eq_nil_or_separator, by simp [ht]⟩]
  split
  · exact .inl rfl
  · exact .inr rfl

theorem required?_stuck_chroma (hfront : Blanks ts) (hlightness : Amount v.kind x)
    (hgap : Blanks gap) (ht : t.kind = .percent) (rest : List Token) :
    required? (ts ++ v :: (gap ++ t :: rest)) = none := by
  have hvalue : value? TokenKind.amount? (t :: rest) = none := by
    simp [value?, ht, TokenKind.amount?]
  simp only [required?, Option.bind_eq_bind]
  rw [skipBlanks_append hfront (by simpa using hlightness.ne_separator.1),
    value?_cons (amount?_eq_some_iff.mpr hlightness), Option.bind_some]
  rcases separator?_percent hgap ht rest with hsep | hsep
  · rw [hsep, Option.bind_none]
  · rw [hsep, Option.bind_some, hvalue, Option.bind_none]

theorem required?_stuck_hue {l : Token} (hfront : Blanks ts) (hlightness : Amount l.kind y)
    (hsep : Separator sep) (hchroma : Amount v.kind x) (hgap : Blanks gap) (ht : t.kind = .percent)
    (rest : List Token) : required? (ts ++ l :: (sep ++ v :: (gap ++ t :: rest))) = none := by
  have hvalue : value? TokenKind.angle? (t :: rest) = none := by
    simp [value?, ht, TokenKind.angle?]
  simp only [required?, Option.bind_eq_bind]
  rw [skipBlanks_append hfront (by simpa using hlightness.ne_separator.1),
    value?_cons (amount?_eq_some_iff.mpr hlightness), Option.bind_some,
    separator?_append hsep (by simpa using hchroma.ne_separator), Option.bind_some,
    value?_cons (amount?_eq_some_iff.mpr hchroma), Option.bind_some]
  rcases separator?_percent hgap ht rest with hsep | hsep
  · rw [hsep, Option.bind_none]
  · rw [hsep, Option.bind_some, hvalue, Option.bind_none]

/-- **A value with a percent sign behind it, perhaps behind blanks, is no argument.** -/
theorem stuck_on_percent {component : Component} (hahead : Ahead component pre)
    (hamount : Amount v.kind x) (hangle : Angle v.kind y) (hgap : Blanks gap)
    (ht : t.kind = .percent) (strict : Bool) (ts : List Token) :
    (readCall strict (pre ++ v :: (gap ++ t :: ts))).value = .error .grammar := by
  have hmisplaced : t.kind.Misplaced := by
    rw [ht]
    exact ⟨⟨nofun, nofun⟩, nofun, nofun, nofun, nofun⟩
  have hgrammar : ∀ {ts}, required? ts = none → (readCall strict ts).value = .error .grammar := by
    intro ts hrequired
    simp [readCall, hrequired]
  have hbehind : ∀ {c}, DirectPart (pre ++ [v]) c →
      (readCall strict (pre ++ v :: (gap ++ t :: ts))).value = .error .grammar := by
    intro c hpart
    rw [List.append_cons]
    exact stuck_behind hpart hgap.eq_nil_or_separator hmisplaced strict ts
  cases hahead with
  | lightness hfront => exact hgrammar (required?_stuck_chroma hfront hamount hgap ht ts)
  | chroma hfront hlightness hsep =>
    have hrequired := required?_stuck_hue hfront hlightness hsep hamount hgap ht ts
    exact hgrammar (by simpa using hrequired)
  | hue hfront hlightness hsep hchroma hsep' =>
    have hpart := DirectPart.intro
      (.intro hfront hlightness hsep hchroma hsep' hangle) .absent .absent
    exact hbehind (by simpa using hpart)
  | alpha hpart hbefore hslash hafter =>
    have hdirect := DirectPart.intro hpart (.present hbefore hslash hafter hamount) .absent
    exact hbehind (by simpa using hdirect)

end

/-! ### What is wrong -/

/-- Behind `pre` these tokens make the mistake, and it goes from the first to the last of them,
    whatever sound tokens follow; and the reader gets stuck on them. -/
structure Wrong (mistake : Mistake) (pre ts : List Token) : Prop where
  stuck : ∀ strict post, (readCall strict (pre ++ (ts ++ post))).value = .error .grammar
  explained : ∀ {first last : Token} {post : List Token}, ts.head? = some first →
    ts.getLast? = some last → (∀ t ∈ post, t.kind.Sound) → ∀ call,
    explain call (pre ++ (ts ++ post)) = ⟨mistake, first.span.start, last.span.stop⟩

section

variable {pre part sep ts : List Token} {n b t : Token} {c : CallArguments}

theorem wrong_nonePercent {component : Component} {name : Text} (hahead : Ahead component pre)
    (hpre : ∀ t ∈ pre, t.kind.Sound) (hn : n.kind = .ident name)
    (hname : Text.toLower name = "none".toList) (ht : t.kind = .percent) :
    Wrong (.nonePercent component) pre [n, t] := by
  have hamount : Amount n.kind 0.0 := hn ▸ .none hname
  have hangle : Angle n.kind 0.0 := hn ▸ .none hname
  have hgap : Blanks [] := nofun
  constructor
  · exact fun strict post => stuck_on_percent hahead hamount hangle hgap ht strict post
  · rintro _ _ post ⟨⟩ ⟨⟩ - call
    have hnone : isNone n = true := by
      simp only [isNone, hn]
      exact sameIgnoringCase_noneWord.mpr hname
    have hfound : nonePercent? (pre ++ ([n, t] ++ post))
        = some ⟨.nonePercent component, n.span.start, t.span.stop⟩ := by
      rw [nonePercent?, nonePercentFrom?_append (fun t ht => (hpre t ht).fine.ne_percent)
        (by simp [hn])]
      change nonePercentFrom? _ (n :: t :: post) = _
      rw [nonePercentFrom?, if_pos (by simp [hnone, ht]), hahead.component_eq hamount.counts]
    rw [explain, hfound]
    rfl

theorem wrong_detachedPercent {component : Component} {x : Float} (hahead : Ahead component pre)
    (hpre : ∀ t ∈ pre, t.kind.Sound) (hn : n.kind = .number x) (hb : b.kind = .blank)
    (ht : t.kind = .percent) : Wrong .detachedPercent pre [n, b, t] := by
  have hamount : Amount n.kind x := hn ▸ .number x
  have hangle : Angle n.kind x := hn ▸ .number x
  have hgap : Blanks [b] := by simpa [Blanks] using hb
  constructor
  · exact fun strict post => stuck_on_percent hahead hamount hangle hgap ht strict post
  · rintro _ _ post ⟨⟩ ⟨⟩ hpost call
    have hpercent : ∀ t ∈ pre, t.kind ≠ .percent := fun t ht => (hpre t ht).fine.ne_percent
    have hnone : nonePercent? (pre ++ ([n, b, t] ++ post)) = none := by
      rw [nonePercent?, nonePercentFrom?_append hpercent (by simp [hn])]
      change nonePercentFrom? _ (n :: b :: t :: post) = none
      rw [nonePercentFrom?_cons (by simp [hb]), nonePercentFrom?_cons (by simp [isNone, hb]),
        nonePercentFrom?_cons (by simp [isNone, ht])]
      exact nonePercentFrom?_eq_none fun t ht => (hpost t ht).fine.ne_percent
    have hfound : detachedPercent? (pre ++ ([n, b, t] ++ post))
        = some ⟨.detachedPercent, n.span.start, t.span.stop⟩ := by
      rw [detachedPercent?_append hpercent (by simp [hn, hb])]
      obtain ⟨_, n⟩ := n
      obtain ⟨_, b⟩ := b
      obtain ⟨_, t⟩ := t
      obtain rfl := hn
      obtain rfl := hb
      obtain rfl := ht
      rfl
    rw [explain, hnone, hfound]
    rfl

theorem no_percent_append {post : List Token} (hpre : ∀ t ∈ pre, t.kind.Sound)
    (hts : ∀ t ∈ ts, t.kind ≠ .percent) (hpost : ∀ t ∈ post, t.kind.Sound) :
    nonePercent? (pre ++ (ts ++ post)) = none ∧ detachedPercent? (pre ++ (ts ++ post)) = none := by
  have hall : ∀ t ∈ pre ++ (ts ++ post), t.kind ≠ .percent := List.forall_mem_append.mpr
    ⟨fun t ht => (hpre t ht).fine.ne_percent, List.forall_mem_append.mpr
      ⟨hts, fun t ht => (hpost t ht).fine.ne_percent⟩⟩
  exact ⟨nonePercentFrom?_eq_none hall, detachedPercent?_eq_none hall⟩

/-- A keyword is not braced. -/
theorem value_readOptions_keyword {value : Text} {g : Gamut}
    (hvalue : Gamut.ofKeyword? (Text.trim value) = some g) (strict : Bool) (span : Span) :
    (readOptions strict value span).value = .error .grammar := by
  have hnonempty : (Text.trim value).isEmpty = false := by
    cases htrim : Text.trim value with
    | nil =>
      rw [htrim] at hvalue
      cases hvalue
    | cons d u => rfl
  have hbraced : isBraced (Text.trim value) = false := by
    rw [← Bool.not_eq_true, isBraced, Bool.and_eq_true, decide_eq_true_eq]
    rintro ⟨hopen, -⟩
    rw [Gamut.ofKeyword?_of_isMark (List.mem_of_mem_head? hopen) rfl] at hvalue
    cases hvalue
  simp [readOptions, hnonempty, hbraced]

theorem wrong_quotedGamut {quote : Char} {value : Text} {g : Gamut} (hpart : DirectPart part c)
    (hsep : Separator sep) (hpre : ∀ t ∈ part ++ sep, t.kind.Sound)
    (ht : t.kind = .quoted quote value true)
    (hvalue : Gamut.ofKeyword? (Text.trim value) = some g) :
    Wrong .quotedGamut (part ++ sep) [t] where
  stuck strict post := by
    rw [List.append_assoc]
    by_cases hquote : quote = '\x27'
    · subst hquote
      change (readCall strict (part ++ (sep ++ t :: post))).value = _
      rw [value_readCall_append hpart ⟨.inr hsep, by simp [ht]⟩ (by simp [ht]) (by simp [ht])
        (jsonSegment_present hsep ht), segmentOptions, value_readOptions_keyword hvalue]
    · refine stuck_behind hpart (.inr hsep) ?_ strict post
      rw [ht]
      exact misplaced_quoted hquote
  explained := by
    rintro _ _ post ⟨⟩ ⟨⟩ hpost call
    have hpercent : ∀ u ∈ [t], u.kind ≠ .percent := by simp [ht]
    obtain ⟨hnone, hnone'⟩ := no_percent_append hpre hpercent hpost
    have hfound : quotedGamut? (part ++ sep ++ ([t] ++ post)) = some ⟨.quotedGamut, t.span⟩ := by
      rw [quotedGamut?_append fun t ht => (hpre t ht).fine]
      simp [quotedGamut?, ht, hvalue]
    rw [explain, hnone, hnone', hfound]
    rfl

theorem wrong_doubleQuotedJson {first last : Token} (hpart : DirectPart part c)
    (hsep : Separator sep) (hpre : ∀ t ∈ part ++ sep, t.kind.Sound) (hts : ∀ t ∈ ts, t.kind.Fine)
    (hfirst : ts.head? = some first) (hopens : opensObject first = true)
    (hlast : ts.getLast? = some last) (hquoted : isDoubleQuoted last = true) :
    Wrong .doubleQuotedJson (part ++ sep) ts where
  stuck strict post := by
    obtain ⟨later, rfl⟩ := List.head?_eq_some_iff.mp hfirst
    rw [List.append_assoc]
    refine stuck_behind hpart (.inr hsep) ?_ strict (later ++ post)
    unfold opensObject at hopens
    split at hopens
    · next quote value terminated hkind =>
      have hquote := of_decide_eq_true (Bool.and_eq_true_iff.mp hopens).1
      rw [hkind, hquote]
      exact misplaced_quoted (show '"' ≠ '\x27' by decide)
    · cases hopens
  explained := by
    intro first' last' post hfirst' hlast' hpost call
    obtain rfl := Option.some.inj (hfirst.symm.trans hfirst')
    obtain rfl := Option.some.inj (hlast.symm.trans hlast')
    obtain ⟨hnone, hnone'⟩ := no_percent_append hpre (fun t ht => (hts t ht).ne_percent) hpost
    have hgamut : quotedGamut? (part ++ sep ++ (ts ++ post)) = none := by
      apply quotedGamut?_eq_none
      exact List.forall_mem_append.mpr ⟨fun t ht => (hpre t ht).fine, List.forall_mem_append.mpr
        ⟨hts, fun t ht => (hpost t ht).fine⟩⟩
    rw [explain, hnone, hnone', hgamut,
      doubleQuotedJson?_append hpre hpost hfirst hopens hlast hquoted]
    rfl

end

end EvenChroma.Css
