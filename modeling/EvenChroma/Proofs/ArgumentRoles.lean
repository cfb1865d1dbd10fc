/-
  EvenChroma/Proofs/ArgumentRoles.lean
  ====================================
  **What each token of a call is there for.**  Every token of a call that follows the
  grammar divides, is one of the arguments, or is the closing parenthesis at the end
  (`Role`); an argument has a dividing token before it, or none, and is known by the tokens
  before it (`Ahead`).
-/
import EvenChroma.Proofs.TokenPlaces

namespace EvenChroma.Css

/-! ### Roles -/

/-- These tokens come before the argument. -/
inductive Ahead : Component → List Token → Prop where
  | lightness {front : List Token} (hfront : Blanks front) : Ahead .lightness front
  | chroma {front sep : List Token} {l : Token} {lightness : Float} (hfront : Blanks front)
    (hlightness : Amount l.kind lightness) (hsep : Separator sep) :
    Ahead .chroma (front ++ l :: sep)
  | hue {front sep sep' : List Token} {l c : Token} {lightness chroma : Float}
    (hfront : Blanks front) (hlightness : Amount l.kind lightness) (hsep : Separator sep)
    (hchroma : Amount c.kind chroma) (hsep' : Separator sep') :
    Ahead .hue (front ++ l :: (sep ++ c :: sep'))
  | alpha {part before after : List Token} {slash : Token} {lightness chroma hue : Float}
    (hpart : RequiredPart part lightness chroma hue) (hbefore : Blanks before)
    (hslash : slash.kind = .slash) (hafter : Blanks after) :
    Ahead .alpha (part ++ (before ++ slash :: after))

/-- What a token is in a call, between the tokens before it and those behind it. -/
inductive Role (strict : Bool) : (pre : List Token) → TokenKind → (post : List Token) → Prop where
  | divider {pre post : List Token} {kind : TokenKind} (hkind : kind.Divides) :
    Role strict pre kind post
  | amount {pre post : List Token} {kind : TokenKind} {component : Component} {x : Float}
    (hahead : Ahead component pre) (hkind : Amount kind x) : Role strict pre kind post
  | angle {pre post : List Token} {kind : TokenKind} {x : Float} (hahead : Ahead .hue pre)
    (hkind : Angle kind x) : Role strict pre kind post
  | gamut {part sep post : List Token} {c : CallArguments} {name : Text} {g : Gamut}
    (hpart : DirectPart part c) (hsep : Separator sep) (hname : Gamut.ofKeyword? name = some g) :
    Role strict (part ++ sep) (.ident name) post
  | options {part sep post : List Token} {c : CallArguments} {value : Text}
    {json : Option (Layer Float)} (hpart : DirectPart part c) (hsep : Separator sep)
    (hvalue : OptionsText strict value json) :
    Role strict (part ++ sep) (.quoted '\x27' value true) post
  | closeParen {pre : List Token} : Role strict pre .closeParen []

section

variable {pre post : List Token} {t : Token}

theorem Blanks.divides {ts : List Token} (h : Blanks ts) (hts : ts = pre ++ t :: post) :
    t.kind.Divides := .inl (h t (by simp [hts]))

theorem Separator.divides {ts : List Token} (h : Separator ts) (hts : ts = pre ++ t :: post) :
    t.kind.Divides := by
  rcases h.separators t (by simp [hts]) with hblank | hcomma
  · exact .inl hblank
  · exact .inr (.inl hcomma)

theorem RequiredPart.role {part post' : List Token} {lightness chroma hue : Float} (strict : Bool)
    (h : RequiredPart part lightness chroma hue) (hpart : part = pre ++ t :: post') :
    Role strict pre t.kind post := by
  cases h with
  | intro hfront hlightness hsep hchroma hsep' hhue =>
    rcases stands_in_append hpart with ⟨_, hin⟩ | ⟨pre, rfl, hbehind₁⟩
    · exact .divider (hfront.divides hin)
    rcases stands_in_cons hbehind₁ with ⟨rfl, rfl, -⟩ | ⟨pre, rfl, hbehind₂⟩
    · rw [List.append_nil]
      exact .amount (.lightness hfront) hlightness
    rcases stands_in_append hbehind₂ with ⟨_, hin⟩ | ⟨pre, rfl, hbehind₃⟩
    · exact .divider (hsep.divides hin)
    rcases stands_in_cons hbehind₃ with ⟨rfl, rfl, -⟩ | ⟨pre, rfl, hbehind₄⟩
    · rw [List.append_nil]
      exact .amount (.chroma hfront hlightness hsep) hchroma
    rcases stands_in_append hbehind₄ with ⟨_, hin⟩ | ⟨pre, rfl, hbehind₅⟩
    · exact .divider (hsep'.divides hin)
    rcases stands_in_cons hbehind₅ with ⟨rfl, rfl, -⟩ | ⟨pre, rfl, hbehind₆⟩
    · rw [List.append_nil]
      exact .angle (.hue hfront hlightness hsep hchroma hsep') hhue
    · simp at hbehind₆

theorem AlphaPart.role {requiredPart part post' : List Token} {lightness chroma hue : Float}
    {alpha : Option Float} (strict : Bool)
    (hrequired : RequiredPart requiredPart lightness chroma hue) (h : AlphaPart part alpha)
    (hpart : part = pre ++ t :: post') : Role strict (requiredPart ++ pre) t.kind post := by
  cases h with
  | absent => simp at hpart
  | present hbefore hslash hafter hvalue =>
    rcases stands_in_append hpart with ⟨_, hin⟩ | ⟨pre, rfl, hbehind₁⟩
    · exact .divider (hbefore.divides hin)
    rcases stands_in_cons hbehind₁ with ⟨rfl, rfl, -⟩ | ⟨pre, rfl, hbehind₂⟩
    · exact .divider (.inr (.inr hslash))
    rcases stands_in_append hbehind₂ with ⟨_, hin⟩ | ⟨pre, rfl, hbehind₃⟩
    · exact .divider (hafter.divides hin)
    rcases stands_in_cons hbehind₃ with ⟨rfl, rfl, -⟩ | ⟨pre, rfl, hbehind₄⟩
    · rw [List.append_nil]
      exact .amount (.alpha hrequired hbefore hslash hafter) hvalue
    · simp at hbehind₄

theorem GamutPart.role {part part' post' : List Token} {gamut : Option Gamut} {c : CallArguments}
    (strict : Bool) (hdirect : DirectPart part c) (h : GamutPart part' gamut)
    (hpart : part' = pre ++ t :: post') : Role strict (part ++ pre) t.kind post := by
  cases h with
  | absent => simp at hpart
  | present hsep hkind hname =>
    rcases stands_in_append hpart with ⟨_, hin⟩ | ⟨pre, rfl, hbehind₁⟩
    · exact .divider (hsep.divides hin)
    rcases stands_in_cons hbehind₁ with ⟨rfl, rfl, -⟩ | ⟨pre, rfl, hbehind₂⟩
    · rw [hkind, List.append_nil]
      exact .gamut hdirect hsep hname
    · simp at hbehind₂

theorem OptionsPart.role {part part' post' : List Token} {json : Option (Layer Float)}
    {c : CallArguments} {strict : Bool} (hdirect : DirectPart part c)
    (h : OptionsPart strict part' json) (hpart : part' = pre ++ t :: post') :
    Role strict (part ++ pre) t.kind post := by
  cases h with
  | absent => simp at hpart
  | present hsep hkind hvalue =>
    rcases stands_in_append hpart with ⟨_, hin⟩ | ⟨pre, rfl, hbehind₁⟩
    · exact .divider (hsep.divides hin)
    rcases stands_in_cons hbehind₁ with ⟨rfl, rfl, -⟩ | ⟨pre, rfl, hbehind₂⟩
    · rw [hkind, List.append_nil]
      exact .options hdirect hsep hvalue
    · simp at hbehind₂

/-- **Every token of a call has a role.** -/
theorem CallTokens.role {strict : Bool} {c : CallArguments}
    (h : CallTokens strict (pre ++ t :: post) c) : Role strict pre t.kind post := by
  generalize hts : pre ++ t :: post = ts at h
  cases h with
  | intro hrequired halpha hgamut hoptions hback hclose =>
    rcases stands_in_append hts.symm with ⟨_, hin⟩ | ⟨pre, rfl, hbehind₁⟩
    · exact hrequired.role strict hin
    rcases stands_in_append hbehind₁ with ⟨_, hin⟩ | ⟨pre, rfl, hbehind₂⟩
    · exact halpha.role strict hrequired hin
    rcases stands_in_append hbehind₂ with ⟨_, hin⟩ | ⟨pre, rfl, hbehind₃⟩
    · have hdirect : DirectPart _ _ := .intro hrequired halpha .absent
      rw [List.append_nil] at hdirect
      rw [← List.append_assoc]
      exact hgamut.role strict hdirect hin
    rcases stands_in_append hbehind₃ with ⟨_, hin⟩ | ⟨pre, rfl, hbehind₄⟩
    · have hdirect : DirectPart _ _ := .intro hrequired halpha hgamut
      rw [← List.append_assoc] at hdirect
      rw [← List.append_assoc, ← List.append_assoc]
      exact hoptions.role hdirect hin
    rcases stands_in_append hbehind₄ with ⟨_, hin⟩ | ⟨pre, rfl, hbehind₅⟩
    · exact .divider (hback.divides hin)
    rcases stands_in_cons hbehind₅ with ⟨rfl, rfl, rfl⟩ | ⟨pre, rfl, hbehind₆⟩
    · rw [hclose]
      exact .closeParen
    · simp at hbehind₆

end

/-! ### What stands before an argument -/

section

variable {strict : Bool} {pre post : List Token} {kind : TokenKind}

theorem Blanks.divides_last {ts : List Token} (h : Blanks ts) :
    ∀ b ∈ ts.getLast?, b.kind.Divides :=
  fun b hb => .inl (h b (List.mem_of_getLast? hb))

theorem Separator.divides_last {sep : List Token} (h : Separator sep) (ts : List Token) :
    ∀ b ∈ (ts ++ sep).getLast?, b.kind.Divides := by
  intro b hb
  have hsome := List.getLast?_eq_some_getLast h.nonempty
  rw [List.getLast?_append, hsome, Option.some_or, ← hsome] at hb
  rcases h.separators b (List.mem_of_getLast? hb) with hblank | hcomma
  · exact .inl hblank
  · exact .inr (.inl hcomma)

theorem Ahead.divides_last {component : Component} (h : Ahead component pre) :
    ∀ b ∈ pre.getLast?, b.kind.Divides := by
  cases h with
  | lightness hfront => exact hfront.divides_last
  | chroma hfront hlightness hsep =>
    rw [List.append_cons]
    exact hsep.divides_last _
  | hue hfront hlightness hsep hchroma hsep' =>
    rw [List.append_cons, ← List.append_assoc, List.append_cons]
    exact hsep'.divides_last _
  | @alpha part before after slash _ _ _ hpart hbefore hslash hafter =>
    rw [← List.append_assoc]
    rcases hafter.eq_nil_or_separator with rfl | hsep
    · intro b hb
      rw [List.getLast?_concat] at hb
      obtain rfl := Option.some.inj hb
      exact .inr (.inr hslash)
    · rw [List.append_cons]
      exact hsep.divides_last _

/-- A token that does not divide has one that does before it, or none; only the closing
    parenthesis may stand anywhere. -/
theorem Role.divides_last (h : Role strict pre kind post) (hdivides : ¬ kind.Divides)
    (hclose : kind ≠ .closeParen) : ∀ b ∈ pre.getLast?, b.kind.Divides := by
  cases h with
  | divider hkind => exact (hdivides hkind).elim
  | amount hahead hkind => exact hahead.divides_last
  | angle hahead hkind => exact hahead.divides_last
  | gamut hpart hsep hname => exact hsep.divides_last _
  | options hpart hsep hvalue => exact hsep.divides_last _
  | closeParen => exact (hclose rfl).elim

theorem Role.level (h : Role strict pre kind post) (hpost : post ≠ []) : kind.Level := by
  cases h with
  | divider hkind =>
    rcases hkind with rfl | rfl | rfl
    · exact ⟨nofun, nofun, nofun⟩
    · exact ⟨nofun, nofun, nofun⟩
    · exact ⟨nofun, nofun, nofun⟩
  | amount hahead hkind => exact hkind.level
  | angle hahead hkind => exact hkind.level
  | gamut hpart hsep hname => exact ⟨nofun, nofun, nofun⟩
  | options hpart hsep hvalue => exact ⟨nofun, nofun, nofun⟩
  | closeParen => exact (hpost rfl).elim

end

/-- A text in quotes is the options of the call. -/
theorem CallTokens.exists_options {strict : Bool} {ts : List Token} {t : Token} {quote : Char}
    {value : Text} {terminated : Bool} {c : CallArguments} (h : CallTokens strict ts c)
    (ht : t ∈ ts) (hkind : t.kind = .quoted quote value terminated) :
    ∃ part sep post d, ts = part ++ (sep ++ t :: post) ∧ DirectPart part d ∧ Separator sep := by
  obtain ⟨pre, post, rfl⟩ := List.append_of_mem ht
  have hrole := h.role
  rw [hkind] at hrole
  cases hrole with
  | divider hdivides => simp [TokenKind.Divides] at hdivides
  | amount hahead hamount => cases hamount
  | angle hahead hangle => cases hangle
  | options hpart hsep hvalue => exact ⟨_, _, post, _, List.append_assoc .., hpart, hsep⟩

/-! ### The end of a call -/

theorem CallTokens.exists_close {strict : Bool} {ts : List Token} {c : CallArguments}
    (h : CallTokens strict ts c) :
    ∃ inner close, ts = inner ++ [close] ∧ close.kind = .closeParen ∧
      ∀ t ∈ inner, t.kind.Level := by
  obtain ⟨inner, close, hts, hclose⟩ :
      ∃ inner close, ts = inner ++ [close] ∧ close.kind = .closeParen := by
    cases h with
    | @intro requiredPart alphaPart gamutPart optionsPart back close _ _ _ _ _ _ _ _ _ _ _ hclose =>
      exact ⟨requiredPart ++ (alphaPart ++ (gamutPart ++ (optionsPart ++ back))), close, by simp,
        hclose⟩
  refine ⟨inner, close, hts, hclose, fun t ht => ?_⟩
  obtain ⟨pre, post, rfl⟩ := List.append_of_mem ht
  rw [hts, List.append_assoc, List.cons_append] at h
  exact h.role.level (by simp)

theorem ReadsAs.eq_closeParen {w r : Text} (h : ReadsAs w .closeParen r) : w = [')'] := by
  obtain ⟨c, v, rfl, hfirst⟩ := h
  have hlexeme := lexeme_firstToken c (v ++ r)
  rw [hfirst] at hlexeme
  generalize htext : c :: (v ++ r) = t at hlexeme
  cases hlexeme with
  | closeParen t =>
    obtain ⟨rfl, hv⟩ := List.cons.inj htext
    obtain rfl : v = [] := List.append_left_eq_self.mp hv
    rfl
  | inert hw ht hinert hopen hclose hquoted => exact (hclose rfl).elim

/-- A call that follows the grammar ends where its list is closed. -/
theorem span_at_of_callTokens {strict : Bool} {call : Text} {c : CallArguments}
    (hstarts : startsCall call = true) (h : CallTokens strict (callTokens call) c) :
    (CallSite.at 0 call).span = ⟨0, Text.byteSize call⟩ := by
  obtain ⟨name, u, rfl, hname⟩ := startsCall_iff.mp hstarts
  obtain ⟨inner, close, hts, hclose, hlevel⟩ := h.exists_close
  have hlexed := lexed_callTokens (name ++ u)
  rw [hts, drop_name hname] at hlexed
  obtain ⟨w, v, rfl, hinner, hlast⟩ := hlexed.split
  cases hlast with
  | @cons _ v later _ kind _ hfirst hlater =>
    cases hlater
    obtain rfl : kind = .closeParen := hclose
    obtain rfl := hfirst.eq_closeParen
    obtain ⟨w', hw, hscan⟩ := hinner.lexesTo.exists_scan (List.forall_mem_map.mpr hlevel)
    obtain rfl := List.append_cancel_right hw
    have hclosing : closingParen? .outside 0 (w ++ [')']) = some (Text.byteSize w) := by
      rw [closingParen?_append (hscan 0)]
      exact congrArg some (Nat.zero_add _)
    have hparen : (')' : Char).utf8Size = 1 := by decide
    rw [CallSite.at_name hname, List.append_nil, hclosing]
    simp [hparen, Nat.add_assoc]

end EvenChroma.Css
