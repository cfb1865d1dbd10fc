/-
  EvenChroma/Proofs/TokenPlaces.lean
  ==================================
  **Tokens lie side by side.**  A run of tokens covers a stretch of text, and the stretch is
  cut into the same tokens again wherever it stands, before any text with the same outlook,
  or before any text at all if its last token divides.  So a token can be exchanged for
  other text, and the tokens before and behind it stay as they were.
-/
import EvenChroma.Proofs.TokenOutlook

namespace EvenChroma.Css

/-! ### Tokens side by side -/

/-- The text `w` at byte `start`, with `rest` behind it, is cut into these tokens. -/
inductive Lexed : (start : Nat) → (w : Text) → List Token → (rest : Text) → Prop where
  | nil (start : Nat) (rest : Text) : Lexed start [] [] rest
  | cons {start : Nat} {w later rest : Text} {kind : TokenKind} {ts : List Token}
    (hfirst : ReadsAs w kind (later ++ rest))
    (hlater : Lexed (start + Text.byteSize w) later ts rest) :
    Lexed start (w ++ later) (⟨kind, start, start + Text.byteSize w⟩ :: ts) rest

theorem exists_readsAs {t : Text} (ht : t ≠ []) : ∃ w kind r, t = w ++ r ∧ ReadsAs w kind r := by
  obtain ⟨c, t, rfl⟩ := List.exists_cons_of_ne_nil ht
  obtain ⟨w, hw, htext, -, -⟩ := takes_firstToken c t
  obtain ⟨d, v, rfl⟩ := List.exists_cons_of_ne_nil hw
  obtain ⟨rfl, ht⟩ : c = d ∧ t = v ++ (firstToken c t).2 := List.cons.inj htext
  refine ⟨_, (firstToken c t).1, (firstToken c t).2, htext, c, v, rfl, ?_⟩
  rw [← ht]

theorem ReadsAs.tokensFrom_append {w r : Text} {kind : TokenKind} (h : ReadsAs w kind r)
    (fuel start : Nat) :
    tokensFrom (fuel + 1) start (w ++ r)
      = ⟨kind, start, start + Text.byteSize w⟩ :: tokensFrom fuel (start + Text.byteSize w) r := by
  obtain ⟨c, v, rfl, hfirst⟩ := h
  have hsize : Text.byteSize (c :: (v ++ r)) - Text.byteSize r = Text.byteSize (c :: v) := by
    rw [← List.cons_append, Text.byteSize_append, Nat.add_sub_cancel]
  rw [List.cons_append, tokensFrom, hfirst]
  dsimp only
  rw [hsize]

theorem ReadsAs.length_pos {w r : Text} {kind : TokenKind} (h : ReadsAs w kind r) :
    0 < w.length := by
  obtain ⟨c, v, rfl, -⟩ := h
  exact Nat.zero_lt_succ _

namespace Lexed

variable {start : Nat} {w rest rest' : Text} {ts ts' : List Token} {t : Token}

theorem singleton {kind : TokenKind} (h : ReadsAs w kind rest) (start : Nat) :
    Lexed start w [⟨kind, start, start + Text.byteSize w⟩] rest := by
  have hone : Lexed start (w ++ []) [⟨kind, start, start + Text.byteSize w⟩] rest :=
    cons h (nil _ rest)
  rwa [List.append_nil] at hone

theorem tokensFrom_eq (h : Lexed start w ts []) {fuel : Nat} (hfuel : w.length ≤ fuel) :
    tokensFrom fuel start w = ts := by
  generalize hrest : ([] : Text) = rest at h
  induction h generalizing fuel with
  | nil start rest =>
    cases fuel with
    | zero => rfl
    | succ fuel => rfl
  | @cons start w later rest kind ts hfirst hlater ih =>
    subst hrest
    have hpos := hfirst.length_pos
    rw [List.length_append] at hfuel
    cases fuel with
    | zero => omega
    | succ fuel =>
      rw [List.append_nil] at hfirst
      rw [hfirst.tokensFrom_append, ih (by omega) rfl]

theorem of_tokensFrom {fuel : Nat} (start : Nat) {w : Text} (hfuel : w.length ≤ fuel) :
    Lexed start w (tokensFrom fuel start w) [] := by
  induction fuel generalizing start w with
  | zero =>
    obtain rfl := List.length_eq_zero_iff.mp (Nat.le_zero.mp hfuel)
    exact nil start []
  | succ fuel ih =>
    by_cases hw : w = []
    · subst hw
      exact nil start []
    obtain ⟨v, kind, r, rfl, hfirst⟩ := exists_readsAs hw
    have hpos := hfirst.length_pos
    rw [List.length_append] at hfuel
    rw [hfirst.tokensFrom_append]
    exact cons (by rwa [List.append_nil]) (ih _ (by omega))

theorem append {v : Text} (h : Lexed start w ts (v ++ rest))
    (hlater : Lexed (start + Text.byteSize w) v ts' rest) :
    Lexed start (w ++ v) (ts ++ ts') rest := by
  generalize hbehind : v ++ rest = behind at h
  induction h with
  | nil start behind => exact hlater
  | @cons start w later behind kind ts hfirst _ ih =>
    subst hbehind
    rw [List.append_assoc]
    apply cons
    · rwa [List.append_assoc]
    · apply ih _ rfl
      rwa [Text.byteSize_append, ← Nat.add_assoc] at hlater

theorem split (h : Lexed start w (ts ++ ts') rest) :
    ∃ u v, w = u ++ v ∧ Lexed start u ts (v ++ rest) ∧
      Lexed (start + Text.byteSize u) v ts' rest := by
  induction ts generalizing start w with
  | nil => exact ⟨[], w, rfl, nil start _, h⟩
  | cons t ts ih =>
    cases h with
    | @cons _ w later _ kind _ hfirst hlater =>
      obtain ⟨u, v, rfl, hfront, hback⟩ := ih hlater
      refine ⟨w ++ u, v, (List.append_assoc ..).symm, ?_, ?_⟩
      · exact cons (by rwa [List.append_assoc] at hfirst) hfront
      · rwa [Text.byteSize_append, ← Nat.add_assoc]

theorem start_eq (h : Lexed start w (t :: ts) rest) : t.span.start = start := by
  cases h
  rfl

theorem stop_eq (h : Lexed start w ts rest) (hlast : ts.getLast? = some t) :
    t.span.stop = start + Text.byteSize w := by
  induction h with
  | nil => cases hlast
  | @cons start w later rest kind ts hfirst hlater ih =>
    cases ts with
    | nil =>
      cases hlater
      obtain rfl := Option.some.inj hlast
      simp
    | cons u ts =>
      rw [List.getLast?_cons_cons] at hlast
      rw [ih hlast, Text.byteSize_append, Nat.add_assoc]

theorem ne_nil (h : Lexed start w ts rest) (hts : ts ≠ []) : w ≠ [] := by
  cases h with
  | nil => exact (hts rfl).elim
  | cons hfirst hlater =>
    have hpos := hfirst.length_pos
    simp [List.length_pos_iff.mp hpos]

/-- **Tokens are cut in the same way before any text with the same outlook.** -/
theorem again (h : Lexed start w ts rest) (hrest : outlook rest' = outlook rest) :
    Lexed start w ts rest' := by
  induction h with
  | nil start rest => exact nil start rest'
  | cons hfirst _ ih => exact cons (hfirst.again (outlook_append hrest _)) (ih hrest)

/-- A last token that divides shields those before it from whatever follows. -/
theorem before (h : Lexed start w ts rest) (hlast : ∀ t ∈ ts.getLast?, t.kind.Divides)
    (hrest' : ∀ c ∈ rest'.head?, Text.isBlank c = false) : Lexed start w ts rest' := by
  rcases List.eq_nil_or_concat ts with rfl | ⟨ts, t, rfl⟩
  · cases h
    exact nil start rest'
  rw [List.concat_eq_append] at h hlast ⊢
  obtain ⟨u, v, rfl, hfront, hback⟩ := h.split
  cases hback with
  | @cons _ v later _ kind _ hfirst hlater =>
    cases hlater
    have hkind : kind.Divides := hlast _ List.getLast?_concat
    obtain ⟨c, v, rfl, hpoint, hminus, hbefore⟩ := hfirst.exists_divider hkind
    rw [List.append_nil] at hfront ⊢
    apply (hfront.again _).append (singleton (hbefore _ hrest') _)
    rw [List.cons_append, List.cons_append, outlook_of_ne hpoint hminus,
      outlook_of_ne hpoint hminus]

/-- At another place the same text is cut into tokens of the same kinds. -/
theorem exists_moved (h : Lexed start w ts rest) (start' : Nat) :
    ∃ ts', Lexed start' w ts' rest ∧ ts'.map Token.kind = ts.map Token.kind := by
  induction h generalizing start' with
  | nil start rest => exact ⟨[], nil start' rest, rfl⟩
  | @cons start w later rest kind ts hfirst _ ih =>
    obtain ⟨ts', hlater, hkinds⟩ := ih (start' + Text.byteSize w)
    exact ⟨_, cons hfirst hlater, congrArg (kind :: ·) hkinds⟩

theorem shift (h : Lexed start w ts rest) (distance : Nat) :
    Lexed (start + distance) w (ts.map fun t => { t with span := t.span.shift distance }) rest := by
  induction h with
  | nil start rest => exact nil _ rest
  | @cons start w later rest kind ts hfirst _ ih =>
    rw [List.map_cons, Span.shift, Nat.add_right_comm]
    rw [Nat.add_right_comm] at ih
    exact cons hfirst ih

theorem lexesTo (h : Lexed start w ts rest) : LexesTo (w ++ rest) (ts.map Token.kind) rest := by
  induction h with
  | nil start rest => exact .nil rest
  | cons hfirst _ ih =>
    obtain ⟨c, v, rfl, hfirst⟩ := hfirst
    rw [List.append_assoc, List.cons_append]
    exact .cons hfirst ih

end Lexed

/-! ### Where a token stands -/

section

variable {pre post : List Token} {t : Token}

/-- Where a token stands in two runs of tokens, it stands in one of them. -/
theorem stands_in_append {ts ts' : List Token} (h : ts ++ ts' = pre ++ t :: post) :
    (∃ post', ts = pre ++ t :: post') ∨ ∃ pre', pre = ts ++ pre' ∧ ts' = pre' ++ t :: post := by
  rcases List.append_eq_append_iff.mp h with ⟨pre', hpre, hts'⟩ | ⟨later, hts, hlater⟩
  · exact .inr ⟨pre', hpre, hts'⟩
  · cases later with
    | nil => exact .inr ⟨[], by simpa using hts.symm, hlater.symm⟩
    | cons u later =>
      obtain ⟨rfl, -⟩ := List.cons.inj hlater
      exact .inl ⟨later, hts⟩

theorem stands_in_cons {u : Token} {ts : List Token} (h : u :: ts = pre ++ t :: post) :
    (pre = [] ∧ u = t ∧ ts = post) ∨ ∃ pre', pre = u :: pre' ∧ ts = pre' ++ t :: post := by
  cases pre with
  | nil => exact .inl ⟨rfl, List.cons.inj h⟩
  | cons v pre =>
    obtain ⟨rfl, hts⟩ := List.cons.inj h
    exact .inr ⟨pre, rfl, hts⟩

end

/-! ### The tokens of a call -/

theorem lexed_callTokens (call : Text) :
    Lexed callStart.length (call.drop callStart.length) (callTokens call) [] := by
  have h := (Lexed.of_tokensFrom 0 (Nat.le_refl (call.drop callStart.length).length)).shift
    callStart.length
  rwa [Nat.zero_add] at h

theorem callTokens_eq {call : Text} {ts : List Token}
    (h : Lexed callStart.length (call.drop callStart.length) ts []) : callTokens call = ts :=
  ((lexed_callTokens call).tokensFrom_eq (Nat.le_refl _)).symm.trans
    (h.tokensFrom_eq (Nat.le_refl _))

/-- What stands around a token of a call, and how the token can be exchanged: by text that is cut
    into other tokens where it stands. -/
structure ReplaceableAt (call front old back : Text) (pre : List Token) (t : Token)
    (post : List Token) : Prop where
  call_eq : call = front ++ (old ++ back)
  span_eq : t.span = ⟨Text.byteSize front, Text.byteSize front + Text.byteSize old⟩
  reads : ReadsAs old t.kind back
  exchange : ∀ {new : Text} {ts : List Token},
    (∀ c ∈ (new ++ back).head?, Text.isBlank c = false) →
    Lexed (Text.byteSize front) new ts back →
      startsCall (front ++ (new ++ back)) = true ∧
        ∃ post', post'.map Token.kind = post.map Token.kind ∧
          callTokens (front ++ (new ++ back)) = pre ++ (ts ++ post')

/-- **A token that a dividing one comes before, or none, can be exchanged.** -/
theorem exists_replaceableAt {call : Text} {pre post : List Token} {t : Token}
    (hstarts : startsCall call = true) (hts : callTokens call = pre ++ t :: post)
    (hpre : ∀ b ∈ pre.getLast?, b.kind.Divides) :
    ∃ front old back, ReplaceableAt call front old back pre t post := by
  obtain ⟨name, u, rfl, hname⟩ := startsCall_iff.mp hstarts
  have hlexed := lexed_callTokens (name ++ u)
  rw [hts, drop_name hname, ← byteSize_name hname] at hlexed
  obtain ⟨before, v, rfl, hbefore, hlater⟩ := hlexed.split
  rw [← Text.byteSize_append] at hlater
  cases hlater with
  | @cons _ old back _ kind _ hfirst hback =>
    rw [List.append_nil] at hfirst
    refine ⟨name ++ before, old, back, by simp, rfl, hfirst, fun {new ts} hhead hnew => ?_⟩
    rw [List.append_assoc]
    obtain ⟨post', hpost, hkinds⟩ :=
      hback.exists_moved (Text.byteSize (name ++ before) + Text.byteSize new)
    refine ⟨startsCall_iff.mpr ⟨name, _, rfl, hname⟩, post', hkinds, callTokens_eq ?_⟩
    rw [drop_name hname, ← byteSize_name hname]
    apply Lexed.append
    · rw [List.append_nil]
      exact hbefore.before hpre hhead
    · rw [← Text.byteSize_append]
      apply Lexed.append
      · rwa [List.append_nil]
      · exact hpost

/-- Exchanging the token edits the call there. -/
theorem ReplaceableAt.applyEdits_eq {call front old back : Text} {pre post : List Token} {t : Token}
    (h : ReplaceableAt call front old back pre t post) (new : Text) :
    applyEdits call 0 [⟨t.span, new⟩] = front ++ (new ++ back) := by
  have hfront : Text.slice call ⟨0, Text.byteSize front⟩ = front := by
    have hslice := Text.slice_append [] front (old ++ back)
    rwa [Text.byteSize_nil, Nat.zero_add, List.nil_append, ← h.call_eq] at hslice
  have hback : Text.dropBytes (Text.byteSize front + Text.byteSize old) call = back := by
    rw [← Text.byteSize_append, h.call_eq, ← List.append_assoc, Text.dropBytes_append]
  rw [applyEdits, applyEdits, h.span_eq, hfront, hback, List.append_assoc]

end EvenChroma.Css
