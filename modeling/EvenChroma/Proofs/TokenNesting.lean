/-
  EvenChroma/Proofs/TokenNesting.lean
  ===================================
  **The search for a closing parenthesis and the tokens agree.**  The search walks
  through the characters, the tokens are cut as long as possible; but between two tokens
  the search is outside quotes, and it counts the parentheses that are tokens
  (`Scans`).  So the parenthesis that ends a call is its last token, and a call without
  an end has no token that could end it.
-/
import EvenChroma.Proofs.CallGrammar
import EvenChroma.Proofs.CallSites
import EvenChroma.Proofs.Lexemes

namespace EvenChroma.Css

/-! ### The search inside a token -/

/-- A character that the search passes outside quotes without noticing. -/
def Inert (c : Char) : Prop := c ≠ '(' ∧ c ≠ ')' ∧ isQuote c = false

/-- What the characters of a token do to the search. -/
inductive Scans : TokenKind → Text → Prop where
  | openParen : Scans .openParen ['(']
  | closeParen : Scans .closeParen [')']
  | level {kind : TokenKind} {w : Text} (hopen : kind ≠ .openParen) (hclose : kind ≠ .closeParen)
    (hquoted : ∀ quote value, kind ≠ .quoted quote value false)
    (hscan : ∀ depth, scan .outside depth w = some (.outside, depth)) : Scans kind w
  | unterminated {quote : Char} {value w : Text} {q : Quoting} (hq : q ≠ .outside)
    (hscan : ∀ depth, scan .outside depth w = some (q, depth)) :
    Scans (.quoted quote value false) w

/-- Characters of a kind are inert if none of the four that count is of the kind. -/
theorem inert_of {p : Char → Bool} {c : Char} (h : p c = true)
    (hp : p '(' = false ∧ p ')' = false ∧ p '\x27' = false ∧ p '"' = false) : Inert c := by
  have hne : ∀ d, p d = false → c ≠ d := by
    rintro d hd rfl
    rw [hd] at h
    cases h
  obtain ⟨hopen, hclose, hsingle, hdouble⟩ := hp
  refine ⟨hne _ hopen, hne _ hclose, ?_⟩
  simp [isQuote, hne _ hsingle, hne _ hdouble]

theorem inert_of_mem_splitName {t : Text} {c : Char} (h : c ∈ (splitName t).1) : Inert c := by
  rcases mem_splitName h with h | rfl
  · exact inert_of h (by decide)
  · exact inert_of (p := (· = '.')) rfl (by decide)

theorem inert_of_mem_splitNumber {t : Text} {c : Char} (h : c ∈ (splitNumber t).1) : Inert c :=
  inert_of (mem_splitNumber h) (by decide)

theorem scan_of_inert {w : Text} (h : ∀ c ∈ w, Inert c) (depth : Nat) :
    scan .outside depth w = some (.outside, depth) := by
  induction w with
  | nil => rfl
  | cons c w ih =>
    obtain ⟨⟨hopen, hclose, hquote⟩, hw⟩ := List.forall_mem_cons.mp h
    have hnext : Quoting.outside.next c = .outside := by simp [Quoting.next, hquote]
    rw [scan_outside hclose, if_neg hopen, hnext]
    exact ih hw

/-- Through a quoted text the search comes to its end, or to the end of all. -/
theorem scan_splitQuoted (quote : Char) (t : Text) :
    ∃ w q, t = w ++ (splitQuoted quote t).2.2 ∧
      (∀ depth, scan (.inside quote) depth w = some (q, depth)) ∧
      ((splitQuoted quote t).2.1 = true → q = .outside) ∧
      ((splitQuoted quote t).2.1 = false → q ≠ .outside ∧ (splitQuoted quote t).2.2 = []) := by
  fun_induction splitQuoted quote t with
  | case1 => exact ⟨[], .inside quote, rfl, fun _ => rfl, by simp, by simp⟩
  | case2 => exact ⟨['\\'], .escaped quote, rfl, fun _ => rfl, by simp, by simp⟩
  | case3 c t value terminated rest heq ih =>
    rw [heq] at ih
    obtain ⟨w, q, hw, hscan, hend⟩ := ih
    exact ⟨'\\' :: c :: w, q, congrArg (fun t => '\\' :: c :: t) hw, hscan, hend⟩
  | case4 t hend hescape =>
    have hquote : quote ≠ '\\' := by
      rintro rfl
      cases t with
      | nil => exact hend rfl rfl
      | cons c t => exact hescape c t rfl rfl
    refine ⟨[quote], .outside, rfl, fun depth => ?_, fun _ => rfl, by simp⟩
    simp [scan, Quoting.next, hquote]
  | case5 c t hend hescape hc value terminated rest heq ih =>
    have hbackslash : c ≠ '\\' := by
      rintro rfl
      cases t with
      | nil => exact hend rfl rfl
      | cons c t => exact hescape c t rfl rfl
    rw [heq] at ih
    obtain ⟨w, q, hw, hscan, hends⟩ := ih
    refine ⟨c :: w, q, congrArg (c :: ·) hw, fun depth => ?_, hends⟩
    rw [← hscan depth]
    simp [scan, Quoting.next, hbackslash, hc]

/-- The first token of a text with the characters it takes: a parenthesis, characters that the
    search does not notice, or a quoted text. -/
inductive Lexeme : Text → TokenKind × Text → Prop where
  | openParen (t : Text) : Lexeme ('(' :: t) (.openParen, t)
  | closeParen (t : Text) : Lexeme (')' :: t) (.closeParen, t)
  | inert {t w rest : Text} {kind : TokenKind} (hw : w ≠ []) (ht : t = w ++ rest)
    (hinert : ∀ c ∈ w, Inert c) (hopen : kind ≠ .openParen) (hclose : kind ≠ .closeParen)
    (hquoted : ∀ quote value, kind ≠ .quoted quote value false) : Lexeme t (kind, rest)
  | quoted {c : Char} (hquote : isQuote c = true) (t : Text) :
    Lexeme (c :: t) (.quoted c (splitQuoted c t).1 (splitQuoted c t).2.1, (splitQuoted c t).2.2)

theorem lexeme_single {c : Char} (hquote : isQuote c = false) (t : Text) :
    Lexeme (c :: t) (single c, t) := by
  by_cases hopen : c = '('
  · subst hopen
    exact .openParen t
  by_cases hclose : c = ')'
  · subst hclose
    exact .closeParen t
  have hkind : single c ≠ .openParen ∧ single c ≠ .closeParen ∧
      ∀ quote value, single c ≠ .quoted quote value false := by
    unfold single
    split_ifs <;> simp
  apply Lexeme.inert (w := [c]) (by simp) rfl _ hkind.1 hkind.2.1 hkind.2.2
  intro d hd
  obtain rfl := List.mem_singleton.mp hd
  exact ⟨hopen, hclose, hquote⟩

theorem lexeme_firstToken (c : Char) (t : Text) : Lexeme (c :: t) (firstToken c t) := by
  unfold firstToken
  split
  · next hblank =>
    apply Lexeme.inert (w := c :: t.takeWhile Text.isBlank) (by simp)
      (by simp [List.takeWhile_append_dropWhile]) _ (by simp) (by simp) (by simp)
    intro d hd
    have hd : Text.isBlank d = true := by
      rcases List.mem_cons.mp hd with rfl | hd
      · exact hblank
      · exact List.all_eq_true.mp List.all_takeWhile d hd
    exact inert_of hd (by decide)
  split
  · next hnumber =>
    have hdigits := splitNumber_append (c :: t)
    have hne := splitNumber_ne_nil hnumber
    have hinert : ∀ d ∈ (splitNumber (c :: t)).1, Inert d := fun d => inert_of_mem_splitNumber
    dsimp only
    split
    · next r hr =>
      have hpercent : ∀ d ∈ ['%'], Inert d := by
        intro d hd
        obtain rfl := List.mem_singleton.mp hd
        exact inert_of (p := (· = '%')) rfl (by decide)
      exact Lexeme.inert (w := (splitNumber (c :: t)).1 ++ ['%']) (by simp)
        (by simp [← hr, hdigits]) (List.forall_mem_append.mpr ⟨hinert, hpercent⟩)
        (by simp) (by simp) (by simp)
    split
    · have hunit : ∀ d ∈ (splitName (splitNumber (c :: t)).2).1, Inert d :=
        fun d => inert_of_mem_splitName
      exact Lexeme.inert (w := (splitNumber (c :: t)).1 ++ (splitName (splitNumber (c :: t)).2).1)
        (by simp [hne]) (by rw [List.append_assoc, splitName_append, hdigits])
        (List.forall_mem_append.mpr ⟨hinert, hunit⟩) (by simp) (by simp) (by simp)
    · exact .inert hne hdigits.symm hinert (by simp) (by simp) (by simp)
  split
  · next hname =>
    exact .inert (splitName_ne_nil hname) (splitName_append _).symm
      (fun d => inert_of_mem_splitName) (by simp) (by simp) (by simp)
  split
  · next hquote => exact .quoted hquote t
  · next hquote => exact lexeme_single (by simpa using hquote) t

/-- The token takes characters from the front of the text that scan as its kind does, and
    only the end of the text keeps a quoted text open. -/
def Takes (t : Text) (first : TokenKind × Text) : Prop :=
  ∃ w, w ≠ [] ∧ t = w ++ first.2 ∧ Scans first.1 w ∧
    ∀ quote value, first.1 = .quoted quote value false → first.2 = []

theorem takes_quoted {c : Char} (hquote : isQuote c = true) (t : Text) :
    Takes (c :: t)
      (.quoted c (splitQuoted c t).1 (splitQuoted c t).2.1, (splitQuoted c t).2.2) := by
  obtain ⟨w, q, hw, hscan, hclosed, hopen⟩ := scan_splitQuoted c t
  have hstart : ∀ depth, scan .outside depth (c :: w) = some (q, depth) := by
    intro depth
    rw [← hscan depth]
    simp only [isQuote, Bool.or_eq_true, decide_eq_true_eq] at hquote
    rcases hquote with rfl | rfl
    · rfl
    · rfl
  refine ⟨c :: w, by simp, congrArg (c :: ·) hw, ?_, ?_⟩
  · dsimp only
    cases hterminated : (splitQuoted c t).2.1 with
    | true =>
      obtain rfl := hclosed hterminated
      exact .level (by simp) (by simp) (by simp) hstart
    | false => exact .unterminated (hopen hterminated).1 hstart
  · intro quote value hkind
    injection hkind with _ _ hterminated
    exact (hopen hterminated).2

/-- **The search stays at its level through every token that is not a parenthesis.** -/
theorem Lexeme.takes {t : Text} {first : TokenKind × Text} (h : Lexeme t first) :
    Takes t first := by
  cases h with
  | openParen t => exact ⟨['('], by simp, rfl, .openParen, by simp⟩
  | closeParen t => exact ⟨[')'], by simp, rfl, .closeParen, by simp⟩
  | inert hw ht hinert hopen hclose hquoted =>
    exact ⟨_, hw, ht, .level hopen hclose hquoted (scan_of_inert hinert),
      fun quote value hkind => (hquoted quote value hkind).elim⟩
  | quoted hquote t => exact takes_quoted hquote t

theorem takes_firstToken (c : Char) (t : Text) : Takes (c :: t) (firstToken c t) :=
  (lexeme_firstToken c t).takes

/-- Without quotes an opening parenthesis is a token, or comes behind the first one. -/
theorem Lexeme.openParen_or_mem {t : Text} {first : TokenKind × Text} (h : Lexeme t first)
    (hquote : ∀ c ∈ t, isQuote c = false) (hopen : '(' ∈ t) :
    first.1 = .openParen ∨ '(' ∈ first.2 := by
  cases h with
  | openParen t => exact .inl rfl
  | closeParen t => exact .inr (List.mem_of_ne_of_mem (by decide) hopen)
  | inert hw ht hinert _ _ _ =>
    subst ht
    rcases List.mem_append.mp hopen with hopen | hopen
    · exact ((hinert _ hopen).1 rfl).elim
    · exact .inr hopen
  | @quoted c hc t =>
    rw [hquote c List.mem_cons_self] at hc
    cases hc

/-- The first of the tokens, with the characters it takes. -/
theorem exists_first {t : Text} (ht : t ≠ []) :
    ∃ kind w rest, t = w ++ rest ∧ w ≠ [] ∧ Scans kind w ∧
      (∀ quote value, kind = .quoted quote value false → rest = []) ∧
      ∀ fuel start, tokensFrom (fuel + 1) start t
        = ⟨kind, start, start + Text.byteSize w⟩
          :: tokensFrom fuel (start + Text.byteSize w) rest := by
  cases t with
  | nil => exact (ht rfl).elim
  | cons c t =>
    obtain ⟨w, hw, htext, hscans, hend⟩ := takes_firstToken c t
    refine ⟨_, w, _, htext, hw, hscans, hend, fun fuel start => ?_⟩
    have hsize : Text.byteSize (c :: t) - Text.byteSize (firstToken c t).2 = Text.byteSize w := by
      rw [htext, Text.byteSize_append, Nat.add_sub_cancel]
    rw [← hsize]
    rfl

/-- Without quotes every opening parenthesis is a token. -/
theorem exists_openParen {fuel start : Nat} {t : Text} (hfuel : t.length ≤ fuel)
    (hquote : ∀ c ∈ t, isQuote c = false) (hopen : '(' ∈ t) :
    ∃ u ∈ tokensFrom fuel start t, u.kind = .openParen := by
  induction fuel generalizing start t with
  | zero =>
    obtain rfl := List.length_eq_zero_iff.mp (Nat.le_zero.mp hfuel)
    cases hopen
  | succ fuel ih =>
    cases t with
    | nil => cases hopen
    | cons c t =>
      have hlexeme := lexeme_firstToken c t
      obtain ⟨w, hw, htext, -, -⟩ := hlexeme.takes
      rcases hlexeme.openParen_or_mem hquote hopen with hkind | hrest
      · exact ⟨_, List.mem_cons_self, hkind⟩
      · have hlength : (firstToken c t).2.length ≤ fuel := by
          have hpos := List.length_pos_iff.mpr hw
          rw [htext, List.length_append] at hfuel
          omega
        have hbehind : ∀ d ∈ (firstToken c t).2, isQuote d = false := by
          rw [htext] at hquote
          exact fun d hd => hquote d (List.mem_append_right w hd)
        obtain ⟨u, hu, hkind⟩ := ih hlength hbehind hrest
        exact ⟨u, List.mem_cons_of_mem _ hu, hkind⟩

/-! ### Counting parentheses -/

def openCount (ts : List Token) : Nat := ts.countP (·.kind = .openParen)

def closeCount (ts : List Token) : Nat := ts.countP (·.kind = .closeParen)

/-- From left to right, no more parentheses are closed than `depth` and those opened. -/
def Nested (depth : Nat) (ts : List Token) : Prop :=
  ∀ p, p <+: ts → closeCount p ≤ depth + openCount p

section

variable {depth : Nat} {t : Token} {ts : List Token}

theorem nested_nil : Nested depth [] := by
  intro p hp
  rw [List.prefix_nil.mp hp]
  exact Nat.zero_le _

theorem openCount_cons : openCount (t :: ts)
    = openCount ts + if t.kind = .openParen then 1 else 0 := by
  simp [openCount, List.countP_cons]

theorem closeCount_cons : closeCount (t :: ts)
    = closeCount ts + if t.kind = .closeParen then 1 else 0 := by
  simp [closeCount, List.countP_cons]

theorem Nested.cons (h : Nested depth ts) {before : Nat}
    (hle : depth + (if t.kind = .closeParen then 1 else 0)
      ≤ before + if t.kind = .openParen then 1 else 0) : Nested before (t :: ts) := by
  intro p hp
  cases p with
  | nil => exact Nat.zero_le _
  | cons u p =>
    obtain ⟨rfl, hprefix⟩ := List.cons_prefix_cons.mp hp
    have hcount := h p hprefix
    rw [openCount_cons, closeCount_cons]
    omega

end

/-- What is scanned without meeting the end of the list closes no more than is open. -/
theorem nested_tokensFrom {fuel start depth : Nat} {t : Text} (hfuel : t.length ≤ fuel)
    (h : (scan .outside depth t).isSome) : Nested depth (tokensFrom fuel start t) := by
  induction fuel generalizing start depth t with
  | zero => exact nested_nil
  | succ fuel ih =>
    by_cases ht : t = []
    · subst ht
      exact nested_nil
    obtain ⟨kind, w, rest, rfl, hw, hscans, hend, htokens⟩ := exists_first ht
    have hlength : rest.length ≤ fuel := by
      have := List.length_pos_iff.mpr hw
      rw [List.length_append] at hfuel
      omega
    rw [htokens]
    rw [scan_append] at h
    cases hscans with
    | openParen =>
      have hrest : (scan .outside (depth + 1) rest).isSome := h
      exact (ih hlength hrest).cons (by simp)
    | closeParen =>
      cases depth with
      | zero => cases h
      | succ depth =>
        have hrest : (scan .outside depth rest).isSome := h
        exact (ih hlength hrest).cons (by simp)
    | level hopen hclose hquoted hscan =>
      rw [hscan depth] at h
      exact (ih hlength h).cons (by simp [hopen, hclose])
    | unterminated hq hscan =>
      obtain rfl := hend _ _ rfl
      have hrest : (scan .outside depth []).isSome := rfl
      exact (ih hlength hrest).cons (by simp)

/-- The last token is the closing parenthesis at byte `place`, and before it everything is
    complete: `depth` parentheses and those opened are closed. -/
def ClosesAt (depth place : Nat) (ts : List Token) : Prop :=
  ∃ inner, ts = inner ++ [⟨.closeParen, place, place + 1⟩] ∧ Nested depth inner ∧
    depth + openCount inner = closeCount inner ∧
    ∀ t ∈ inner, ∀ quote value, t.kind ≠ .quoted quote value false

theorem ClosesAt.cons {depth place : Nat} {t : Token} {ts : List Token}
    (h : ClosesAt depth place ts) {before : Nat}
    (hcount : depth + (if t.kind = .closeParen then 1 else 0)
      = before + if t.kind = .openParen then 1 else 0)
    (hquoted : ∀ quote value, t.kind ≠ .quoted quote value false) :
    ClosesAt before place (t :: ts) := by
  obtain ⟨inner, rfl, hnested, hbalance, hcomplete⟩ := h
  refine ⟨t :: inner, rfl, hnested.cons (Nat.le_of_eq hcount), ?_,
    List.forall_mem_cons.mpr ⟨hquoted, hcomplete⟩⟩
  rw [openCount_cons, closeCount_cons]
  omega

/-- The parenthesis that the search finds is a token, and everything before it is
    complete. -/
theorem tokensFrom_closesAt {fuel start depth : Nat} {arguments : Text}
    (hfuel : arguments.length < fuel) (h : scan .outside depth arguments = some (.outside, 0)) :
    ClosesAt depth (start + Text.byteSize arguments)
      (tokensFrom fuel start (arguments ++ [')'])) := by
  induction fuel generalizing start depth arguments with
  | zero => omega
  | succ fuel ih =>
    obtain ⟨kind, w, rest, htext, hw, hscans, hend, htokens⟩ :=
      exists_first (t := arguments ++ [')']) (by simp)
    rw [htokens]
    rcases List.eq_nil_or_concat rest with rfl | ⟨rest, x, rfl⟩
    · -- the first token takes everything, so it is the parenthesis
      have hnone : scan .outside depth w = none := by
        rw [List.append_nil] at htext
        rw [← htext, scan_append, h]
        rfl
      cases hscans with
      | openParen => cases hnone
      | closeParen =>
        obtain rfl : arguments = [] := by simpa using htext
        obtain rfl : depth = 0 := congrArg Prod.snd (Option.some.inj h)
        exact ⟨[], by cases fuel <;> rfl, nested_nil, rfl, by simp⟩
      | level hopen hclose hquoted hscan =>
        rw [hscan] at hnone
        cases hnone
      | unterminated hq hscan =>
        rw [hscan] at hnone
        cases hnone
    · rw [List.concat_eq_append, ← List.append_assoc] at htext
      obtain ⟨rfl, hx⟩ := List.append_inj' htext rfl
      obtain rfl : ')' = x := List.singleton_inj.mp hx
      have hlength : rest.length < fuel := by
        have := List.length_pos_iff.mpr hw
        rw [List.length_append] at hfuel
        omega
      rw [Text.byteSize_append, ← Nat.add_assoc, List.concat_eq_append]
      rw [scan_append] at h
      cases hscans with
      | openParen =>
        have hrest : scan .outside (depth + 1) rest = some (.outside, 0) := h
        exact (ih hlength hrest).cons (by simp) (by simp)
      | closeParen =>
        cases depth with
        | zero => cases h
        | succ depth =>
          have hrest : scan .outside depth rest = some (.outside, 0) := h
          exact (ih hlength hrest).cons (by simp) (by simp)
      | level hopen hclose hquoted hscan =>
        rw [hscan depth] at h
        exact (ih hlength h).cons (by simp [hopen, hclose]) hquoted
      | unterminated hq hscan =>
        have hnil := hend _ _ rfl
        simp at hnil

/-! ### Calls -/

theorem openCount_callTokens (call : Text) :
    openCount (callTokens call) = openCount (tokens (call.drop callStart.length)) := by
  rw [openCount, callTokens, List.countP_map]
  rfl

theorem closeCount_callTokens (call : Text) :
    closeCount (callTokens call) = closeCount (tokens (call.drop callStart.length)) := by
  rw [closeCount, callTokens, List.countP_map]
  rfl

/-- A call that closes no more than it opens is not read. -/
theorem parseCall_ne_ok {strict : Bool} {call : Text} {c : CallArguments}
    (h : Nested 0 (tokens (call.drop callStart.length))) :
    (parseCall strict call).value ≠ .ok c := by
  intro hread
  obtain ⟨-, htokens⟩ := callTokens_of_value_parseCall hread
  obtain ⟨hopen, hclose⟩ := htokens.parentheses
  have hnone : openCount (callTokens call) = 0 :=
    List.countP_eq_zero.mpr fun t ht => by simp [hopen t ht]
  have hsome : 0 < closeCount (callTokens call) := by
    obtain ⟨t, ht, hkind⟩ := hclose
    exact List.countP_pos_iff.mpr ⟨t, ht, by simp [hkind]⟩
  have hcount := h _ List.prefix_rfl
  rw [← openCount_callTokens, ← closeCount_callTokens] at hcount
  omega

/-- A call without quotes that has a parenthesis among its arguments is not read. -/
theorem parseCall_ne_ok_of_openParen {strict : Bool} {call : Text} {c : CallArguments}
    (hquote : ∀ d ∈ call.drop callStart.length, isQuote d = false)
    (hopen : '(' ∈ call.drop callStart.length) : (parseCall strict call).value ≠ .ok c := by
  intro hread
  obtain ⟨-, htokens⟩ := callTokens_of_value_parseCall hread
  obtain ⟨u, hu, hkind⟩ := exists_openParen (Nat.le_refl _) hquote hopen
  exact htokens.parentheses.1 _ (List.mem_map_of_mem hu) hkind

/-- **The tokens of a call agree with where it was found to end.** -/
theorem tokens_of_mem_callSites {t : Text} {site : CallSite} (h : site ∈ callSites t) :
    let rest := Text.slice t ⟨site.arguments.start, site.span.stop⟩
    let ts := tokens rest
    (site.terminated = true →
      (∃ inner close, ts = inner ++ [close] ∧ close.kind = .closeParen ∧
        close.span.start + 1 = Text.byteSize rest ∧ close.span.stop = Text.byteSize rest ∧
        Nested 0 inner ∧ openCount inner = closeCount inner) ∧
      ∀ t ∈ ts, ∀ quote value, t.kind ≠ .quoted quote value false) ∧
    (site.terminated = false →
      Nested 0 ts ∧ ∀ strict c, (parseCall strict (site.text t)).value ≠ .ok c) := by
  obtain ⟨before, u, rfl, hextent⟩ := exists_extent h
  clear h
  cases hextent with
  | @terminated _ name arguments after hlength hname hscan =>
    have hparen : (')' : Char).utf8Size = 1 := by decide
    have hslice := Text.slice_append (before ++ name) (arguments ++ [')']) after
    simp only [Text.byteSize_append, hname, Text.byteSize_cons, Text.byteSize_nil, hparen,
      List.append_assoc, List.singleton_append, Nat.add_zero, ← Nat.add_assoc] at hslice
    intro rest ts
    have hrest : rest = arguments ++ [')'] := hslice
    refine ⟨fun _ => ?_, nofun⟩
    have hcloses : ClosesAt 0 (0 + Text.byteSize arguments) ts := by
      change ClosesAt 0 _ (tokensFrom rest.length 0 rest)
      rw [hrest]
      exact tokensFrom_closesAt (by simp) hscan
    obtain ⟨inner, hts, hnested, hbalance, hcomplete⟩ := hcloses
    refine ⟨⟨inner, _, hts, rfl, by simp [hrest, hparen], by simp [hrest, hparen], hnested,
      by omega⟩, ?_⟩
    rw [hts]
    exact List.forall_mem_append.mpr ⟨hcomplete, by simp⟩
  | @unterminated _ name arguments hlength hname hscan =>
    have hslice := Text.slice_append (before ++ name) arguments []
    simp only [Text.byteSize_append, hname, List.append_assoc, List.append_nil] at hslice
    have htext := Text.slice_append before (name ++ arguments) []
    simp only [Text.byteSize_append, hname, List.append_nil, ← Nat.add_assoc] at htext
    intro rest ts
    have hrest : rest = arguments := hslice
    have hnested : Nested 0 ts := nested_tokensFrom (Nat.le_refl _) (by rw [hrest]; exact hscan)
    refine ⟨nofun, fun _ => ⟨hnested, fun strict c => ?_⟩⟩
    refine parseCall_ne_ok ?_
    rw [CallSite.text, htext, ← hlength, List.drop_left, ← hrest]
    exact hnested

theorem tokens_of_call_in_call :
    let t : Text := "egal(egal(0)".toList
    let outer : CallSite := ⟨⟨0, 12⟩, ⟨5, 12⟩, false⟩
    let inner : CallSite := ⟨⟨5, 12⟩, ⟨10, 11⟩, true⟩
    callSites t = [outer, inner] ∧
      (∀ strict c, (parseCall strict (outer.text t)).value ≠ .ok c) ∧
      ∀ u ∈ tokens (Text.slice t ⟨10, 12⟩), ∀ quote value, u.kind ≠ .quoted quote value false := by
  intro t outer inner
  have hsites : callSites t = [outer, inner] := by decide
  have houter : outer ∈ callSites t := by simp [hsites]
  have hinner : inner ∈ callSites t := by simp [hsites]
  exact ⟨hsites, ((tokens_of_mem_callSites houter).2 rfl).2,
    ((tokens_of_mem_callSites hinner).1 rfl).2⟩

end EvenChroma.Css
