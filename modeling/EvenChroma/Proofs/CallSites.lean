/-
  EvenChroma/Proofs/CallSites.lean
  ================================
  **Where calls stand.**  Every site is a piece of the text, between characters and not
  empty (`CallSite.StandsIn`), and the sites of a text come in the order in which they
  begin.
-/
import EvenChroma.Css.CallSite
import EvenChroma.Proofs.Places

namespace EvenChroma

/-! ### Letters of either case -/

namespace Text

theorem utf8Size_toLower (c : Char) : c.toLower.utf8Size = c.utf8Size := by
  unfold Char.toLower
  split
  · next h =>
    have hupper : c.utf8Size = 1 :=
      Char.utf8Size_eq_one_iff.mpr (UInt32.le_trans h.2 (by decide))
    rw [hupper, Char.utf8Size_eq_one_iff]
    have hle : c.val.toNat ≤ 90 := UInt32.le_iff_toNat_le.mp h.2
    rw [UInt32.le_iff_toNat_le, UInt32.toNat_add]
    have hdistance : ('a'.val - 'A'.val).toNat = 32 := by decide
    have hlimit : (127 : UInt32).toNat = 127 := by decide
    omega
  · rfl

theorem byteSize_toLower (t : Text) : byteSize (t.map Char.toLower) = byteSize t := by
  induction t with
  | nil => rfl
  | cons c t ih => rw [List.map_cons, byteSize_cons, byteSize_cons, utf8Size_toLower, ih]

theorem byteSize_eq_of_sameIgnoringCase {s t : Text} (h : sameIgnoringCase s t = true) :
    byteSize s = byteSize t := by
  rw [← byteSize_toLower s, eq_of_beq h, byteSize_toLower]

theorem eq_openParen_of_toLower {c : Char} (h : c.toLower = '(') : c = '(' := by
  unfold Char.toLower at h
  split at h
  · next hupper =>
    have hval := congrArg (fun c : Char => c.val.toNat) h
    have hlow : 65 ≤ c.val.toNat := UInt32.le_iff_toNat_le.mp hupper.1
    have hhigh : c.val.toNat ≤ 90 := UInt32.le_iff_toNat_le.mp hupper.2
    have hdistance : ('a'.val - 'A'.val).toNat = 32 := by decide
    have hparen : ('(' : Char).val.toNat = 40 := by decide
    dsimp only at hval
    rw [UInt32.toNat_add, hdistance, hparen] at hval
    omega
  · exact h

end Text

namespace Css

/-! ### The closing parenthesis -/

/-- Where the search for a closing parenthesis stands after a text, and how many inner
    lists are open; nothing if the parenthesis is in the text. -/
def scan : Quoting → (depth : Nat) → Text → Option (Quoting × Nat)
  | q, depth, [] => some (q, depth)
  | .outside, depth, c :: t =>
    if c = ')' then
      match depth with
      | 0 => none
      | depth + 1 => scan .outside depth t
    else scan (Quoting.outside.next c) (if c = '(' then depth + 1 else depth) t
  | q, depth, c :: t => scan (q.next c) depth t

/-- How many inner lists are open after one more character; nothing if the character is the
    parenthesis searched for. -/
def openAfter? : Quoting → (depth : Nat) → Char → Option Nat
  | .outside, depth, c =>
    if c = ')' then if depth = 0 then none else some (depth - 1)
    else some (if c = '(' then depth + 1 else depth)
  | _, depth, _ => some depth

theorem openAfter?_eq_none_iff {q : Quoting} {depth : Nat} {c : Char} :
    openAfter? q depth c = none ↔ q = .outside ∧ depth = 0 ∧ c = ')' := by
  cases q with
  | outside =>
    by_cases hc : c = ')'
    · simp [openAfter?, hc]
    · simp [openAfter?, hc]
  | inside quote => simp [openAfter?]
  | escaped quote => simp [openAfter?]

theorem openAfter?_add {q : Quoting} {depth depth' : Nat} {c : Char}
    (h : openAfter? q depth c = some depth') (outer : Nat) :
    openAfter? q (depth + outer) c = some (depth' + outer) := by
  cases q with
  | outside =>
    by_cases hclose : c = ')'
    · cases depth with
      | zero => simp [openAfter?, hclose] at h
      | succ depth =>
        obtain rfl : depth = depth' := by simpa [openAfter?, hclose] using h
        simp [openAfter?, hclose, Nat.succ_add]
    · rw [openAfter?, if_neg hclose] at h ⊢
      obtain rfl := Option.some.inj h
      split
      · rw [Nat.add_right_comm]
      · rfl
  | inside quote =>
    cases h
    rfl
  | escaped quote =>
    cases h
    rfl

theorem scan_outside {c : Char} (hc : c ≠ ')') (depth : Nat) (t : Text) :
    scan .outside depth (c :: t)
      = scan (Quoting.outside.next c) (if c = '(' then depth + 1 else depth) t := if_neg hc

theorem scan_cons (q : Quoting) (depth : Nat) (c : Char) (t : Text) :
    scan q depth (c :: t) = (openAfter? q depth c).bind fun depth => scan (q.next c) depth t := by
  cases q with
  | outside =>
    by_cases hc : c = ')'
    · subst hc
      cases depth with
      | zero => rfl
      | succ depth => rfl
    · rw [scan_outside hc, openAfter?, if_neg hc, Option.bind_some]
  | inside quote => rfl
  | escaped quote => rfl

theorem scan_singleton {q : Quoting} {depth depth' : Nat} {c : Char}
    (h : openAfter? q depth c = some depth') : scan q depth [c] = some (q.next c, depth') := by
  rw [scan_cons, h, Option.bind_some]
  rfl

theorem scan_append (q : Quoting) (depth : Nat) (s t : Text) :
    scan q depth (s ++ t) = (scan q depth s).bind fun (q, depth) => scan q depth t := by
  induction s generalizing q depth with
  | nil => rfl
  | cons c s ih =>
    rw [List.cons_append, scan_cons, scan_cons, Option.bind_assoc]
    congr 1
    funext depth
    exact ih _ _

/-- A scan does not look at the lists that were open before. -/
theorem scan_deeper {q q' : Quoting} {depth depth' : Nat} {t : Text}
    (h : scan q depth t = some (q', depth')) (outer : Nat) :
    scan q (depth + outer) t = some (q', depth' + outer) := by
  induction t generalizing q depth with
  | nil =>
    obtain ⟨rfl, rfl⟩ := Prod.mk.inj (Option.some.inj h)
    rfl
  | cons c t ih =>
    rw [scan_cons] at h
    obtain ⟨inner, hopen, hscan⟩ := Option.bind_eq_some_iff.mp h
    rw [scan_cons, openAfter?_add hopen outer, Option.bind_some]
    exact ih hscan

/-- Behind a parenthesis no scan is at a character that a backslash takes along. -/
theorem scan_closing_ne_escaped (q : Quoting) (depth : Nat) (t : Text) (quote : Char)
    (depth' : Nat) : scan q depth (t ++ [')']) ≠ some (.escaped quote, depth') := by
  rw [scan_append]
  intro h
  obtain ⟨⟨q, depth⟩, -, hclose⟩ := Option.bind_eq_some_iff.mp h
  obtain ⟨inner, -, hend⟩ := Option.bind_eq_some_iff.mp ((scan_cons _ _ _ _).symm.trans hclose)
  have hnext : q.next ')' = .escaped quote := (Prod.mk.inj (Option.some.inj hend)).1
  cases q with
  | outside => cases hnext
  | inside other =>
    rw [Quoting.next, if_neg (by decide)] at hnext
    split at hnext
    · cases hnext
    · cases hnext
  | escaped other => cases hnext

theorem closingParen?_cons (q : Quoting) (depth : Nat) (c : Char) (t : Text) :
    closingParen? q depth (c :: t) =
      match openAfter? q depth c with
      | none => some 0
      | some depth => (closingParen? (q.next c) depth t).map (· + c.utf8Size) := by
  cases q with
  | outside =>
    by_cases hc : c = ')'
    · subst hc
      cases depth with
      | zero => rfl
      | succ depth => rfl
    · rw [openAfter?, if_neg hc]
      exact if_neg hc
  | inside quote => rfl
  | escaped quote => rfl

/-- Without the parenthesis the search comes to the end of the text. -/
theorem closingParen?_eq_none_iff (q : Quoting) (depth : Nat) (t : Text) :
    closingParen? q depth t = none ↔ (scan q depth t).isSome := by
  induction t generalizing q depth with
  | nil => simp [closingParen?, scan]
  | cons c t ih =>
    rw [closingParen?_cons, scan_cons]
    cases openAfter? q depth c with
    | none => simp
    | some depth => simpa using ih (q.next c) depth

/-- The parenthesis found is the first that the search meets outside quotes when no inner
    list is open. -/
theorem closingParen?_eq_some {q : Quoting} {depth n : Nat} {t : Text}
    (h : closingParen? q depth t = some n) :
    ∃ arguments after, t = arguments ++ ')' :: after ∧ n = Text.byteSize arguments ∧
      scan q depth arguments = some (.outside, 0) := by
  induction t generalizing q depth n with
  | nil =>
    rw [closingParen?] at h
    cases h
  | cons c t ih =>
    rw [closingParen?_cons] at h
    cases hopen : openAfter? q depth c with
    | none =>
      obtain ⟨rfl, rfl, rfl⟩ := openAfter?_eq_none_iff.mp hopen
      rw [hopen] at h
      exact ⟨[], t, rfl, (Option.some.inj h).symm, rfl⟩
    | some depth' =>
      rw [hopen] at h
      obtain ⟨m, hm, rfl⟩ := Option.map_eq_some_iff.mp h
      obtain ⟨arguments, after, rfl, rfl, hscan⟩ := ih hm
      refine ⟨c :: arguments, after, rfl, Nat.add_comm _ _, ?_⟩
      rw [scan_cons, hopen, Option.bind_some]
      exact hscan

theorem closingParen?_append {q q' : Quoting} {depth depth' : Nat} {s : Text}
    (h : scan q depth s = some (q', depth')) (t : Text) :
    closingParen? q depth (s ++ t) = (closingParen? q' depth' t).map (· + Text.byteSize s) := by
  induction s generalizing q depth with
  | nil =>
    obtain ⟨rfl, rfl⟩ := Prod.mk.inj (Option.some.inj h)
    simp
  | cons c s ih =>
    rw [scan_cons] at h
    obtain ⟨inner, hopen, hscan⟩ := Option.bind_eq_some_iff.mp h
    rw [List.cons_append, closingParen?_cons, hopen]
    dsimp only
    rw [ih hscan, Option.map_map]
    congr 1
    funext n
    simp only [Text.byteSize_cons, Function.comp_apply]
    omega

theorem closingParen?_append_of_eq_some {q : Quoting} {depth n : Nat} {s : Text}
    (h : closingParen? q depth s = some n) (t : Text) :
    closingParen? q depth (s ++ t) = some n := by
  obtain ⟨arguments, after, rfl, rfl, hscan⟩ := closingParen?_eq_some h
  rw [List.append_assoc, closingParen?_append hscan]
  simp [closingParen?]

/-! ### The extent of a call -/

theorem byteSize_callStart : Text.byteSize callStart = callStart.length := by decide

theorem startsCall_split {t : Text} (h : startsCall t = true) :
    ∃ name rest, t = name ++ rest ∧ name.length = callStart.length ∧
      Text.byteSize name = callStart.length := by
  have hsize : Text.byteSize (t.take callStart.length) = callStart.length := by
    rw [Text.byteSize_eq_of_sameIgnoringCase h, byteSize_callStart]
  refine ⟨t.take callStart.length, t.drop callStart.length, (List.take_append_drop _ _).symm, ?_,
    hsize⟩
  have hlength := congrArg List.length (eq_of_beq h)
  rwa [List.length_map, List.length_map] at hlength

theorem length_name {name : Text} (h : name.map Char.toLower = callStart) :
    name.length = callStart.length := by
  rw [← h, List.length_map]

theorem byteSize_name {name : Text} (h : name.map Char.toLower = callStart) :
    Text.byteSize name = callStart.length := by
  rw [← Text.byteSize_toLower, h, byteSize_callStart]

theorem drop_name {name : Text} (h : name.map Char.toLower = callStart) (t : Text) :
    (name ++ t).drop callStart.length = t := by
  rw [← length_name h, List.drop_left]

theorem CallSite.at_name {name : Text} (h : name.map Char.toLower = callStart) (start : Nat)
    (t : Text) :
    CallSite.at start (name ++ t) =
      match closingParen? .outside 0 t with
      | some n => ⟨⟨start, start + Text.byteSize name + n + 1⟩,
        ⟨start + Text.byteSize name, start + Text.byteSize name + n⟩, true⟩
      | none => ⟨⟨start, start + Text.byteSize name + Text.byteSize t⟩,
        ⟨start + Text.byteSize name, start + Text.byteSize name + Text.byteSize t⟩, false⟩ := by
  rw [CallSite.at, drop_name h, ← byteSize_name h]
  cases closingParen? .outside 0 t with
  | some n => rfl
  | none => simp only [Text.byteSize_append, Nat.add_assoc]

theorem startsCall_iff {t : Text} :
    startsCall t = true ↔ ∃ name rest, t = name ++ rest ∧ name.map Char.toLower = callStart := by
  constructor
  · intro h
    exact ⟨t.take callStart.length, t.drop callStart.length, (List.take_append_drop _ _).symm,
      eq_of_beq h⟩
  · rintro ⟨name, rest, rfl, hname⟩
    rw [startsCall, ← length_name hname, List.take_left, Text.sameIgnoringCase, hname]
    rfl

theorem scan_letter {c : Char} (h : c.toLower.isAlpha = true) (depth : Nat) (t : Text) :
    scan .outside depth (c :: t) = scan .outside depth t := by
  have hne : ∀ d : Char, d.toLower.isAlpha = false → c ≠ d := by
    rintro d hd rfl
    rw [hd] at h
    cases h
  have hnext : Quoting.outside.next c = .outside := by
    simp [Quoting.next, isQuote, hne '\x27' (by decide), hne '"' (by decide)]
  rw [scan_outside (hne ')' (by decide)), if_neg (hne '(' (by decide)), hnext]

theorem startsCall_append {t : Text} (h : startsCall t = true) (u : Text) :
    startsCall (t ++ u) = true := by
  obtain ⟨name, rest, rfl, hname⟩ := startsCall_iff.mp h
  exact startsCall_iff.mpr ⟨name, rest ++ u, List.append_assoc _ _ _, hname⟩

/-- To the search the name of a call opens one more list. -/
theorem scan_name {name : Text} (h : name.map Char.toLower = callStart) (depth : Nat) :
    scan .outside depth name = some (.outside, depth + 1) := by
  simp only [callStart, List.map_eq_cons_iff, List.map_eq_nil_iff] at h
  obtain ⟨e, _, rfl, he, g, _, rfl, hg, a, _, rfl, ha, l, _, rfl, hl, paren, _, rfl, hparen, rfl⟩ :=
    h
  obtain rfl := Text.eq_openParen_of_toLower hparen
  rw [scan_letter (by rw [he]; rfl), scan_letter (by rw [hg]; rfl), scan_letter (by rw [ha]; rfl),
    scan_letter (by rw [hl]; rfl)]
  rfl

/-- The site is the piece `call` of a text, behind the piece `before`. -/
structure CallSite.StandsIn (site : CallSite) (t before call after : Text) : Prop where
  text_eq : t = before ++ (call ++ after)
  span_eq : site.span = ⟨Text.byteSize before, Text.byteSize before + Text.byteSize call⟩
  nonempty : call ≠ []

theorem CallSite.start_at (start : Nat) (t : Text) : (CallSite.at start t).span.start = start := by
  unfold CallSite.at
  split
  · rfl
  · rfl

/-- A call at byte `start` in terms of its name, its arguments and what follows: it ends
    with the parenthesis that the search finds, or with the text. -/
inductive CallSite.Extent : CallSite → (start : Nat) → Text → Prop where
  | terminated {start : Nat} {name arguments after : Text}
    (hlength : name.length = callStart.length)
    (hname : Text.byteSize name = callStart.length)
    (hscan : scan .outside 0 arguments = some (.outside, 0)) :
    Extent
      ⟨⟨start, start + callStart.length + Text.byteSize arguments + 1⟩,
        ⟨start + callStart.length, start + callStart.length + Text.byteSize arguments⟩, true⟩
      start (name ++ (arguments ++ ')' :: after))
  | unterminated {start : Nat} {name arguments : Text} (hlength : name.length = callStart.length)
    (hname : Text.byteSize name = callStart.length)
    (hscan : (scan .outside 0 arguments).isSome) :
    Extent
      ⟨⟨start, start + callStart.length + Text.byteSize arguments⟩,
        ⟨start + callStart.length, start + callStart.length + Text.byteSize arguments⟩, false⟩
      start (name ++ arguments)

theorem CallSite.extent_at {t : Text} (h : startsCall t = true) (start : Nat) :
    (CallSite.at start t).Extent start t := by
  obtain ⟨name, rest, rfl, hlength, hname⟩ := startsCall_split h
  have hdrop : (name ++ rest).drop callStart.length = rest := by
    rw [← hlength, List.drop_left]
  unfold CallSite.at
  rw [hdrop]
  cases hclose : closingParen? .outside 0 rest with
  | none =>
    have hstop : start + Text.byteSize (name ++ rest)
        = start + callStart.length + Text.byteSize rest := by
      rw [Text.byteSize_append, hname, Nat.add_assoc]
    dsimp only
    rw [hstop]
    exact .unterminated hlength hname ((closingParen?_eq_none_iff _ _ _).mp hclose)
  | some n =>
    obtain ⟨arguments, after, rfl, rfl, hscan⟩ := closingParen?_eq_some hclose
    exact .terminated hlength hname hscan

/-- The site in a text that has `distance` more bytes in front. -/
def CallSite.shift (site : CallSite) (distance : Nat) : CallSite :=
  ⟨site.span.shift distance, site.arguments.shift distance, site.terminated⟩

theorem CallSite.shift_at (start distance : Nat) (t : Text) :
    (CallSite.at start t).shift distance = .at (distance + start) t := by
  unfold CallSite.at
  split
  · simp only [shift, Span.shift, CallSite.mk.injEq, Span.mk.injEq, and_true]
    omega
  · simp only [shift, Span.shift, CallSite.mk.injEq, Span.mk.injEq, and_true]
    omega

/-- A piece of a text is a call, and `after` comes behind it. -/
inductive IsCall : (call after : Text) → Prop where
  | terminated {name arguments after : Text} (hname : name.map Char.toLower = callStart)
    (hscan : scan .outside 0 arguments = some (.outside, 0)) :
    IsCall (name ++ (arguments ++ [')'])) after
  | unterminated {name arguments : Text} (hname : name.map Char.toLower = callStart)
    (hscan : (scan .outside 0 arguments).isSome) : IsCall (name ++ arguments) []

theorem exists_isCall {t : Text} (h : startsCall t = true) (start : Nat) :
    ∃ call after, t = call ++ after ∧ IsCall call after ∧
      (CallSite.at start t).span = ⟨start, start + Text.byteSize call⟩ := by
  obtain ⟨name, rest, ht, hname⟩ := startsCall_iff.mp h
  have hlength := length_name hname
  have hextent := CallSite.extent_at h start
  generalize CallSite.at start t = site at hextent ⊢
  cases hextent with
  | @terminated _ name' arguments after hlength' hsize hscan =>
    obtain ⟨rfl, -⟩ := List.append_inj ht (hlength'.trans hlength.symm)
    have hparen : (')' : Char).utf8Size = 1 := by decide
    refine ⟨name' ++ (arguments ++ [')']), after, by simp, .terminated hname hscan, ?_⟩
    simp [hsize, hparen, Nat.add_assoc]
  | @unterminated _ name' arguments hlength' hsize hscan =>
    obtain ⟨rfl, -⟩ := List.append_inj ht (hlength'.trans hlength.symm)
    exact ⟨name' ++ arguments, [], by simp, .unterminated hname hscan,
      by simp [hsize, Nat.add_assoc]⟩

theorem IsCall.exists_name {call after : Text} (h : IsCall call after) :
    ∃ name arguments, call = name ++ arguments ∧ name.map Char.toLower = callStart := by
  cases h with
  | terminated hname hscan => exact ⟨_, _, rfl, hname⟩
  | unterminated hname hscan => exact ⟨_, _, rfl, hname⟩

theorem IsCall.ne_nil {call after : Text} (h : IsCall call after) : call ≠ [] := by
  obtain ⟨name, arguments, rfl, hname⟩ := h.exists_name
  intro hnil
  obtain ⟨rfl, -⟩ := List.append_eq_nil_iff.mp hnil
  cases hname

theorem IsCall.getLast?_eq {call after : Text} (h : IsCall call after) (hafter : after ≠ []) :
    call.getLast? = some ')' := by
  cases h with
  | terminated hname hscan =>
    rw [← List.append_assoc]
    exact List.getLast?_concat
  | unterminated hname hscan => exact (hafter rfl).elim

/-! ### All sites -/

/-- What comes before a place is the last character so far, or what came before all of them. -/
theorem getLast?_cons_or (c : Char) (s : Text) (before : Option Char) :
    (c :: s).getLast?.or before = s.getLast?.or (some c) := by
  rw [List.getLast?_cons]
  cases s.getLast? <;> rfl

/-- Sites are the places where the name of a call begins and is not part of a longer one. -/
theorem mem_callSitesFrom_iff {before : Option Char} {start : Nat} {t : Text} {site : CallSite} :
    site ∈ callSitesFrom before start t ↔
      ∃ s u, t = s ++ u ∧ startsCall u = true ∧ (s.getLast?.or before).any joinsName = false ∧
        site = .at (start + Text.byteSize s) u := by
  induction t generalizing before start with
  | nil =>
    constructor
    · nofun
    · rintro ⟨s, u, ht, hu, -⟩
      obtain ⟨rfl, rfl⟩ := List.append_eq_nil_iff.mp ht.symm
      cases hu
  | cons c t ih =>
    -- a site begins right here or further on
    have hlater : (∃ s u, c :: t = s ++ u ∧ startsCall u = true ∧
          (s.getLast?.or before).any joinsName = false ∧
          site = .at (start + Text.byteSize s) u) ↔
        (startsCall (c :: t) = true ∧ before.any joinsName = false ∧ site = .at start (c :: t)) ∨
          site ∈ callSitesFrom (some c) (start + c.utf8Size) t := by
      rw [ih]
      constructor
      · rintro ⟨s, u, ht, hu, hjoins, hsite⟩
        cases s with
        | nil =>
          obtain rfl : c :: t = u := ht
          exact .inl ⟨hu, hjoins, hsite⟩
        | cons d s =>
          obtain ⟨rfl, rfl⟩ := List.cons.inj ht
          refine .inr ⟨s, u, rfl, hu, ?_, ?_⟩
          · rwa [getLast?_cons_or] at hjoins
          · rwa [Text.byteSize_cons, ← Nat.add_assoc] at hsite
      · rintro (⟨hu, hjoins, hsite⟩ | ⟨s, u, rfl, hu, hjoins, hsite⟩)
        · exact ⟨[], c :: t, rfl, hu, hjoins, hsite⟩
        · refine ⟨c :: s, u, rfl, hu, ?_, ?_⟩
          · rwa [getLast?_cons_or]
          · rwa [Text.byteSize_cons, ← Nat.add_assoc]
    rw [hlater, callSitesFrom]
    split
    · next hhere =>
      rw [Bool.and_eq_true, Bool.not_eq_true'] at hhere
      rw [List.mem_cons]
      simp [hhere]
    · next hhere =>
      rw [Bool.and_eq_true, Bool.not_eq_true'] at hhere
      constructor
      · exact .inr
      · rintro (⟨hu, hjoins, -⟩ | h)
        · exact (hhere ⟨hu, hjoins⟩).elim
        · exact h

/-- A site is the call that begins with what is left of the text at its place. -/
theorem mem_callSitesFrom {before : Option Char} {start : Nat} {t : Text} {site : CallSite}
    (h : site ∈ callSitesFrom before start t) :
    ∃ s u, t = s ++ u ∧ startsCall u = true ∧ site = .at (start + Text.byteSize s) u := by
  obtain ⟨s, u, ht, hu, -, hsite⟩ := mem_callSitesFrom_iff.mp h
  exact ⟨s, u, ht, hu, hsite⟩

theorem mem_callSites_iff {t : Text} {site : CallSite} :
    site ∈ callSites t ↔ ∃ s u, t = s ++ u ∧ startsCall u = true ∧
      s.getLast?.any joinsName = false ∧ site = .at (Text.byteSize s) u := by
  simp only [callSites, mem_callSitesFrom_iff, Option.or_none, Nat.zero_add]

theorem mem_callSites {t : Text} {site : CallSite} (h : site ∈ callSites t) :
    ∃ s u, t = s ++ u ∧ startsCall u = true ∧ site = .at (Text.byteSize s) u := by
  obtain ⟨s, u, ht, hu, hsite⟩ := mem_callSitesFrom h
  exact ⟨s, u, ht, hu, by rwa [Nat.zero_add] at hsite⟩

theorem callSitesFrom_append (before : Option Char) (start : Nat) (s t : Text) :
    ∃ sites, callSitesFrom before start (s ++ t)
        = sites ++ callSitesFrom (s.getLast?.or before) (start + Text.byteSize s) t ∧
      ∀ site ∈ sites, ∃ v u, s = v ++ u ∧ u ≠ [] ∧ startsCall (u ++ t) = true ∧
        site = .at (start + Text.byteSize v) (u ++ t) := by
  induction s generalizing before start with
  | nil => exact ⟨[], by simp⟩
  | cons c s ih =>
    obtain ⟨sites, hsites, hmem⟩ := ih (some c) (start + c.utf8Size)
    have hlater : ∀ site ∈ sites, ∃ v u, c :: s = v ++ u ∧ u ≠ [] ∧ startsCall (u ++ t) = true ∧
        site = .at (start + Text.byteSize v) (u ++ t) := by
      intro site hsite
      obtain ⟨v, u, rfl, hu, hstarts, rfl⟩ := hmem site hsite
      refine ⟨c :: v, u, rfl, hu, hstarts, ?_⟩
      rw [Text.byteSize_cons, Nat.add_assoc]
    rw [List.cons_append, callSitesFrom, hsites, getLast?_cons_or, Text.byteSize_cons,
      ← Nat.add_assoc]
    split
    · next hhere =>
      refine ⟨.at start (c :: (s ++ t)) :: sites, rfl, ?_⟩
      rw [List.forall_mem_cons]
      rw [Bool.and_eq_true] at hhere
      exact ⟨⟨[], c :: s, rfl, by simp, hhere.1, rfl⟩, hlater⟩
    · exact ⟨sites, rfl, hlater⟩

/-- At most one site begins at a place. -/
theorem eq_of_start_eq {t : Text} {a b : CallSite} (ha : a ∈ callSites t) (hb : b ∈ callSites t)
    (h : a.span.start = b.span.start) : a = b := by
  obtain ⟨s, u, ht, -, rfl⟩ := mem_callSites ha
  obtain ⟨s', u', ht', -, rfl⟩ := mem_callSites hb
  rw [CallSite.start_at, CallSite.start_at] at h
  obtain ⟨rfl, rfl⟩ := Text.append_inj_of_byteSize_eq (ht.symm.trans ht') h
  rfl

theorem exists_extent {t : Text} {site : CallSite} (h : site ∈ callSites t) :
    ∃ before u, t = before ++ u ∧ site.Extent (Text.byteSize before) u := by
  obtain ⟨s, u, ht, hu, rfl⟩ := mem_callSites h
  exact ⟨s, u, ht, CallSite.extent_at hu _⟩

theorem exists_standsIn {t : Text} {site : CallSite} (h : site ∈ callSites t) :
    ∃ before call after, site.StandsIn t before call after := by
  obtain ⟨s, u, rfl, hu, rfl⟩ := mem_callSites h
  obtain ⟨call, after, rfl, hcall, hspan⟩ := exists_isCall hu (Text.byteSize s)
  exact ⟨s, call, after, rfl, hspan, hcall.ne_nil⟩

theorem start_lt_stop {t : Text} {site : CallSite} (h : site ∈ callSites t) :
    site.span.start < site.span.stop := by
  obtain ⟨before, call, after, hin⟩ := exists_standsIn h
  have := Text.byteSize_pos hin.nonempty
  rw [hin.span_eq]
  dsimp only
  omega

/-- **Sites are listed in the order in which they begin.** -/
theorem pairwise_callSitesFrom (before : Option Char) (start : Nat) (t : Text) :
    (callSitesFrom before start t).Pairwise fun a b => a.span.start < b.span.start := by
  fun_induction callSitesFrom before start t with
  | case1 before start => exact List.Pairwise.nil
  | case2 before start c t later hcall ih =>
    refine List.Pairwise.cons (fun site hsite => ?_) ih
    obtain ⟨s, u, -, hu, rfl⟩ := mem_callSitesFrom hsite
    have hpos := c.utf8Size_pos
    rw [CallSite.start_at, CallSite.start_at]
    omega
  | case3 before start c t later hcall ih => exact ih

theorem pairwise_callSites (t : Text) :
    (callSites t).Pairwise fun a b => a.span.start < b.span.start :=
  pairwise_callSitesFrom none 0 t

end Css

end EvenChroma
