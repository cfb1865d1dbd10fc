/-
  EvenChroma/Proofs/RemainingCalls.lean
  =====================================
  **The calls that an expansion leaves are those it diagnoses.**  Two texts are followed
  side by side, the one given and the one with calls exchanged for colours (`Recoloured`).
  A call begins in the second where one begins in the first that is kept, and nowhere
  else.  It also ends at the corresponding place, unless a call in one of its quoted texts
  is exchanged that has quotes of its own: then the quotes around it need no longer match
  (`CallSite.Undisturbed`).
-/
import EvenChroma.Proofs.CallExpansion
import EvenChroma.Proofs.ColourNotation
import Mathlib.Data.List.Forall2

namespace EvenChroma.Css

/-! ### Places after an edit -/

/-- How far into the edited text the place `p` of a text is that begins at byte `start`. -/
def movedFrom : (start : Nat) → List Edit → (p : Nat) → Nat
  | start, [], p => p - start
  | start, e :: es, p =>
    if p < e.span.stop then p - start
    else
      (e.span.start - start) + Text.byteSize e.replacement + movedFrom e.span.stop es p

/-- The site with all its places where they are in the edited text. -/
def CallSite.move (site : CallSite) (es : List Edit) : CallSite :=
  ⟨⟨movedFrom 0 es site.span.start, movedFrom 0 es site.span.stop⟩,
    ⟨movedFrom 0 es site.arguments.start, movedFrom 0 es site.arguments.stop⟩, site.terminated⟩

/-- Edits of stretches that are not empty and begin at or after `start`. -/
def BeginAfter (start : Nat) (es : List Edit) : Prop :=
  ∀ e ∈ es, start ≤ e.span.start ∧ e.span.start < e.span.stop

theorem movedFrom_start {start : Nat} {es : List Edit} (h : BeginAfter start es) :
    movedFrom start es start = 0 := by
  cases es with
  | nil => exact Nat.sub_self start
  | cons e es =>
    obtain ⟨hle, hlt⟩ := h e List.mem_cons_self
    rw [movedFrom, if_pos (Nat.lt_of_le_of_lt hle hlt), Nat.sub_self]

theorem movedFrom_kept {start size p : Nat} {es : List Edit} (h : BeginAfter (start + size) es)
    (hp : start + size ≤ p) :
    movedFrom start es p = size + movedFrom (start + size) es p := by
  cases es with
  | nil =>
    simp only [movedFrom]
    omega
  | cons e es =>
    obtain ⟨hle, hlt⟩ := h e List.mem_cons_self
    simp only [movedFrom]
    split
    · omega
    · omega

theorem movedFrom_edited {start stop p : Nat} (new : Text) {es : List Edit} (hp : stop ≤ p) :
    movedFrom start (⟨⟨start, stop⟩, new⟩ :: es) p
      = Text.byteSize new + movedFrom stop es p := by
  rw [movedFrom, if_neg (Nat.not_lt.mpr hp), Nat.sub_self, Nat.zero_add]

/-! ### A text with calls exchanged for colours -/

/-- The second text is the first, which begins at byte `start`, with the calls of the edits
    exchanged for colours and every other character kept. -/
inductive Recoloured : (start : Nat) → Text → List Edit → Text → Prop where
  | nil (start : Nat) : Recoloured start [] [] []
  | keep (c : Char) {start : Nat} {t r : Text} {es : List Edit}
    (h : Recoloured (start + c.utf8Size) t es r) : Recoloured start (c :: t) es (c :: r)
  | edit {start : Nat} {call new t r : Text} {es : List Edit} (hcall : IsCall call t)
    (hnew : Notation new) (h : Recoloured (start + Text.byteSize call) t es r) :
    Recoloured start (call ++ t) (⟨⟨start, start + Text.byteSize call⟩, new⟩ :: es) (new ++ r)

namespace Recoloured

variable {start : Nat} {t r : Text} {es : List Edit}

theorem append_left (kept : Text) (h : Recoloured (start + Text.byteSize kept) t es r) :
    Recoloured start (kept ++ t) es (kept ++ r) := by
  induction kept generalizing start with
  | nil => exact h
  | cons c kept ih =>
    rw [Text.byteSize_cons, ← Nat.add_assoc] at h
    exact .keep c (ih h)

theorem refl (start : Nat) (t : Text) : Recoloured start t [] t := by
  have h := append_left t (.nil (start + Text.byteSize t))
  rwa [List.append_nil] at h

theorem eq_nil (h : Recoloured start t es r) (ht : t = []) : es = [] ∧ r = [] := by
  cases h with
  | nil => exact ⟨rfl, rfl⟩
  | keep c h => cases ht
  | edit hcall hnew h => exact (hcall.ne_nil (List.append_eq_nil_iff.mp ht).1).elim

theorem beginAfter (h : Recoloured start t es r) : BeginAfter start es := by
  induction h with
  | nil start => nofun
  | keep c h ih =>
    intro e he
    obtain ⟨hle, hlt⟩ := ih e he
    exact ⟨by omega, hlt⟩
  | edit hcall hnew h ih =>
    have hpos := Text.byteSize_pos hcall.ne_nil
    rintro e (_ | ⟨_, he⟩)
    · exact ⟨Nat.le_refl _, Nat.lt_add_of_pos_right hpos⟩
    · obtain ⟨hle, hlt⟩ := ih e he
      exact ⟨by omega, hlt⟩

theorem movedFrom_stop (h : Recoloured start t es r) :
    movedFrom start es (start + Text.byteSize t) = Text.byteSize r := by
  induction h with
  | nil start => exact Nat.sub_self start
  | keep c h ih =>
    rw [Text.byteSize_cons, Text.byteSize_cons, ← Nat.add_assoc,
      movedFrom_kept h.beginAfter (Nat.le_add_right _ _), ih]
  | edit hcall hnew h ih =>
    rw [Text.byteSize_append, Text.byteSize_append, ← Nat.add_assoc,
      movedFrom_edited _ (Nat.le_add_right _ _), ih]

/-- **The edits of an expansion exchange calls for colours.** -/
theorem of_substituted {before : Text} {es : List Edit}
    (h : Substituted start t es r) (hstart : Text.byteSize before = start)
    (hcalls : ∀ e ∈ es, ∃ front call after, before ++ t = front ++ (call ++ after) ∧
      e.span = ⟨Text.byteSize front, Text.byteSize front + Text.byteSize call⟩ ∧
      IsCall call after)
    (hcolours : ∀ e ∈ es, Notation e.replacement) : Recoloured start t es r := by
  induction h generalizing before with
  | rest start t => exact refl start t
  | edit start kept old new h ih =>
    next t result es =>
    rw [List.forall_mem_cons] at hcalls hcolours
    obtain ⟨⟨front, call, after, htext, hspan, hcall⟩, hcalls⟩ := hcalls
    -- the piece that is exchanged is the call, both being at the same place
    obtain ⟨hfront, hstop⟩ := Span.mk.inj hspan
    rw [← List.append_assoc] at htext
    obtain ⟨rfl, hrest⟩ := Text.append_inj_of_byteSize_eq htext
      (by rw [Text.byteSize_append, hstart]; exact hfront)
    obtain ⟨rfl, rfl⟩ := Text.append_inj_of_byteSize_eq hrest (by omega)
    have hlater : Recoloured (start + Text.byteSize kept + Text.byteSize old) t es result :=
      @ih (before ++ (kept ++ old)) (by simp [hstart, Nat.add_assoc]) (by simpa using hcalls)
        hcolours.2
    exact append_left kept (.edit hcall hcolours.1 hlater)

/-! ### Where calls begin -/

theorem not_spells_call {call after p : Text} (hcall : IsCall call after) (hp : p <:+ callStart)
    (hne : p ≠ []) (hpart : p ≠ callStart) (t : Text) : ¬ Spells p (call ++ t) := by
  have hdiffer : ∀ p ∈ callStart.tails, p ≠ [] → p ≠ callStart →
      p.take callStart.length ≠ callStart.take p.length := by
    decide
  obtain ⟨name, arguments, rfl, hname⟩ := hcall.exists_name
  intro h
  rw [List.append_assoc] at h
  have htake := h.take_eq
  rw [hname, ← List.length_map, hname] at htake
  exact hdiffer p ((List.mem_tails _ _).mpr hp) hne hpart htake

/-- No edit is made where the rest of a name is spelled in one of the texts. -/
theorem exists_spelled {p : Text} (h : Recoloured start t es r) (hp : p <:+ callStart)
    (hpart : p ≠ callStart) (hspells : Spells p t ∨ Spells p r) :
    ∃ s t' r', t = s ++ t' ∧ r = s ++ r' ∧ s.map Char.toLower = p ∧
      Recoloured (start + Text.byteSize s) t' es r' := by
  -- letter by letter; neither a call nor a colour begins with what is left of the name
  induction p generalizing start t r with
  | nil => exact ⟨[], t, r, rfl, rfl, rfl, h⟩
  | cons a p ih =>
    cases h with
    | nil => exact (hspells.elim not_spells_nil not_spells_nil).elim
    | @keep c _ t r _ h =>
      rw [spells_cons, spells_cons, ← and_or_left] at hspells
      have hp' : p <:+ callStart := (List.suffix_cons a p).trans hp
      have hshort : p.length < callStart.length := hp.length_le
      obtain ⟨s, t', r', rfl, rfl, hs, h'⟩ :=
        ih h hp' (by rintro rfl; exact Nat.lt_irrefl _ hshort) hspells.2
      rw [Nat.add_assoc] at h'
      refine ⟨c :: s, t', r', rfl, rfl, ?_, h'⟩
      rw [List.map_cons, hspells.1, hs]
    | edit hcall hnew h =>
      rcases hspells with hold | hcolour
      · exact (not_spells_call hcall hp (by simp) hpart _ hold).elim
      · exact (hnew.not_spells rfl hnew.ne_nil hp (by simp) (.inr rfl) _ hcolour).elim

/-- A call that begins with a character kept has all its name kept, and no call begins there
    in the one text only. -/
theorem exists_name {c : Char} (h : Recoloured (start + c.utf8Size) t es r)
    (hstarts : startsCall (c :: t) = true ∨ startsCall (c :: r) = true) :
    ∃ name t' r', c :: t = name ++ t' ∧ c :: r = name ++ r' ∧
      name.map Char.toLower = callStart ∧
      Recoloured (start + Text.byteSize name) t' es r' := by
  have hletters : callStart.tail <:+ callStart := ⟨['e'], rfl⟩
  have hspells : c.toLower = 'e' ∧ (Spells callStart.tail t ∨ Spells callStart.tail r) := by
    rw [and_or_left]
    exact hstarts.imp (fun h => spells_cons.mp (startsCall_iff.mp h))
      (fun h => spells_cons.mp (startsCall_iff.mp h))
  obtain ⟨s, t', r', rfl, rfl, hs, h'⟩ := h.exists_spelled hletters (by decide) hspells.2
  rw [Nat.add_assoc] at h'
  refine ⟨c :: s, t', r', rfl, rfl, ?_, h'⟩
  rw [List.map_cons, hspells.1, hs]
  rfl

theorem startsCall_eq {c : Char} (h : Recoloured (start + c.utf8Size) t es r) :
    startsCall (c :: t) = startsCall (c :: r) := by
  rw [Bool.eq_iff_iff]
  constructor
  · intro hold
    obtain ⟨name, t', r', -, hr, hname, -⟩ := h.exists_name (.inl hold)
    exact startsCall_iff.mpr ⟨name, r', hr, hname⟩
  · intro hnew
    obtain ⟨name, t', r', ht, -, hname, -⟩ := h.exists_name (.inr hnew)
    exact startsCall_iff.mpr ⟨name, t', ht, hname⟩

end Recoloured

/-! ### Scans over an edit -/

def Quoting.Proper : Quoting → Prop
  | .outside => True
  | .inside quote => isQuote quote = true
  | .escaped quote => isQuote quote = true

theorem Quoting.Proper.next {q : Quoting} (h : q.Proper) (c : Char) : (q.next c).Proper := by
  cases q with
  | outside =>
    rw [Quoting.next]
    split_ifs with hquote
    · exact hquote
    · trivial
  | inside quote =>
    rw [Quoting.next]
    split_ifs
    · exact h
    · trivial
    · exact h
  | escaped quote => exact h

/-- A scan that comes to the call gets through, and is behind it where it was before. -/
def PassedOver (q : Quoting) (depth : Nat) (call after : Text) : Prop :=
  ∃ state, scan q depth call = some state ∧ (after ≠ [] → state = (q, depth))

theorem IsCall.passedOver {call after : Text} (h : IsCall call after) (depth : Nat) :
    PassedOver .outside depth call after := by
  cases h with
  | @terminated name arguments after hname hscan =>
    refine ⟨(.outside, depth), ?_, fun _ => rfl⟩
    have harguments := scan_deeper hscan (depth + 1)
    rw [Nat.zero_add] at harguments
    rw [scan_append, scan_name hname, Option.bind_some]
    dsimp only
    rw [scan_append, harguments]
    rfl
  | @unterminated name arguments hname hscan =>
    obtain ⟨⟨q, inner⟩, hscan⟩ := Option.isSome_iff_exists.mp hscan
    have harguments := scan_deeper hscan (depth + 1)
    rw [Nat.zero_add] at harguments
    refine ⟨(q, inner + (depth + 1)), ?_, fun h => (h rfl).elim⟩
    rw [scan_append, scan_name hname, Option.bind_some]
    exact harguments

theorem PassedOver.colour {q : Quoting} {depth : Nat} {call after new : Text}
    (h : PassedOver q depth call after) (hq : q.Proper) (hcall : IsCall call after)
    (hnew : Notation new) : PassedOver q depth new after := by
  cases q with
  | outside => exact ⟨_, hnew.scan_outside depth, fun _ => rfl⟩
  | inside quote => exact ⟨_, hnew.scan_inside hq depth, fun _ => rfl⟩
  | escaped quote =>
    -- then the text ends here: a call ends with a parenthesis, which takes no backslash along
    refine ⟨_, hnew.scan_escaped hq depth, fun hafter => ?_⟩
    obtain ⟨state, hscan, hstate⟩ := h
    obtain ⟨front, rfl⟩ := List.getLast?_eq_some_iff.mp (hcall.getLast?_eq hafter)
    rw [hstate hafter] at hscan
    exact (scan_closing_ne_escaped _ _ _ _ _ hscan).elim

/-- A search for a closing parenthesis passes over each of the stretches that it comes to inside
    quotes. -/
def Steady (start : Nat) (t : Text) (spans : List Span) (q : Quoting) (depth : Nat) : Prop :=
  ∀ front call after q' depth', t = front ++ (call ++ after) →
    ⟨start + Text.byteSize front, start + Text.byteSize front + Text.byteSize call⟩ ∈ spans →
    scan q depth front = some (q', depth') → q' ≠ .outside → PassedOver q' depth' call after

theorem Steady.append {start : Nat} {s t : Text} {spans : List Span} {q q' : Quoting}
    {depth depth' : Nat} (h : Steady start (s ++ t) spans q depth)
    (hscan : scan q depth s = some (q', depth')) :
    Steady (start + Text.byteSize s) t spans q' depth' := by
  rintro front call after q'' depth'' rfl hspan hfront hinside
  refine h (s ++ front) call after q'' depth'' (List.append_assoc _ _ _).symm ?_ ?_ hinside
  · rwa [Text.byteSize_append, ← Nat.add_assoc]
  · rw [scan_append, hscan]
    exact hfront

theorem Steady.mono {start : Nat} {t : Text} {spans spans' : List Span} {q : Quoting}
    {depth : Nat} (h : Steady start t spans q depth) (hspans : spans' ⊆ spans) :
    Steady start t spans' q depth := by
  intro front call after q' depth' ht hspan
  exact h front call after q' depth' ht (hspans hspan)

/-! ### Where calls end -/

/-- Byte `n` is kept, and is byte `m` of the edited text. -/
structure KeptAt (start : Nat) (es : List Edit) (n m : Nat) : Prop where
  place : movedFrom start es (start + n) = m
  next : movedFrom start es (start + n + 1) = m + 1

theorem KeptAt.behind_kept {start size n m : Nat} {es : List Edit}
    (h : KeptAt (start + size) es n m) (hes : BeginAfter (start + size) es) :
    KeptAt start es (n + size) (m + size) := by
  have hplace : start + (n + size) = start + size + n := by omega
  constructor
  · rw [hplace, movedFrom_kept hes (Nat.le_add_right _ _), h.place, Nat.add_comm]
  · rw [hplace, Nat.add_assoc, movedFrom_kept hes (Nat.le_add_right _ _), ← Nat.add_assoc, h.next,
      Nat.add_comm size, Nat.add_right_comm]

theorem KeptAt.behind_edited {start size n m : Nat} {es : List Edit} {new : Text}
    (h : KeptAt (start + size) es n m) :
    KeptAt start (⟨⟨start, start + size⟩, new⟩ :: es) (n + size) (m + Text.byteSize new) := by
  have hplace : start + (n + size) = start + size + n := by omega
  constructor
  · rw [hplace, movedFrom_edited _ (Nat.le_add_right _ _), h.place, Nat.add_comm]
  · rw [hplace, Nat.add_assoc, movedFrom_edited _ (Nat.le_add_right _ _), ← Nat.add_assoc, h.next,
      Nat.add_comm _ (m + 1), Nat.add_right_comm]

theorem rel_map {R S : Nat → Nat → Prop} {a b : Option Nat} {f g : Nat → Nat}
    (h : Option.Rel R a b) (himp : ∀ n m, R n m → S (f n) (g m)) :
    Option.Rel S (a.map f) (b.map g) := by
  cases h with
  | some h => exact .some (himp _ _ h)
  | none => exact .none

/-- **The search for a closing parenthesis finds the same one in both texts, or none.** -/
theorem Recoloured.rel_closingParen? {start : Nat} {t r : Text} {es : List Edit} {q : Quoting}
    {depth : Nat} (h : Recoloured start t es r) (hq : q.Proper)
    (hsteady : Steady start t (es.map Edit.span) q depth) :
    Option.Rel (KeptAt start es) (closingParen? q depth t) (closingParen? q depth r) := by
  induction h generalizing q depth with
  | nil start => exact .none
  | @keep c start t r es h ih =>
    rw [closingParen?_cons, closingParen?_cons]
    cases hopen : openAfter? q depth c with
    | none =>
      obtain ⟨-, -, rfl⟩ := openAfter?_eq_none_iff.mp hopen
      have hsize : (')' : Char).utf8Size = 1 := by decide
      refine .some ⟨movedFrom_start (h.keep _).beginAfter, ?_⟩
      rw [movedFrom_kept h.beginAfter (by omega), hsize, movedFrom_start (hsize ▸ h.beginAfter)]
    | some inner =>
      have hlater := hsteady.append (s := [c]) (scan_singleton hopen)
      exact rel_map (ih (hq.next c) hlater) fun n m hkept => hkept.behind_kept h.beginAfter
  | @edit start call new t r es hcall hnew h ih =>
    have hpassed : PassedOver q depth call t := by
      by_cases hinside : q = .outside
      · exact hinside ▸ hcall.passedOver depth
      · exact hsteady [] call t q depth rfl List.mem_cons_self rfl hinside
    obtain ⟨state', hnewscan, hnewstate⟩ := hpassed.colour hq hcall hnew
    obtain ⟨state, hscan, hstate⟩ := hpassed
    by_cases hafter : t = []
    · -- neither text goes on, and no parenthesis has been found
      subst hafter
      obtain ⟨rfl, rfl⟩ := h.eq_nil rfl
      rw [List.append_nil, List.append_nil, (closingParen?_eq_none_iff _ _ _).mpr (by simp [hscan]),
        (closingParen?_eq_none_iff _ _ _).mpr (by simp [hnewscan])]
      exact .none
    · rw [hstate hafter] at hscan
      rw [hnewstate hafter] at hnewscan
      rw [closingParen?_append hscan, closingParen?_append hnewscan]
      have hlater := (hsteady.mono (List.subset_cons_self _ _)).append hscan
      exact rel_map (ih hq hlater) fun n m hkept => hkept.behind_edited

/-! ### The sites that remain -/

variable {whole : Text} {all : List Edit}

/-- The text `t` at byte `start` is what is left of the whole one, with the edits `es` of all
    still to be made, and is edited from byte `start'` of the edited text on. -/
structure Reached (whole : Text) (all : List Edit) (start start' : Nat) (t : Text)
    (es : List Edit) : Prop where
  rest : ∃ front, whole = front ++ t ∧ Text.byteSize front = start
  edits : es ⊆ all
  moved : ∀ p, start ≤ p → movedFrom 0 all p = start' + movedFrom start es p

theorem Reached.refl (whole : Text) (all : List Edit) : Reached whole all 0 0 whole all where
  rest := ⟨[], rfl, rfl⟩
  edits := List.Subset.refl all
  moved := fun _ _ => (Nat.zero_add _).symm

theorem Reached.keep {start start' : Nat} {s t : Text} {es : List Edit}
    (h : Reached whole all start start' (s ++ t) es)
    (hes : BeginAfter (start + Text.byteSize s) es) :
    Reached whole all (start + Text.byteSize s) (start' + Text.byteSize s) t es where
  rest := by
    obtain ⟨front, rfl, rfl⟩ := h.rest
    exact ⟨front ++ s, (List.append_assoc _ _ _).symm, Text.byteSize_append _ _⟩
  edits := h.edits
  moved := by
    intro p hp
    rw [h.moved p (Nat.le_of_add_right_le hp), movedFrom_kept hes hp, Nat.add_assoc]

theorem Reached.edit {start start' : Nat} {call new t : Text} {es : List Edit}
    (h : Reached whole all start start' (call ++ t)
      (⟨⟨start, start + Text.byteSize call⟩, new⟩ :: es)) :
    Reached whole all (start + Text.byteSize call) (start' + Text.byteSize new) t es where
  rest := by
    obtain ⟨front, rfl, rfl⟩ := h.rest
    exact ⟨front ++ call, (List.append_assoc _ _ _).symm, Text.byteSize_append _ _⟩
  edits := List.Subset.trans (List.subset_cons_self _ _) h.edits
  moved := by
    intro p hp
    rw [h.moved p (Nat.le_of_add_right_le hp), movedFrom_edited new hp, Nat.add_assoc]

/-- The call `left` of the edited text is what has become of `site`: its name is kept, and what
    comes behind the name is edited. -/
def Remains (whole : Text) (all : List Edit) (site left : CallSite) : Prop :=
  ∃ start start' name t es r, name.map Char.toLower = callStart ∧
    Reached whole all start start' (name ++ t) es ∧
    Recoloured (start + Text.byteSize name) t es r ∧
    site = .at start (name ++ t) ∧ left = .at start' (name ++ r)

instance (site : CallSite) (spans : List Span) : Decidable (site.CoveredBy spans) :=
  List.decidableBEx _ _

theorem CallSite.coveredBy_cons {site : CallSite} {span : Span} {spans : List Span} :
    site.CoveredBy (span :: spans) ↔
      (span.start ≤ site.span.start ∧ site.span.start < span.stop) ∨ site.CoveredBy spans := by
  simp [CoveredBy]

/-- The sites in front of `t` that begin in the stretch are covered. -/
theorem filter_callSitesFrom_append (before : Option Char) (start : Nat) (call t : Text)
    (spans : List Span) :
    ((callSitesFrom before start (call ++ t)).filter fun site =>
        ¬ site.CoveredBy (⟨start, start + Text.byteSize call⟩ :: spans))
      = (callSitesFrom (call.getLast?.or before) (start + Text.byteSize call) t).filter
          fun site => ¬ site.CoveredBy spans := by
  obtain ⟨inner, hsites, hinner⟩ := callSitesFrom_append before start call t
  have hcovered : inner.filter (fun site =>
      ¬ site.CoveredBy (⟨start, start + Text.byteSize call⟩ :: spans)) = [] := by
    rw [List.filter_eq_nil_iff]
    intro site hsite
    obtain ⟨v, u, rfl, hu, -, rfl⟩ := hinner site hsite
    have hpos := Text.byteSize_pos hu
    rw [decide_eq_true_iff, not_not, CallSite.coveredBy_cons, CallSite.start_at,
      Text.byteSize_append]
    left
    dsimp only
    omega
  have hbehind : ∀ site ∈ callSitesFrom (call.getLast?.or before) (start + Text.byteSize call) t,
      decide (¬ site.CoveredBy (⟨start, start + Text.byteSize call⟩ :: spans))
        = decide (¬ site.CoveredBy spans) := by
    intro site hsite
    obtain ⟨s, u, -, -, rfl⟩ := mem_callSitesFrom hsite
    have hpast : ¬ start + Text.byteSize call + Text.byteSize s
        < start + Text.byteSize call := by omega
    rw [decide_eq_decide, CallSite.coveredBy_cons, CallSite.start_at]
    simp [hpast]
  rw [hsites, List.filter_append, hcovered, List.nil_append, List.filter_congr hbehind]

theorem callSitesFrom_notation {new : Text} (hnew : Notation new) (before : Option Char)
    (start : Nat) (t : Text) :
    callSitesFrom before start (new ++ t)
      = callSitesFrom (some ')') (start + Text.byteSize new) t := by
  obtain ⟨inner, hsites, hinner⟩ := callSitesFrom_append before start new t
  have hnone : inner = [] := by
    rw [List.eq_nil_iff_forall_not_mem]
    intro site hsite
    obtain ⟨v, u, hsplit, hu, hstarts, -⟩ := hinner site hsite
    exact hnew.not_spells hsplit hu (List.suffix_refl _) (by decide) (.inl rfl) t
      (startsCall_iff.mp hstarts)
  rw [hsites, hnone, hnew.getLast?_eq]
  rfl

/-- **What begins outside the stretches exchanged remains, and nothing else begins.** -/
theorem Recoloured.remaining {start start' : Nat} {t r : Text} {es : List Edit}
    {before before' : Option Char} (h : Recoloured start t es r)
    (hreached : Reached whole all start start' t es)
    (hbefore : before.any joinsName = before'.any joinsName) :
    List.Forall₂ (Remains whole all)
      ((callSitesFrom before start t).filter fun site => ¬ site.CoveredBy (es.map Edit.span))
      (callSitesFrom before' start' r) := by
  induction h generalizing start' before before' with
  | nil start => exact .nil
  | @keep c start t r es h ih =>
    have hreached' : Reached whole all (start + c.utf8Size) (start' + c.utf8Size) t es :=
      @Reached.keep whole all start start' [c] t es hreached h.beginAfter
    have hlater := @ih _ (some c) (some c) hreached' rfl
    rw [callSitesFrom, callSitesFrom, h.startsCall_eq, hbefore]
    split
    · next hhere =>
      rw [Bool.and_eq_true] at hhere
      -- the edits still to be made are all behind `c`
      have hclear : ¬ (CallSite.at start (c :: t)).CoveredBy (es.map Edit.span) := by
        rintro ⟨span, hspan, hle, -⟩
        obtain ⟨e, he, rfl⟩ := List.mem_map.mp hspan
        have hbegin := (h.beginAfter e he).1
        have hpos := c.utf8Size_pos
        rw [CallSite.start_at] at hle
        omega
      rw [List.filter_cons_of_pos (by simpa using hclear)]
      obtain ⟨name, t', r', ht, hr, hname, h'⟩ := h.exists_name (.inr hhere.1)
      rw [ht, hr]
      exact .cons ⟨start, start', name, t', es, r', hname, ht ▸ hreached, h', rfl, rfl⟩ hlater
    · exact hlater
  | @edit start call new t r es hcall hnew h ih =>
    rw [List.map_cons, filter_callSitesFrom_append, callSitesFrom_notation hnew]
    by_cases hafter : t = []
    · subst hafter
      obtain ⟨-, rfl⟩ := h.eq_nil rfl
      exact .nil
    · refine ih hreached.edit ?_
      rw [hcall.getLast?_eq hafter]
      rfl

/-! ### Where a remaining call is -/

/-- The quotes in the argument list are matched as before when the calls in quoted texts are
    exchanged: each of these calls, read on from where it begins, leaves off inside the same
    quotes. -/
def CallSite.Undisturbed (site : CallSite) (t : Text) (spans : List Span) : Prop :=
  ∀ front rest, t = front ++ rest → Text.byteSize front = site.arguments.start →
    Steady (Text.byteSize front) rest spans .outside 0

theorem CallSite.arguments_start_at {name : Text} (h : name.map Char.toLower = callStart)
    (start : Nat) (t : Text) :
    (CallSite.at start (name ++ t)).arguments.start = start + Text.byteSize name := by
  rw [at_name h]
  split
  · rfl
  · rfl

theorem Remains.start_eq {site left : CallSite} (h : Remains whole all site left) :
    left.span.start = movedFrom 0 all site.span.start := by
  obtain ⟨start, start', name, t, es, r, -, hreached, hrecoloured, rfl, rfl⟩ := h
  rw [CallSite.start_at, CallSite.start_at, hreached.moved start (Nat.le_refl _),
    movedFrom_start (hrecoloured.append_left name).beginAfter, Nat.add_zero]

theorem Remains.arguments_start_eq {site left : CallSite} (h : Remains whole all site left) :
    left.arguments.start = movedFrom 0 all site.arguments.start := by
  obtain ⟨start, start', name, t, es, r, hname, hreached, hrecoloured, rfl, rfl⟩ := h
  rw [CallSite.arguments_start_at hname, CallSite.arguments_start_at hname,
    (hreached.keep hrecoloured.beginAfter).moved _ (Nat.le_refl _),
    movedFrom_start hrecoloured.beginAfter, Nat.add_zero]

theorem Remains.eq_move {site left : CallSite} (h : Remains whole all site left)
    (hundisturbed : site.Undisturbed whole (all.map Edit.span)) : left = site.move all := by
  have hstart := h.start_eq
  have hfirst := h.arguments_start_eq
  obtain ⟨start, start', name, t, es, r, hname, hreached, hrecoloured, rfl, rfl⟩ := h
  have harguments := hreached.keep hrecoloured.beginAfter
  have hsteady : Steady (start + Text.byteSize name) t (es.map Edit.span) .outside 0 := by
    obtain ⟨front, hwhole, hfront⟩ := harguments.rest
    have h := hundisturbed front t hwhole (by rw [hfront, CallSite.arguments_start_at hname])
    rw [hfront] at h
    exact h.mono (List.map_subset _ hreached.edits)
  rw [CallSite.start_at, CallSite.start_at] at hstart
  rw [CallSite.arguments_start_at hname, CallSite.arguments_start_at hname] at hfirst
  have hclose := hrecoloured.rel_closingParen? (q := .outside) trivial hsteady
  rw [CallSite.at_name hname, CallSite.at_name hname]
  generalize closingParen? .outside 0 t = a at hclose ⊢
  generalize closingParen? .outside 0 r = b at hclose ⊢
  cases hclose with
  | @some n m hkept =>
    have hplace := harguments.moved (start + Text.byteSize name + n) (Nat.le_add_right _ _)
    have hnext := harguments.moved (start + Text.byteSize name + n + 1) (by omega)
    rw [hkept.place] at hplace
    rw [hkept.next, ← Nat.add_assoc] at hnext
    simp only [CallSite.move, ← hstart, ← hfirst, hplace, hnext]
  | none =>
    have hstop := harguments.moved (start + Text.byteSize name + Text.byteSize t)
      (Nat.le_add_right _ _)
    rw [hrecoloured.movedFrom_stop] at hstop
    simp only [CallSite.move, ← hstart, ← hfirst, hstop]

/-! ### The calls that are diagnosed -/

variable {read : Text → Logged Log.Record (Except Problem CallArguments)} {t : Text}

theorem start_lt_of_mem_replacedSpans {before after : List Ruling} {r : Ruling} {span : Span}
    (h : rulings read t = before ++ r :: after) (hspan : span ∈ replacedSpans after) :
    r.site.span.start < span.start := by
  obtain ⟨later, hlater, rfl⟩ := exists_ruling_of_mem_replacedSpans hspan
  have hsites : (before ++ r :: after).map Ruling.site = callSites t := h ▸ site_rulingsFrom 0 _
  have hsorted := pairwise_callSites t
  rw [← hsites, List.map_append, List.map_cons] at hsorted
  exact List.rel_of_pairwise_cons (List.pairwise_append.mp hsorted).2.1
    (List.mem_map_of_mem hlater)

/-- Calls are diagnosed unless they begin in a stretch that is replaced. -/
theorem rejection?_eq_none_iff {r : Ruling} (hr : r ∈ rulings read t) :
    r.rejection? = none ↔ r.site.CoveredBy (replacedSpans (rulings read t)) := by
  obtain ⟨before, after, hsplit⟩ := List.append_of_mem hr
  have hdue := rulings_due hsplit
  have hspans : replacedSpans (rulings read t)
      = replacedSpans before ++ (replacedSpans [r] ++ replacedSpans after) := by
    rw [hsplit, replacedSpans_append, replacedSpans_cons]
  have hbefore : r.site.CoveredBy (replacedSpans before) →
      r.site.CoveredBy (replacedSpans (rulings read t)) := by
    rintro ⟨span, hspan, hcovers⟩
    exact ⟨span, hspans ▸ List.mem_append_left _ hspan, hcovers⟩
  cases hverdict : r.verdict with
  | replaced c =>
    have hself : r.site.span ∈ replacedSpans [r] := by
      simp [replacedSpans, Ruling.replacement?, hverdict]
    have hlt := start_lt_stop (mem_callSites_of_mem_rulings hr)
    have hcovered : r.site.CoveredBy (replacedSpans (rulings read t)) :=
      ⟨r.site.span, hspans ▸ List.mem_append_right _ (List.mem_append_left _ hself),
        Nat.le_refl _, hlt⟩
    simp [Ruling.rejection?, hverdict, hcovered]
  | covered =>
    have hcovered := hbefore (hdue.covered.mp hverdict)
    simp [Ruling.rejection?, hverdict, hcovered]
  | rejected p =>
    have hclear : ¬ r.site.CoveredBy (replacedSpans (rulings read t)) := by
      rintro ⟨span, hspan, hle, hlt⟩
      have hself : replacedSpans [r] = [] := by
        simp [replacedSpans, Ruling.replacement?, hverdict]
      rw [hspans, hself, List.nil_append] at hspan
      rcases List.mem_append.mp hspan with hspan | hspan
      · exact ((hdue.rejected p).mp hverdict).2 ⟨span, hspan, hle, hlt⟩
      · have := start_lt_of_mem_replacedSpans hsplit hspan
        omega
    simp [Ruling.rejection?, hverdict, hclear]

theorem rejection?_site {r : Ruling} {rejected : CallSite × Problem}
    (h : r.rejection? = some rejected) : rejected.1 = r.site := by
  unfold Ruling.rejection? at h
  split at h
  · rw [← Option.some.inj h]
  · cases h

theorem rejected_eq_filter :
    ((rulings read t).filterMap Ruling.rejection?).map Prod.fst
      = (callSites t).filter fun site => ¬ site.CoveredBy (replacedSpans (rulings read t)) := by
  have hone : ∀ r ∈ rulings read t, r.rejection?.map Prod.fst
      = Option.guard (fun site => ¬ site.CoveredBy (replacedSpans (rulings read t))) r.site := by
    intro r hr
    have hiff := rejection?_eq_none_iff hr
    cases hrejection : r.rejection? with
    | none => simp [Option.guard, hiff.mp hrejection]
    | some rejected =>
      have hclear : ¬ r.site.CoveredBy (replacedSpans (rulings read t)) := by
        rw [← hiff, hrejection]
        nofun
      simp [rejection?_site hrejection, hclear]
  calc
    ((rulings read t).filterMap Ruling.rejection?).map Prod.fst
      = (rulings read t).filterMap fun r => r.rejection?.map Prod.fst := List.map_filterMap
    _ = (rulings read t).filterMap fun r => Option.guard
          (fun site => ¬ site.CoveredBy (replacedSpans (rulings read t))) r.site :=
        List.filterMap_congr hone
    _ = ((rulings read t).map Ruling.site).filterMap (Option.guard
          fun site => ¬ site.CoveredBy (replacedSpans (rulings read t))) :=
        by rw [List.filterMap_map]; rfl
    _ = (callSites t).filter fun site => ¬ site.CoveredBy (replacedSpans (rulings read t)) := by
        rw [List.filterMap_eq_filter]
        exact congrArg _ (site_rulingsFrom 0 _)

/-! ### The edits of an expansion -/

theorem notation_of_mem_requestedColours {w : Text} {rs : List (Request Float)}
    {table : FloorCache} (hw : w ∈ requestedColours rs table) : Notation w := by
  induction rs generalizing table with
  | nil => cases hw
  | cons r rs ih =>
    rcases List.mem_cons.mp hw with rfl | hw
    · exact Color.notation_css _
    · exact ih hw

section

variable (reader : CallReader) (o : HostOptions) (t : Text) (table : FloorCache)

def expansionEdits : List Edit :=
  (edits (fun c => ColorM.css (c.request o)) noteAll (rulings (reader o) t) table).value.1

theorem span_expansionEdits :
    (expansionEdits reader o t table).map Edit.span = replacedSpans (rulings (reader o) t) :=
  (edits_eq o _ table).1

theorem notation_expansionEdits :
    ∀ e ∈ expansionEdits reader o t table, Notation e.replacement := by
  intro e he
  have hmem : e.replacement ∈ (expansionEdits reader o t table).map Edit.replacement :=
    List.mem_map_of_mem he
  rw [expansionEdits, (edits_eq o _ table).2] at hmem
  exact notation_of_mem_requestedColours hmem

theorem isCall_expansionEdits :
    ∀ e ∈ expansionEdits reader o t table, ∃ front call after, t = front ++ (call ++ after) ∧
      e.span = ⟨Text.byteSize front, Text.byteSize front + Text.byteSize call⟩ ∧
      IsCall call after := by
  intro e he
  have hmem : e.span ∈ (expansionEdits reader o t table).map Edit.span := List.mem_map_of_mem he
  rw [span_expansionEdits] at hmem
  exact exists_isCall_of_mem_replacedSpans hmem

theorem substituted_expansionEdits :
    Substituted 0 t (expansionEdits reader o t table) (expand reader o t table).value.1.text := by
  have horder : InOrder (Text.byteSize []) ((expansionEdits reader o t table).map Edit.span) := by
    rw [span_expansionEdits]
    exact inOrder_rulingsFrom 0 _
  refine substituted_applyEdits (fun e he => ?_) horder
  obtain ⟨front, call, after, ht, hspan, -⟩ := isCall_expansionEdits reader o t table e he
  exact ⟨front, call, after, ht, hspan⟩

theorem recoloured_expand :
    Recoloured 0 t (expansionEdits reader o t table) (expand reader o t table).value.1.text :=
  .of_substituted (substituted_expansionEdits reader o t table) Text.byteSize_nil
    (isCall_expansionEdits reader o t table) (notation_expansionEdits reader o t table)

theorem remains_rejected :
    List.Forall₂ (Remains t (expansionEdits reader o t table))
      (((rulings (reader o) t).filterMap Ruling.rejection?).map Prod.fst)
      (callSites (expand reader o t table).value.1.text) := by
  rw [rejected_eq_filter, ← span_expansionEdits reader o t table]
  exact (recoloured_expand reader o t table).remaining (.refl t _) rfl

end

/-- **What an expansion leaves is what it diagnoses.**  The calls of the expanded text are those
    diagnosed in the text given, in their order, and each begins where the edits have moved its
    beginning.  A call whose quotes the edits leave alone is moved as a whole. -/
theorem callSites_expand (reader : CallReader) (o : HostOptions) (t : Text) (table : FloorCache) :
    let rs := rulings (reader o) t
    let es := expansionEdits reader o t table
    let rejected := rs.filterMap Ruling.rejection?
    let expanded := (expand reader o t table).value.1
    es.map Edit.span = replacedSpans rs ∧ Substituted 0 t es expanded.text ∧
      expanded.diagnostics = (rejected.map fun (site, p) => .ofProblem t site.span p) ∧
      (callSites expanded.text).length = expanded.diagnostics.length ∧
      List.Forall₂ (fun site left => left.span.start = movedFrom 0 es site.span.start ∧
          left.arguments.start = movedFrom 0 es site.arguments.start ∧
          (site.Undisturbed t (replacedSpans rs) → left = site.move es))
        (rejected.map Prod.fst) (callSites expanded.text) := by
  intro rs es rejected expanded
  have hspans : es.map Edit.span = replacedSpans rs := span_expansionEdits reader o t table
  have hremains := remains_rejected reader o t table
  have hdiagnostics : expanded.diagnostics
      = rejected.map fun (site, p) => .ofProblem t site.span p := diagnostics_eq t rs
  refine ⟨hspans, substituted_expansionEdits reader o t table, hdiagnostics, ?_, ?_⟩
  · rw [hdiagnostics, ← hremains.length_eq, List.length_map, List.length_map]
  · refine hremains.imp fun site left h => ⟨h.start_eq, h.arguments_start_eq, ?_⟩
    intro hundisturbed
    exact h.eq_move (hspans ▸ hundisturbed)

theorem callSites_expand_quoted :
    let t : Text := "egal(\"egal(none none none)\") b".toList
    let site : CallSite := ⟨⟨0, 28⟩, ⟨5, 27⟩, true⟩
    site.Undisturbed t [⟨6, 26⟩] ∧
      callSites (expand standardReader default t .new).value.1.text
        = [site.move (expansionEdits standardReader default t .new)] := by
  intro t site
  have hrulings : replacedSpans (rulings (standardReader default) t) = [⟨6, 26⟩] ∧
      ((rulings (standardReader default) t).filterMap Ruling.rejection?).map Prod.fst
        = [site] := by
    decide +kernel
  have hundisturbed : site.Undisturbed t [⟨6, 26⟩] := by
    have hname : Text.byteSize "egal(".toList = 5 := by decide
    have hquote : Text.byteSize ['"'] = 1 := by decide
    have hcall : Text.byteSize "egal(none none none)".toList = 20 := by decide
    intro front rest ht hfront
    obtain ⟨rfl, rfl⟩ := Text.append_inj_of_byteSize_eq
      (s := "egal(".toList) (t := "\"egal(none none none)\") b".toList) ht (hname.trans hfront.symm)
    intro inner call after q depth hrest hspan hscan _
    obtain ⟨hstart, hstop⟩ := Span.mk.inj (List.mem_singleton.mp hspan)
    obtain ⟨rfl, hbehind⟩ := Text.append_inj_of_byteSize_eq
      (s := ['"']) (t := "egal(none none none)\") b".toList) hrest (by omega)
    obtain ⟨rfl, rfl⟩ := Text.append_inj_of_byteSize_eq
      (s := "egal(none none none)".toList) (t := "\") b".toList) hbehind (by omega)
    obtain ⟨rfl, rfl⟩ := Prod.mk.inj (Option.some.inj hscan)
    exact ⟨(.inside '"', 0), by decide, fun _ => rfl⟩
  refine ⟨hundisturbed, ?_⟩
  obtain ⟨-, -, -, -, hremains⟩ := callSites_expand standardReader default t .new
  rw [hrulings.1, hrulings.2] at hremains
  generalize callSites (expand standardReader default t .new).value.1.text = sites at hremains ⊢
  cases hremains with
  | cons hsite hnone =>
    cases hnone
    rw [hsite.2.2 hundisturbed]

/-- The quote in the options of the inner call closes the quotes around it, and the colour has
    no quote: the search for the end of the outer call then runs to the end of the text. -/
theorem callSites_expand_ne_move :
    let t : Text := "egal(\"egal(none none none '\x7b\"\x7d')') b".toList
    let rejected := (rulings (standardReader default) t).filterMap Ruling.rejection?
    callSites (expand standardReader default t .new).value.1.text
      ≠ (rejected.map Prod.fst).map (·.move (expansionEdits standardReader default t .new)) := by
  intro t rejected
  have hrulings : replacedSpans (rulings (standardReader default) t) = [⟨6, 32⟩] ∧
      rejected.map Prod.fst = [⟨⟨0, 34⟩, ⟨5, 33⟩, true⟩] := by
    decide +kernel
  have hspans := span_expansionEdits standardReader default t .new
  have hnotation := notation_expansionEdits standardReader default t .new
  rw [hrulings.1] at hspans
  obtain ⟨⟨span, colour⟩, hedits, hspan⟩ := List.map_eq_singleton_iff.mp hspans
  obtain rfl : span = ⟨6, 32⟩ := hspan
  rw [hedits] at hnotation
  have hcolour : Notation colour := hnotation _ List.mem_cons_self
  have htext : (expand standardReader default t .new).value.1.text
      = "egal(".toList ++ '"' :: (colour ++ "') b".toList) := by
    have happly : (expand standardReader default t .new).value.1.text
        = applyEdits t 0 (expansionEdits standardReader default t .new) := rfl
    have hfront : Text.slice t ⟨0, 6⟩ = "egal(".toList ++ ['"'] := by decide
    have hback : Text.dropBytes 32 t = "') b".toList := by decide
    rw [happly, hedits, applyEdits, applyEdits, hfront, hback]
    simp
  have hopen : closingParen? .outside 0 ('"' :: (colour ++ "') b".toList)) = none := by
    have hscan : scan .outside 0 ('"' :: (colour ++ "') b".toList))
        = scan (.inside '"') 0 (colour ++ "') b".toList) := rfl
    rw [closingParen?_eq_none_iff, hscan, scan_append, hcolour.scan_inside rfl]
    decide
  have hname : "egal(".toList.map Char.toLower = callStart := by decide
  have hsite := mem_callSites_iff.mpr
    ⟨[], _, rfl, startsCall_iff.mpr ⟨_, '"' :: (colour ++ "') b".toList), rfl, hname⟩, rfl, rfl⟩
  rw [htext, hrulings.2]
  intro h
  rw [List.nil_append, h, List.map_singleton, List.mem_singleton, CallSite.at_name hname, hopen]
    at hsite
  cases congrArg CallSite.terminated hsite

end EvenChroma.Css
