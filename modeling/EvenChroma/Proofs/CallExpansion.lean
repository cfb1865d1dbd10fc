/-
  EvenChroma/Proofs/CallExpansion.lean
  ====================================
  **Expansion edits exactly the calls that are accepted and not yet dealt with.**  Every
  call gets the verdict that its reading and the calls replaced before it demand
  (`Ruling.Due`), and the text that results is the one given with the replaced calls
  exchanged for their colours, and all the rest kept (`Substituted`).
-/
import EvenChroma.Css.Expansion
import EvenChroma.Proofs.CallSites

namespace EvenChroma.Css

variable {read : Text → Logged Log.Record (Except Problem CallArguments)} {t : Text}

/-! ### Verdicts -/

/-- The stretch that a ruling replaces, and the arguments read there. -/
def Ruling.replacement? (r : Ruling) : Option (Span × CallArguments) :=
  match r.verdict with
  | .replaced c => some (r.site.span, c)
  | _ => none

/-- The call that a ruling diagnoses, and what is wrong with it. -/
def Ruling.rejection? (r : Ruling) : Option (CallSite × Problem) :=
  match r.verdict with
  | .rejected p => some (r.site, p)
  | _ => none

def replacedSpans (rs : List Ruling) : List Span :=
  (rs.filterMap Ruling.replacement?).map Prod.fst

/-- The call begins inside one of the stretches. -/
def CallSite.CoveredBy (site : CallSite) (spans : List Span) : Prop :=
  ∃ s ∈ spans, s.start ≤ site.span.start ∧ site.span.start < s.stop

/-- The call begins at or after the end of each of the stretches. -/
def CallSite.ClearOf (site : CallSite) (spans : List Span) : Prop :=
  ∀ s ∈ spans, s.stop ≤ site.span.start

/-- The verdict on a call is the one that is due after the rulings `earlier`. -/
structure Ruling.Due (read : Text → Logged Log.Record (Except Problem CallArguments)) (t : Text)
    (earlier : List Ruling) (r : Ruling) : Prop where
  replaced : ∀ c, r.verdict = .replaced c ↔
    (read (r.site.text t)).value = .ok c ∧ r.site.ClearOf (replacedSpans earlier)
  covered : r.verdict = .covered ↔ r.site.CoveredBy (replacedSpans earlier)
  rejected : ∀ p, r.verdict = .rejected p ↔
    (read (r.site.text t)).value = .error p ∧ ¬ r.site.CoveredBy (replacedSpans earlier)

@[simp] theorem replacedSpans_append (rs rs' : List Ruling) :
    replacedSpans (rs ++ rs') = replacedSpans rs ++ replacedSpans rs' := by
  simp [replacedSpans]

@[simp] theorem replacedSpans_replaced (site : CallSite) (c : CallArguments)
    (log : List Log.Record) : replacedSpans [⟨site, .replaced c, log⟩] = [site.span] := rfl

@[simp] theorem replacedSpans_covered (site : CallSite) (log : List Log.Record) :
    replacedSpans [⟨site, .covered, log⟩] = [] := rfl

@[simp] theorem replacedSpans_rejected (site : CallSite) (p : Problem) (log : List Log.Record) :
    replacedSpans [⟨site, .rejected p, log⟩] = [] := rfl

/-- Where the rulings stand: all text before `done` is dealt with, because the last of the
    stretches replaced ends there, and the remaining calls begin behind the beginnings of
    all of them. -/
structure Frontier (spans : List Span) (done : Nat) (sites : List CallSite) : Prop where
  stop_le : ∀ s ∈ spans, s.stop ≤ done
  reached : 0 < done → ∃ s ∈ spans, s.stop = done
  begun : ∀ s ∈ spans, ∀ site ∈ sites, s.start ≤ site.span.start
  sorted : sites.Pairwise fun a b => a.span.start < b.span.start
  nonempty : ∀ site ∈ sites, site.span.start < site.span.stop

namespace Frontier

variable {spans : List Span} {done : Nat} {site : CallSite} {sites : List CallSite}

theorem initial (t : Text) : Frontier [] 0 (callSites t) where
  stop_le := by simp
  reached := by simp
  begun := by simp
  sorted := pairwise_callSites t
  nonempty := fun _ => start_lt_stop

theorem clearOf (h : Frontier spans done (site :: sites)) (hge : done ≤ site.span.start) :
    site.ClearOf spans :=
  fun s hs => Nat.le_trans (h.stop_le s hs) hge

theorem coveredBy (h : Frontier spans done (site :: sites)) (hlt : site.span.start < done) :
    site.CoveredBy spans := by
  obtain ⟨s, hs, hstop⟩ := h.reached (by omega)
  exact ⟨s, hs, h.begun s hs site (by simp), by omega⟩

theorem pass (h : Frontier spans done (site :: sites)) : Frontier spans done sites where
  stop_le := h.stop_le
  reached := h.reached
  begun := fun s hs later hlater => h.begun s hs later (List.mem_cons_of_mem _ hlater)
  sorted := h.sorted.of_cons
  nonempty := fun later hlater => h.nonempty later (List.mem_cons_of_mem _ hlater)

theorem replace (h : Frontier spans done (site :: sites)) (hge : done ≤ site.span.start) :
    Frontier (spans ++ [site.span]) site.span.stop sites where
  stop_le := by
    intro s hs
    have hsite := h.nonempty site (by simp)
    rcases List.mem_append.mp hs with hs | hs
    · have := h.stop_le s hs
      omega
    · obtain rfl := List.mem_singleton.mp hs
      exact Nat.le_refl _
  reached := fun _ => ⟨site.span, by simp, rfl⟩
  begun := by
    intro s hs later hlater
    rcases List.mem_append.mp hs with hs | hs
    · exact h.begun s hs later (List.mem_cons_of_mem _ hlater)
    · rw [List.mem_singleton.mp hs]
      exact Nat.le_of_lt (List.rel_of_pairwise_cons h.sorted hlater)
  sorted := h.sorted.of_cons
  nonempty := fun later hlater => h.nonempty later (List.mem_cons_of_mem _ hlater)

end Frontier

theorem CallSite.ClearOf.not_coveredBy {site : CallSite} {spans : List Span}
    (h : site.ClearOf spans) : ¬ site.CoveredBy spans := by
  rintro ⟨s, hs, -, hlt⟩
  have := h s hs
  omega

theorem due_replaced {earlier : List Ruling} {site : CallSite} {c : CallArguments}
    {log : List Log.Record} (hread : (read (site.text t)).value = .ok c)
    (hclear : site.ClearOf (replacedSpans earlier)) :
    Ruling.Due read t earlier ⟨site, .replaced c, log⟩ where
  replaced := by
    intro c'
    rw [hread]
    simp [hclear]
  covered := by simp [hclear.not_coveredBy]
  rejected := by simp [hread]

theorem due_covered {earlier : List Ruling} {site : CallSite} {log : List Log.Record}
    (hcovered : site.CoveredBy (replacedSpans earlier)) :
    Ruling.Due read t earlier ⟨site, .covered, log⟩ where
  replaced := by
    have hclear : ¬ site.ClearOf (replacedSpans earlier) := fun h => h.not_coveredBy hcovered
    simp [hclear]
  covered := by simp [hcovered]
  rejected := by simp [hcovered]

theorem due_rejected {earlier : List Ruling} {site : CallSite} {p : Problem}
    {log : List Log.Record} (hread : (read (site.text t)).value = .error p)
    (hclear : site.ClearOf (replacedSpans earlier)) :
    Ruling.Due read t earlier ⟨site, .rejected p, log⟩ where
  replaced := by simp [hread]
  covered := by simp [hclear.not_coveredBy]
  rejected := by simp [hread, hclear.not_coveredBy]

/-! ### Rulings -/

theorem site_rulingsFrom (done : Nat) (sites : List CallSite) :
    (rulingsFrom read t done sites).map Ruling.site = sites := by
  induction sites generalizing done with
  | nil => rfl
  | cons site sites ih =>
    unfold rulingsFrom
    split
    · rw [List.map_cons, ih]
    · dsimp only
      split
      · rw [List.map_cons, ih]
      · rw [List.map_cons, ih]

theorem rulingsFrom_due {done : Nat} {sites : List CallSite} {earlier before after : List Ruling}
    {r : Ruling} (hfrontier : Frontier (replacedSpans earlier) done sites)
    (h : rulingsFrom read t done sites = before ++ r :: after) :
    r.Due read t (earlier ++ before) := by
  induction sites generalizing done earlier before with
  | nil => simp [rulingsFrom] at h
  | cons site sites ih =>
    -- the first ruling is due, and the others are by induction
    have step : ∀ {first : Ruling} {done : Nat}, first.Due read t earlier →
        Frontier (replacedSpans (earlier ++ [first])) done sites →
        first :: rulingsFrom read t done sites = before ++ r :: after →
        r.Due read t (earlier ++ before) := by
      intro first done hfirst hlater h
      cases before with
      | nil =>
        obtain ⟨rfl, -⟩ := List.cons.inj h
        rwa [List.append_nil]
      | cons b before =>
        obtain ⟨rfl, hrest⟩ := List.cons.inj h
        have hdue := ih hlater hrest
        rwa [List.append_assoc] at hdue
    unfold rulingsFrom at h
    split at h
    · next hlt =>
      exact step (due_covered (hfrontier.coveredBy hlt))
        (by simpa using hfrontier.pass) h
    · next hlt =>
      have hge : done ≤ site.span.start := Nat.le_of_not_lt hlt
      have hclear := hfrontier.clearOf hge
      dsimp only at h
      split at h
      · next c hread =>
        exact step (due_replaced hread hclear)
          (by simpa using hfrontier.replace hge) h
      · next p hread =>
        exact step (due_rejected hread hclear)
          (by simpa using hfrontier.pass) h

/-- **Every call gets the verdict that is due.** -/
theorem rulings_due {before after : List Ruling} {r : Ruling}
    (h : rulings read t = before ++ r :: after) : r.Due read t before := by
  have hinitial : Frontier (replacedSpans []) 0 (callSites t) := Frontier.initial t
  exact rulingsFrom_due hinitial h

theorem replacedSpans_cons (r : Ruling) (rs : List Ruling) :
    replacedSpans (r :: rs) = replacedSpans [r] ++ replacedSpans rs :=
  replacedSpans_append [r] rs

/-- Stretches that begin at or after `start`, each at or after the end of the one before. -/
def InOrder : (start : Nat) → List Span → Prop
  | _, [] => True
  | start, s :: ss => start ≤ s.start ∧ InOrder s.stop ss

theorem inOrder_rulingsFrom (done : Nat) (sites : List CallSite) :
    InOrder done (replacedSpans (rulingsFrom read t done sites)) := by
  induction sites generalizing done with
  | nil => trivial
  | cons site sites ih =>
    unfold rulingsFrom
    split
    · rw [replacedSpans_cons]
      exact ih done
    · next hlt =>
      dsimp only
      split
      · rw [replacedSpans_cons]
        exact ⟨Nat.le_of_not_lt hlt, ih site.span.stop⟩
      · rw [replacedSpans_cons]
        exact ih done

theorem exists_replaced_of_mem_replacedSpans {s : Span} {rs : List Ruling}
    (hs : s ∈ replacedSpans rs) : ∃ r ∈ rs, r.site.span = s ∧ ∃ c, r.verdict = .replaced c := by
  obtain ⟨⟨s, c⟩, hmem, rfl⟩ := List.mem_map.mp hs
  obtain ⟨r, hr, hreplacement⟩ := List.mem_filterMap.mp hmem
  refine ⟨r, hr, ?_⟩
  unfold Ruling.replacement? at hreplacement
  split at hreplacement
  · next c hverdict => exact ⟨congrArg Prod.fst (Option.some.inj hreplacement), c, hverdict⟩
  · cases hreplacement

theorem exists_ruling_of_mem_replacedSpans {s : Span} {rs : List Ruling}
    (hs : s ∈ replacedSpans rs) : ∃ r ∈ rs, r.site.span = s := by
  obtain ⟨r, hr, hspan, -⟩ := exists_replaced_of_mem_replacedSpans hs
  exact ⟨r, hr, hspan⟩

theorem mem_callSites_of_mem_rulings {r : Ruling} (hr : r ∈ rulings read t) :
    r.site ∈ callSites t := by
  have hsites : (rulings read t).map Ruling.site = callSites t := site_rulingsFrom 0 _
  rw [← hsites]
  exact List.mem_map_of_mem hr

theorem exists_isCall_of_mem_replacedSpans {s : Span}
    (hs : s ∈ replacedSpans (rulings read t)) :
    ∃ before call after, t = before ++ (call ++ after) ∧
      s = ⟨Text.byteSize before, Text.byteSize before + Text.byteSize call⟩ ∧
      IsCall call after := by
  obtain ⟨r, hr, hspan⟩ := exists_ruling_of_mem_replacedSpans hs
  obtain ⟨before, u, rfl, hstarts, hat⟩ := mem_callSites (mem_callSites_of_mem_rulings hr)
  obtain ⟨call, after, rfl, hcall, hplace⟩ := exists_isCall hstarts (Text.byteSize before)
  rw [hat, hplace] at hspan
  exact ⟨before, call, after, rfl, hspan.symm, hcall⟩

theorem exists_piece_of_mem_replacedSpans {s : Span} (hs : s ∈ replacedSpans (rulings read t)) :
    ∃ before call after, t = before ++ (call ++ after) ∧
      s = ⟨Text.byteSize before, Text.byteSize before + Text.byteSize call⟩ := by
  obtain ⟨before, call, after, ht, hs, -⟩ := exists_isCall_of_mem_replacedSpans hs
  exact ⟨before, call, after, ht, hs⟩

/-! ### Edits -/

/-- The second text is the first, which begins at byte `start`, with the stretches of the
    edits exchanged for their replacements and everything else kept. -/
inductive Substituted : (start : Nat) → Text → List Edit → Text → Prop where
  | rest (start : Nat) (t : Text) : Substituted start t [] t
  | edit (start : Nat) (kept old new : Text) {t result : Text} {es : List Edit} :
    Substituted (start + Text.byteSize kept + Text.byteSize old) t es result →
    Substituted start (kept ++ (old ++ t))
      (⟨⟨start + Text.byteSize kept, start + Text.byteSize kept + Text.byteSize old⟩, new⟩ :: es)
      (kept ++ (new ++ result))

theorem substituted_applyEdits {before rest : Text} {es : List Edit}
    (hpieces : ∀ e ∈ es, ∃ front old after, before ++ rest = front ++ (old ++ after) ∧
      e.span = ⟨Text.byteSize front, Text.byteSize front + Text.byteSize old⟩)
    (horder : InOrder (Text.byteSize before) (es.map Edit.span)) :
    Substituted (Text.byteSize before) rest es
      (applyEdits (before ++ rest) (Text.byteSize before) es) := by
  induction es generalizing before rest with
  | nil =>
    rw [applyEdits, Text.dropBytes_append]
    exact Substituted.rest _ _
  | cons e es ih =>
    obtain ⟨front, old, after, htext, hspan⟩ := hpieces e (by simp)
    obtain ⟨span, new⟩ := e
    obtain rfl : span = _ := hspan
    obtain ⟨hle, horder⟩ := horder
    have hprefix : before <+: front :=
      Text.isPrefix_of_byteSize_le ⟨rest, rfl⟩ ⟨old ++ after, htext.symm⟩ hle
    obtain ⟨kept, rfl⟩ := hprefix
    obtain rfl : rest = kept ++ (old ++ after) := by simpa using htext
    -- what comes after the first edit is behind `before`, `kept` and `old`
    have hsize : Text.byteSize (before ++ kept) + Text.byteSize old
        = Text.byteSize (before ++ kept ++ old) := (Text.byteSize_append _ _).symm
    have hassoc : before ++ (kept ++ (old ++ after)) = before ++ kept ++ old ++ after := by simp
    have hlater : Substituted (Text.byteSize (before ++ kept ++ old)) after es
        (applyEdits (before ++ kept ++ old ++ after) (Text.byteSize (before ++ kept ++ old))
          es) := by
      refine ih (fun e he => ?_) (by rwa [← hsize])
      rw [← hassoc]
      exact hpieces e (List.mem_cons_of_mem _ he)
    rw [applyEdits]
    dsimp only
    rw [hsize, Text.byteSize_append before kept, Text.slice_append, hassoc, List.append_assoc]
    simp only [Text.byteSize_append] at hlater
    have hedit := Substituted.edit (Text.byteSize before) kept old new hlater
    simpa [Nat.add_assoc] using hedit

/-! ### Expansion -/

/-- The colours of requests, computed one after the other on one table of floors. -/
def requestedColours : List (Request Float) → FloorCache → List Text
  | [], _ => []
  | r :: rs, table =>
    let result := (ColorM.css r table).value
    result.1 :: requestedColours rs result.2

/-- The colours of calls.  A call asks for its three arguments, with its own options over those
    of the host. -/
def colours (o : HostOptions) (cs : List CallArguments) (table : FloorCache) : List Text :=
  requestedColours (cs.map fun c => ⟨c.lightness, c.chroma, c.hue, (c.layer o.base).resolve⟩) table

theorem edits_eq (o : HostOptions) (rs : List Ruling) (table : FloorCache) :
    let es := (edits (fun c => ColorM.css (c.request o)) noteAll rs table).value.1
    es.map Edit.span = replacedSpans rs ∧
      es.map Edit.replacement
        = colours o ((rs.filterMap Ruling.replacement?).map Prod.snd) table := by
  induction rs generalizing table with
  | nil => exact ⟨rfl, rfl⟩
  | cons r rs ih =>
    obtain ⟨site, verdict, log⟩ := r
    cases verdict with
    | replaced c =>
      obtain ⟨hspans, hcolours⟩ := ih (ColorM.css (c.request o) table).value.2
      exact ⟨congrArg (site.span :: ·) hspans, congrArg (_ :: ·) hcolours⟩
    | covered => exact ih table
    | rejected p => exact ih table

theorem diagnostics_eq (t : Text) (rs : List Ruling) :
    diagnostics t rs = (rs.filterMap Ruling.rejection?).map fun (site, p) =>
      Diagnostic.ofProblem t site.span p := by
  rw [diagnostics, List.map_filterMap]
  congr 1
  funext r
  obtain ⟨site, verdict, log⟩ := r
  cases verdict with
  | replaced c => rfl
  | covered => rfl
  | rejected p => rfl

/-- **A text is expanded by exchanging the calls that are replaced, and nothing else.**  Each is
    exchanged for the colour of its three arguments, under its own options over those of the
    host. -/
theorem expand_substitutes_replaced (reader : CallReader) (o : HostOptions) (t : Text)
    (table : FloorCache) :
    let rs := rulings (reader o) t
    let replaced := rs.filterMap Ruling.replacement?
    let requests : List (Request Float) := replaced.map fun (_, c) =>
      ⟨c.lightness, c.chroma, c.hue, (c.layer o.base).resolve⟩
    let expanded := (expand reader o t table).value.1
    rs.map Ruling.site = callSites t ∧
      (∀ before r after, rs = before ++ r :: after → r.Due (reader o) t before) ∧
      (∃ es : List Edit, es.map Edit.span = replaced.map Prod.fst ∧
        es.map Edit.replacement = requestedColours requests table ∧
        Substituted 0 t es expanded.text) ∧
      expanded.diagnostics = (rs.filterMap Ruling.rejection?).map fun (site, p) =>
        Diagnostic.ofProblem t site.span p := by
  intro rs replaced requests expanded
  obtain ⟨hspans, hcolours⟩ := edits_eq o rs table
  rw [colours, List.map_map] at hcolours
  refine ⟨site_rulingsFrom 0 _, fun _ _ _ h => rulings_due h, ⟨_, hspans, hcolours, ?_⟩, ?_⟩
  · have horder : InOrder (Text.byteSize []) (replacedSpans rs) := inOrder_rulingsFrom 0 _
    rw [← hspans] at horder
    refine substituted_applyEdits (fun e he => ?_) horder
    have hmem : e.span ∈ replacedSpans rs := hspans ▸ List.mem_map_of_mem he
    exact exists_piece_of_mem_replacedSpans hmem
  · exact diagnostics_eq t rs

end EvenChroma.Css
