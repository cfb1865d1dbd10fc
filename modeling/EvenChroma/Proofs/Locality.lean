/-
  EvenChroma/Proofs/Locality.lean
  ===============================
  **Expansion is local.**  A semicolon is part of no name, so the texts on both sides of it
  have their own calls, unless one on the left is still open there.  Each side is ruled
  on, edited and diagnosed as it would be on its own, whatever the calls of the other
  are; what is found on the right only stands further back.
-/
import EvenChroma.Proofs.CallExpansion

namespace EvenChroma

namespace Css

/-! ### Calls on both sides -/

theorem startsCall_append_semicolon (s t : Text) :
    startsCall (s ++ ';' :: t) = startsCall s := by
  rw [Bool.eq_iff_iff]
  constructor
  · intro h
    obtain ⟨name, rest, hsplit, hname⟩ := startsCall_iff.mp h
    rcases List.append_eq_append_iff.mp hsplit with ⟨v, rfl, hv⟩ | ⟨v, rfl, -⟩
    · cases v with
      | nil => exact startsCall_iff.mpr ⟨s ++ [], [], by simp, hname⟩
      | cons c v =>
        -- the name would contain the semicolon
        obtain ⟨rfl, -⟩ := List.cons.inj hv
        have hmem : Char.toLower ';' ∈ callStart := hname ▸ List.mem_map_of_mem (by simp)
        exact absurd hmem (by decide)
    · exact startsCall_iff.mpr ⟨name, v, rfl, hname⟩
  · intro h
    exact startsCall_append h _

theorem CallSite.at_append {start : Nat} {s : Text} (hstarts : startsCall s = true)
    (hclosed : (CallSite.at start s).terminated = true) (t : Text) :
    CallSite.at start (s ++ t) = .at start s := by
  obtain ⟨name, rest, rfl, hlength, -⟩ := startsCall_split hstarts
  have hdrop : ∀ u, (name ++ u).drop callStart.length = u := by
    intro u
    rw [← hlength, List.drop_left]
  rw [CallSite.at, hdrop] at hclosed
  rw [CallSite.at, CallSite.at, List.append_assoc, hdrop, hdrop]
  cases hclose : closingParen? .outside 0 rest with
  | none =>
    rw [hclose] at hclosed
    cases hclosed
  | some n => rw [closingParen?_append_of_eq_some hclose]

theorem callSitesFrom_shift (before : Option Char) (start distance : Nat) (t : Text) :
    callSitesFrom before (distance + start) t
      = (callSitesFrom before start t).map (·.shift distance) := by
  induction t generalizing before start with
  | nil => rfl
  | cons c t ih =>
    rw [callSitesFrom, callSitesFrom, Nat.add_assoc, ih]
    split
    · rw [List.map_cons, CallSite.shift_at]
    · rfl

theorem callSitesFrom_of_not_joinsName {c : Char} (h : joinsName c = false) (start : Nat)
    (t : Text) : callSitesFrom (some c) start t = callSitesFrom none start t := by
  cases t with
  | nil => rfl
  | cons d t => simp [callSitesFrom, h]

theorem callSitesFrom_append_semicolon {before : Option Char} {start : Nat} {s : Text}
    (h : ∀ site ∈ callSitesFrom before start s, site.terminated = true) (t : Text) :
    callSitesFrom before start (s ++ ';' :: t)
      = callSitesFrom before start s ++ callSitesFrom none (start + Text.byteSize s + 1) t := by
  induction s generalizing before start with
  | nil =>
    have hsemicolon : startsCall (';' :: t) = false := startsCall_append_semicolon [] t
    simp only [List.nil_append, callSitesFrom, hsemicolon, Bool.false_and, Bool.false_eq_true,
      if_false]
    exact callSitesFrom_of_not_joinsName (by decide) _ t
  | cons c s ih =>
    have hstarts : startsCall (c :: (s ++ ';' :: t)) = startsCall (c :: s) :=
      startsCall_append_semicolon (c :: s) t
    rw [List.cons_append, callSitesFrom, hstarts, callSitesFrom]
    rw [callSitesFrom] at h
    split
    · next hhere =>
      rw [if_pos hhere] at h
      obtain ⟨hclosed, hlater⟩ := List.forall_mem_cons.mp h
      rw [Bool.and_eq_true] at hhere
      have hat : CallSite.at start (c :: (s ++ ';' :: t)) = .at start (c :: s) :=
        CallSite.at_append hhere.1 hclosed _
      rw [ih hlater, hat, Text.byteSize_cons, ← Nat.add_assoc, List.cons_append]
    · next hhere =>
      rw [if_neg hhere] at h
      rw [ih h, Text.byteSize_cons, ← Nat.add_assoc]

/-- The calls behind the semicolon are those of the text there, and no call in front of it
    that is closed there becomes another. -/
theorem callSites_append_semicolon {s : Text}
    (h : ∀ site ∈ callSites s, site.terminated = true) (t : Text) :
    callSites (s ++ ';' :: t)
      = callSites s ++ (callSites t).map (·.shift (Text.byteSize (s ++ [';']))) := by
  have hsize : Text.byteSize (s ++ [';']) = Text.byteSize s + 1 := Text.byteSize_append s [';']
  rw [callSites, callSitesFrom_append_semicolon h, hsize, Nat.zero_add]
  congr 1
  exact callSitesFrom_shift none 0 _ t

/-! ### Rulings on both sides -/

@[simp] theorem CallSite.span_shift (site : CallSite) (distance : Nat) :
    (site.shift distance).span = site.span.shift distance := rfl

def Ruling.shift (r : Ruling) (distance : Nat) : Ruling :=
  { r with site := r.site.shift distance }

@[simp] theorem Ruling.shift_mk (site : CallSite) (verdict : Verdict) (log : List Log.Record)
    (distance : Nat) :
    (Ruling.mk site verdict log).shift distance = ⟨site.shift distance, verdict, log⟩ := rfl

variable {read : Text → Logged Log.Record (Except Problem CallArguments)}

theorem CallSite.text_append {s : Text} {site : CallSite} (h : site ∈ callSites s) (t : Text) :
    site.text (s ++ t) = site.text s := by
  obtain ⟨before, call, after, rfl, hspan, -⟩ := exists_standsIn h
  rw [CallSite.text, CallSite.text, hspan, Text.slice_append, List.append_assoc,
    List.append_assoc, Text.slice_append]

theorem CallSite.text_shift (site : CallSite) (s t : Text) :
    (site.shift (Text.byteSize s)).text (s ++ t) = site.text t :=
  Text.slice_shift s t site.span

theorem CallSite.stop_le_byteSize {s : Text} {site : CallSite} (h : site ∈ callSites s) :
    site.span.stop ≤ Text.byteSize s := by
  obtain ⟨before, call, after, rfl, hspan, -⟩ := exists_standsIn h
  rw [hspan, Text.byteSize_append, Text.byteSize_append]
  dsimp only
  omega

theorem rulingsFrom_congr {s t : Text} {sites : List CallSite}
    (h : ∀ site ∈ sites, site.text s = site.text t) (done : Nat) :
    rulingsFrom read s done sites = rulingsFrom read t done sites := by
  induction sites generalizing done with
  | nil => rfl
  | cons site sites ih =>
    obtain ⟨hsite, hsites⟩ := List.forall_mem_cons.mp h
    simp only [rulingsFrom, hsite, ih hsites]

theorem rulingsFrom_shift (read : Text → Logged Log.Record (Except Problem CallArguments))
    (s t : Text) (done : Nat) (sites : List CallSite) :
    rulingsFrom read (s ++ t) (done + Text.byteSize s)
        (sites.map (·.shift (Text.byteSize s)))
      = (rulingsFrom read t done sites).map (·.shift (Text.byteSize s)) := by
  induction sites generalizing done with
  | nil => rfl
  | cons site sites ih =>
    have hcovered : (site.shift (Text.byteSize s)).span.start < done + Text.byteSize s
        ↔ site.span.start < done := Nat.add_lt_add_iff_right
    simp only [List.map_cons, rulingsFrom, hcovered, CallSite.text_shift, ih]
    split
    · rfl
    · split
      · rw [List.map_cons, ← ih]
        rfl
      · rfl

/-- Where the rulings stand makes no difference to calls that begin behind it. -/
theorem rulingsFrom_eq_of_le {t : Text} {done done' : Nat} {sites : List CallSite}
    (h : ∀ site ∈ sites, done ≤ site.span.start) (h' : ∀ site ∈ sites, done' ≤ site.span.start) :
    rulingsFrom read t done sites = rulingsFrom read t done' sites := by
  induction sites with
  | nil => rfl
  | cons site sites ih =>
    obtain ⟨hsite, hsites⟩ := List.forall_mem_cons.mp h
    obtain ⟨hsite', hsites'⟩ := List.forall_mem_cons.mp h'
    rw [rulingsFrom, rulingsFrom, if_neg (Nat.not_lt.mpr hsite), if_neg (Nat.not_lt.mpr hsite'),
      ih hsites hsites']

theorem rulingsFrom_append {t : Text} {stop done : Nat} {sites later : List CallSite}
    (hdone : done ≤ stop) (hsites : ∀ site ∈ sites, site.span.stop ≤ stop)
    (hlater : ∀ site ∈ later, stop ≤ site.span.start) :
    rulingsFrom read t done (sites ++ later)
      = rulingsFrom read t done sites ++ rulingsFrom read t stop later := by
  induction sites generalizing done with
  | nil =>
    have hbehind : ∀ site ∈ later, done ≤ site.span.start :=
      fun site hsite => Nat.le_trans hdone (hlater site hsite)
    exact rulingsFrom_eq_of_le hbehind hlater
  | cons site sites ih =>
    obtain ⟨hsite, hsites⟩ := List.forall_mem_cons.mp hsites
    rw [List.cons_append, rulingsFrom, rulingsFrom]
    split
    · rw [ih hdone hsites, List.cons_append]
    · dsimp only
      split
      · rw [ih hsite hsites, List.cons_append]
      · rw [ih hdone hsites, List.cons_append]

theorem rulings_append_semicolon {s : Text}
    (h : ∀ site ∈ callSites s, site.terminated = true) (t : Text) :
    rulings read (s ++ ';' :: t)
      = rulings read s ++ (rulings read t).map (·.shift (Text.byteSize (s ++ [';']))) := by
  have hsplit : s ++ ';' :: t = (s ++ [';']) ++ t := by simp
  have hsites : ∀ site ∈ callSites s, site.span.stop ≤ Text.byteSize (s ++ [';']) := by
    intro site hsite
    rw [Text.byteSize_append]
    exact Nat.le_trans (CallSite.stop_le_byteSize hsite) (Nat.le_add_right _ _)
  have hlater : ∀ site ∈ (callSites t).map (·.shift (Text.byteSize (s ++ [';']))),
      Text.byteSize (s ++ [';']) ≤ site.span.start := by
    intro site hsite
    obtain ⟨inner, -, rfl⟩ := List.mem_map.mp hsite
    exact Nat.le_add_left _ _
  have hright := rulingsFrom_shift read (s ++ [';']) t 0 (callSites t)
  rw [Nat.zero_add, ← hsplit] at hright
  rw [rulings, callSites_append_semicolon h, rulingsFrom_append (Nat.zero_le _) hsites hlater,
    hright, rulingsFrom_congr fun site hsite => CallSite.text_append hsite _]
  rfl

/-! ### Diagnostics on both sides -/

theorem Diagnostic.shift_shift (d : Diagnostic) (m n : Nat) :
    (d.shift m).shift n = d.shift (n + m) := by
  simp only [Diagnostic.shift, Diagnostic.mk.injEq, true_and]
  omega

theorem Diagnostic.ofProblem_append {s : Text} {site : Span} (h : site.stop ≤ Text.byteSize s)
    (t : Text) (p : Problem) : ofProblem (s ++ t) site p = ofProblem s site p := by
  have hstart : min (site.start + p.span.start) site.stop ≤ Text.byteSize s := by omega
  have hstop : max (min (site.start + p.span.start) site.stop)
      (min (site.start + p.span.stop) site.stop) ≤ Text.byteSize s := by omega
  simp only [ofProblem, Text.charOffset_append_of_le hstart, Text.charOffset_append_of_le hstop]

theorem Diagnostic.ofProblem_shift (s t : Text) (site : Span) (p : Problem) :
    ofProblem (s ++ t) (site.shift (Text.byteSize s)) p = (ofProblem t site p).shift s.length := by
  have hstart : min (site.start + Text.byteSize s + p.span.start) (site.stop + Text.byteSize s)
      = min (site.start + p.span.start) site.stop + Text.byteSize s := by omega
  have hstop : min (site.start + Text.byteSize s + p.span.stop) (site.stop + Text.byteSize s)
      = min (site.start + p.span.stop) site.stop + Text.byteSize s := by omega
  simp only [ofProblem, Span.shift, shift, hstart, hstop, Nat.add_max_add_right,
    Text.charOffset_append_add]

theorem diagnostics_append (t : Text) (rs rs' : List Ruling) :
    diagnostics t (rs ++ rs') = diagnostics t rs ++ diagnostics t rs' := List.filterMap_append

theorem diagnostics_in_front {s : Text} {rs : List Ruling}
    (h : ∀ r ∈ rs, r.site.span.stop ≤ Text.byteSize s) (t : Text) :
    diagnostics (s ++ t) rs = diagnostics s rs := by
  induction rs with
  | nil => rfl
  | cons r rs ih =>
    obtain ⟨hr, hrs⟩ := List.forall_mem_cons.mp h
    obtain ⟨site, verdict, log⟩ := r
    cases verdict with
    | replaced c => exact ih hrs
    | covered => exact ih hrs
    | rejected p => exact List.cons_eq_cons.mpr ⟨Diagnostic.ofProblem_append hr t p, ih hrs⟩

theorem diagnostics_shift (s t : Text) (rs : List Ruling) :
    diagnostics (s ++ t) (rs.map (·.shift (Text.byteSize s)))
      = (diagnostics t rs).map (·.shift s.length) := by
  rw [diagnostics, diagnostics, List.filterMap_map, List.map_filterMap]
  congr 1
  funext r
  obtain ⟨site, verdict, log⟩ := r
  cases verdict with
  | replaced c => rfl
  | covered => rfl
  | rejected p => exact congrArg some (Diagnostic.ofProblem_shift s t site.span p)

/-! ### Edits on both sides -/

def Edit.shift (e : Edit) (distance : Nat) : Edit := { e with span := e.span.shift distance }

@[simp] theorem Edit.shift_mk (span : Span) (replacement : Text) (distance : Nat) :
    (Edit.mk span replacement).shift distance = ⟨span.shift distance, replacement⟩ := rfl

namespace Substituted

variable {start : Nat} {t r : Text} {es : List Edit}

theorem append_left (kept : Text) (h : Substituted (start + Text.byteSize kept) t es r) :
    Substituted start (kept ++ t) es (kept ++ r) := by
  generalize hstart : start + Text.byteSize kept = start' at h
  cases h with
  | rest => exact rest start (kept ++ t)
  | edit _ kept' old new hlater =>
    subst hstart
    have hsize : start + Text.byteSize kept + Text.byteSize kept'
        = start + Text.byteSize (kept ++ kept') := by
      rw [Text.byteSize_append, Nat.add_assoc]
    rw [hsize] at hlater ⊢
    rw [← List.append_assoc, ← List.append_assoc kept]
    exact edit start (kept ++ kept') old new hlater

theorem append {u r' : Text} {es' : List Edit} (h : Substituted start t es r)
    (h' : Substituted (start + Text.byteSize t) u es' r') :
    Substituted start (t ++ u) (es ++ es') (r ++ r') := by
  induction h with
  | rest start t => exact append_left t h'
  | @edit start kept old new t result es hlater ih =>
    have hsize : start + Text.byteSize (kept ++ (old ++ t))
        = start + Text.byteSize kept + Text.byteSize old + Text.byteSize t := by
      simp only [Text.byteSize_append, Nat.add_assoc]
    rw [hsize] at h'
    simp only [List.append_assoc]
    exact edit start kept old new (ih h')

theorem shift (h : Substituted start t es r) (distance : Nat) :
    Substituted (start + distance) t (es.map (·.shift distance)) r := by
  induction h with
  | rest start t => exact rest _ t
  | @edit start kept old new t result es hlater ih =>
    have hstop : start + Text.byteSize kept + Text.byteSize old + distance
        = start + distance + Text.byteSize kept + Text.byteSize old := by omega
    have hstart : start + Text.byteSize kept + distance
        = start + distance + Text.byteSize kept := by omega
    rw [hstop] at ih
    rw [List.map_cons, Edit.shift_mk, Span.shift, hstop, hstart]
    exact edit _ kept old new ih

/-- The edits determine the text that results. -/
theorem applyEdits_eq (before : Text) (h : Substituted (Text.byteSize before) t es r) :
    applyEdits (before ++ t) (Text.byteSize before) es = r := by
  generalize hstart : Text.byteSize before = start at h
  induction h generalizing before with
  | rest start t =>
    subst hstart
    rw [applyEdits, Text.dropBytes_append]
  | @edit start kept old new t result es hlater ih =>
    subst hstart
    have hsize : Text.byteSize (before ++ kept ++ old)
        = Text.byteSize before + Text.byteSize kept + Text.byteSize old := by
      simp only [Text.byteSize_append]
    have hassoc : before ++ (kept ++ (old ++ t)) = before ++ kept ++ old ++ t := by simp
    have hlater := ih _ hsize
    rw [applyEdits, Text.slice_append]
    dsimp only
    rw [hassoc, hlater, List.append_assoc]

end Substituted

theorem substituted_of_span_eq {t : Text} {es : List Edit}
    (h : es.map Edit.span = replacedSpans (rulings read t)) :
    Substituted 0 t es (applyEdits t 0 es) := by
  have horder : InOrder (Text.byteSize []) (replacedSpans (rulings read t)) :=
    inOrder_rulingsFrom 0 _
  rw [← h] at horder
  refine substituted_applyEdits (fun e he => ?_) horder
  have hmem : e.span ∈ replacedSpans (rulings read t) := h ▸ List.mem_map_of_mem he
  exact exists_piece_of_mem_replacedSpans hmem

theorem applyEdits_append_semicolon {s t : Text} {es es' : List Edit}
    (hs : Substituted 0 s es (applyEdits s 0 es)) (ht : Substituted 0 t es' (applyEdits t 0 es')) :
    applyEdits (s ++ ';' :: t) 0 (es ++ es'.map (·.shift (Text.byteSize (s ++ [';']))))
      = applyEdits s 0 es ++ ';' :: applyEdits t 0 es' := by
  have hstart : Text.byteSize (s ++ [';']) = Text.byteSize s + Text.byteSize [';'] :=
    Text.byteSize_append s [';']
  have hright := ht.shift (Text.byteSize (s ++ [';']))
  rw [Nat.zero_add, hstart] at hright
  rw [hstart]
  have hjoined := hs.append (u := ';' :: t) (Substituted.append_left [';'] (by rwa [Nat.zero_add]))
  exact Substituted.applyEdits_eq [] hjoined

/-! ### Computing the colours -/

section Computation

variable {m : Type → Type} [Monad m] [LawfulMonad m] (render : CallArguments → m Text)
  (note : List Log.Record → m Unit)

theorem edits_append (rs rs' : List Ruling) :
    edits render note (rs ++ rs') = (do
      let es ← edits render note rs
      let es' ← edits render note rs'
      pure (es ++ es')) := by
  induction rs with
  | nil => simp [edits]
  | cons r rs ih =>
    obtain ⟨site, verdict, log⟩ := r
    cases verdict with
    | replaced c => simp [edits, ih]
    | covered => simp [edits, ih]
    | rejected p => simp [edits, ih]

theorem edits_shift (distance : Nat) (rs : List Ruling) :
    edits render note (rs.map (·.shift distance)) = (do
      let es ← edits render note rs
      pure (es.map (·.shift distance))) := by
  induction rs with
  | nil => simp [edits]
  | cons r rs ih =>
    obtain ⟨site, verdict, log⟩ := r
    cases verdict with
    | replaced c => simp [edits, ih]
    | covered => simp [edits, ih]
    | rejected p => simp [edits, ih]

/-- Whatever the colours are, the edits are those of the calls that are replaced. -/
theorem edits_bind_congr {β : Type} {rs : List Ruling} {f g : List Edit → m β}
    (h : ∀ es, es.map Edit.span = replacedSpans rs → f es = g es) :
    edits render note rs >>= f = edits render note rs >>= g := by
  induction rs generalizing f g with
  | nil =>
    rw [edits, pure_bind, pure_bind]
    exact h [] rfl
  | cons r rs ih =>
    obtain ⟨site, verdict, log⟩ := r
    cases verdict with
    | replaced c =>
      simp only [edits, bind_assoc, pure_bind]
      congr 1
      funext _
      congr 1
      funext colour
      apply ih
      intro es hes
      exact h _ (congrArg (site.span :: ·) hes)
    | covered =>
      simp only [edits, bind_assoc]
      congr 1
      funext _
      exact ih h
    | rejected p =>
      simp only [edits, bind_assoc]
      congr 1
      funext _
      exact ih h

/-- **A text is expanded in front of a semicolon and behind it as if each side were all
    there is.** -/
theorem expandWith_append_semicolon
    (read : Text → Logged Log.Record (Except Problem CallArguments)) {s : Text}
    (hs : ∀ site ∈ callSites s, site.terminated = true) (t : Text) :
    expandWith render note read (s ++ ';' :: t) = (do
      let left ← expandWith render note read s
      let right ← expandWith render note read t
      pure ⟨left.text ++ ';' :: right.text,
        left.diagnostics ++ right.diagnostics.map (·.shift (s.length + 1))⟩) := by
  have hsplit : s ++ ';' :: t = (s ++ [';']) ++ t := by simp
  have hleft : ∀ r ∈ rulings read s, r.site.span.stop ≤ Text.byteSize s :=
    fun r hr => CallSite.stop_le_byteSize (mem_callSites_of_mem_rulings hr)
  have hright := diagnostics_shift (s ++ [';']) t (rulings read t)
  rw [← hsplit, List.length_append] at hright
  have hdiagnostics : diagnostics (s ++ ';' :: t) (rulings read (s ++ ';' :: t))
      = diagnostics s (rulings read s)
        ++ (diagnostics t (rulings read t)).map (·.shift (s.length + 1)) := by
    rw [rulings_append_semicolon hs, diagnostics_append, diagnostics_in_front hleft, hright]
    rfl
  rw [rulings_append_semicolon hs] at hdiagnostics
  simp only [expandWith, rulings_append_semicolon hs, hdiagnostics, edits_append, edits_shift,
    bind_assoc, pure_bind]
  refine edits_bind_congr render note fun es hes => ?_
  refine edits_bind_congr render note fun es' hes' => ?_
  rw [applyEdits_append_semicolon (substituted_of_span_eq hes) (substituted_of_span_eq hes')]

end Computation

/-- In front of the semicolon a call that cannot be read stands around one that can, and both
    begin inside quotes that are not closed there. -/
theorem expandWith_append_semicolon_quoted :
    let s : Text := "é 'egal(egal(none none none) x)".toList
    let t : Text := "egal(none none none)".toList
    let render : CallArguments → Id Text := fun _ => "red".toList
    let expandPure : Text → Id Expanded :=
      expandWith render (fun _ => pure ()) (standardReader default)
    (∀ site ∈ callSites s, site.terminated = true) ∧
      expandPure (s ++ ';' :: t) = (do
        let left ← expandPure s
        let right ← expandPure t
        pure ⟨left.text ++ ';' :: right.text,
          left.diagnostics ++ right.diagnostics.map (·.shift (s.length + 1))⟩) := by
  intro s t render expandPure
  have hclosed : ∀ site ∈ callSites s, site.terminated = true := by decide
  exact ⟨hclosed, expandWith_append_semicolon render _ _ hclosed t⟩

end Css

end EvenChroma
