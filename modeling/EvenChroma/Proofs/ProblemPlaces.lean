/-
  EvenChroma/Proofs/ProblemPlaces.lean
  ====================================
  **Diagnostics point at the right characters.**  Every problem of a call concerns the whole
  call or a run of its tokens, and so a piece of the call that is not empty; counted in
  characters of the whole text, the diagnostic shows exactly this piece.  Whatever a reader
  of calls reports, its diagnostics stay inside the call.
-/
import EvenChroma.Proofs.CallExpansion
import EvenChroma.Proofs.StrictReading
import EvenChroma.Proofs.TokenPlaces
import Mathlib.Data.List.Forall2

namespace EvenChroma.Css

/-! ### Runs of tokens -/

/-- From the beginning of one of the tokens to the end of this one or a later one. -/
def Covers (ts : List Token) (span : Span) : Prop :=
  ∃ pre run post first last, ts = pre ++ (run ++ post) ∧ run.head? = some first ∧
    run.getLast? = some last ∧ span = ⟨first.span.start, last.span.stop⟩

section

variable {ts : List Token} {t : Token} {span : Span} {p : Problem}

theorem Covers.cons (h : Covers ts span) (t : Token) : Covers (t :: ts) span := by
  obtain ⟨pre, run, post, first, last, rfl, hspan⟩ := h
  exact ⟨t :: pre, run, post, first, last, rfl, hspan⟩

theorem covers_of_mem (ht : t ∈ ts) : Covers ts t.span := by
  obtain ⟨pre, post, rfl⟩ := List.append_of_mem ht
  exact ⟨pre, [t], post, t, t, rfl, rfl, rfl, rfl⟩

theorem covers_nonePercentFrom? {position : Position} (h : nonePercentFrom? position ts = some p) :
    Covers ts p.span := by
  induction ts generalizing position with
  | nil => cases h
  | cons t ts ih =>
    cases ts with
    | nil => cases h
    | cons u us =>
      rw [nonePercentFrom?] at h
      split_ifs at h
      · obtain rfl := Option.some.inj h
        exact ⟨[], [t, u], us, t, u, rfl, rfl, rfl, rfl⟩
      · exact (ih h).cons t

theorem covers_detachedPercent? (h : detachedPercent? ts = some p) : Covers ts p.span := by
  fun_induction detachedPercent? ts with
  | case1 x n b q ts =>
    obtain rfl := Option.some.inj h
    exact ⟨[], [⟨.number x, n⟩, ⟨.blank, b⟩, ⟨.percent, q⟩], ts, _, _, rfl, rfl, rfl, rfl⟩
  | case2 t ts _ ih => exact (ih h).cons t
  | case3 => cases h

theorem covers_quotedGamut? (h : quotedGamut? ts = some p) : Covers ts p.span := by
  obtain ⟨t, ht, hproblem⟩ := List.exists_of_findSome?_eq_some h
  split at hproblem
  · split_ifs at hproblem
    obtain rfl := Option.some.inj hproblem
    exact covers_of_mem ht
  · cases hproblem

theorem isDoubleQuoted_of_opensObject (h : opensObject t = true) : isDoubleQuoted t = true := by
  unfold opensObject at h
  unfold isDoubleQuoted
  split at h
  · exact (Bool.and_eq_true_iff.mp h).1
  · cases h

/-- The first token that opens an object comes before the last one in double quotes, or is it. -/
theorem covers_doubleQuotedJson? (h : doubleQuotedJson? ts = some p) : Covers ts p.span := by
  simp only [doubleQuotedJson?, Option.bind_eq_bind, Option.bind_eq_some_iff] at h
  obtain ⟨first, hfirst, last, hlast, hproblem⟩ := h
  obtain rfl := Option.some.inj hproblem
  obtain ⟨hopens, pre, later, hts, -⟩ := List.find?_eq_some_iff_append.mp hfirst
  obtain ⟨-, behind, before, hreverse, hbehind⟩ := List.find?_eq_some_iff_append.mp hlast
  have hts' : (before.reverse ++ [last]) ++ behind.reverse = pre ++ first :: later := by
    rw [← hts, ← List.reverse_reverse ts, hreverse]
    simp
  rcases stands_in_append hts' with ⟨run, hrun⟩ | ⟨pre', -, hin⟩
  · refine ⟨pre, first :: run, behind.reverse, first, last, ?_, rfl, ?_, rfl⟩
    · rw [hts, ← hts', hrun, List.append_assoc]
    · have hend := congrArg List.getLast? hrun
      rwa [List.getLast?_concat, List.getLast?_append, List.getLast?_cons, Option.some_or,
        ← List.getLast?_cons, eq_comm] at hend
  · -- nothing behind the last one is in double quotes
    have hmem : first ∈ behind := List.mem_reverse.mp (hin ▸ by simp)
    have hnot := hbehind first hmem
    rw [isDoubleQuoted_of_opensObject hopens] at hnot
    cases hnot

end

theorem span_of_readOptions {strict : Bool} {value : Text} {span span' : Span}
    (h : (readOptions strict value span).value = .error (.json span')) : span' = span := by
  simp only [readOptions] at h
  split at h
  · cases h
  split at h
  · cases h
  split at h
  · cases h
  split at h
  · have hjson : Except.error (Failure.json span) = .error (.json span') := h
    exact (Failure.json.inj (Except.error.inj hjson)).symm
  · cases h

theorem covers_readCall {strict : Bool} {ts : List Token} {span : Span}
    (h : (readCall strict ts).value = .error (.json span)) : Covers ts span := by
  rcases exists_directPart ts with
    hgrammar | ⟨part, c, back, segment, rest, hpart, rfl, hsegment, hread⟩
  · rw [hgrammar] at h
    cases h
  rw [hread] at h
  rcases exists_of_jsonSegment hsegment with
    ⟨rfl, rfl⟩ | ⟨sep, t, value, rfl, hsep, hkind, rfl⟩
  · simp only [segmentOptions, Logged.value_pure] at h
    split_ifs at h
    cases h
  · rw [segmentOptions] at h
    split at h
    · next failure hfailure =>
      obtain rfl := Except.error.inj h
      obtain rfl := span_of_readOptions hfailure
      exact covers_of_mem (by simp)
    · split_ifs at h
      cases h

theorem explain_covers_or (call : Text) (ts : List Token) :
    Covers ts (explain call ts).span ∨ explain call ts = .unparsable call := by
  rw [explain]
  cases hnone : nonePercent? ts with
  | some p => exact .inl (covers_nonePercentFrom? hnone)
  | none =>
    cases hdetached : detachedPercent? ts with
    | some p => exact .inl (covers_detachedPercent? hdetached)
    | none =>
      cases hgamut : quotedGamut? ts with
      | some p => exact .inl (covers_quotedGamut? hgamut)
      | none =>
        cases hjson : doubleQuotedJson? ts with
        | some p => exact .inl (covers_doubleQuotedJson? hjson)
        | none => exact .inr rfl

/-! ### Pieces of a call -/

/-- The problem concerns the piece `part` of the call, behind the piece `front`. -/
structure Problem.Concerns (p : Problem) (call front part back : Text) : Prop where
  text_eq : call = front ++ (part ++ back)
  nonempty : part ≠ []
  span_eq : p.span = ⟨Text.byteSize front, Text.byteSize front + Text.byteSize part⟩

/-- A run of tokens takes up a piece of the text. -/
theorem Covers.exists_piece {start : Nat} {w rest : Text} {ts : List Token} {span : Span}
    (h : Covers ts span) (hlexed : Lexed start w ts rest) :
    ∃ front part back, w = front ++ (part ++ back) ∧ part ≠ [] ∧
      span = ⟨start + Text.byteSize front, start + Text.byteSize front + Text.byteSize part⟩ := by
  obtain ⟨pre, run, post, first, last, rfl, hfirst, hlast, rfl⟩ := h
  obtain ⟨front, later, rfl, -, hlater⟩ := hlexed.split
  obtain ⟨part, back, rfl, hrun, -⟩ := hlater.split
  obtain ⟨run, rfl⟩ := List.head?_eq_some_iff.mp hfirst
  exact ⟨front, part, back, rfl, hrun.ne_nil (by simp), by rw [hrun.start_eq, hrun.stop_eq hlast]⟩

/-- **Every problem of a call concerns a piece of it.** -/
theorem exists_concerns {strict : Bool} {call : Text} {p : Problem} (hcall : call ≠ [])
    (h : (parseCall strict call).value = .error p) :
    ∃ front part back, p.Concerns call front part back := by
  have hwhole : (Problem.unparsable call).Concerns call [] call [] :=
    ⟨by simp, hcall, by simp [Problem.unparsable]⟩
  by_cases hstarts : startsCall call = true
  · have hcovers : Covers (callTokens call) p.span ∨ p = .unparsable call := by
      rw [value_parseCall hstarts] at h
      split at h
      · cases h
      · next span hread =>
        obtain rfl := Except.error.inj h
        exact .inl (covers_readCall hread)
      · obtain rfl := Except.error.inj h
        exact explain_covers_or _ _
    rcases hcovers with hcovers | rfl
    · obtain ⟨name, u, rfl, hname⟩ := startsCall_iff.mp hstarts
      have hlexed := lexed_callTokens (name ++ u)
      rw [drop_name hname, ← byteSize_name hname] at hlexed
      obtain ⟨front, part, back, rfl, hpart, hspan⟩ := hcovers.exists_piece hlexed
      exact ⟨name ++ front, part, back, by simp, hpart, by rw [hspan, Text.byteSize_append]⟩
    · exact ⟨_, _, _, hwhole⟩
  · rw [parseCall, if_neg hstarts] at h
    obtain rfl := Except.error.inj h
    exact ⟨_, _, _, hwhole⟩

/-! ### Diagnostics -/

/-- The diagnostic stays inside the call. -/
structure Diagnostic.Within (d : Diagnostic) (t : Text) (site : CallSite) : Prop where
  start_le : Text.charOffset t site.span.start ≤ d.start
  ordered : d.start ≤ d.stop
  le_stop : d.stop ≤ Text.charOffset t site.span.stop

/-- The diagnostic shows the characters of the call that the problem concerns. -/
def Diagnostic.Shows (d : Diagnostic) (t : Text) (site : CallSite) (p : Problem) : Prop :=
  ∃ front part back, p.Concerns (site.text t) front part back ∧
    d.start = Text.charOffset t site.span.start + front.length ∧
    d.stop = d.start + part.length ∧ (t.drop d.start).take (d.stop - d.start) = part

theorem Text.charOffset_byteSize (s t : Text) :
    Text.charOffset (s ++ t) (Text.byteSize s) = s.length := by
  rw [Text.charOffset, Text.takeBytes_append]

section

variable {t : Text} {site : CallSite} {p : Problem}

theorem within_ofProblem (hsite : site ∈ callSites t) (p : Problem) :
    (Diagnostic.ofProblem t site.span p).Within t site := by
  have hnonempty := start_lt_stop hsite
  have hstart : site.span.start ≤ min (site.span.start + p.span.start) site.span.stop :=
    Nat.le_min.mpr ⟨Nat.le_add_right _ _, Nat.le_of_lt hnonempty⟩
  have hstop : max (min (site.span.start + p.span.start) site.span.stop)
      (min (site.span.start + p.span.stop) site.span.stop) ≤ site.span.stop :=
    Nat.max_le.mpr ⟨Nat.min_le_right _ _, Nat.min_le_right _ _⟩
  exact
    { start_le := Text.charOffset_mono hstart t
      ordered := Text.charOffset_mono (Nat.le_max_left _ _) t
      le_stop := Text.charOffset_mono hstop t }

/-- A problem inside the call is not cut off. -/
theorem ofProblem_of_le {site : Span} (hle : p.span.start ≤ p.span.stop)
    (hstop : site.start + p.span.stop ≤ site.stop) (t : Text) :
    Diagnostic.ofProblem t site p = ⟨p.mistake.message,
      Text.charOffset t (site.start + p.span.start),
      Text.charOffset t (site.start + p.span.stop)⟩ := by
  have hstart : site.start + p.span.start ≤ site.stop := by omega
  rw [Diagnostic.ofProblem, Nat.min_eq_left hstart, Nat.min_eq_left hstop,
    Nat.max_eq_right (Nat.add_le_add_left hle _)]

theorem shows_ofProblem {strict : Bool} (hsite : site ∈ callSites t)
    (h : (parseCall strict (site.text t)).value = .error p) :
    (Diagnostic.ofProblem t site.span p).Shows t site p := by
  obtain ⟨before, call, after, rfl, hspan, hcall⟩ := exists_standsIn hsite
  have htext : site.text (before ++ (call ++ after)) = call := by
    rw [CallSite.text, hspan, Text.slice_append]
  rw [htext] at h
  obtain ⟨front, part, back, hconcerns⟩ := exists_concerns hcall h
  refine ⟨front, part, back, by rwa [htext], ?_⟩
  obtain ⟨rfl, hpart, hproblem⟩ := hconcerns
  have hinside : Diagnostic.ofProblem (before ++ (front ++ (part ++ back) ++ after)) site.span p
      = ⟨p.mistake.message, (before ++ front).length, (before ++ front ++ part).length⟩ := by
    have hle : p.span.start ≤ p.span.stop := by
      rw [hproblem]
      exact Nat.le_add_right _ _
    have hstop : site.span.start + p.span.stop ≤ site.span.stop := by
      rw [hspan, hproblem, Text.byteSize_append, Text.byteSize_append]
      dsimp only
      omega
    have hfront := Text.charOffset_byteSize (before ++ front) (part ++ back ++ after)
    have hbehind := Text.charOffset_byteSize (before ++ front ++ part) (back ++ after)
    simp only [List.append_assoc, Text.byteSize_append] at hfront hbehind
    rw [ofProblem_of_le hle hstop, hspan, hproblem]
    simp only [List.append_assoc, hfront, hbehind]
  have hoffset : Text.charOffset (before ++ (front ++ (part ++ back) ++ after)) site.span.start
      = before.length := by
    rw [hspan, Text.charOffset_byteSize]
  have hleft : before ++ (front ++ (part ++ back) ++ after)
      = (before ++ front) ++ (part ++ (back ++ after)) := by simp
  rw [hinside, hoffset]
  refine ⟨List.length_append, List.length_append, ?_⟩
  dsimp only
  have hlength : (before ++ front ++ part).length - (before ++ front).length = part.length := by
    rw [List.length_append, Nat.add_sub_cancel_left]
  rw [hleft, List.drop_left, hlength, List.take_left]

end

theorem rejected_of_mem {read : Text → Logged Log.Record (Except Problem CallArguments)} {t : Text}
    {site : CallSite} {p : Problem}
    (h : (site, p) ∈ (rulings read t).filterMap Ruling.rejection?) :
    site ∈ callSites t ∧ (read (site.text t)).value = .error p := by
  obtain ⟨r, hr, hrejection⟩ := List.mem_filterMap.mp h
  obtain ⟨before, after, hsplit⟩ := List.append_of_mem hr
  unfold Ruling.rejection? at hrejection
  split at hrejection
  · next p' hverdict =>
    obtain ⟨rfl, rfl⟩ := Prod.mk.inj (Option.some.inj hrejection)
    exact ⟨mem_callSites_of_mem_rulings hr, (((rulings_due hsplit).rejected _).mp hverdict).1⟩
  · cases hrejection

/-- **Diagnostics point at the right characters.**  Each rejected call has its diagnostic, which
    has the message of the problem and stays inside the call, in characters of the text that was
    given, whatever reads the calls and wherever it says that the problem is.  Where the calls are
    read by the grammar of this library, the diagnostic shows the bytes of the problem, which are
    a piece of the call and not empty. -/
theorem diagnostics_point_at_problems (o : HostOptions) (t : Text) (table : FloorCache) :
    (∀ reader : CallReader,
      List.Forall₂ (fun (site, p) d => site ∈ callSites t ∧
          (reader o (site.text t)).value = .error p ∧ d.message = p.mistake.message ∧
          d.Within t site)
        ((rulings (reader o) t).filterMap Ruling.rejection?)
        (expand reader o t table).value.1.diagnostics) ∧
    List.Forall₂ (fun (site, p) d => d.Shows t site p)
      ((rulings (standardReader o) t).filterMap Ruling.rejection?)
      (expand standardReader o t table).value.1.diagnostics := by
  have hdiagnostics : ∀ reader : CallReader, (expand reader o t table).value.1.diagnostics
      = ((rulings (reader o) t).filterMap Ruling.rejection?).map fun (site, p) =>
        Diagnostic.ofProblem t site.span p := fun reader => diagnostics_eq t _
  constructor
  · intro reader
    rw [hdiagnostics, List.forall₂_map_right_iff, List.forall₂_same]
    rintro ⟨site, p⟩ hmem
    obtain ⟨hsite, hread⟩ := rejected_of_mem hmem
    exact ⟨hsite, hread, rfl, within_ofProblem hsite p⟩
  · rw [hdiagnostics, List.forall₂_map_right_iff, List.forall₂_same]
    rintro ⟨site, p⟩ hmem
    obtain ⟨hsite, hread⟩ := rejected_of_mem hmem
    exact shows_ofProblem hsite hread

end EvenChroma.Css
