/-
  EvenChroma/Proofs/SecondExpansion.lean
  ======================================
  **An expanded text is not expanded further.**  Every call that begins in it begins in the
  text that was given, where it was rejected (`Recoloured.exists_origin`).  If its arguments
  have a parenthesis, as they do when a colour was put among them, no grammar reads it; if
  they have none, not a character of it was exchanged, and it is the call that was
  rejected.  This takes a text without quotes: in quotes, parentheses are not tokens.
-/
import EvenChroma.Proofs.RemainingCalls
import EvenChroma.Proofs.TokenNesting

namespace EvenChroma.Css

/-! ### Texts without quotes -/

def Unquoted (t : Text) : Prop := ∀ c ∈ t, isQuote c = false

instance (t : Text) : Decidable (Unquoted t) :=
  List.decidableBAll (p := (isQuote · = false)) t

theorem unquoted_append {s t : Text} : Unquoted (s ++ t) ↔ Unquoted s ∧ Unquoted t :=
  List.forall_mem_append

theorem unquoted_colour {w : Text} (h : Notation w) : Unquoted w := by
  intro c hc
  rw [← Bool.not_eq_true]
  exact fun hquote => (h.quote_not_mem hquote).1 hc

/-- A call does not begin in a colour, so it begins behind it. -/
theorem exists_behind_colour {new r s u : Text} (hnew : Notation new) (h : new ++ r = s ++ u)
    (hu : startsCall u = true) : ∃ s', s = new ++ s' ∧ r = s' ++ u := by
  rcases List.append_eq_append_iff.mp h with ⟨s', hs, hr⟩ | ⟨front, hsplit, hu'⟩
  · exact ⟨s', hs, hr⟩
  · by_cases hfront : front = []
    · subst hfront
      exact ⟨[], by simpa using hsplit.symm, hu'.symm⟩
    · rw [hu'] at hu
      exact (hnew.not_spells hsplit hfront (List.suffix_refl _) (by decide) (.inl rfl) r
        (startsCall_iff.mp hu)).elim

namespace Recoloured

variable {start : Nat} {t r : Text} {es : List Edit}

theorem unquoted (h : Recoloured start t es r) (ht : Unquoted t) : Unquoted r := by
  induction h with
  | nil start => exact ht
  | keep c h ih =>
    obtain ⟨hc, ht⟩ := List.forall_mem_cons.mp ht
    exact List.forall_mem_cons.mpr ⟨hc, ih ht⟩
  | edit hcall hnew h ih =>
    exact unquoted_append.mpr ⟨unquoted_colour hnew, ih (unquoted_append.mp ht).2⟩

/-! ### Where calls come from -/

/-- **A call of the edited text begins with a name that was kept, behind the same kind of
    character, and outside the stretches that were exchanged.** -/
theorem exists_origin {before before' : Option Char} {s' u : Text} (h : Recoloured start t es r)
    (hbefore : before.any joinsName = before'.any joinsName) (hr : r = s' ++ u)
    (hu : startsCall u = true) :
    ∃ s name t' es' r', t = s ++ (name ++ t') ∧ u = name ++ r' ∧
      name.map Char.toLower = callStart ∧
      Recoloured (start + Text.byteSize s + Text.byteSize name) t' es' r' ∧
      (s.getLast?.or before).any joinsName = (s'.getLast?.or before').any joinsName ∧
      ∀ e ∈ es,
        ¬ (e.span.start ≤ start + Text.byteSize s ∧ start + Text.byteSize s < e.span.stop) := by
  induction h generalizing s' before before' with
  | nil start =>
    obtain ⟨-, rfl⟩ := List.append_eq_nil_iff.mp hr.symm
    cases hu
  | @keep c start t r es h ih =>
    cases s' with
    | nil =>
      obtain rfl : u = c :: r := hr.symm
      obtain ⟨name, t', r', ht, hr', hname, h'⟩ := h.exists_name (.inr hu)
      refine ⟨[], name, t', es, r', ht, hr', hname, h', hbefore, ?_⟩
      rintro e he ⟨hle, -⟩
      have hbegin := (h.beginAfter e he).1
      have hpos := c.utf8Size_pos
      rw [Text.byteSize_nil] at hle
      omega
    | cons d s' =>
      obtain ⟨rfl, hrest⟩ := List.cons.inj hr
      obtain ⟨s, name, t', es', r', rfl, rfl, hname, h', hlast, hclear⟩ :=
        @ih (some c) (some c) s' rfl hrest
      rw [Nat.add_assoc start, ← Text.byteSize_cons] at h' hclear
      refine ⟨c :: s, name, t', es', r', rfl, rfl, hname, h', ?_, hclear⟩
      rwa [getLast?_cons_or, getLast?_cons_or]
  | @edit start call new t r es hcall hnew h ih =>
    obtain ⟨s'', rfl, hrest⟩ := exists_behind_colour hnew hr hu
    have hafter : t ≠ [] := by
      rintro rfl
      obtain ⟨-, rfl⟩ := h.eq_nil rfl
      obtain ⟨-, rfl⟩ := List.append_eq_nil_iff.mp hrest.symm
      cases hu
    obtain ⟨s, name, t', es', r', rfl, rfl, hname, h', hlast, hclear⟩ :=
      @ih (some ')') (some ')') s'' rfl hrest
    rw [Nat.add_assoc start, ← Text.byteSize_append] at h' hclear
    refine ⟨call ++ s, name, t', es', r', (List.append_assoc _ _ _).symm, rfl, hname, h', ?_, ?_⟩
    · rw [List.getLast?_append, List.getLast?_append, Option.or_assoc, Option.or_assoc,
        hcall.getLast?_eq hafter, hnew.getLast?_eq]
      exact hlast
    · refine List.forall_mem_cons.mpr ⟨?_, hclear⟩
      rintro ⟨-, hlt⟩
      rw [Text.byteSize_append] at hlt
      dsimp only at hlt
      omega

/-! ### Arguments without parentheses -/

theorem openParen_mem_of_colour {new arguments after : Text} (hnew : Notation new) (r : Text)
    (h : new ++ r = arguments ++ ')' :: after) : '(' ∈ arguments := by
  obtain ⟨function, hfunction, inner, rfl, -⟩ := hnew
  rw [List.append_assoc, List.cons_append] at h
  rcases List.append_eq_append_iff.mp h with ⟨back, rfl, hback⟩ | ⟨back, rfl, hback⟩
  · cases back with
    | nil => cases hback
    | cons c back =>
      obtain ⟨rfl, -⟩ := List.cons.inj hback
      simp
  · -- then the name of the function would hold the parenthesis that closes
    cases back with
    | nil => cases hback
    | cons c back =>
      obtain ⟨rfl, -⟩ := List.cons.inj hback
      cases unmarked_colourFunctions _ hfunction ')' (by simp)

/-- What closes without a parenthesis opened before is kept up to there. -/
theorem exists_after {arguments after : Text} (h : Recoloured start t es r)
    (hr : r = arguments ++ ')' :: after) (hopen : '(' ∉ arguments) :
    ∃ after', t = arguments ++ ')' :: after' := by
  induction h generalizing arguments with
  | nil start => simp at hr
  | @keep c start t r es h ih =>
    cases arguments with
    | nil =>
      obtain ⟨rfl, -⟩ := List.cons.inj hr
      exact ⟨t, rfl⟩
    | cons d arguments =>
      obtain ⟨rfl, hrest⟩ := List.cons.inj hr
      obtain ⟨after', rfl⟩ := ih hrest fun hmem => hopen (List.mem_cons_of_mem _ hmem)
      exact ⟨after', rfl⟩
  | edit hcall hnew h ih => exact (hopen (openParen_mem_of_colour hnew _ hr)).elim

end Recoloured

/-! ### Calls that are left -/

theorem CallSite.text_at (s : Text) {name arguments : Text}
    (hname : name.map Char.toLower = callStart)
    (hscan : scan .outside 0 arguments = some (.outside, 0)) (after : Text) :
    (CallSite.at (Text.byteSize s) (name ++ (arguments ++ ')' :: after))).text
      (s ++ (name ++ (arguments ++ ')' :: after))) = name ++ (arguments ++ [')']) := by
  have hparen : closingParen? .outside 0 (')' :: after) = some 0 := rfl
  have hsize : Text.byteSize [')'] = 1 := by decide
  have hslice := Text.slice_append s (name ++ (arguments ++ [')'])) after
  simp only [Text.byteSize_append, hsize, ← Nat.add_assoc, List.append_assoc,
    List.singleton_append] at hslice
  rw [CallSite.text, CallSite.at_name hname, closingParen?_append hscan, hparen]
  simpa using hslice

section

variable {read : Text → Logged Log.Record (Except Problem CallArguments)} {t : Text}

/-- A call that is not part of one that is replaced is rejected. -/
theorem exists_problem {site : CallSite} (hsite : site ∈ callSites t)
    (hclear : ¬ site.CoveredBy (replacedSpans (rulings read t))) :
    ∃ p, (read (site.text t)).value = .error p := by
  have hsites : (rulings read t).map Ruling.site = callSites t := site_rulingsFrom 0 _
  rw [← hsites] at hsite
  obtain ⟨r, hr, rfl⟩ := List.mem_map.mp hsite
  obtain ⟨before, after, hsplit⟩ := List.append_of_mem hr
  have hrejection : r.rejection? ≠ none := fun hnone =>
    hclear ((rejection?_eq_none_iff hr).mp hnone)
  cases hverdict : r.verdict with
  | replaced c => simp [Ruling.rejection?, hverdict] at hrejection
  | covered => simp [Ruling.rejection?, hverdict] at hrejection
  | rejected p => exact ⟨p, (((rulings_due hsplit).rejected p).mp hverdict).1⟩

theorem replacedSpans_eq_nil
    (h : ∀ site ∈ callSites t, ∃ p, (read (site.text t)).value = .error p) :
    replacedSpans (rulings read t) = [] := by
  rw [List.eq_nil_iff_forall_not_mem]
  intro span hspan
  obtain ⟨r, hr, -, c, hverdict⟩ := exists_replaced_of_mem_replacedSpans hspan
  obtain ⟨before, after, hsplit⟩ := List.append_of_mem hr
  obtain ⟨p, hp⟩ := h r.site (mem_callSites_of_mem_rulings hr)
  cases hp.symm.trans (((rulings_due hsplit).replaced c).mp hverdict).1

end

/-- A text whose calls are all rejected is left as it is. -/
theorem text_expand_of_rejected {reader : CallReader} {o : HostOptions} {t : Text}
    (h : ∀ site ∈ callSites t, ∃ p, (reader o (site.text t)).value = .error p)
    (table : FloorCache) : (expand reader o t table).value.1.text = t := by
  have hedits : expansionEdits reader o t table = [] := by
    have hspans := span_expansionEdits reader o t table
    rwa [replacedSpans_eq_nil h, List.map_eq_nil_iff] at hspans
  have htext : (expand reader o t table).value.1.text
      = applyEdits t 0 (expansionEdits reader o t table) := rfl
  rw [htext, hedits, applyEdits, Text.dropBytes_zero]

/-- There are as many diagnostics as calls are left. -/
theorem length_diagnostics (reader : CallReader) (o : HostOptions) (t : Text) (table : FloorCache) :
    (expand reader o t table).value.1.diagnostics.length
      = (callSites (expand reader o t table).value.1.text).length := by
  have hdiagnostics : (expand reader o t table).value.1.diagnostics
      = diagnostics t (rulings (reader o) t) := rfl
  rw [hdiagnostics, diagnostics_eq, List.length_map,
    ← (remains_rejected reader o t table).length_eq, List.length_map]

/-- A call that is left begins with the name of a call that was rejected. -/
theorem exists_rejected {reader : CallReader} {o : HostOptions} {t s' u : Text} {table : FloorCache}
    (hleft : (expand reader o t table).value.1.text = s' ++ u) (hu : startsCall u = true)
    (hlast : s'.getLast?.any joinsName = false) :
    ∃ s name t' start es r', t = s ++ (name ++ t') ∧ u = name ++ r' ∧
      name.map Char.toLower = callStart ∧ Recoloured start t' es r' ∧
      ∃ p, (reader o ((CallSite.at (Text.byteSize s) (name ++ t')).text t)).value = .error p := by
  have hnothing : Option.none.any joinsName = Option.none.any joinsName := rfl
  obtain ⟨s, name, t', es, r', ht, hu', hname, h, hlast', hclear⟩ :=
    (recoloured_expand reader o t table).exists_origin hnothing hleft hu
  rw [Option.or_none, Option.or_none, hlast] at hlast'
  have hsite : CallSite.at (Text.byteSize s) (name ++ t') ∈ callSites t :=
    mem_callSites_iff.mpr
      ⟨s, name ++ t', ht, startsCall_iff.mpr ⟨name, t', rfl, hname⟩, hlast', rfl⟩
  refine ⟨s, name, t', _, es, r', ht, hu', hname, h, exists_problem hsite ?_⟩
  rw [← span_expansionEdits reader o t table]
  rintro ⟨span, hspan, hle, hlt⟩
  obtain ⟨e, he, rfl⟩ := List.mem_map.mp hspan
  rw [CallSite.start_at] at hle hlt
  apply hclear e he
  rw [Nat.zero_add]
  exact ⟨hle, hlt⟩

theorem parseCall_ne_ok_of_scan {strict : Bool} {name arguments : Text} {c : CallArguments}
    (hname : name.map Char.toLower = callStart) (hscan : (scan .outside 0 arguments).isSome) :
    (parseCall strict (name ++ arguments)).value ≠ .ok c := by
  apply parseCall_ne_ok
  rw [drop_name hname]
  exact nested_tokensFrom (Nat.le_refl _) hscan

/-- **Every call that is left is rejected again.** -/
theorem exists_problem_expand {t : Text} (ht : Unquoted t) (o : HostOptions) (table : FloorCache) :
    let left := (expand standardReader o t table).value.1.text
    ∀ site ∈ callSites left, ∃ p, (standardReader o (site.text left)).value = .error p := by
  intro left site hsite
  obtain ⟨s', u, hleft, hu, hlast, rfl⟩ := mem_callSites_iff.mp hsite
  obtain ⟨call, after, rfl, hcall, hspan⟩ := exists_isCall hu (Text.byteSize s')
  have htext : (CallSite.at (Text.byteSize s') (call ++ after)).text left = call := by
    rw [CallSite.text, hspan, hleft, Text.slice_append]
  rw [htext]
  cases hresult : (standardReader o call).value with
  | error p => exact ⟨p, rfl⟩
  | ok c =>
    exfalso
    cases hcall with
    | unterminated hname hscan => exact parseCall_ne_ok_of_scan hname hscan hresult
    | @terminated name arguments after hname hscan =>
      by_cases hopen : '(' ∈ arguments
      · have hunquoted : Unquoted left := (recoloured_expand standardReader o t table).unquoted ht
        rw [hleft, unquoted_append, unquoted_append, unquoted_append] at hunquoted
        apply parseCall_ne_ok_of_openParen _ _ hresult
        · rw [drop_name hname]
          exact hunquoted.2.1.2
        · rw [drop_name hname]
          exact List.mem_append_left _ hopen
      · -- no colour is among the arguments, so this is the call that was rejected
        obtain ⟨s, name', t', start, es, r', rfl, hu', hname', hrest, p, hp⟩ :=
          exists_rejected hleft hu hlast
        rw [List.append_assoc] at hu'
        obtain ⟨rfl, rfl⟩ := List.append_inj hu' (by rw [length_name hname, length_name hname'])
        rw [List.append_assoc] at hrest
        obtain ⟨after', rfl⟩ := hrest.exists_after rfl hopen
        rw [CallSite.text_at s hname hscan] at hp
        cases hp.symm.trans hresult

/-- **A second expansion changes nothing**, and gives as many diagnostics as the first. -/
theorem expand_expand {t : Text} (ht : Unquoted t) (o : HostOptions) (table table' : FloorCache) :
    let first := (expand standardReader o t table).value.1
    let second := (expand standardReader o first.text table').value.1
    second.text = first.text ∧ second.diagnostics.length = first.diagnostics.length := by
  intro first second
  have htext : second.text = first.text :=
    text_expand_of_rejected (exists_problem_expand ht o table) table'
  refine ⟨htext, ?_⟩
  calc
    second.diagnostics.length
      = (callSites second.text).length := length_diagnostics standardReader o first.text table'
    _ = (callSites first.text).length := by rw [htext]
    _ = first.diagnostics.length := (length_diagnostics standardReader o t table).symm

/-- A call in a call that is rejected, and one without an end. -/
theorem expand_expand_nested :
    let t : Text := "egal(egal(none none none) x) egal(none none none".toList
    Unquoted t ∧ (expand standardReader default t .new).value.1.diagnostics.length = 2 ∧
      let first := (expand standardReader default t .new).value.1
      let second := (expand standardReader default first.text .new).value.1
      second.text = first.text ∧ second.diagnostics.length = first.diagnostics.length := by
  intro t
  have ht : Unquoted t := by decide +kernel
  have hdiagnostics : (expand standardReader default t .new).value.1.diagnostics.length = 2 := by
    change (diagnostics t (rulings (standardReader default) t)).length = 2
    decide +kernel
  exact ⟨ht, hdiagnostics, expand_expand ht default .new .new⟩

end EvenChroma.Css
