/-
  EvenChroma/Proofs/SheetTiling.lean
  ==================================
  **Whatever the text, a style sheet loses nothing.**  The scan cuts every text into heads and
  values of declarations, in turn and side by side, until no declaration begins in what is
  left (`Scanned`).  The calls in values of searched properties are ruled on
  (`sheetRulings`); those replaced are exchanged for colours, those rejected are diagnosed
  where they stand, and all other text is kept.
-/
import EvenChroma.Proofs.Locality
import EvenChroma.Proofs.SheetExpansion

namespace EvenChroma.Css

/-! ### The scan -/

/-- The scan of a text comes to the declarations one after the other, each of them the first
    behind the value before it, and leaves a rest in which none begins. -/
inductive Scanned : Text → List Declaration → Text → Prop where
  | done {t : Text} (hnone : declarationStart? t = none) : Scanned t [] t
  | next {t value after rest : Text} {d : DeclarationStart} {ds : List Declaration}
    (hstart : declarationStart? t = some d)
    (hvalue : splitValue .outside 0 d.rest = (value, after)) (hlater : Scanned after ds rest) :
    Scanned t (⟨d.gap, d.property, d.between, value⟩ :: ds) rest

theorem Scanned.text_eq {t rest : Text} {ds : List Declaration} (h : Scanned t ds rest) :
    t = written ds ++ rest := by
  induction h with
  | done hnone => rfl
  | @next t value after rest d ds hstart hvalue hlater ih =>
    obtain ⟨htext, -⟩ := declarationStart?_append hstart
    rw [← htext, ← append_of_splitValue hvalue, ih]
    simp [written, Declaration.text]

/-- The colon makes what is left of the text shorter. -/
theorem length_after_lt {t value after : Text} {d : DeclarationStart}
    (hstart : declarationStart? t = some d)
    (hvalue : splitValue .outside 0 d.rest = (value, after)) : after.length < t.length := by
  obtain ⟨htext, front, c, hbetween, -⟩ := declarationStart?_append hstart
  rw [← htext, ← append_of_splitValue hvalue, hbetween]
  simp only [List.length_append, List.length_cons]
  omega

theorem scanned_declarationsFrom {fuel : Nat} {t : Text} (hfuel : t.length ≤ fuel) :
    Scanned t (declarationsFrom fuel t).1 (declarationsFrom fuel t).2 := by
  induction fuel generalizing t with
  | zero =>
    obtain rfl := List.length_eq_zero_iff.mp (Nat.le_zero.mp hfuel)
    exact .done rfl
  | succ fuel ih =>
    rw [declarationsFrom]
    cases hstart : declarationStart? t with
    | none => exact .done hstart
    | some d =>
      obtain ⟨value, after, hvalue⟩ :
          ∃ value after, splitValue .outside 0 d.rest = (value, after) := ⟨_, _, rfl⟩
      have hlength := length_after_lt hstart hvalue
      have hlater := ih (Nat.le_of_lt_succ (Nat.lt_of_lt_of_le hlength hfuel))
      dsimp only
      rw [hvalue]
      exact .next hstart hvalue hlater

/-- **The scan comes to its end on every text.** -/
theorem scanned_declarations (css : Text) : Scanned css (declarations css).1 (declarations css).2 :=
  scanned_declarationsFrom (Nat.le_refl _)

/-! ### The rulings on a sheet -/

/-- The rulings on the value of a declaration, which begins at byte `start`, if the property is
    one that is searched. -/
def valueRulings (read : Text → Logged Log.Record (Except Problem CallArguments))
    (o : HostOptions) (start : Nat) (d : Declaration) : List Ruling :=
  if o.wants d.property then (rulings read d.value).map (·.shift start) else []

/-- The rulings on the values of declarations, the first of which begins at byte `start`. -/
def sheetRulings (read : Text → Logged Log.Record (Except Problem CallArguments))
    (o : HostOptions) : (start : Nat) → List Declaration → List Ruling
  | _, [] => []
  | start, d :: ds =>
    valueRulings read o (start + Text.byteSize d.head) d
      ++ sheetRulings read o (start + Text.byteSize d.text) ds

/-- What stands before the value of the declaration behind the declarations `earlier`. -/
def beforeValue (earlier : List Declaration) (d : Declaration) : Text := written earlier ++ d.head

section

variable {read : Text → Logged Log.Record (Except Problem CallArguments)} {o : HostOptions}

theorem text_eq_head (d : Declaration) : d.text = d.head ++ d.value := by
  simp [Declaration.text, Declaration.head]

theorem written_cons (d : Declaration) (ds : List Declaration) :
    written (d :: ds) = d.head ++ (d.value ++ written ds) := by
  simp [written, text_eq_head]

theorem written_split (earlier : List Declaration) (d : Declaration) (later : List Declaration) :
    written (earlier ++ d :: later) = beforeValue earlier d ++ (d.value ++ written later) := by
  simp [written, beforeValue, text_eq_head]

/-- Every ruling on a sheet is one on the value of a declaration that is searched. -/
theorem exists_ruling_of_mem_sheetRulings {start : Nat} {ds : List Declaration} {r : Ruling}
    (hr : r ∈ sheetRulings read o start ds) :
    ∃ earlier d later inner, ds = earlier ++ d :: later ∧ o.wants d.property = true ∧
      inner ∈ rulings read d.value ∧
      r = inner.shift (start + Text.byteSize (beforeValue earlier d)) := by
  induction ds generalizing start with
  | nil => cases hr
  | cons d ds ih =>
    rw [sheetRulings] at hr
    rcases List.mem_append.mp hr with hr | hr
    · unfold valueRulings at hr
      split at hr
      · next hwants =>
        obtain ⟨inner, hinner, rfl⟩ := List.mem_map.mp hr
        exact ⟨[], d, ds, inner, rfl, hwants, hinner, rfl⟩
      · cases hr
    · obtain ⟨earlier, d', later, inner, rfl, hwants, hinner, rfl⟩ := ih hr
      refine ⟨d :: earlier, d', later, inner, rfl, hwants, hinner, ?_⟩
      congr 1
      simp only [beforeValue, written_cons, text_eq_head, Text.byteSize_append, Nat.add_assoc]

end

/-! ### Expanding a sheet -/

section

variable (o : HostOptions) (table : FloorCache)

/-- The edits that rulings ask for, and the table of floors behind them. -/
def computedEdits (rs : List Ruling) : List Edit × FloorCache :=
  (edits (fun c => ColorM.css (c.request o)) noteAll rs table).value

theorem computedEdits_append (rs rs' : List Ruling) :
    computedEdits o table (rs ++ rs') =
      ((computedEdits o table rs).1 ++ (computedEdits o (computedEdits o table rs).2 rs').1,
        (computedEdits o (computedEdits o table rs).2 rs').2) := by
  rw [computedEdits, edits_append]
  rfl

theorem computedEdits_shift (rs : List Ruling) (distance : Nat) :
    computedEdits o table (rs.map (·.shift distance)) =
      ((computedEdits o table rs).1.map (·.shift distance), (computedEdits o table rs).2) := by
  rw [computedEdits, edits_shift]
  rfl

end

section

variable (reader : CallReader) (o : HostOptions)

theorem value_expandDeclaration_of_wants {property : Text} (hwants : o.wants property = true)
    (between value : Text) (table : FloorCache) :
    (expandDeclaration reader o property between value table).value =
      (some ⟨applyEdits value 0 (computedEdits o table (rulings (reader o) value)).1,
          (diagnostics value (rulings (reader o) value)).map
            (·.shift (property.length + between.length))⟩,
        (computedEdits o table (rulings (reader o) value)).2) := by
  rw [expandDeclaration, if_pos hwants]
  rfl

theorem value_expandDeclaration_of_not_wants {property : Text} (hwants : ¬ o.wants property = true)
    (between value : Text) (table : FloorCache) :
    (expandDeclaration reader o property between value table).value = (none, table) := by
  rw [expandDeclaration, if_neg hwants]
  rfl

theorem value_expandDeclarations_cons (start : Nat) (d : Declaration) (ds : List Declaration)
    (table : FloorCache) :
    (expandDeclarations reader o start (d :: ds) table).value =
      let first := (expandDeclaration reader o d.property d.between d.value table).value
      let e := first.1.getD ⟨d.value, []⟩
      let begins := start + d.gap.length
      let stop := begins + d.property.length + d.between.length + d.value.length
      let later := (expandDeclarations reader o stop ds first.2).value
      (⟨d.gap ++ d.property ++ d.between ++ e.text ++ later.1.text,
        e.diagnostics.map (·.shift begins) ++ later.1.diagnostics⟩, later.2) := rfl

/-- A value is expanded by the rulings on it. -/
theorem substituted_value (front after : Text) {d : Declaration} {table table' : FloorCache}
    {result : Option Expanded}
    (h : (expandDeclaration reader o d.property d.between d.value table).value = (result, table')) :
    let rs := valueRulings (reader o) o (Text.byteSize front) d
    let e := result.getD ⟨d.value, []⟩
    Substituted (Text.byteSize front) d.value (computedEdits o table rs).1 e.text ∧
      table' = (computedEdits o table rs).2 ∧
      ∀ distance, front.length = distance + (d.property.length + d.between.length) →
        e.diagnostics.map (·.shift distance) = diagnostics (front ++ (d.value ++ after)) rs := by
  intro rs e
  by_cases hwants : o.wants d.property = true
  · have hrs : rs = (rulings (reader o) d.value).map (·.shift (Text.byteSize front)) :=
      if_pos hwants
    rw [value_expandDeclaration_of_wants reader o hwants] at h
    obtain ⟨rfl, rfl⟩ := Prod.mk.inj h
    have hspans := (edits_eq o (rulings (reader o) d.value) table).1
    have hsubstituted := (substituted_of_span_eq hspans).shift (Text.byteSize front)
    rw [Nat.zero_add] at hsubstituted
    rw [hrs, computedEdits_shift]
    refine ⟨hsubstituted, rfl, ?_⟩
    intro distance hdistance
    have hinside : ∀ r ∈ rulings (reader o) d.value, r.site.span.stop ≤ Text.byteSize d.value :=
      fun r hr => CallSite.stop_le_byteSize (mem_callSites_of_mem_rulings hr)
    rw [diagnostics_shift, diagnostics_in_front hinside, hdistance]
    simp only [e, Option.getD_some, List.map_map]
    congr 1
    funext diagnostic
    exact Diagnostic.shift_shift diagnostic _ _
  · have hrs : rs = [] := if_neg hwants
    rw [value_expandDeclaration_of_not_wants reader o hwants] at h
    obtain ⟨rfl, rfl⟩ := Prod.mk.inj h
    rw [hrs]
    exact ⟨.rest _ _, rfl, fun _ _ => rfl⟩

/-- **Declarations are expanded by the rulings on their values.** -/
theorem substituted_expandDeclarations (before after : Text) {ds : List Declaration}
    {table table' : FloorCache} {e : Expanded}
    (h : (expandDeclarations reader o before.length ds table).value = (e, table')) :
    let rs := sheetRulings (reader o) o (Text.byteSize before) ds
    Substituted (Text.byteSize before) (written ds) (computedEdits o table rs).1 e.text ∧
      table' = (computedEdits o table rs).2 ∧
      e.diagnostics = diagnostics (before ++ (written ds ++ after)) rs := by
  induction ds generalizing before table table' e with
  | nil =>
    obtain ⟨rfl, rfl⟩ := Prod.mk.inj h
    exact ⟨.rest _ _, rfl, rfl⟩
  | cons d ds ih =>
    intro rs
    obtain ⟨result, middle, hfirst⟩ : ∃ result middle,
        (expandDeclaration reader o d.property d.between d.value table).value = (result, middle) :=
      ⟨_, _, rfl⟩
    obtain ⟨later, last, hlater⟩ : ∃ later last,
        (expandDeclarations reader o (before ++ d.text).length ds middle).value = (later, last) :=
      ⟨_, _, rfl⟩
    have hstop :
        before.length + d.gap.length + d.property.length + d.between.length + d.value.length
          = (before ++ d.text).length := by
      simp [Declaration.text, Nat.add_assoc]
    have hvalue : (expandDeclarations reader o before.length (d :: ds) table).value
        = (⟨d.gap ++ d.property ++ d.between ++ (result.getD ⟨d.value, []⟩).text ++ later.text,
            (result.getD ⟨d.value, []⟩).diagnostics.map (·.shift (before.length + d.gap.length))
              ++ later.diagnostics⟩, last) := by
      rw [value_expandDeclarations_cons, hfirst]
      dsimp only
      rw [hstop, hlater]
    rw [hvalue] at h
    obtain ⟨rfl, rfl⟩ := Prod.mk.inj h
    have hbytes : Text.byteSize (before ++ d.head) = Text.byteSize before + Text.byteSize d.head :=
      Text.byteSize_append _ _
    obtain ⟨hvaluetext, rfl, hvaluediagnostics⟩ :=
      substituted_value reader o (before ++ d.head) (written ds ++ after) hfirst
    obtain ⟨hlatertext, rfl, hlaterdiagnostics⟩ := ih (before ++ d.text) hlater
    have hrs : rs = valueRulings (reader o) o (Text.byteSize (before ++ d.head)) d
        ++ sheetRulings (reader o) o (Text.byteSize (before ++ d.text)) ds := by
      rw [Text.byteSize_append, Text.byteSize_append]
      rfl
    rw [hrs, computedEdits_append]
    refine ⟨?_, rfl, ?_⟩
    · have hsize : Text.byteSize (before ++ d.text)
          = Text.byteSize before + Text.byteSize (d.head ++ d.value) := by
        rw [text_eq_head, Text.byteSize_append]
      have hwritten : written (d :: ds) = d.head ++ d.value ++ written ds := by
        rw [written_cons, List.append_assoc]
      have htext :
          d.gap ++ d.property ++ d.between ++ (result.getD ⟨d.value, []⟩).text ++ later.text
            = d.head ++ (result.getD ⟨d.value, []⟩).text ++ later.text := by
        simp [Declaration.head]
      rw [hwritten, htext]
      refine (Substituted.append_left d.head ?_).append ?_
      · rw [← hbytes]
        exact hvaluetext
      · rw [← hsize]
        exact hlatertext
    · have hfront : (before ++ d.head).length
          = before.length + d.gap.length + (d.property.length + d.between.length) := by
        simp [Declaration.head, Nat.add_assoc]
      rw [diagnostics_append, hlaterdiagnostics, hvaluediagnostics _ hfront]
      simp [written_cons, text_eq_head]

end

/-! ### What is replaced and what is diagnosed -/

theorem Substituted.inOrder {start : Nat} {t r : Text} {es : List Edit}
    (h : Substituted start t es r) : InOrder start (es.map Edit.span) := by
  induction h with
  | rest start t => trivial
  | edit start kept old new h ih => exact ⟨Nat.le_add_right _ _, ih⟩

theorem Substituted.eq_of_nil {start : Nat} {t r : Text} (h : Substituted start t [] r) :
    r = t := by
  cases h with
  | rest => rfl

/-- The diagnostic is about characters of the text, the first of them before the last. -/
theorem Diagnostic.ofProblem_bounds (t : Text) (site : Span) (p : Problem) :
    (ofProblem t site p).start ≤ (ofProblem t site p).stop ∧
      (ofProblem t site p).stop ≤ t.length :=
  ⟨Text.charOffset_mono (Nat.le_max_left _ _) t, Text.charOffset_le_length t _⟩

theorem exists_rejected_of_mem_diagnostics {t : Text} {rs : List Ruling} {d : Diagnostic}
    (h : d ∈ diagnostics t rs) :
    ∃ r ∈ rs, ∃ p, r.verdict = .rejected p ∧ d = .ofProblem t r.site.span p := by
  obtain ⟨r, hr, hd⟩ := List.mem_filterMap.mp h
  split at hd
  · next p hverdict => exact ⟨r, hr, p, hverdict, (Option.some.inj hd).symm⟩
  · cases hd

/-- The stretch is an accepted call in the value of a declaration that is searched. -/
def AcceptedIn (reader : CallReader) (o : HostOptions) (ds : List Declaration) (span : Span) :
    Prop :=
  ∃ earlier d later site c, ds = earlier ++ d :: later ∧ o.wants d.property = true ∧
    site ∈ callSites d.value ∧ (reader o (site.text d.value)).value = .ok c ∧
    site.span.stop ≤ Text.byteSize d.value ∧
    span = site.span.shift (Text.byteSize (beforeValue earlier d))

/-- The diagnostic is one of the value of a declaration that is searched, and lies within the
    characters of that value. -/
def DiagnosedIn (reader : CallReader) (o : HostOptions) (ds : List Declaration)
    (diagnostic : Diagnostic) : Prop :=
  ∃ earlier d later, ds = earlier ++ d :: later ∧ o.wants d.property = true ∧
    (∃ inner ∈ diagnostics d.value (rulings (reader o) d.value),
      diagnostic = inner.shift (beforeValue earlier d).length) ∧
    (beforeValue earlier d).length ≤ diagnostic.start ∧ diagnostic.start ≤ diagnostic.stop ∧
    diagnostic.stop ≤ (beforeValue earlier d ++ d.value).length

section

variable {reader : CallReader} {o : HostOptions} {ds : List Declaration}

theorem acceptedIn_of_mem_replacedSpans {span : Span}
    (h : span ∈ replacedSpans (sheetRulings (reader o) o 0 ds)) : AcceptedIn reader o ds span := by
  obtain ⟨r, hr, rfl, c, hverdict⟩ := exists_replaced_of_mem_replacedSpans h
  obtain ⟨earlier, d, later, inner, hds, hwants, hinner, rfl⟩ :=
    exists_ruling_of_mem_sheetRulings hr
  obtain ⟨before, after, hsplit⟩ := List.append_of_mem hinner
  have hsite := mem_callSites_of_mem_rulings hinner
  refine ⟨earlier, d, later, inner.site, c, hds, hwants, hsite,
    (((rulings_due hsplit).replaced c).mp hverdict).1, CallSite.stop_le_byteSize hsite, ?_⟩
  rw [Nat.zero_add]
  rfl

theorem diagnosedIn_of_mem_diagnostics {rest : Text} {diagnostic : Diagnostic}
    (h : diagnostic ∈ diagnostics (written ds ++ rest) (sheetRulings (reader o) o 0 ds)) :
    DiagnosedIn reader o ds diagnostic := by
  obtain ⟨r, hr, p, hverdict, rfl⟩ := exists_rejected_of_mem_diagnostics h
  obtain ⟨earlier, d, later, inner, rfl, hwants, hinner, rfl⟩ :=
    exists_ruling_of_mem_sheetRulings hr
  have hstop := CallSite.stop_le_byteSize (mem_callSites_of_mem_rulings hinner)
  have hplace : Diagnostic.ofProblem (written (earlier ++ d :: later) ++ rest)
      (inner.site.span.shift (0 + Text.byteSize (beforeValue earlier d))) p
        = (Diagnostic.ofProblem d.value inner.site.span p).shift
          (beforeValue earlier d).length := by
    rw [written_split, List.append_assoc, List.append_assoc, Nat.zero_add,
      Diagnostic.ofProblem_shift, Diagnostic.ofProblem_append hstop]
  have hmem : Diagnostic.ofProblem d.value inner.site.span p
      ∈ diagnostics d.value (rulings (reader o) d.value) := by
    have hrejected : inner.verdict = .rejected p := hverdict
    exact List.mem_filterMap.mpr ⟨inner, hinner, by rw [hrejected]⟩
  obtain ⟨hle, hend⟩ := Diagnostic.ofProblem_bounds d.value inner.site.span p
  refine ⟨earlier, d, later, rfl, hwants, ⟨_, hmem, hplace⟩, ?_⟩
  change _ ≤ (Diagnostic.ofProblem _ (inner.site.span.shift _) p).start ∧ _
  rw [Ruling.shift, CallSite.span_shift, hplace, List.length_append]
  simp only [Diagnostic.shift]
  omega

end

/-! ### Style sheets -/

section

variable (reader : CallReader) (o : HostOptions) (css : Text) (table : FloorCache)

theorem substituted_expandStyleSheet :
    let rs := sheetRulings (reader o) o 0 (declarations css).1
    let expanded := (expandStyleSheet reader o css table).value.1
    Substituted 0 css (computedEdits o table rs).1 expanded.text ∧
      expanded.diagnostics = diagnostics css rs := by
  intro rs expanded
  have hvalue : (expandDeclarations reader o ([] : Text).length (declarations css).1 table).value
      = (_, _) := rfl
  obtain ⟨htext, -, hdiagnostics⟩ :=
    substituted_expandDeclarations reader o [] (declarations css).2 hvalue
  have hcss := (scanned_declarations css).text_eq
  rw [List.nil_append, ← hcss] at hdiagnostics
  refine ⟨?_, hdiagnostics⟩
  have hjoined := htext.append (.rest _ (declarations css).2)
  rw [List.append_nil, ← hcss] at hjoined
  exact hjoined

end

/-- **Expanding a style sheet loses nothing.**  The heads and values of its declarations lie side
    by side from the beginning of the text on, and behind them no declaration begins.  The text is
    exchanged at stretches that lie apart in order, each of them an accepted call in a value that is
    searched, and kept everywhere else; every diagnostic lies in the value that it comes from. -/
theorem expandStyleSheet_lossless (reader : CallReader) (o : HostOptions) (css : Text)
    (table : FloorCache) :
    let ds := (declarations css).1
    let rest := (declarations css).2
    let rs := sheetRulings (reader o) o 0 ds
    let replaced := rs.filterMap Ruling.replacement?
    let expanded := (expandStyleSheet reader o css table).value.1
    Scanned css ds rest ∧ css = written ds ++ rest ∧
    (∃ es : List Edit, es.map Edit.span = replaced.map Prod.fst ∧
      es.map Edit.replacement = colours o (replaced.map Prod.snd) table ∧
      Substituted 0 css es expanded.text ∧ InOrder 0 (es.map Edit.span) ∧
      ∀ e ∈ es, AcceptedIn reader o ds e.span) ∧
    expanded.diagnostics = diagnostics css rs ∧
    (∀ diagnostic ∈ expanded.diagnostics, DiagnosedIn reader o ds diagnostic) ∧
    ((∀ d ∈ ds, o.wants d.property = true → ∀ site ∈ callSites d.value, ∀ c,
        (reader o (site.text d.value)).value ≠ .ok c) → expanded.text = css) := by
  intro ds rest rs replaced expanded
  have hscanned : Scanned css ds rest := scanned_declarations css
  have hcss : css = written ds ++ rest := hscanned.text_eq
  obtain ⟨hsubstituted, hdiagnostics⟩ := substituted_expandStyleSheet reader o css table
  obtain ⟨hspans, hcolours⟩ := edits_eq o rs table
  have haccepted : ∀ e ∈ (computedEdits o table rs).1, AcceptedIn reader o ds e.span := by
    intro e he
    apply acceptedIn_of_mem_replacedSpans
    rw [← hspans]
    exact List.mem_map_of_mem he
  refine ⟨hscanned, hcss, ⟨_, hspans, hcolours, hsubstituted, hsubstituted.inOrder, haccepted⟩,
    hdiagnostics, ?_, ?_⟩
  · intro diagnostic hmem
    have hwritten : diagnostic ∈ diagnostics (written ds ++ rest) rs := by
      rw [← hcss, ← hdiagnostics]
      exact hmem
    exact diagnosedIn_of_mem_diagnostics hwritten
  · intro hnone
    have hempty : (computedEdits o table rs).1 = [] := by
      rw [List.eq_nil_iff_forall_not_mem]
      intro e he
      obtain ⟨earlier, d, later, site, c, hds, hwants, hsite, hread, -⟩ := haccepted e he
      exact hnone d (by simp [hds]) hwants site hsite c hread
    rw [hempty] at hsubstituted
    exact hsubstituted.eq_of_nil

/-- The one call that is searched is rejected, and the other is in a value that is not searched. -/
theorem expandStyleSheet_lossless_rejected :
    let css : Text := "a \x7b color: egal(none); width: egal(none none none)\x7d".toList
    let o : HostOptions := default
    (∀ d ∈ (declarations css).1, o.wants d.property = true → ∀ site ∈ callSites d.value, ∀ c,
        (standardReader o (site.text d.value)).value ≠ .ok c) ∧
      (expandStyleSheet standardReader o css .new).value.1.text = css := by
  intro css o
  let color : Declaration := ⟨"a \x7b ".toList, "color".toList, ": ".toList, "egal(none)".toList⟩
  let width : Declaration :=
    ⟨"; ".toList, "width".toList, ": ".toList, "egal(none none none)".toList⟩
  have hdeclarations : (declarations css).1 = [color, width] := by decide +kernel
  have hsites : callSites color.value = [⟨⟨0, 10⟩, ⟨5, 9⟩, true⟩] := by decide
  have hwidth : o.wants width.property = false := by decide +kernel
  have hnone : ∀ d ∈ (declarations css).1, o.wants d.property = true → ∀ site ∈ callSites d.value,
      ∀ c, (standardReader o (site.text d.value)).value ≠ .ok c := by
    rw [hdeclarations]
    intro d hd hwants site hsite c hread
    simp only [List.mem_cons, List.not_mem_nil, or_false] at hd
    rcases hd with rfl | rfl
    · rw [hsites] at hsite
      obtain rfl := List.mem_singleton.mp hsite
      cases hread
    · rw [hwidth] at hwants
      cases hwants
  obtain ⟨-, -, -, -, -, hkept⟩ := expandStyleSheet_lossless standardReader o css .new
  exact ⟨hnone, hkept hnone⟩

end EvenChroma.Css
