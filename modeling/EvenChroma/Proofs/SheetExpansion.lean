/-
  EvenChroma/Proofs/SheetExpansion.lean
  =====================================
  **A sheet of declarations is expanded declaration by declaration.**  Written between
  braces, each with a semicolon behind it, declarations are found again as they are: the
  scan starts afresh behind each value.  So the sheet is expanded as its values are, one
  after the other on the same table of floors, and all else in it is kept.
-/
import EvenChroma.Proofs.DeclarationValues

namespace EvenChroma

/-! ### Computations that log -/

instance {ι : Type} : LawfulMonad (Logged ι) :=
  LawfulMonad.mk' (Logged ι)
    (fun m => congrArg (Logged.mk m.value) (List.append_nil m.log))
    (fun b f => congrArg (Logged.mk (f b).value) (List.nil_append (f b).log))
    (fun _ _ _ => congrArg (Logged.mk _) (List.append_assoc _ _ _))

namespace Css

/-! ### Declarations on their own -/

structure Entry where
  property : Text
  between : Text
  value : Text

inductive PropertyName : Text → Prop where
  | custom {name : Text} (hname : name ≠ []) (hchars : ∀ c ∈ name, isCustomChar c = true) :
    PropertyName ('-' :: '-' :: name)
  | plain {c : Char} {name : Text} (hc : c.isAlpha = true)
    (hchars : ∀ c ∈ name, isPropertyChar c = true) : PropertyName (c :: name)
  | vendor {c : Char} {name : Text} (hc : c.isAlpha = true)
    (hchars : ∀ c ∈ name, isPropertyChar c = true) : PropertyName ('-' :: c :: name)

def Colon (t : Text) : Prop :=
  ∃ front back, t = front ++ ':' :: back ∧ (∀ c ∈ front, Text.isBlank c = true) ∧
    ∀ c ∈ back, Text.isBlank c = true

/-- The value closes all quotes and parentheses that it opens, and has no semicolon and no
    brace outside of them. -/
structure Complete (value : Text) : Prop where
  inner : ∀ s c t, value = s ++ c :: t → endsValue c = true → Nesting.bare.after s ≠ .bare
  closed : Nesting.bare.after value = .bare

structure Entry.WellFormed (e : Entry) : Prop where
  property : PropertyName e.property
  between : Colon e.between
  value : Complete e.value
  value_begins : ∀ c t, e.value = c :: t → Text.isBlank c = false

def Entry.text (e : Entry) : Text := e.property ++ (e.between ++ e.value)

def sheetBody (es : List Entry) : Text := es.flatMap fun e => e.text ++ [';']

/-- The declarations between braces, with a semicolon behind each. -/
def sheet (es : List Entry) : Text := '\x7b' :: (sheetBody es ++ ['\x7d'])

/-! ### Finding them again -/

theorem splitProperty_of_propertyName {property : Text} (h : PropertyName property) {c : Char}
    (hc : isCustomChar c = false) (t : Text) :
    splitProperty (property ++ c :: t) = some (property, c :: t) := by
  have hc' : isPropertyChar c = false := by
    simp only [isCustomChar, Bool.or_eq_false_iff] at hc
    exact hc.1
  have halpha : ∀ d : Char, d.isAlpha = true → d ≠ '-' := by
    rintro d hd rfl
    cases hd
  cases h with
  | @custom name hname hchars =>
    simp [splitProperty, List.takeWhile_append_of_pos hchars, List.dropWhile_append_of_pos hchars,
      hc, hname]
  | @plain d name hd hchars =>
    simp [splitProperty, List.takeWhile_append_of_pos hchars, List.dropWhile_append_of_pos hchars,
      hc', hd, halpha d hd]
  | @vendor d name hd hchars =>
    simp [splitProperty, List.takeWhile_append_of_pos hchars, List.dropWhile_append_of_pos hchars,
      hc', hd, halpha d hd]

theorem splitColon_of_colon {between : Text} (h : Colon between) {c : Char}
    (hc : Text.isBlank c = false) (t : Text) :
    splitColon (between ++ c :: t) = some (between, c :: t) := by
  obtain ⟨front, back, rfl, hfront, hback⟩ := h
  have hcolon : Text.isBlank ':' = false := by decide
  simp [splitColon, List.takeWhile_append_of_pos hfront, List.dropWhile_append_of_pos hfront,
    List.takeWhile_append_of_pos hback, List.dropWhile_append_of_pos hback, hc, hcolon]

theorem sheetBody_cons (e : Entry) (es : List Entry) (t : Text) :
    sheetBody (e :: es) ++ t = e.text ++ ';' :: (sheetBody es ++ t) := by
  simp [sheetBody]

theorem declarationHere?_entry {e : Entry} (he : e.WellFormed) (t : Text) :
    declarationHere? (e.text ++ ';' :: t)
      = some ⟨[], e.property, e.between, e.value ++ ';' :: t⟩ := by
  obtain ⟨d, between, hbetween, hd⟩ : ∃ d between, e.between = d :: between ∧
      isCustomChar d = false := by
    obtain ⟨front, back, hbetween, hfront, -⟩ := he.between
    cases front with
    | nil => exact ⟨':', back, hbetween, by decide⟩
    | cons d front =>
      exact ⟨d, front ++ ':' :: back, hbetween,
        eq_false_of_isBlank (by decide +kernel) (hfront d (by simp))⟩
  obtain ⟨v, value, hvalue, hv⟩ : ∃ v value, e.value ++ ';' :: t = v :: value ∧
      Text.isBlank v = false := by
    cases hvalue : e.value with
    | nil => exact ⟨';', t, rfl, by decide⟩
    | cons v value => exact ⟨v, value ++ ';' :: t, rfl, he.value_begins v value hvalue⟩
  have hproperty := splitProperty_of_propertyName he.property hd (between ++ (e.value ++ ';' :: t))
  have hcolon := splitColon_of_colon he.between hv value
  rw [← List.cons_append, ← hbetween] at hproperty
  rw [← hvalue] at hcolon
  rw [Entry.text, List.append_assoc, List.append_assoc]
  simp [declarationHere?, hproperty, hcolon]

/-- A value is complete exactly if a semicolon ends it, whatever comes next. -/
theorem complete_iff (value t : Text) :
    Complete value ↔ splitValue .outside 0 (value ++ ';' :: t) = (value, ';' :: t) := by
  have hscan := splitValue_eq_iff .bare value (';' :: t)
  constructor
  · intro h
    apply hscan.mpr
    refine ⟨h.inner, ?_⟩
    intro c u hc
    obtain ⟨rfl, -⟩ := List.cons.inj hc
    exact ⟨rfl, h.closed⟩
  · intro h
    obtain ⟨hinner, hrest⟩ := hscan.mp h
    exact ⟨hinner, (hrest ';' t rfl).2⟩

theorem declarationHere?_eq_none {t : Text} (h : splitProperty t = none) :
    declarationHere? t = none := by
  simp [declarationHere?, h]

/-- The declarations of a sheet as they are found, the first behind the character `gap`. -/
def found : (gap : Char) → List Entry → List Declaration
  | _, [] => []
  | gap, e :: es => ⟨[gap], e.property, e.between, e.value⟩ :: found ';' es

/-- What is left of the sheet behind the last value. -/
def ending : (gap : Char) → List Entry → Text
  | gap, [] => [gap, '}']
  | _, _ :: es => ending ';' es

theorem declarationsFrom_sheetBody {gap : Char} (hgap : ∀ t, splitProperty (gap :: t) = none)
    {es : List Entry} (hes : ∀ e ∈ es, e.WellFormed) {fuel : Nat} (hfuel : es.length ≤ fuel) :
    declarationsFrom fuel (gap :: (sheetBody es ++ ['\x7d'])) = (found gap es, ending gap es) := by
  induction es generalizing gap fuel with
  | nil =>
    cases fuel with
    | zero => rfl
    | succ fuel =>
      have hbrace : declarationStart? ['\x7d'] = none := by decide
      have hnone : declarationStart? [gap, '}'] = none := by
        rw [declarationStart?, declarationHere?_eq_none (hgap _), hbrace]
        rfl
      change declarationsFrom (fuel + 1) [gap, '}'] = _
      rw [declarationsFrom, hnone]
      rfl
  | cons e es ih =>
    obtain ⟨he, hes⟩ := List.forall_mem_cons.mp hes
    cases fuel with
    | zero => cases hfuel
    | succ fuel =>
      have hsemicolon : ∀ t, splitProperty (';' :: t) = none := fun _ => rfl
      have hlater := ih hsemicolon hes (Nat.le_of_succ_le_succ hfuel)
      have hentry := declarationHere?_entry he (sheetBody es ++ ['\x7d'])
      have hstart : declarationStart? (e.text ++ ';' :: (sheetBody es ++ ['\x7d']))
          = some ⟨[], e.property, e.between, e.value ++ ';' :: (sheetBody es ++ ['\x7d'])⟩ := by
        generalize e.text ++ ';' :: (sheetBody es ++ ['\x7d']) = t at hentry ⊢
        cases t with
        | nil => cases hentry
        | cons c t => rw [declarationStart?, hentry]
      rw [sheetBody_cons, declarationsFrom, declarationStart?, declarationHere?_eq_none (hgap _),
        hstart]
      dsimp only [Option.map_some]
      rw [(complete_iff _ _).mp he.value]
      dsimp only
      rw [hlater]
      rfl

theorem length_le_sheetBody (es : List Entry) : es.length ≤ (sheetBody es).length := by
  induction es with
  | nil => exact Nat.le_refl 0
  | cons e es ih =>
    have hcons := congrArg List.length (sheetBody_cons e es [])
    simp only [List.length_append, List.length_cons, List.length_nil] at hcons ⊢
    omega

theorem declarations_sheet {es : List Entry} (hes : ∀ e ∈ es, e.WellFormed) :
    declarations (sheet es) = (found '\x7b' es, ending '\x7b' es) := by
  have hfuel : es.length ≤ (sheet es).length := by
    have := length_le_sheetBody es
    simp only [sheet, List.length_cons, List.length_append]
    omega
  exact declarationsFrom_sheetBody (fun t => rfl) hes hfuel

/-! ### Expanding them -/

/-- The declaration with the value that its expansion gives, if it is expanded. -/
def Entry.replace (e : Entry) (result : Option Expanded) : Entry :=
  { e with value := (result.map Expanded.text).getD e.value }

/-- The diagnostics of declarations, the first of which begins at character `start`. -/
def sheetDiagnostics : (start : Nat) → List Entry → List (Option Expanded) → List Diagnostic
  | start, e :: es, r :: rs =>
    ((r.map Expanded.diagnostics).getD []).map (·.shift start)
      ++ sheetDiagnostics (start + (e.text ++ [';']).length) es rs
  | _, _, _ => []

variable (reader : CallReader) (o : HostOptions)

def Entry.expand (e : Entry) : ColorM (Option Expanded) :=
  expandDeclaration reader o e.property e.between e.value

theorem expandDeclarations_found (gap : Char) (start : Nat) (es : List Entry) :
    (do
      let e ← expandDeclarations reader o start (found gap es)
      pure (⟨e.text ++ ending gap es, e.diagnostics⟩ : Expanded)) =
    (do
      let results ← es.mapM (·.expand reader o)
      pure ⟨gap :: (sheetBody (List.zipWith Entry.replace es results) ++ ['\x7d']),
        sheetDiagnostics (start + 1) es results⟩) := by
  induction es generalizing gap start with
  | nil =>
    simp [found, ending, expandDeclarations, sheetBody, sheetDiagnostics]
  | cons e es ih =>
    simp only [found, ending, expandDeclarations, List.mapM_cons, bind_assoc, pure_bind]
    change (Entry.expand reader o e >>= _) = (Entry.expand reader o e >>= _)
    congr 1
    funext result
    -- what the first declaration puts in front of the others
    let front : Expanded := result.getD ⟨e.value, []⟩
    let prepend : Expanded → Expanded := fun later =>
      ⟨gap :: (e.property ++ (e.between ++ (front.text ++ later.text))),
        front.diagnostics.map (·.shift (start + 1)) ++ later.diagnostics⟩
    have hstop : start + [gap].length + e.property.length + e.between.length + e.value.length + 1
        = start + 1 + (e.text ++ [';']).length := by
      simp only [Entry.text, List.length_append, List.length_cons, List.length_nil]
      omega
    have hlater := congrArg (· >>= fun later => pure (prepend later))
      (ih ';' (start + [gap].length + e.property.length + e.between.length + e.value.length))
    simp only [bind_assoc, pure_bind, hstop] at hlater
    refine Eq.trans ?_ (hlater.trans ?_)
    · congr 1
      funext later
      simp [prepend, front]
    · congr 1
      funext results
      cases result with
      | none => simp [prepend, front, Entry.replace, sheetDiagnostics, sheetBody, Entry.text]
      | some expanded =>
        simp [prepend, front, Entry.replace, sheetDiagnostics, sheetBody, Entry.text]

/-- **A sheet is expanded as its declarations are, one after the other.** -/
theorem expandStyleSheet_sheet {es : List Entry} (hes : ∀ e ∈ es, e.WellFormed) :
    expandStyleSheet reader o (sheet es) = (do
      let results ← es.mapM (·.expand reader o)
      pure ⟨sheet (List.zipWith Entry.replace es results), sheetDiagnostics 1 es results⟩) := by
  rw [expandStyleSheet, declarations_sheet hes]
  exact expandDeclarations_found reader o _ 0 es

/-- The first value has a quoted brace and a semicolon inside a list, the second is empty. -/
theorem expandStyleSheet_two_declarations :
    let es : List Entry := [⟨"--brand".toList, ": ".toList, "egal('\x7b' (;))".toList⟩,
      ⟨"-webkit-x".toList, " :".toList, []⟩]
    (∀ e ∈ es, e.WellFormed) ∧
      expandStyleSheet standardReader default (sheet es) = (do
        let results ← es.mapM (·.expand standardReader default)
        pure ⟨sheet (List.zipWith Entry.replace es results), sheetDiagnostics 1 es results⟩) := by
  intro es
  have hblanks : ∀ c ∈ [' '], Text.isBlank c = true := List.all_eq_true.mp (by decide)
  have hwellFormed : ∀ e ∈ es, e.WellFormed := by
    intro e he
    simp only [es, List.mem_cons, List.not_mem_nil, or_false] at he
    rcases he with rfl | rfl
    · have hproperty : PropertyName ('-' :: '-' :: "brand".toList) :=
        .custom (by decide) (List.all_eq_true.mp (by decide))
      refine ⟨hproperty, ⟨[], [' '], rfl, nofun, hblanks⟩,
        (complete_iff _ []).mpr (by decide), ?_⟩
      intro c t hvalue
      obtain rfl : 'e' = c := (List.cons.inj hvalue).1
      decide
    · have hproperty : PropertyName ('-' :: 'w' :: "ebkit-x".toList) :=
        .vendor (by decide) (List.all_eq_true.mp (by decide))
      exact ⟨hproperty, ⟨[' '], [], rfl, hblanks, nofun⟩,
        (complete_iff _ []).mpr (by decide), nofun⟩
  exact ⟨hwellFormed, expandStyleSheet_sheet standardReader default hwellFormed⟩

end Css

end EvenChroma
