/-
  EvenChroma/Proofs/DeclarationValues.lean
  ========================================
  **Where values of declarations end.**  The value of a declaration is scanned with its
  quotes and parentheses (`Nesting`), and ends before the first semicolon or brace outside
  of both.  A call is a parenthesis, so a value never ends inside a call: the search for
  the end of the call and the scan of the value go side by side, the scan one list deeper
  (`nesting_of_scan`).
-/
import EvenChroma.Css.StyleSheet
import EvenChroma.Proofs.CallSites

namespace EvenChroma.Css

/-! ### The scan of a value -/

/-- Whether a scan is inside quotes, and how many lists are open. -/
@[ext] structure Nesting where
  quoting : Quoting
  depth : Nat
deriving DecidableEq, Repr

namespace Nesting

def bare : Nesting := ⟨.outside, 0⟩

/-- A parenthesis counts outside quotes, and one that closes nothing is passed over. -/
def next (n : Nesting) (c : Char) : Nesting :=
  ⟨n.quoting.next c,
    if n.quoting = .outside then
      if c = '(' then n.depth + 1 else if c = ')' then n.depth - 1 else n.depth
    else n.depth⟩

def after (n : Nesting) (t : Text) : Nesting := t.foldl next n

@[simp] theorem after_nil (n : Nesting) : n.after [] = n := rfl

@[simp] theorem after_cons (n : Nesting) (c : Char) (t : Text) :
    n.after (c :: t) = (n.next c).after t := rfl

@[simp] theorem after_append (n : Nesting) (s t : Text) :
    n.after (s ++ t) = (n.after s).after t := List.foldl_append

theorem quoting_after (n : Nesting) (t : Text) :
    (n.after t).quoting = t.foldl Quoting.next n.quoting := by
  induction t generalizing n with
  | nil => rfl
  | cons c t ih => exact ih (n.next c)

end Nesting

theorem splitValue_cons (n : Nesting) (c : Char) (t : Text) :
    splitValue n.quoting n.depth (c :: t) =
      if endsValue c = true ∧ n = .bare then ([], c :: t)
      else (c :: (splitValue (n.next c).quoting (n.next c).depth t).1,
        (splitValue (n.next c).quoting (n.next c).depth t).2) := by
  obtain ⟨q, depth⟩ := n
  cases q with
  | outside => simp [splitValue, Nesting.next, Nesting.bare]
  | inside quote => simp [splitValue, Nesting.next, Nesting.bare]
  | escaped quote => simp [splitValue, Nesting.next, Nesting.bare]

/-- **A value has no semicolon and no brace outside quotes and parentheses, and ends at one
    or with the text.** -/
theorem splitValue_eq_iff (n : Nesting) (value rest : Text) :
    splitValue n.quoting n.depth (value ++ rest) = (value, rest) ↔
      (∀ s c t, value = s ++ c :: t → endsValue c = true → n.after s ≠ .bare) ∧
      ∀ c t, rest = c :: t → endsValue c = true ∧ n.after value = .bare := by
  induction value generalizing n with
  | nil =>
    cases rest with
    | nil => simp [splitValue]
    | cons c t =>
      rw [List.nil_append, splitValue_cons]
      constructor
      · intro h
        split at h
        · next hends =>
          refine ⟨by simp, ?_⟩
          rintro d u hd
          obtain ⟨rfl, rfl⟩ := List.cons.inj hd
          exact hends
        · cases congrArg Prod.fst h
      · rintro ⟨-, hrest⟩
        have hends : endsValue c = true ∧ n = .bare := hrest c t rfl
        rw [if_pos hends]
  | cons c value ih =>
    rw [List.cons_append, splitValue_cons]
    constructor
    · intro h
      split at h
      · cases congrArg Prod.fst h
      · next hends =>
        have htail : splitValue (n.next c).quoting (n.next c).depth (value ++ rest)
            = (value, rest) :=
          Prod.ext (List.cons.inj (Prod.mk.inj h).1).2 (Prod.mk.inj h).2
        obtain ⟨hvalue, hrest⟩ := (ih _).mp htail
        refine ⟨?_, hrest⟩
        intro s d t hsplit hd
        cases s with
        | nil =>
          obtain ⟨rfl, rfl⟩ := List.cons.inj hsplit
          exact fun hbare => hends ⟨hd, hbare⟩
        | cons e s =>
          obtain ⟨rfl, hvaluesplit⟩ := List.cons.inj hsplit
          exact hvalue s d t hvaluesplit hd
    · rintro ⟨hvalue, hrest⟩
      have htail := (ih (n.next c)).mpr
        ⟨fun s d t hsplit hd => hvalue (c :: s) d t (congrArg (c :: ·) hsplit) hd, hrest⟩
      rw [if_neg fun hends => hvalue [] c value rfl hends.1 hends.2, htail]

theorem splitValue_append (n : Nesting) (t : Text) :
    (splitValue n.quoting n.depth t).1 ++ (splitValue n.quoting n.depth t).2 = t := by
  induction t generalizing n with
  | nil => rfl
  | cons c t ih =>
    rw [splitValue_cons]
    split
    · rfl
    · exact congrArg (c :: ·) (ih (n.next c))

/-- A value and what the scan leaves behind it make up the text. -/
theorem append_of_splitValue {t value after : Text}
    (h : splitValue .outside 0 t = (value, after)) : value ++ after = t := by
  have happend := splitValue_append .bare t
  change (splitValue .outside 0 t).1 ++ (splitValue .outside 0 t).2 = t at happend
  rwa [h] at happend

/-! ### Calls in a value -/

theorem next_of_openAfter? {q : Quoting} {depth depth' : Nat} {c : Char}
    (h : openAfter? q depth c = some depth') (outer : Nat) :
    (⟨q, depth + outer⟩ : Nesting).next c = ⟨q.next c, depth' + outer⟩ := by
  have hdeeper := openAfter?_add h outer
  cases q with
  | outside =>
    by_cases hclose : c = ')'
    · subst hclose
      cases hdepth : depth + outer with
      | zero => simp [openAfter?, hdepth] at hdeeper
      | succ inner => simpa [openAfter?, hdepth, Nesting.next] using hdeeper
    · simpa [openAfter?, hclose, Nesting.next] using hdeeper
  | inside quote => simpa [openAfter?, Nesting.next] using hdeeper
  | escaped quote => simpa [openAfter?, Nesting.next] using hdeeper

/-- As long as the search for the closing parenthesis goes on, the scan of a value goes along
    with it, with the lists open that were open before. -/
theorem nesting_of_scan {q q' : Quoting} {depth depth' : Nat} {t : Text}
    (h : scan q depth t = some (q', depth')) (outer : Nat) :
    (⟨q, depth + outer⟩ : Nesting).after t = ⟨q', depth' + outer⟩ := by
  induction t generalizing q depth with
  | nil =>
    obtain ⟨rfl, rfl⟩ := Prod.mk.inj (Option.some.inj h)
    rfl
  | cons c t ih =>
    rw [scan_cons] at h
    obtain ⟨inner, hopen, hscan⟩ := Option.bind_eq_some_iff.mp h
    rw [Nesting.after_cons, next_of_openAfter? hopen]
    exact ih hscan

/-- Only the end of the text ends a value inside a list. -/
theorem rest_eq_nil {value rest : Text}
    (hvalue : splitValue .outside 0 (value ++ rest) = (value, rest))
    (hdepth : (Nesting.bare.after value).depth ≠ 0) : rest = [] := by
  cases rest with
  | nil => rfl
  | cons c t =>
    obtain ⟨-, hrest⟩ := (splitValue_eq_iff .bare value (c :: t)).mp hvalue
    have hbare := (hrest c t rfl).2
    rw [hbare] at hdepth
    exact (hdepth rfl).elim

/-- **A call that begins outside quotes ends where it ends in its value.** -/
theorem at_append_rest {s u rest : Text}
    (hvalue : splitValue .outside 0 (s ++ u ++ rest) = (s ++ u, rest))
    (houtside : s.foldl Quoting.next .outside = .outside) (hu : startsCall u = true) (start : Nat) :
    CallSite.at start (u ++ rest) = .at start u := by
  obtain ⟨name, arguments, rfl, hname⟩ := startsCall_iff.mp hu
  cases hclose : closingParen? .outside 0 arguments with
  | some n =>
    have hlonger := closingParen?_append_of_eq_some hclose rest
    rw [List.append_assoc]
    simp only [CallSite.at, drop_name hname, hclose, hlonger]
  | none =>
    have hscan := (closingParen?_eq_none_iff _ _ _).mp hclose
    obtain ⟨⟨q, depth⟩, hscan⟩ := Option.isSome_iff_exists.mp hscan
    -- the scan of the value is in the list that the name opens, and in those of the arguments
    obtain ⟨outer, hs⟩ : ∃ outer, Nesting.bare.after s = ⟨.outside, outer⟩ := by
      refine ⟨(Nesting.bare.after s).depth, Nesting.ext ?_ rfl⟩
      exact (Nesting.quoting_after .bare s).trans houtside
    have hinner := nesting_of_scan (scan_name hname 0) outer
    have harguments := nesting_of_scan hscan (1 + outer)
    rw [Nat.zero_add] at hinner harguments
    have hdepth : (Nesting.bare.after (s ++ (name ++ arguments))).depth ≠ 0 := by
      rw [Nesting.after_append, Nesting.after_append, hs, hinner, Nat.zero_add, harguments]
      dsimp only
      omega
    obtain rfl := rest_eq_nil hvalue hdepth
    rw [List.append_nil]

/-! ### Finding declarations -/

/-- The declaration as it stands in the text. -/
def Declaration.text (d : Declaration) : Text := d.gap ++ (d.property ++ (d.between ++ d.value))

def written (ds : List Declaration) : Text := ds.flatMap Declaration.text

theorem splitProperty_append {t property rest : Text}
    (h : splitProperty t = some (property, rest)) : property ++ rest = t := by
  unfold splitProperty at h
  split at h
  · next t =>
    dsimp only at h
    split at h
    · cases h
    · cases h
      simp
  · next c t hc =>
    split at h
    · cases h
      simp
    · cases h
  · next c t hdash hminus =>
    split at h
    · cases h
      simp
    · cases h
  · cases h

def blankCodes : List Nat :=
  [9, 10, 11, 12, 13, 0x20, 0x85, 0xA0, 0x1680, 0x2000, 0x2001, 0x2002, 0x2003, 0x2004, 0x2005,
    0x2006, 0x2007, 0x2008, 0x2009, 0x200A, 0x2028, 0x2029, 0x202F, 0x205F, 0x3000]

/-- What holds of no code of a blank holds of no blank. -/
theorem eq_false_of_isBlank {p : Char → Bool} (hp : ∀ n ∈ blankCodes, p (Char.ofNat n) = false)
    {c : Char} (h : Text.isBlank c = true) : p c = false := by
  have hmem : c.toNat ∈ blankCodes := by
    simp only [Text.isBlank, Bool.or_eq_true, Bool.and_eq_true, decide_eq_true_eq] at h
    simp only [blankCodes, List.mem_cons, List.not_mem_nil]
    omega
  rw [← Char.ofNat_toNat c]
  exact hp _ hmem

theorem joinsName_of_isBlank {c : Char} (h : Text.isBlank c = true) : joinsName c = false :=
  eq_false_of_isBlank (by decide +kernel) h

/-- The text is not empty, and a name after it would not go on from it. -/
def EndsApart (t : Text) : Prop := ∃ front c, t = front ++ [c] ∧ joinsName c = false

theorem splitColon_append {t between rest : Text} (h : splitColon t = some (between, rest)) :
    between ++ rest = t ∧ EndsApart between := by
  unfold splitColon at h
  split at h
  · next r hr =>
    cases h
    have ht := List.takeWhile_append_dropWhile (p := Text.isBlank) (l := t)
    rw [hr] at ht
    constructor
    · rw [List.append_assoc, List.cons_append, List.takeWhile_append_dropWhile]
      exact ht
    · rcases List.eq_nil_or_concat (r.takeWhile Text.isBlank) with hnil | ⟨front, c, hconcat⟩
      · exact ⟨t.takeWhile Text.isBlank, ':', by rw [hnil], by decide⟩
      · have hblank : Text.isBlank c = true := by
          apply List.all_eq_true.mp (List.all_takeWhile (p := Text.isBlank) (l := r))
          rw [hconcat]
          simp
        refine ⟨t.takeWhile Text.isBlank ++ ':' :: front, c, ?_, joinsName_of_isBlank hblank⟩
        rw [hconcat]
        simp
  · cases h

theorem declarationHere?_append {t : Text} {d : DeclarationStart}
    (h : declarationHere? t = some d) :
    d.gap = [] ∧ d.property ++ (d.between ++ d.rest) = t ∧ EndsApart d.between := by
  simp only [declarationHere?, Option.bind_eq_bind, Option.bind_eq_some_iff] at h
  obtain ⟨⟨property, t'⟩, hproperty, ⟨between, rest⟩, hcolon, hd⟩ := h
  obtain rfl := Option.some.inj hd
  obtain ⟨hbetween, hend⟩ := splitColon_append hcolon
  refine ⟨rfl, ?_, hend⟩
  rw [← splitProperty_append hproperty]
  exact congrArg (property ++ ·) hbetween

theorem declarationStart?_append {t : Text} {d : DeclarationStart}
    (h : declarationStart? t = some d) :
    d.gap ++ (d.property ++ (d.between ++ d.rest)) = t ∧ EndsApart d.between := by
  induction t generalizing d with
  | nil => cases h
  | cons c t ih =>
    rw [declarationStart?] at h
    split at h
    · next d' hhere =>
      cases h
      obtain ⟨hgap, htext, hend⟩ := declarationHere?_append hhere
      rw [hgap]
      exact ⟨htext, hend⟩
    · obtain ⟨d', hd', rfl⟩ := Option.map_eq_some_iff.mp h
      obtain ⟨htext, hend⟩ := ih hd'
      exact ⟨congrArg (c :: ·) htext, hend⟩

/-- The declaration stands in the text, behind the text `before`, and its value ends where
    the scan ends it. -/
structure Declaration.StandsIn (d : Declaration) (t before after : Text) : Prop where
  text_eq : t = before ++ (d.text ++ after)
  between_end : EndsApart d.between
  value_eq : splitValue .outside 0 (d.value ++ after) = (d.value, after)

theorem standsIn_of_declarationsFrom {fuel : Nat} {t : Text} {earlier later : List Declaration}
    {d : Declaration} (h : (declarationsFrom fuel t).1 = earlier ++ d :: later) :
    ∃ after, d.StandsIn t (written earlier) after := by
  induction fuel generalizing t earlier with
  | zero => simp [declarationsFrom] at h
  | succ fuel ih =>
    rw [declarationsFrom] at h
    split at h
    · simp at h
    · next start hstart =>
      obtain ⟨htext, hend⟩ := declarationStart?_append hstart
      obtain ⟨value, rest, hsplit⟩ : ∃ value rest,
          splitValue .outside 0 start.rest = (value, rest) := ⟨_, _, rfl⟩
      have hvalue := append_of_splitValue hsplit
      rw [hsplit] at h
      cases earlier with
      | nil =>
        obtain ⟨rfl, -⟩ := List.cons.inj h
        refine ⟨rest, ?_, hend, ?_⟩
        · rw [← htext, ← hvalue]
          simp [written, Declaration.text]
        · exact (congrArg (splitValue .outside 0) hvalue).trans hsplit
      | cons first earlier =>
        obtain ⟨rfl, hlater⟩ := List.cons.inj h
        obtain ⟨after, htext', hend', hvalue'⟩ := ih hlater
        refine ⟨after, ?_, hend', hvalue'⟩
        rw [← htext, ← hvalue, htext']
        simp [written, Declaration.text]

/-! ### Calls of a value are calls of the sheet -/

/-- What stands before the value of a declaration, from the end of the one before on. -/
def Declaration.head (d : Declaration) : Text := d.gap ++ (d.property ++ d.between)

theorem Declaration.StandsIn.exists_front {d : Declaration} {t before after : Text}
    (h : d.StandsIn t before after) :
    ∃ front c, t = front ++ c :: (d.value ++ after) ∧ joinsName c = false ∧
      Text.byteSize front + c.utf8Size = Text.byteSize before + Text.byteSize d.head := by
  obtain ⟨front, c, hbetween, hc⟩ := h.between_end
  refine ⟨before ++ (d.gap ++ (d.property ++ front)), c, ?_, hc, ?_⟩
  · rw [h.text_eq, Declaration.text, hbetween]
    simp
  · rw [Declaration.head, hbetween]
    simp only [Text.byteSize_append, Text.byteSize_cons, Text.byteSize_nil]
    omega

/-- **The calls of a value that begin outside quotes are calls of the style sheet**, with the
    same extent. -/
theorem shift_mem_callSites {css : Text} {earlier later : List Declaration} {d : Declaration}
    (h : (declarations css).1 = earlier ++ d :: later) :
    let start := Text.byteSize (written earlier) + Text.byteSize d.head
    (∃ before after, css = before ++ (d.value ++ after) ∧ Text.byteSize before = start) ∧
      ∀ site ∈ callSites d.value,
        (Text.takeBytes site.span.start d.value).foldl Quoting.next .outside = .outside →
        ∀ other, other ∈ callSites css ∧ other.span.start = start + site.span.start ↔
          other = site.shift start := by
  intro start
  obtain ⟨after, hstands⟩ := standsIn_of_declarationsFrom h
  obtain ⟨front, c, hcss, hc, hsize⟩ := hstands.exists_front
  refine ⟨⟨front ++ [c], after, by rw [hcss]; simp, by simpa using hsize⟩, ?_⟩
  intro site hsite houtside
  obtain ⟨s, u, hvalue, hu, hjoins, rfl⟩ := mem_callSites_iff.mp hsite
  rw [CallSite.start_at, hvalue, Text.takeBytes_append] at houtside
  have hat := at_append_rest (hvalue ▸ hstands.value_eq) houtside hu
  -- the value begins behind a colon or a blank, so its first name is a name there as well
  have hmem : (CallSite.at (Text.byteSize s) u).shift start ∈ callSites css := by
    rw [mem_callSites_iff]
    refine ⟨front ++ c :: s, u ++ after, ?_, ?_, ?_, ?_⟩
    · rw [hcss, hvalue]
      simp
    · exact startsCall_append hu after
    · rw [List.getLast?_append, List.getLast?_cons]
      cases hlast : s.getLast? with
      | none => simpa using hc
      | some e => simpa [hlast] using hjoins
    · rw [CallSite.shift_at, hat]
      congr 1
      simp only [Text.byteSize_append, Text.byteSize_cons]
      omega
  intro other
  constructor
  · rintro ⟨hother, hstart⟩
    refine eq_of_start_eq hother hmem ?_
    rw [hstart]
    exact Nat.add_comm _ _
  · rintro rfl
    exact ⟨hmem, Nat.add_comm _ _⟩

/-- Neither the quoted brace nor the inner list ends the value. -/
theorem shift_mem_callSites_quoted_brace :
    let css := "a\x7bb:1; color: egal('\x7d' (1))\x7d".toList
    let first : Declaration := ⟨"a\x7b".toList, "b".toList, ":".toList, "1".toList⟩
    let second : Declaration :=
      ⟨"; ".toList, "color".toList, ": ".toList, "egal('\x7d' (1))".toList⟩
    (declarations css).1 = [first] ++ second :: [] ∧
      ∀ other, other ∈ callSites css ∧ other.span.start = 14 ↔
        other = ⟨⟨14, 27⟩, ⟨19, 26⟩, true⟩ := by
  intro css first second
  have hdeclarations : (declarations css).1 = [first] ++ second :: [] := by decide
  have hsite : (⟨⟨0, 13⟩, ⟨5, 12⟩, true⟩ : CallSite) ∈ callSites second.value := by decide
  exact ⟨hdeclarations, (shift_mem_callSites hdeclarations).2 _ hsite rfl⟩

end EvenChroma.Css
