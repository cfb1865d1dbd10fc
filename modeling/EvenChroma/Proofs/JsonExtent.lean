/-
  EvenChroma/Proofs/JsonExtent.lean
  =================================
  **What values of JSON take of a text.**  Values, arrays and objects are read one inside
  the other with fuel, and for each of them one character pays for three calls.  So what
  was read once is read again in front of any other text, by induction on the fuel over
  the five readers at once (`all_taken`), and blanks around an object make no difference.
-/
import EvenChroma.Proofs.JsonLexemes
import Mathlib.Data.List.TakeWhile

namespace EvenChroma.Json

variable {t r : Text}

/-! ### Values -/

section

variable (fuel depth : Nat) (u : Text)

theorem readValue_null : readValue (fuel + 1) depth ('n' :: u) = readWord "ull".toList .null u := by
  simp [readValue, skipBlanks, isJsonBlank]

theorem readValue_true :
    readValue (fuel + 1) depth ('t' :: u) = readWord "rue".toList (.bool true) u := by
  simp [readValue, skipBlanks, isJsonBlank]

theorem readValue_false :
    readValue (fuel + 1) depth ('f' :: u) = readWord "alse".toList (.bool false) u := by
  simp [readValue, skipBlanks, isJsonBlank]

theorem readValue_minus : readValue (fuel + 1) depth ('-' :: u) = readNumber true u := by
  simp [readValue, skipBlanks, isJsonBlank]

theorem readValue_digit {c : Char} (hc : c.isDigit = true) :
    readValue (fuel + 1) depth (c :: u) = readNumber false (c :: u) := by
  have hne : ∀ d : Char, d.isDigit = false → c ≠ d := by
    rintro d hd rfl
    rw [hd] at hc
    cases hc
  have hblank : isJsonBlank c = false := by
    simp [isJsonBlank, hne ' ' rfl, hne '\t' rfl, hne '\n' rfl, hne '\r' rfl]
  simp [readValue, skipBlanks, hblank, hc, hne 'n' rfl, hne 't' rfl, hne 'f' rfl, hne '-' rfl]

theorem readValue_string : readValue (fuel + 1) depth ('"' :: u) = (do
    let (s, r) ← readString (u.length + 1) u
    .ok (.string s, r)) := by
  simp [readValue, skipBlanks, isJsonBlank]

theorem readValue_array : readValue (fuel + 1) (depth + 1) ('[' :: u) = (do
    let (items, r) ← readItems fuel depth true u
    .ok (.array items, r)) := by
  simp [readValue, skipBlanks, isJsonBlank]

theorem readValue_object : readValue (fuel + 1) (depth + 1) ('\x7b' :: u) = (do
    let (members, r) ← readMembers fuel depth true u
    .ok (.object members, r)) := by
  simp [readValue, skipBlanks, isJsonBlank]

end

/-- How a value that can be read begins. -/
inductive Head : (depth : Nat) → Char → Prop where
  | null {depth : Nat} : Head depth 'n'
  | true {depth : Nat} : Head depth 't'
  | false {depth : Nat} : Head depth 'f'
  | minus {depth : Nat} : Head depth '-'
  | digit {depth : Nat} {c : Char} (hc : c.isDigit = Bool.true) : Head depth c
  | string {depth : Nat} : Head depth '"'
  | array {depth : Nat} : Head (depth + 1) '['
  | object {depth : Nat} : Head (depth + 1) '\x7b'

theorem head_of_readValue {fuel depth : Nat} {c : Char} {x : Json × Text}
    (hskip : skipBlanks t = c :: r) (h : readValue (fuel + 1) depth t = .ok x) : Head depth c := by
  rw [readValue, hskip] at h
  dsimp only at h
  split_ifs at h with hn ht hf hminus hdigit hstring harray hobject
  · exact hn ▸ .null
  · exact ht ▸ .true
  · exact hf ▸ .false
  · exact hminus ▸ .minus
  · exact .digit hdigit
  · exact hstring ▸ .string
  · cases depth with
    | zero => cases h
    | succ depth => exact harray ▸ .array
  · cases depth with
    | zero => cases h
    | succ depth => exact hobject ▸ .object

/-- What a reader with fuel took off a text, and that it does so again, given fuel enough for
    what it took. -/
structure Taken {β : Type} (read : Nat → Text → Except Fault (β × Text)) (extra : Nat) (same : Prop)
    (t w : Text) (b : β) (r : Text) : Prop where
  nonempty : w ≠ []
  extent : ∀ fuel, 3 * w.length + extra ≤ fuel → Extent (read fuel) same t w b r

namespace Taken

variable {β : Type} {read later : Nat → Text → Except Fault (β × Text)} {extra : Nat} {same : Prop}
  {w : Text} {b : β} {c : Char}

theorem text_eq (h : Taken read extra same t w b r) : t = w ++ r :=
  (h.extent _ (Nat.le_refl _)).text_eq

theorem escaped (h : Taken read extra same t w b r) : Escaped w :=
  (h.extent _ (Nat.le_refl _)).escaped

/-- One character more pays for the fuel of the next reader. -/
theorem cons (hc : c ≠ '\\') (hread : ∀ fuel u, read (fuel + 1) (c :: u) = later fuel u)
    (hlater : ∀ fuel, 3 * w.length + extra + 2 ≤ fuel → Extent (later fuel) same t w b r) :
    Taken read extra same (c :: t) (c :: w) b r where
  nonempty := List.cons_ne_nil _ _
  extent := by
    intro fuel hfuel
    rw [List.length_cons] at hfuel
    cases fuel with
    | zero => omega
    | succ fuel => exact .cons hc (hread fuel) (hlater fuel (by omega))

theorem exists_cons (h : Taken read extra same (c :: t) w b r) :
    ∃ w', w = c :: w' ∧ t = w' ++ r := by
  have htext := h.text_eq
  cases w with
  | nil => exact (h.nonempty rfl).elim
  | cons d w =>
    obtain ⟨rfl, ht⟩ := List.cons.inj htext
    exact ⟨w, rfl, ht⟩

/-- The same text in front of which another reader reads like this one. -/
theorem congr {other : Nat → Text → Except Fault (β × Text)} {extra' : Nat}
    (h : Taken later extra' same (c :: t) w b r) (hextra : extra' < extra)
    (hread : ∀ fuel u, other (fuel + 1) (c :: u) = later fuel (c :: u)) :
    Taken other extra same (c :: t) w b r where
  nonempty := h.nonempty
  extent := by
    intro fuel hfuel
    cases fuel with
    | zero => omega
    | succ fuel =>
      have hextent := h.extent fuel (by omega)
      refine ⟨hextent.text_eq, hextent.escaped, fun r' hsame => ?_⟩
      have hagain := hextent.again r' hsame
      obtain ⟨w', rfl, -⟩ := h.exists_cons
      rw [List.cons_append, hread]
      exact hagain

theorem after_blanks {ws : Text} (hws : ∀ d ∈ ws, isJsonBlank d = true)
    (hread : ∀ fuel u, read fuel (ws ++ c :: u) = read fuel (c :: u))
    (h : Taken read extra same (c :: t) w b r) :
    Taken read extra same (ws ++ c :: t) (ws ++ w) b r where
  nonempty := by simp [h.nonempty]
  extent := by
    intro fuel hfuel
    rw [List.length_append] at hfuel
    have hextent := h.extent fuel (by omega)
    refine ⟨by rw [hextent.text_eq, List.append_assoc],
      (escaped_of_blanks hws).append hextent.escaped, fun r' hsame => ?_⟩
    have hagain := hextent.again r' hsame
    obtain ⟨w', rfl, -⟩ := h.exists_cons
    rw [List.append_assoc, List.cons_append, hread]
    exact hagain

end Taken

def ValuesTaken (fuel : Nat) : Prop :=
  ∀ depth t v r, readValue fuel depth t = .ok (v, r) →
    ∃ w, Taken (fun fuel => readValue fuel depth) 1 (v.isNumber = true) t w v r

def ItemsTaken (fuel : Nat) : Prop :=
  ∀ depth first t items r, readItems fuel depth first t = .ok (items, r) →
    ∃ w, Taken (fun fuel => readItems fuel depth first) 3 False t w items r

def LaterItemsTaken (fuel : Nat) : Prop :=
  ∀ depth t items r, readItemsFrom fuel depth t = .ok (items, r) →
    ∃ w, Taken (fun fuel => readItemsFrom fuel depth) 2 False t w items r

def MembersTaken (fuel : Nat) : Prop :=
  ∀ depth first t members r, readMembers fuel depth first t = .ok (members, r) →
    ∃ w, w.getLast? = some '\x7d' ∧
      Taken (fun fuel => readMembers fuel depth first) 3 False t w members r

def LaterMembersTaken (fuel : Nat) : Prop :=
  ∀ depth t members r, readMembersFrom fuel depth t = .ok (members, r) →
    ∃ w, w.getLast? = some '\x7d' ∧
      Taken (fun fuel => readMembersFrom fuel depth) 2 False t w members r

theorem skipBlanks_of_not_blank {c : Char} (hc : isJsonBlank c = false) (u : Text) :
    skipBlanks (c :: u) = c :: u := skipBlanks_append (List.forall_mem_nil _) hc u

theorem readValue_blanks {ws : Text} (hws : ∀ d ∈ ws, isJsonBlank d = true) {c : Char}
    (hc : isJsonBlank c = false) (depth fuel : Nat) (u : Text) :
    readValue fuel depth (ws ++ c :: u) = readValue fuel depth (c :: u) := by
  cases fuel with
  | zero => rw [readValue, readValue]
  | succ fuel => rw [readValue, readValue, skipBlanks_append hws hc, skipBlanks_of_not_blank hc]

theorem taken_word {fuel depth : Nat} {word u : Text} {c : Char} {value : Json}
    (hc : c ≠ '\\') (hword : '\\' ∉ word)
    (hread : ∀ fuel u, readValue (fuel + 1) depth (c :: u) = readWord word value u)
    (h : readValue (fuel + 1) depth (c :: u) = .ok (v, r)) :
    ∃ w, Taken (fun fuel => readValue fuel depth) 1 (v.isNumber = true) (c :: u) w v r := by
  rw [hread] at h
  obtain ⟨rfl, rfl⟩ := readWord_eq_ok_iff.mp h
  refine ⟨_, .cons hc hread fun _ _ => ⟨rfl, .of_forall fun d hd => ne_of_mem_of_not_mem hd hword,
    fun r' _ => ?_⟩⟩
  exact readWord_eq_ok_iff.mpr ⟨rfl, rfl⟩

theorem valuesTaken_succ {fuel : Nat} (hitems : ItemsTaken fuel) (hmembers : MembersTaken fuel) :
    ValuesTaken (fuel + 1) := by
  intro depth t v r h
  cases hskip : skipBlanks t with
  | nil =>
    rw [readValue, hskip] at h
    cases h
  | cons c u =>
    have hhead := head_of_readValue hskip h
    obtain ⟨ws, rfl, hws, hc⟩ := exists_skipBlanks hskip
    rw [readValue_blanks hws hc] at h
    suffices hvalue : ∃ w,
        Taken (fun fuel => readValue fuel depth) 1 (v.isNumber = true) (c :: u) w v r by
      obtain ⟨w, hw⟩ := hvalue
      exact ⟨_, hw.after_blanks hws fun fuel u => readValue_blanks hws hc depth fuel u⟩
    cases hhead with
    | null => exact taken_word (by decide) (by decide) (fun fuel u => readValue_null fuel _ u) h
    | true => exact taken_word (by decide) (by decide) (fun fuel u => readValue_true fuel _ u) h
    | false => exact taken_word (by decide) (by decide) (fun fuel u => readValue_false fuel _ u) h
    | minus =>
      rw [readValue_minus] at h
      obtain ⟨hv, w, -, hw⟩ := exists_readNumber h
      refine ⟨_, .cons (by decide) (fun fuel u => readValue_minus fuel _ u) fun _ _ =>
        ⟨hw.text_eq, hw.escaped, fun r' hsame => hw.again r' fun _ => hsame hv⟩⟩
    | digit hdigit =>
      rw [readValue_digit _ _ _ hdigit] at h
      obtain ⟨hv, w, hne, hw⟩ := exists_readNumber h
      refine ⟨w, hne, fun fuel hfuel => ⟨hw.text_eq, hw.escaped, fun r' hsame => ?_⟩⟩
      have htext := hw.text_eq
      have hagain := hw.again r' fun _ => hsame hv
      cases w with
      | nil => exact (hne rfl).elim
      | cons d w =>
        obtain ⟨rfl, -⟩ := List.cons.inj htext
        obtain ⟨fuel, rfl⟩ := Nat.exists_eq_add_of_le' (Nat.le_trans (Nat.le_add_left 1 _) hfuel)
        rw [List.cons_append, readValue_digit _ _ _ hdigit]
        exact hagain
    | string =>
      rw [readValue_string] at h
      obtain ⟨⟨s, u'⟩, hs, h⟩ := bind_eq_ok.mp h
      obtain ⟨rfl, rfl⟩ := Prod.mk.inj (Except.ok.inj h)
      obtain ⟨w, -, hw⟩ := exists_readString hs
      have hextent := hw _ (Nat.le_refl _)
      refine ⟨_, .cons (by decide) (fun fuel u => readValue_string fuel _ u) fun _ _ =>
        ⟨hextent.text_eq, hextent.escaped, fun r' _ => ?_⟩⟩
      have hfuel : w.length ≤ (w ++ r').length + 1 := by
        rw [List.length_append]
        omega
      exact bind_eq_ok.mpr ⟨_, (hw _ hfuel).again r' False.elim, rfl⟩
    | @array depth =>
      rw [readValue_array] at h
      obtain ⟨⟨items, u'⟩, hs, h⟩ := bind_eq_ok.mp h
      obtain ⟨rfl, rfl⟩ := Prod.mk.inj (Except.ok.inj h)
      obtain ⟨w, hw⟩ := hitems depth _ _ _ _ hs
      exact ⟨_, .cons (by decide) (fun fuel u => readValue_array fuel _ u) fun fuel hfuel =>
        (hw.extent fuel hfuel).map array⟩
    | @object depth =>
      rw [readValue_object] at h
      obtain ⟨⟨members, u'⟩, hs, h⟩ := bind_eq_ok.mp h
      obtain ⟨rfl, rfl⟩ := Prod.mk.inj (Except.ok.inj h)
      obtain ⟨w, -, hw⟩ := hmembers depth _ _ _ _ hs
      exact ⟨_, .cons (by decide) (fun fuel u => readValue_object fuel _ u) fun fuel hfuel =>
        (hw.extent fuel hfuel).map object⟩

/-! ### Arrays -/

section

variable {c : Char} (fuel depth : Nat) (first : Bool) (u : Text)

theorem readItems_close : readItems (fuel + 1) depth first (']' :: u) = .ok ([], u) := by
  simp [readItems, skipBlanks, isJsonBlank]

theorem readItems_first (hblank : isJsonBlank c = false) (hc : c ≠ ']') :
    readItems (fuel + 1) depth true (c :: u) = readItemsFrom fuel depth (c :: u) := by
  simp [readItems, skipBlanks, hblank, hc]

theorem readItems_comma {ws : Text} (hws : ∀ d ∈ ws, isJsonBlank d = true)
    (hblank : isJsonBlank c = false) (hc : c ≠ ']') :
    readItems (fuel + 1) depth false (',' :: (ws ++ c :: u))
      = readItemsFrom fuel depth (c :: u) := by
  have hcomma : skipBlanks (',' :: (ws ++ c :: u)) = ',' :: (ws ++ c :: u) :=
    skipBlanks_of_not_blank (by decide) _
  rw [readItems, hcomma]
  simp [skipBlanks_append hws hblank, hc]

end

theorem readItems_blanks {ws : Text} (hws : ∀ d ∈ ws, isJsonBlank d = true) {c : Char}
    (hc : isJsonBlank c = false) (depth : Nat) (first : Bool) (fuel : Nat) (u : Text) :
    readItems fuel depth first (ws ++ c :: u) = readItems fuel depth first (c :: u) := by
  cases fuel with
  | zero => rw [readItems, readItems]
  | succ fuel => rw [readItems, readItems, skipBlanks_append hws hc, skipBlanks_of_not_blank hc]

/-- The three ways in which what is left of an array can be read. -/
theorem cases_readItems {fuel depth : Nat} {first : Bool} {c : Char} {u r : Text}
    {items : List Json} (hc : isJsonBlank c = false)
    (h : readItems (fuel + 1) depth first (c :: u) = .ok (items, r)) :
    (c = ']' ∧ items = [] ∧ u = r) ∨
      (c ≠ ']' ∧ first = true ∧ readItemsFrom fuel depth (c :: u) = .ok (items, r)) ∨
      (c = ',' ∧ first = false ∧ ∃ ws d u', u = ws ++ d :: u' ∧
        (∀ d ∈ ws, isJsonBlank d = true) ∧ isJsonBlank d = false ∧ d ≠ ']' ∧
        readItemsFrom fuel depth (d :: u') = .ok (items, r)) := by
  by_cases hclose : c = ']'
  · subst hclose
    rw [readItems_close] at h
    obtain ⟨rfl, rfl⟩ := Prod.mk.inj (Except.ok.inj h)
    exact .inl ⟨rfl, rfl, rfl⟩
  cases first with
  | true =>
    rw [readItems_first _ _ _ hc hclose] at h
    exact .inr (.inl ⟨hclose, rfl, h⟩)
  | false =>
    rw [readItems, skipBlanks_of_not_blank hc] at h
    by_cases hcomma : c = ','
    · subst hcomma
      cases hnext : skipBlanks u with
      | nil => simp [hnext] at h
      | cons d u' =>
        by_cases hend : d = ']'
        · simp [hnext, hend] at h
        obtain ⟨ws, rfl, hws, hd⟩ := exists_skipBlanks hnext
        simp only [hnext, if_neg hend] at h
        exact .inr (.inr ⟨rfl, rfl, ws, d, u', rfl, hws, hd, hend, by simpa using h⟩)
    · simp [hclose, hcomma] at h

theorem itemsTaken_succ {fuel : Nat} (hlater : LaterItemsTaken fuel) : ItemsTaken (fuel + 1) := by
  intro depth first t items r h
  cases hskip : skipBlanks t with
  | nil =>
    rw [readItems, hskip] at h
    cases h
  | cons c u =>
    obtain ⟨ws, rfl, hws, hc⟩ := exists_skipBlanks hskip
    rw [readItems_blanks hws hc] at h
    suffices hitems : ∃ w,
        Taken (fun fuel => readItems fuel depth first) 3 False (c :: u) w items r by
      obtain ⟨w, hw⟩ := hitems
      exact ⟨_, hw.after_blanks hws fun fuel u => readItems_blanks hws hc depth first fuel u⟩
    rcases cases_readItems hc h with
      ⟨rfl, rfl, rfl⟩ | ⟨hclose, rfl, hfrom⟩ | ⟨rfl, rfl, ws', d, u', rfl, hws', hd, hend, hfrom⟩
    · exact ⟨_, .cons (by decide) (fun fuel u => readItems_close fuel _ _ u) fun _ _ =>
        ⟨rfl, .nil, fun _ _ => rfl⟩⟩
    · obtain ⟨w, hw⟩ := hlater _ _ _ _ hfrom
      exact ⟨w, hw.congr (by omega) fun fuel u => readItems_first fuel depth u hc hclose⟩
    · obtain ⟨w, hw⟩ := hlater _ _ _ _ hfrom
      refine ⟨_, .cons (w := ws' ++ w) (by decide) (fun _ _ => rfl) fun fuel hfuel =>
        ⟨by rw [hw.text_eq, List.append_assoc], (escaped_of_blanks hws').append hw.escaped,
          fun r' hsame => ?_⟩⟩
      rw [List.length_append] at hfuel
      have hagain := (hw.extent fuel (by omega)).again r' hsame
      obtain ⟨w', rfl, -⟩ := hw.exists_cons
      rw [List.append_assoc, List.cons_append, readItems_comma _ _ _ hws' hd hend]
      exact hagain

theorem head?_append_of_ne_nil {w : Text} (hw : w ≠ []) (r r' : Text) :
    (w ++ r').head? = (w ++ r).head? := by
  cases w with
  | nil => exact (hw rfl).elim
  | cons c w => rfl

theorem laterItemsTaken_succ {fuel : Nat} (hvalues : ValuesTaken fuel) (hitems : ItemsTaken fuel) :
    LaterItemsTaken (fuel + 1) := by
  intro depth t items r h
  rw [readItemsFrom] at h
  obtain ⟨⟨item, u⟩, hitem, h⟩ := bind_eq_ok.mp h
  obtain ⟨⟨items', u'⟩, hlater, h⟩ := bind_eq_ok.mp h
  obtain ⟨rfl, rfl⟩ := Prod.mk.inj (Except.ok.inj h)
  obtain ⟨w, hw⟩ := hvalues _ _ _ _ hitem
  obtain ⟨w', hw'⟩ := hitems _ _ _ _ _ hlater
  have hpos := List.length_pos_iff.mpr hw.nonempty
  have hpos' := List.length_pos_iff.mpr hw'.nonempty
  refine ⟨w ++ w', by simp [hw.nonempty], fun fuel hfuel =>
    ⟨by rw [hw.text_eq, hw'.text_eq, List.append_assoc], hw.escaped.append hw'.escaped,
      fun r' _ => ?_⟩⟩
  rw [List.length_append] at hfuel
  obtain ⟨fuel, rfl⟩ := Nat.exists_eq_add_of_le' (Nat.le_trans (Nat.le_add_left 1 _) hfuel)
  -- an item that is a number ends where it did, as the items behind it begin as before
  have hsame : (w' ++ r').head? = u.head? := by
    rw [hw'.text_eq]
    exact head?_append_of_ne_nil hw'.nonempty u' r'
  rw [readItemsFrom, List.append_assoc]
  exact bind_eq_ok.mpr ⟨_, (hw.extent fuel (by omega)).again _ fun _ => hsame,
    bind_eq_ok.mpr ⟨_, (hw'.extent fuel (by omega)).again r' False.elim, rfl⟩⟩

/-! ### Objects -/

section

variable {c : Char} (fuel depth : Nat) (first : Bool) (u : Text)

theorem readMembers_close : readMembers (fuel + 1) depth first ('\x7d' :: u) = .ok ([], u) := by
  simp [readMembers, skipBlanks, isJsonBlank]

theorem readMembers_first (hblank : isJsonBlank c = false) (hc : c ≠ '\x7d') :
    readMembers (fuel + 1) depth true (c :: u) = readMembersFrom fuel depth (c :: u) := by
  simp [readMembers, skipBlanks, hblank, hc]

theorem readMembers_comma :
    readMembers (fuel + 1) depth false (',' :: u) = readMembersFrom fuel depth (skipBlanks u) := by
  have hcomma : skipBlanks (',' :: u) = ',' :: u := skipBlanks_of_not_blank (by decide) _
  rw [readMembers, hcomma]
  rfl

end

theorem exists_quote_of_readMembersFrom {fuel depth : Nat} {x : List (Text × Json) × Text}
    (h : readMembersFrom fuel depth t = .ok x) : ∃ u, t = '"' :: u := by
  cases fuel with
  | zero =>
    rw [readMembersFrom] at h
    cases h
  | succ fuel =>
    unfold readMembersFrom at h
    split at h
    · exact ⟨_, rfl⟩
    · cases h

/-- A member is read when its key and the colon are. -/
theorem readMembersFrom_key {fuel depth : Nat} {key u u' ws : Text}
    (hkey : readString (u.length + 1) u = .ok (key, ws ++ ':' :: u'))
    (hws : ∀ d ∈ ws, isJsonBlank d = true) :
    readMembersFrom (fuel + 1) depth ('"' :: u) = (do
      let (value, r) ← readValue fuel depth u'
      let (members, r) ← readMembers fuel depth false r
      .ok ((key, value) :: members, r)) := by
  have hcolon : isJsonBlank ':' = false := by decide
  simp only [readMembersFrom, hkey, bind, Except.bind, skipBlanks_append hws hcolon]

theorem exists_colon_of_readMembersFrom {fuel depth : Nat} {u : Text}
    {x : List (Text × Json) × Text} (h : readMembersFrom (fuel + 1) depth ('"' :: u) = .ok x) :
    ∃ key ws u', readString (u.length + 1) u = .ok (key, ws ++ ':' :: u') ∧
      ∀ d ∈ ws, isJsonBlank d = true := by
  rw [readMembersFrom] at h
  obtain ⟨⟨key, v⟩, hkey, h⟩ := bind_eq_ok.mp h
  dsimp only at h
  split at h
  · next u' hnext =>
    obtain ⟨ws, rfl, hws, -⟩ := exists_skipBlanks hnext
    exact ⟨key, ws, u', hkey, hws⟩
  · cases h

theorem readMembers_blanks {ws : Text} (hws : ∀ d ∈ ws, isJsonBlank d = true) {c : Char}
    (hc : isJsonBlank c = false) (depth : Nat) (first : Bool) (fuel : Nat) (u : Text) :
    readMembers fuel depth first (ws ++ c :: u) = readMembers fuel depth first (c :: u) := by
  cases fuel with
  | zero => rw [readMembers, readMembers]
  | succ fuel =>
    rw [readMembers, readMembers, skipBlanks_append hws hc, skipBlanks_of_not_blank hc]

/-- The three ways in which what is left of an object can be read. -/
theorem cases_readMembers {fuel depth : Nat} {first : Bool} {c : Char} {u r : Text}
    {members : List (Text × Json)} (hc : isJsonBlank c = false)
    (h : readMembers (fuel + 1) depth first (c :: u) = .ok (members, r)) :
    (c = '\x7d' ∧ members = [] ∧ u = r) ∨
      (c ≠ '\x7d' ∧ first = true ∧ readMembersFrom fuel depth (c :: u) = .ok (members, r)) ∨
      (c = ',' ∧ first = false ∧ ∃ ws d u', u = ws ++ d :: u' ∧
        (∀ d ∈ ws, isJsonBlank d = true) ∧ isJsonBlank d = false ∧
        readMembersFrom fuel depth (d :: u') = .ok (members, r)) := by
  by_cases hclose : c = '\x7d'
  · subst hclose
    rw [readMembers_close] at h
    obtain ⟨rfl, rfl⟩ := Prod.mk.inj (Except.ok.inj h)
    exact .inl ⟨rfl, rfl, rfl⟩
  cases first with
  | true =>
    rw [readMembers_first _ _ _ hc hclose] at h
    exact .inr (.inl ⟨hclose, rfl, h⟩)
  | false =>
    by_cases hcomma : c = ','
    · subst hcomma
      rw [readMembers_comma] at h
      cases hnext : skipBlanks u with
      | nil =>
        rw [hnext] at h
        obtain ⟨_, heq⟩ := exists_quote_of_readMembersFrom h
        cases heq
      | cons d u' =>
        rw [hnext] at h
        obtain ⟨ws, rfl, hws, hd⟩ := exists_skipBlanks hnext
        exact .inr (.inr ⟨rfl, rfl, ws, d, u', rfl, hws, hd, h⟩)
    · rw [readMembers, skipBlanks_of_not_blank hc] at h
      simp [hclose, hcomma] at h

theorem membersTaken_succ {fuel : Nat} (hlater : LaterMembersTaken fuel) :
    MembersTaken (fuel + 1) := by
  intro depth first t members r h
  cases hskip : skipBlanks t with
  | nil =>
    rw [readMembers, hskip] at h
    cases h
  | cons c u =>
    obtain ⟨ws, rfl, hws, hc⟩ := exists_skipBlanks hskip
    rw [readMembers_blanks hws hc] at h
    suffices hmembers : ∃ w, w.getLast? = some '\x7d' ∧
        Taken (fun fuel => readMembers fuel depth first) 3 False (c :: u) w members r by
      obtain ⟨w, hlast, hw⟩ := hmembers
      refine ⟨ws ++ w, by rw [List.getLast?_append, hlast, Option.some_or], ?_⟩
      exact hw.after_blanks hws fun fuel u => readMembers_blanks hws hc depth first fuel u
    rcases cases_readMembers hc h with
      ⟨rfl, rfl, rfl⟩ | ⟨hclose, rfl, hfrom⟩ | ⟨rfl, rfl, ws', d, u', rfl, hws', hd, hfrom⟩
    · exact ⟨['\x7d'], rfl, .cons (by decide) (fun fuel u => readMembers_close fuel _ _ u)
        fun _ _ => ⟨rfl, .nil, fun _ _ => rfl⟩⟩
    · obtain ⟨w, hlast, hw⟩ := hlater _ _ _ _ hfrom
      exact ⟨w, hlast, hw.congr (by omega) fun fuel u => readMembers_first fuel depth u hc hclose⟩
    · obtain ⟨w, hlast, hw⟩ := hlater _ _ _ _ hfrom
      refine ⟨',' :: (ws' ++ w), ?_, .cons (by decide)
        (fun fuel u => readMembers_comma fuel depth u) fun fuel hfuel =>
          ⟨by rw [hw.text_eq, List.append_assoc], (escaped_of_blanks hws').append hw.escaped,
            fun r' hsame => ?_⟩⟩
      · rw [← List.cons_append, List.getLast?_append, hlast, Option.some_or]
      · rw [List.length_append] at hfuel
        have hagain := (hw.extent fuel (by omega)).again r' hsame
        obtain ⟨w', rfl, -⟩ := hw.exists_cons
        rw [List.append_assoc, List.cons_append, skipBlanks_append hws' hd]
        exact hagain

theorem laterMembersTaken_succ {fuel : Nat} (hvalues : ValuesTaken fuel)
    (hmembers : MembersTaken fuel) : LaterMembersTaken (fuel + 1) := by
  intro depth t members r h
  obtain ⟨u, rfl⟩ := exists_quote_of_readMembersFrom h
  obtain ⟨key, ws, u', hkey, hws⟩ := exists_colon_of_readMembersFrom h
  rw [readMembersFrom_key hkey hws] at h
  obtain ⟨⟨value, u₁⟩, hvalue, h⟩ := bind_eq_ok.mp h
  obtain ⟨⟨members', u₂⟩, hlater, h⟩ := bind_eq_ok.mp h
  obtain ⟨rfl, rfl⟩ := Prod.mk.inj (Except.ok.inj h)
  obtain ⟨w, -, hw⟩ := exists_readString hkey
  obtain ⟨w₁, hw₁⟩ := hvalues _ _ _ _ hvalue
  obtain ⟨w₂, hlast, hw₂⟩ := hmembers _ _ _ _ _ hlater
  have hstring := hw _ (Nat.le_refl _)
  have htext : u = (w ++ (ws ++ ':' :: (w₁ ++ w₂))) ++ u₂ := by
    rw [hstring.text_eq, hw₁.text_eq, hw₂.text_eq]
    simp
  have hescaped : Escaped (w ++ (ws ++ ':' :: (w₁ ++ w₂))) :=
    hstring.escaped.append ((escaped_of_blanks hws).append
      (.plain (by decide) (hw₁.escaped.append hw₂.escaped)))
  have hpos := List.length_pos_iff.mpr hw₁.nonempty
  have hpos' := List.length_pos_iff.mpr hw₂.nonempty
  refine ⟨'"' :: (w ++ (ws ++ ':' :: (w₁ ++ w₂))), ?_, by simp, fun fuel hfuel =>
    ⟨congrArg ('"' :: ·) htext, .plain (by decide) hescaped, fun r' _ => ?_⟩⟩
  · simp [List.getLast?_cons, List.getLast?_append, hlast]
  simp only [List.length_cons, List.length_append] at hfuel
  obtain ⟨fuel, rfl⟩ := Nat.exists_eq_add_of_le' (Nat.le_trans (Nat.le_add_left 1 _) hfuel)
  have hsame : (w₂ ++ r').head? = u₁.head? := by
    rw [hw₂.text_eq]
    exact head?_append_of_ne_nil hw₂.nonempty u₂ r'
  have hkey' : readString ((w ++ (ws ++ ':' :: (w₁ ++ w₂)) ++ r').length + 1)
      (w ++ (ws ++ ':' :: (w₁ ++ w₂)) ++ r') = .ok (key, ws ++ ':' :: (w₁ ++ (w₂ ++ r'))) := by
    have hlength : w.length ≤ (w ++ (ws ++ ':' :: (w₁ ++ w₂)) ++ r').length + 1 := by
      simp only [List.length_append]
      omega
    have hagain := (hw _ hlength).again (ws ++ ':' :: (w₁ ++ (w₂ ++ r'))) False.elim
    simpa using hagain
  rw [List.cons_append, readMembersFrom_key hkey' hws]
  exact bind_eq_ok.mpr ⟨_, (hw₁.extent fuel (by omega)).again _ fun _ => hsame,
    bind_eq_ok.mpr ⟨_, (hw₂.extent fuel (by omega)).again r' False.elim, rfl⟩⟩

/-! ### Whole texts -/

/-- Nothing is read without fuel. -/
theorem not_read_zero :
    (∀ depth t x, readValue 0 depth t ≠ .ok x) ∧
      (∀ depth first t x, readItems 0 depth first t ≠ .ok x) ∧
      (∀ depth t x, readItemsFrom 0 depth t ≠ .ok x) ∧
      (∀ depth first t x, readMembers 0 depth first t ≠ .ok x) ∧
      ∀ depth t x, readMembersFrom 0 depth t ≠ .ok x := by
  refine ⟨?_, ?_, ?_, ?_, ?_⟩
  all_goals
    intros
    simp [readValue, readItems, readItemsFrom, readMembers, readMembersFrom]

theorem all_taken (fuel : Nat) : ValuesTaken fuel ∧ ItemsTaken fuel ∧ LaterItemsTaken fuel ∧
    MembersTaken fuel ∧ LaterMembersTaken fuel := by
  -- every reader calls the others with less fuel
  induction fuel with
  | zero =>
    obtain ⟨hvalue, hitems, hlaterItems, hmembers, hlaterMembers⟩ := not_read_zero
    exact ⟨fun _ _ _ _ h => (hvalue _ _ _ h).elim, fun _ _ _ _ _ h => (hitems _ _ _ _ h).elim,
      fun _ _ _ _ h => (hlaterItems _ _ _ h).elim, fun _ _ _ _ _ h => (hmembers _ _ _ _ h).elim,
      fun _ _ _ _ h => (hlaterMembers _ _ _ h).elim⟩
  | succ fuel ih =>
    obtain ⟨hvalues, hitems, hlaterItems, hmembers, hlaterMembers⟩ := ih
    exact ⟨valuesTaken_succ hitems hmembers, itemsTaken_succ hlaterItems,
      laterItemsTaken_succ hvalues hitems, membersTaken_succ hlaterMembers,
      laterMembersTaken_succ hvalues hmembers⟩

theorem eq_brace_of_readValue {fuel depth : Nat} {c : Char} {u : Text}
    {members : List (Text × Json)} (hc : isJsonBlank c = false)
    (h : readValue (fuel + 1) depth (c :: u) = .ok (.object members, r)) : c = '\x7b' := by
  have hhead := head_of_readValue (skipBlanks_of_not_blank hc u) h
  cases hhead with
  | null =>
    rw [readValue_null] at h
    cases (readWord_eq_ok_iff.mp h).1
  | true =>
    rw [readValue_true] at h
    cases (readWord_eq_ok_iff.mp h).1
  | false =>
    rw [readValue_false] at h
    cases (readWord_eq_ok_iff.mp h).1
  | minus =>
    rw [readValue_minus] at h
    cases (exists_readNumber h).1
  | digit hdigit =>
    rw [readValue_digit _ _ _ hdigit] at h
    cases (exists_readNumber h).1
  | string =>
    rw [readValue_string] at h
    obtain ⟨_, -, h⟩ := bind_eq_ok.mp h
    cases h
  | array =>
    rw [readValue_array] at h
    obtain ⟨_, -, h⟩ := bind_eq_ok.mp h
    cases h
  | object => rfl

/-- A text that is an object is a braced text with blanks around it, and without the blanks
    it is the same object. -/
theorem exists_braced {members : List (Text × Json)} (h : ofText t = .ok (.object members)) :
    ∃ front u back, t = front ++ (u ++ back) ∧ (∀ c ∈ front, isJsonBlank c = true) ∧
      (∀ c ∈ back, isJsonBlank c = true) ∧ Escaped u ∧ u.head? = some '\x7b' ∧
      u.getLast? = some '\x7d' ∧ ofText u = .ok (.object members) := by
  obtain ⟨⟨v, back⟩, hvalue, h⟩ := bind_eq_ok.mp h
  dsimp only at h
  split at h
  · next hback =>
    obtain rfl := Except.ok.inj h
    cases hskip : skipBlanks t with
    | nil =>
      rw [readValue, hskip] at hvalue
      cases hvalue
    | cons c u =>
      obtain ⟨front, rfl, hfront, hc⟩ := exists_skipBlanks hskip
      rw [readValue_blanks hfront hc] at hvalue
      obtain rfl := eq_brace_of_readValue hc hvalue
      rw [show maxDepth = 126 + 1 from rfl, readValue_object] at hvalue
      obtain ⟨⟨members', r⟩, hmembers, hvalue⟩ := bind_eq_ok.mp hvalue
      obtain ⟨hobject, rfl⟩ := Prod.mk.inj (Except.ok.inj hvalue)
      obtain rfl := Json.object.inj hobject
      obtain ⟨-, -, -, htaken, -⟩ := all_taken _
      obtain ⟨w, hlast, hw⟩ := htaken _ _ _ _ _ hmembers
      refine ⟨front, '\x7b' :: w, r, by rw [hw.text_eq]; rfl, hfront, ?_,
        .plain (by decide) hw.escaped, rfl, ?_, ?_⟩
      · exact List.dropWhile_eq_nil_iff.mp hback
      · rw [List.getLast?_cons, hlast]
        rfl
      · have hagain := (hw.extent (3 * w.length + 5) (by omega)).again [] False.elim
        rw [List.append_nil] at hagain
        have hread : readValue (3 * w.length + 5 + 1) (126 + 1) ('\x7b' :: w)
            = .ok (.object members', []) := by
          rw [readValue_object]
          exact bind_eq_ok.mpr ⟨_, hagain, rfl⟩
        exact bind_eq_ok.mpr ⟨_, hread, rfl⟩
  · cases h

end EvenChroma.Json
