/-
  EvenChroma/Proofs/JsonLexemes.lean
  ==================================
  **What numbers and strings of JSON take of a text.**  The text splits into what was read
  and what is left, and read again in front of another text it gives the same value
  (`Extent`); only a number depends on the character that comes next.  What was read is
  `Escaped`: a backslash always takes a character along, and never an apostrophe.
-/
import EvenChroma.Json.Reader
import Mathlib.Tactic.SplitIfs

namespace EvenChroma.Json

/-! ### Escapes -/

/-- Every backslash begins a pair, of which the second character is no apostrophe. -/
inductive Escaped : Text → Prop where
  | nil : Escaped []
  | plain {c : Char} {t : Text} (hc : c ≠ '\\') (ht : Escaped t) : Escaped (c :: t)
  | pair {c : Char} {t : Text} (hc : c ≠ '\x27') (ht : Escaped t) : Escaped ('\\' :: c :: t)

namespace Escaped

theorem append {s t : Text} (hs : Escaped s) (ht : Escaped t) : Escaped (s ++ t) := by
  induction hs with
  | nil => exact ht
  | plain hc _ ih => exact plain hc ih
  | pair hc _ ih => exact pair hc ih

theorem of_forall {t : Text} (h : ∀ c ∈ t, c ≠ '\\') : Escaped t := by
  induction t with
  | nil => exact nil
  | cons c t ih =>
    obtain ⟨hc, ht⟩ := List.forall_mem_cons.mp h
    exact plain hc (ih ht)

end Escaped

/-! ### Blanks and words -/

theorem exists_skipBlanks {t r : Text} {c : Char} (h : skipBlanks t = c :: r) :
    ∃ ws, t = ws ++ c :: r ∧ (∀ d ∈ ws, isJsonBlank d = true) ∧ isJsonBlank c = false := by
  refine ⟨t.takeWhile isJsonBlank, ?_, ?_, ?_⟩
  · rw [← h, skipBlanks, List.takeWhile_append_dropWhile]
  · exact List.all_eq_true.mp List.all_takeWhile
  · have hhead := List.head?_dropWhile_not isJsonBlank t
    rw [← skipBlanks, h] at hhead
    exact hhead

theorem skipBlanks_append {ws : Text} (hws : ∀ d ∈ ws, isJsonBlank d = true) {c : Char}
    (hc : isJsonBlank c = false) (r : Text) : skipBlanks (ws ++ c :: r) = c :: r := by
  rw [skipBlanks, List.dropWhile_append_of_pos hws, List.dropWhile_cons_of_neg (by simp [hc])]

theorem ne_backslash_of_isJsonBlank {c : Char} (h : isJsonBlank c = true) : c ≠ '\\' := by
  rintro rfl
  cases h

theorem escaped_of_blanks {ws : Text} (hws : ∀ d ∈ ws, isJsonBlank d = true) : Escaped ws :=
  .of_forall fun c hc => ne_backslash_of_isJsonBlank (hws c hc)

theorem readWord_eq_ok_iff {word t r : Text} {value v : Json} :
    readWord word value t = .ok (v, r) ↔ v = value ∧ t = word ++ r := by
  induction word generalizing t with
  | nil =>
    simp only [readWord, Except.ok.injEq, Prod.mk.injEq, List.nil_append]
    exact and_congr_left' eq_comm
  | cons w word ih =>
    cases t with
    | nil => simp [readWord]
    | cons c t =>
      by_cases hc : w = c
      · subst hc
        simp [readWord, ih]
      · simp [readWord, hc, Ne.symm hc]

/-! ### Numbers -/

def isNumber : Json → Bool
  | integer _ => true
  | float _ => true
  | _ => false

variable {negative : Bool} {s : Scanned} {t r : Text} {v : Json}

theorem ne_backslash_of_isDigit {c : Char} (h : c.isDigit = true) : c ≠ '\\' := by
  rintro rfl
  cases h

/-- A run of characters ends at the same place if the next character is the same. -/
theorem takeWhile_again {p : Char → Bool} (h : r.head? = (t.dropWhile p).head?) :
    (t.takeWhile p ++ r).takeWhile p = t.takeWhile p ∧
      (t.takeWhile p ++ r).dropWhile p = r := by
  have hrun : ∀ c ∈ t.takeWhile p, p c = true := List.all_eq_true.mp List.all_takeWhile
  rw [List.takeWhile_append_of_pos hrun, List.dropWhile_append_of_pos hrun]
  cases r with
  | nil => simp
  | cons c r =>
    have hc : p c = false := by
      have hhead := List.head?_dropWhile_not p t
      rw [← h] at hhead
      exact hhead
    simp [hc]

/-- The digits and other characters that a reader which cannot fail takes off a text. -/
structure Scan {β : Type} (read : Text → β × Text) (t w : Text) : Prop where
  text_eq : t = w ++ (read t).2
  plain : ∀ c ∈ w, c ≠ '\\'
  again : ∀ r, r.head? = (read t).2.head? → read (w ++ r) = ((read t).1, r)

namespace Scan

variable {β : Type} {read later : Text → β × Text} {w : Text} {c : Char}

theorem nothing {b : β} (h : ∀ r, r.head? = t.head? → read r = (b, r)) : Scan read t [] where
  text_eq := by rw [h t rfl, List.nil_append]
  plain := nofun
  again := by
    intro r hr
    rw [h t rfl] at hr ⊢
    exact h r hr

theorem cons (hc : c ≠ '\\') (h : ∀ r, read (c :: r) = later r) (hlater : Scan later t w) :
    Scan read (c :: t) (c :: w) where
  text_eq := by
    rw [h]
    exact congrArg (c :: ·) hlater.text_eq
  plain := List.forall_mem_cons.mpr ⟨hc, hlater.plain⟩
  again := by
    intro r hr
    rw [h] at hr ⊢
    rw [List.cons_append, h]
    exact hlater.again r hr

theorem digits {f : Text → β} (hc : c.isDigit = true)
    (h : ∀ r, read (c :: r) = (f ((c :: r).takeWhile Char.isDigit),
      (c :: r).dropWhile Char.isDigit)) :
    Scan read (c :: t) ((c :: t).takeWhile Char.isDigit) where
  text_eq := by rw [h, List.takeWhile_append_dropWhile]
  plain := fun d hd =>
    ne_backslash_of_isDigit (List.all_eq_true.mp List.all_takeWhile d hd)
  again := by
    intro r hr
    rw [h] at hr ⊢
    obtain ⟨htake, hdrop⟩ := takeWhile_again hr
    rw [List.takeWhile_cons_of_pos hc, List.cons_append] at htake hdrop ⊢
    rw [h, htake, hdrop]

end Scan

theorem exists_scanWhole (n : Nat) (t : Text) : ∃ w, Scan (scanWhole n) t w := by
  induction t generalizing n with
  | nil =>
    refine ⟨[], .nothing (b := ⟨n, 0⟩) ?_⟩
    intro r hr
    obtain rfl := List.head?_eq_none_iff.mp hr
    rfl
  | cons c t ih =>
    by_cases hdigit : c.isDigit = true
    · by_cases hadmits : (Scanned.mk n 0).admits c = true
      · obtain ⟨w, hw⟩ := ih (n * 10 + digitValue c)
        refine ⟨c :: w, .cons (ne_backslash_of_isDigit hdigit) (fun r => ?_) hw⟩
        rw [scanWhole, if_pos hdigit, if_pos hadmits]
      · refine ⟨_, .digits (f := fun digits => ⟨n, digits.length⟩) hdigit fun r => ?_⟩
        rw [scanWhole, if_pos hdigit, if_neg hadmits]
    · refine ⟨[], .nothing (b := ⟨n, 0⟩) ?_⟩
      intro r hr
      obtain ⟨r, rfl⟩ : ∃ r', r = c :: r' := List.head?_eq_some_iff.mp hr
      rw [scanWhole, if_neg hdigit]

theorem exists_scanFraction (s : Scanned) (t : Text) : ∃ w, Scan (scanFraction s) t w := by
  induction t generalizing s with
  | nil =>
    refine ⟨[], .nothing (b := s) ?_⟩
    intro r hr
    obtain rfl := List.head?_eq_none_iff.mp hr
    rfl
  | cons c t ih =>
    by_cases hdigit : c.isDigit = true
    · by_cases hadmits : s.admits c = true
      · obtain ⟨w, hw⟩ := ih ⟨s.significand * 10 + digitValue c, s.exponent - 1⟩
        refine ⟨c :: w, .cons (ne_backslash_of_isDigit hdigit) (fun r => ?_) hw⟩
        rw [scanFraction, if_pos hdigit, if_pos hadmits]
      · refine ⟨_, .digits (f := fun _ => s) hdigit fun r => ?_⟩
        rw [scanFraction, if_pos hdigit, if_neg hadmits]
    · refine ⟨[], .nothing (b := s) ?_⟩
      intro r hr
      obtain ⟨r, rfl⟩ : ∃ r', r = c :: r' := List.head?_eq_some_iff.mp hr
      rw [scanFraction, if_neg hdigit]

theorem bind_eq_ok {ε β γ : Type} {x : Except ε β} {f : β → Except ε γ} {c : γ} :
    x >>= f = .ok c ↔ ∃ b, x = .ok b ∧ f b = .ok c := by
  cases x with
  | error e => simp [bind, Except.bind]
  | ok b => simp [bind, Except.bind]

/-- What a reader took off a text, and that it does so again whatever comes next, or where
    `same` holds, if the next character is the same. -/
structure Extent {β : Type} (read : Text → Except Fault (β × Text)) (same : Prop) (t w : Text)
    (b : β) (r : Text) : Prop where
  text_eq : t = w ++ r
  escaped : Escaped w
  again : ∀ r', (same → r'.head? = r.head?) → read (w ++ r') = .ok (b, r')

theorem head?_append_congr {w r r' : Text} (h : r'.head? = r.head?) :
    (w ++ r').head? = (w ++ r).head? := by
  rw [List.head?_append, List.head?_append, h]

namespace Extent

variable {β γ : Type} {read later : Text → Except Fault (β × Text)} {same : Prop} {w : Text} {b : β}
  {c : Char}

theorem cons (hc : c ≠ '\\') (h : ∀ r, read (c :: r) = later r)
    (hlater : Extent later same t w b r) : Extent read same (c :: t) (c :: w) b r where
  text_eq := congrArg (c :: ·) hlater.text_eq
  escaped := .plain hc hlater.escaped
  again := by
    intro r' hsame
    rw [List.cons_append, h]
    exact hlater.again r' hsame

theorem pair (hc : c ≠ '\x27') (h : ∀ r, read ('\\' :: c :: r) = later r)
    (hlater : Extent later same t w b r) :
    Extent read same ('\\' :: c :: t) ('\\' :: c :: w) b r where
  text_eq := congrArg ('\\' :: c :: ·) hlater.text_eq
  escaped := .pair hc hlater.escaped
  again := by
    intro r' hsame
    rw [List.cons_append, List.cons_append, h]
    exact hlater.again r' hsame

/-- What was read, wrapped up. -/
theorem map (f : β → γ) (h : Extent read False t w b r) :
    Extent (fun t => do let (b, r) ← read t; .ok (f b, r)) same t w (f b) r where
  text_eq := h.text_eq
  escaped := h.escaped
  again := by
    intro r' _
    rw [h.again r' False.elim]
    rfl

/-- Nothing more is taken. -/
theorem finish {next : β × Text → Except Fault (γ × Text)} {g : γ}
    (hread : Extent read same t w b r) (hnext : ∀ r', next (b, r') = .ok (g, r')) :
    Extent (fun t => read t >>= next) same t w g r where
  text_eq := hread.text_eq
  escaped := hread.escaped
  again := by
    intro r' hsame
    rw [hread.again r' hsame]
    exact hnext r'

/-- One reader after the other. -/
theorem bind {next : β × Text → Except Fault (γ × Text)} {g : γ} {w' r' : Text}
    (hread : Extent read False t w b r) (hnext : Extent (fun r => next (b, r)) same r w' g r') :
    Extent (fun t => read t >>= next) same t (w ++ w') g r' where
  text_eq := by rw [List.append_assoc, ← hnext.text_eq, ← hread.text_eq]
  escaped := hread.escaped.append hnext.escaped
  again := by
    intro u hsame
    rw [List.append_assoc, hread.again _ False.elim]
    exact hnext.again u hsame

/-- A scan, and a reader that goes on with its result. -/
theorem after_scan {scan : Text → γ × Text} {next : γ → Text → Except Fault (β × Text)}
    {w' : Text} (hscan : Scan scan t w) (hnext : Extent (next (scan t).1) True (scan t).2 w' b r) :
    Extent (fun t => next (scan t).1 (scan t).2) True t (w ++ w') b r where
  text_eq := by rw [List.append_assoc, ← hnext.text_eq, ← hscan.text_eq]
  escaped := (Escaped.of_forall hscan.plain).append hnext.escaped
  again := by
    intro r' hsame
    have hhead : (w' ++ r').head? = (scan t).2.head? := by
      rw [hnext.text_eq]
      exact head?_append_congr (hsame trivial)
    rw [List.append_assoc, hscan.again _ hhead]
    exact hnext.again r' hsame

end Extent

/-- A run of digits, which may not be empty. -/
def readDigits (f : Text → Scanned) (t : Text) : Except Fault (Scanned × Text) :=
  if (t.takeWhile Char.isDigit).isEmpty then .error (faultAt t)
  else .ok (f (t.takeWhile Char.isDigit), t.dropWhile Char.isDigit)

theorem extent_readDigits {f : Text → Scanned} {s : Scanned} (h : readDigits f t = .ok (s, r)) :
    Extent (readDigits f) True t (t.takeWhile Char.isDigit) s r := by
  rw [readDigits] at h
  split_ifs at h with hempty
  obtain ⟨rfl, rfl⟩ := Prod.mk.inj (Except.ok.inj h)
  refine ⟨List.takeWhile_append_dropWhile.symm, .of_forall fun d hd =>
    ne_backslash_of_isDigit (List.all_eq_true.mp List.all_takeWhile d hd), ?_⟩
  intro r' hsame
  obtain ⟨htake, hdrop⟩ := takeWhile_again (hsame trivial)
  rw [readDigits, htake, hdrop, if_neg hempty]

def exponentOf (s : Scanned) (negative : Bool) (digits : Text) : Scanned :=
  let e : Int := digits.foldl (fun n c => 10 * n + digitValue c) 0
  ⟨s.significand, s.exponent + (if negative then -e else e)⟩

theorem scanExponent_minus (s : Scanned) (t : Text) :
    scanExponent s ('-' :: t) = readDigits (exponentOf s true) t := rfl

theorem scanExponent_plus (s : Scanned) (t : Text) :
    scanExponent s ('+' :: t) = readDigits (exponentOf s false) t := rfl

theorem scanExponent_of_ne (s : Scanned) (hminus : t.head? ≠ some '-')
    (hplus : t.head? ≠ some '+') : scanExponent s t = readDigits (exponentOf s false) t := by
  unfold scanExponent
  split
  rename_i heq
  split at heq
  · exact (hminus rfl).elim
  · exact (hplus rfl).elim
  · obtain ⟨rfl, rfl⟩ := Prod.mk.inj heq
    rfl

theorem exists_scanExponent {s' : Scanned} (h : scanExponent s t = .ok (s', r)) :
    ∃ w, Extent (scanExponent s) True t w s' r := by
  by_cases hminus : t.head? = some '-'
  · obtain ⟨t, rfl⟩ := List.head?_eq_some_iff.mp hminus
    exact ⟨_, .cons (by decide) (scanExponent_minus s) (extent_readDigits h)⟩
  by_cases hplus : t.head? = some '+'
  · obtain ⟨t, rfl⟩ := List.head?_eq_some_iff.mp hplus
    exact ⟨_, .cons (by decide) (scanExponent_plus s) (extent_readDigits h)⟩
  rw [scanExponent_of_ne s hminus hplus] at h
  have hread := extent_readDigits h
  refine ⟨_, hread.text_eq, hread.escaped, fun r' hsame => ?_⟩
  have hhead := head?_append_congr (w := t.takeWhile Char.isDigit) (hsame trivial)
  rw [← hread.text_eq] at hhead
  rw [scanExponent_of_ne s (by rwa [hhead]) (by rwa [hhead])]
  exact hread.again r' hsame

/-- What follows the digits of a number: an exponent, or nothing. -/
def readTail (negative : Bool) (finish : Scanned → Text → Except Fault (Json × Text)) (s : Scanned)
    (t : Text) : Except Fault (Json × Text) :=
  match t with
  | e :: r =>
    if e = 'e' ∨ e = 'E' then do
      let (s, r) ← scanExponent s r
      ofScanned negative s r
    else finish s t
  | [] => finish s t

/-- The reader takes nothing, and gives a number. -/
def TakesNothing (finish : Text → Except Fault (Json × Text)) : Prop :=
  ∀ t r v, finish t = .ok (v, r) → r = t ∧ v.isNumber = true ∧ ∀ r', finish r' = .ok (v, r')

theorem takesNothing_ofScanned (negative : Bool) (s : Scanned) :
    TakesNothing (ofScanned negative s) := by
  intro t r v h
  cases hvalue : s.value? with
  | none =>
    rw [ofScanned, hvalue] at h
    cases h
  | some x =>
    have hread : ∀ r', ofScanned negative s r' = .ok (.float (if negative then -x else x), r') := by
      intro r'
      rw [ofScanned, hvalue]
    rw [hread] at h
    obtain ⟨rfl, rfl⟩ := Prod.mk.inj (Except.ok.inj h)
    exact ⟨rfl, rfl, hread⟩

theorem isNumber_ofWhole (negative : Bool) (n : Nat) : (ofWhole negative n).isNumber = true := by
  unfold ofWhole
  split_ifs
  · rfl
  · rfl
  · rfl

/-- The end of a number without point and exponent. -/
def ofInteger (negative : Bool) (s : Scanned) (t : Text) : Except Fault (Json × Text) :=
  if s.exponent = 0 then .ok (ofWhole negative s.significand, t) else ofScanned negative s t

theorem takesNothing_ofInteger (negative : Bool) (s : Scanned) :
    TakesNothing (ofInteger negative s) := by
  by_cases hs : s.exponent = 0
  · intro t r v h
    rw [ofInteger, if_pos hs] at h
    obtain ⟨rfl, rfl⟩ := Prod.mk.inj (Except.ok.inj h)
    exact ⟨rfl, isNumber_ofWhole _ _, fun r' => if_pos hs⟩
  · intro t r v h
    rw [ofInteger, if_neg hs] at h
    obtain ⟨hr, hv, hagain⟩ := takesNothing_ofScanned negative s t r v h
    exact ⟨hr, hv, fun r' => by rw [ofInteger, if_neg hs, hagain]⟩

theorem exists_readTail {finish : Scanned → Text → Except Fault (Json × Text)}
    (hfinish : TakesNothing (finish s)) (h : readTail negative finish s t = .ok (v, r)) :
    v.isNumber = true ∧ ∃ w, Extent (readTail negative finish s) True t w v r := by
  cases t with
  | nil =>
    obtain ⟨rfl, hv, hagain⟩ := hfinish _ _ _ h
    refine ⟨hv, [], rfl, .nil, fun r' hsame => ?_⟩
    obtain rfl := List.head?_eq_none_iff.mp (hsame trivial)
    exact hagain []
  | cons e t =>
    by_cases he : e = 'e' ∨ e = 'E'
    · have hexponent : ∀ u, readTail negative finish s (e :: u) = (do
          let (s, r) ← scanExponent s u
          ofScanned negative s r) := fun u => if_pos he
      rw [hexponent] at h
      obtain ⟨⟨s', r'⟩, hs', hvalue⟩ := bind_eq_ok.mp h
      obtain ⟨rfl, hv, hagain⟩ := takesNothing_ofScanned negative s' r' r v hvalue
      obtain ⟨w, hw⟩ := exists_scanExponent hs'
      have hne : e ≠ '\\' := by
        rintro rfl
        revert he
        decide
      exact ⟨hv, e :: w, .cons hne hexponent (hw.finish hagain)⟩
    · have hend : ∀ u, readTail negative finish s (e :: u) = finish s (e :: u) := fun u => if_neg he
      rw [hend] at h
      obtain ⟨rfl, hv, hagain⟩ := hfinish _ _ _ h
      refine ⟨hv, [], rfl, .nil, fun r' hsame => ?_⟩
      obtain ⟨u, rfl⟩ := List.head?_eq_some_iff.mp (hsame trivial)
      rw [List.nil_append, hend, hagain]

theorem readAfterWhole_point {c : Char} (hc : c.isDigit = true) (t : Text) :
    readAfterWhole negative s ('.' :: c :: t)
      = readTail negative (ofScanned negative) (scanFraction s (c :: t)).1
          (scanFraction s (c :: t)).2 := by
  simp only [readAfterWhole, hc, if_true, readTail]
  split
  · next e r heq => rw [heq]
  · next heq => rw [heq]

theorem readAfterWhole_of_ne (h : t.head? ≠ some '.') :
    readAfterWhole negative s t = readTail negative (ofInteger negative) s t := by
  unfold readAfterWhole
  split
  · exact (h rfl).elim
  · next e r _ => rfl
  · rfl

theorem exists_readAfterWhole (h : readAfterWhole negative s t = .ok (v, r)) :
    v.isNumber = true ∧ ∃ w, Extent (readAfterWhole negative s) True t w v r := by
  by_cases hpoint : t.head? = some '.'
  · obtain ⟨t, rfl⟩ := List.head?_eq_some_iff.mp hpoint
    cases t with
    | nil => cases h
    | cons c t =>
      by_cases hc : c.isDigit = true
      · rw [readAfterWhole_point hc] at h
        obtain ⟨hv, w', hw'⟩ := exists_readTail (takesNothing_ofScanned negative _) h
        obtain ⟨w, hw⟩ := exists_scanFraction s (c :: t)
        have hread := Extent.after_scan hw hw'
        refine ⟨hv, '.' :: (w ++ w'), congrArg ('.' :: ·) hread.text_eq,
          .plain (by decide) hread.escaped, fun r' hsame => ?_⟩
        have hhead := head?_append_congr (w := w ++ w') (hsame trivial)
        rw [← hread.text_eq] at hhead
        obtain ⟨u, hu⟩ := List.head?_eq_some_iff.mp hhead
        have hagain := hread.again r' hsame
        rw [hu] at hagain
        rw [List.cons_append, hu, readAfterWhole_point hc]
        exact hagain
      · simp [readAfterWhole, hc] at h
  · rw [readAfterWhole_of_ne hpoint] at h
    obtain ⟨hv, w, hw⟩ := exists_readTail (takesNothing_ofInteger negative s) h
    refine ⟨hv, w, hw.text_eq, hw.escaped, fun r' hsame => ?_⟩
    have hhead := head?_append_congr (w := w) (hsame trivial)
    rw [← hw.text_eq] at hhead
    rw [readAfterWhole_of_ne (by rwa [hhead])]
    exact hw.again r' hsame

/-- Whether a zero has a digit behind it. -/
def LeadingZero (c : Char) (t : Text) : Prop := c = '0' ∧ t.head?.any Char.isDigit = true

theorem scanWhole_digit {c : Char} (hc : c.isDigit = true) (t : Text) :
    scanWhole 0 (c :: t) = scanWhole (digitValue c) t := by
  have hvalue : digitValue c < 1 <<< 64 := by
    have h9 : c.val ≤ 57 := by
      simp only [Char.isDigit, Bool.and_eq_true, decide_eq_true_eq] at hc
      exact hc.2
    have hnat : c.toNat ≤ 57 := UInt32.le_iff_toNat_le.mp h9
    have hlimit : (1 <<< 64 : Nat) = 18446744073709551616 := by decide
    simp only [digitValue, hlimit]
    omega
  have hadmits : (Scanned.mk 0 0).admits c = true := by simpa [Scanned.admits] using hvalue
  rw [scanWhole, if_pos hc, if_pos hadmits, Nat.zero_mul, Nat.zero_add]

theorem readNumber_cons {c : Char} (hc : c.isDigit = true) (hzero : ¬ LeadingZero c t) :
    readNumber negative (c :: t)
      = readAfterWhole negative (scanWhole 0 (c :: t)).1 (scanWhole 0 (c :: t)).2 := by
  unfold readNumber
  split
  · next d u heq =>
    obtain ⟨rfl, rfl⟩ := List.cons.inj heq
    have hd : ¬ d.isDigit = true := fun hd => hzero ⟨rfl, hd⟩
    rw [if_neg hd, scanWhole_digit hc, scanWhole, if_neg hd]
    rfl
  · next d u _ heq =>
    obtain ⟨rfl, rfl⟩ := List.cons.inj heq
    rw [if_pos hc]
  · next heq => cases heq

theorem exists_cons_of_readNumber {x : Json × Text} (h : readNumber negative t = .ok x) :
    ∃ c u, t = c :: u ∧ c.isDigit = true ∧ ¬ LeadingZero c u := by
  unfold readNumber at h
  split at h
  · next c u =>
    split_ifs at h with hc
    exact ⟨'0', c :: u, rfl, rfl, fun hzero => hc hzero.2⟩
  · next c u hne =>
    split_ifs at h with hc
    refine ⟨c, u, rfl, hc, ?_⟩
    rintro ⟨rfl, hany⟩
    cases u with
    | nil => cases hany
    | cons d u => exact hne d u rfl rfl
  · cases h

theorem exists_readNumber (h : readNumber negative t = .ok (v, r)) :
    v.isNumber = true ∧ ∃ w, w ≠ [] ∧ Extent (readNumber negative) True t w v r := by
  obtain ⟨c, u, rfl, hc, hzero⟩ := exists_cons_of_readNumber h
  rw [readNumber_cons hc hzero] at h
  obtain ⟨hv, w', hw'⟩ := exists_readAfterWhole h
  obtain ⟨w, hw⟩ := exists_scanWhole (digitValue c) u
  have hscan : Scan (scanWhole 0) (c :: u) (c :: w) :=
    .cons (ne_backslash_of_isDigit hc) (scanWhole_digit hc) hw
  have hread := Extent.after_scan hscan hw'
  have htext : u = (w ++ w') ++ r := (List.cons.inj hread.text_eq).2
  refine ⟨hv, c :: (w ++ w'), by simp, congrArg (c :: ·) htext, hread.escaped, fun r' hsame => ?_⟩
  have hzero' : ¬ LeadingZero c ((w ++ w') ++ r') := by
    rwa [LeadingZero, head?_append_congr (hsame trivial), ← htext]
  have hagain := hread.again r' hsame
  rw [List.cons_append, readNumber_cons hc hzero']
  exact hagain

/-! ### Strings -/

theorem ne_backslash_of_hexValue? {c : Char} {n : Nat} (h : hexValue? c = some n) : c ≠ '\\' := by
  rintro rfl
  cases h

theorem length_mapM {β γ : Type} {f : β → Option γ} {bs : List β} {cs : List γ}
    (h : bs.mapM f = some cs) : bs.length = cs.length ∧ ∀ b ∈ bs, ∃ c, f b = some c := by
  induction bs generalizing cs with
  | nil =>
    obtain rfl : [] = cs := by simpa using h
    exact ⟨rfl, nofun⟩
  | cons b bs ih =>
    simp only [List.mapM_cons, Option.bind_eq_bind, Option.bind_eq_some_iff, Option.pure_def,
      Option.some.injEq] at h
    obtain ⟨c, hc, cs', hcs', rfl⟩ := h
    obtain ⟨hlength, hmem⟩ := ih hcs'
    exact ⟨congrArg Nat.succ hlength, List.forall_mem_cons.mpr ⟨⟨c, hc⟩, hmem⟩⟩

theorem exists_readHex {n : Nat} (h : readHex t = .ok (n, r)) :
    ∃ w, Extent readHex False t w n r := by
  unfold readHex at h
  split_ifs at h with hsize
  split at h
  · next a b c d hhex =>
    obtain ⟨rfl, rfl⟩ := Prod.mk.inj (Except.ok.inj h)
    obtain ⟨hlength, hdigits⟩ := length_mapM hhex
    refine ⟨t.take 4, (List.take_append_drop 4 t).symm, .of_forall fun c hc => ?_, fun r' _ => ?_⟩
    · obtain ⟨n, hn⟩ := hdigits c hc
      exact ne_backslash_of_hexValue? hn
    · have htake : (t.take 4 ++ r').take 4 = t.take 4 := List.take_left' hlength
      have hdrop : (t.take 4 ++ r').drop 4 = r' := List.drop_left' hlength
      rw [readHex, htake, hdrop, if_neg hsize, hhex]
  · cases h

/-- The second half of a pair of surrogates. -/
def readLow (n : Nat) (t : Text) : Except Fault (Nat × Text) :=
  match t with
  | '\\' :: 'u' :: t => do
    let (m, t) ← readHex t
    if 0xDC00 ≤ m ∧ m ≤ 0xDFFF then .ok (0x10000 + (n - 0xD800) * 0x400 + (m - 0xDC00), t)
    else .error .malformed
  | ['\\'] => .error .ended
  | [] => .error .ended
  | _ => .error .malformed

/-- What follows the first unit of an escape. -/
def finishUnits (first : Nat × Text) : Except Fault (Nat × Text) :=
  if 0xDC00 ≤ first.1 ∧ first.1 ≤ 0xDFFF then .error .malformed
  else if 0xD800 ≤ first.1 ∧ first.1 ≤ 0xDBFF then readLow first.1 first.2
  else .ok first

theorem readUnits_eq (t : Text) : readUnits t = readHex t >>= finishUnits := rfl

theorem exists_readLow {n k : Nat} (h : readLow n t = .ok (k, r)) :
    ∃ w, Extent (readLow n) False t w k r := by
  unfold readLow at h
  split at h
  · next u =>
    obtain ⟨⟨m, u'⟩, hm, h⟩ := bind_eq_ok.mp h
    dsimp only at h
    split_ifs at h with hlow
    obtain ⟨rfl, rfl⟩ := Prod.mk.inj (Except.ok.inj h)
    obtain ⟨w, hw⟩ := exists_readHex hm
    exact ⟨_, .pair (by decide) (fun r => rfl) (hw.finish fun r' => if_pos hlow)⟩
  · cases h
  · cases h
  · cases h

theorem exists_readUnits {n : Nat} (h : readUnits t = .ok (n, r)) :
    ∃ w, Extent readUnits False t w n r := by
  rw [readUnits_eq] at h
  obtain ⟨⟨m, u⟩, hm, h⟩ := bind_eq_ok.mp h
  obtain ⟨w, hw⟩ := exists_readHex hm
  by_cases hlow : 0xDC00 ≤ m ∧ m ≤ 0xDFFF
  · rw [finishUnits, if_pos hlow] at h
    cases h
  by_cases hhigh : 0xD800 ≤ m ∧ m ≤ 0xDBFF
  · have hpair : ∀ r', finishUnits (m, r') = readLow m r' := fun r' =>
      (if_neg hlow).trans (if_pos hhigh)
    rw [hpair] at h
    obtain ⟨w', hw'⟩ := exists_readLow h
    have hlater : Extent (fun r => finishUnits (m, r)) False u w' n r := by
      refine ⟨hw'.text_eq, hw'.escaped, fun u' hsame => ?_⟩
      rw [hpair]
      exact hw'.again u' hsame
    exact ⟨w ++ w', hw.bind hlater⟩
  · have hsingle : ∀ r', finishUnits (m, r') = .ok (m, r') := fun r' =>
      (if_neg hlow).trans (if_neg hhigh)
    rw [hsingle] at h
    obtain ⟨rfl, rfl⟩ := Prod.mk.inj (Except.ok.inj h)
    exact ⟨w, hw.finish hsingle⟩

/-- The character that a letter behind a backslash stands for. -/
def simpleEscape? (c : Char) : Option Char :=
  if c = '"' ∨ c = '\\' ∨ c = '/' then some c
  else if c = 'b' then some '\x08'
  else if c = 'f' then some '\x0c'
  else if c = 'n' then some '\n'
  else if c = 'r' then some '\r'
  else if c = 't' then some '\t'
  else none

theorem readEscape_of_ne {c : Char} (hc : c ≠ 'u') (t : Text) :
    readEscape (c :: t) =
      match simpleEscape? c with
      | some e => .ok (e, t)
      | none => .error .malformed := by
  unfold readEscape simpleEscape?
  split
  · next heq => cases heq
  · next heq => exact (hc (List.cons.inj heq).1).elim
  · next heq =>
    obtain ⟨rfl, rfl⟩ := List.cons.inj heq
    split_ifs
    all_goals rfl

/-- An escape takes a character along, which is no apostrophe. -/
theorem exists_readEscape {e : Char} (h : readEscape t = .ok (e, r)) :
    ∃ w, t = w ++ r ∧ Escaped ('\\' :: w) ∧ ∀ r', readEscape (w ++ r') = .ok (e, r') := by
  cases t with
  | nil => cases h
  | cons c t =>
    by_cases hc : c = 'u'
    · subst hc
      obtain ⟨⟨n, u⟩, hn, h⟩ := bind_eq_ok.mp h
      obtain ⟨rfl, rfl⟩ := Prod.mk.inj (Except.ok.inj h)
      obtain ⟨w, hw⟩ := exists_readUnits hn
      refine ⟨'u' :: w, congrArg ('u' :: ·) hw.text_eq, .pair (by decide) hw.escaped, fun r' => ?_⟩
      exact bind_eq_ok.mpr ⟨_, hw.again r' False.elim, rfl⟩
    · rw [readEscape_of_ne hc] at h
      cases hsimple : simpleEscape? c with
      | none =>
        rw [hsimple] at h
        cases h
      | some e' =>
        rw [hsimple] at h
        obtain ⟨rfl, rfl⟩ := Prod.mk.inj (Except.ok.inj h)
        have hquote : c ≠ '\x27' := by
          rintro rfl
          cases hsimple
        refine ⟨[c], rfl, .pair hquote .nil, fun r' => ?_⟩
        rw [List.singleton_append, readEscape_of_ne hc, hsimple]

theorem readString_escape (fuel : Nat) (t : Text) :
    readString (fuel + 1) ('\\' :: t) = (do
      let (e, t) ← readEscape t
      let (s, t) ← readString fuel t
      .ok (e :: s, t)) := rfl

theorem readString_plain {c : Char} (hend : c ≠ '"') (hescape : c ≠ '\\')
    (hcontrol : ¬ c.toNat < 0x20) (fuel : Nat) (t : Text) :
    readString (fuel + 1) (c :: t) = (do
      let (s, t) ← readString fuel t
      .ok (c :: s, t)) := by
  rw [readString, if_neg hend, if_neg hescape, if_neg hcontrol]

theorem exists_readString {fuel : Nat} {s : Text} (h : readString fuel t = .ok (s, r)) :
    ∃ w, w ≠ [] ∧ ∀ fuel', w.length ≤ fuel' → Extent (readString fuel') False t w s r := by
  induction fuel generalizing t s with
  | zero => cases h
  | succ fuel ih =>
    cases t with
    | nil => cases h
    | cons c t =>
      by_cases hend : c = '"'
      · subst hend
        obtain ⟨rfl, rfl⟩ := Prod.mk.inj (Except.ok.inj h)
        refine ⟨['"'], by simp, fun fuel' hfuel => ⟨rfl, .plain (by decide) .nil, ?_⟩⟩
        obtain ⟨fuel', rfl⟩ := Nat.exists_eq_add_of_le' hfuel
        exact fun r' _ => rfl
      by_cases hescape : c = '\\'
      · subst hescape
        rw [readString_escape] at h
        obtain ⟨⟨e, u⟩, he, h⟩ := bind_eq_ok.mp h
        obtain ⟨⟨s', u'⟩, hs', h⟩ := bind_eq_ok.mp h
        obtain ⟨rfl, rfl⟩ := Prod.mk.inj (Except.ok.inj h)
        obtain ⟨w, rfl, hescaped, hagain⟩ := exists_readEscape he
        obtain ⟨w', hne, hw'⟩ := ih hs'
        refine ⟨'\\' :: (w ++ w'), by simp, fun fuel' hfuel => ?_⟩
        rw [List.length_cons, List.length_append] at hfuel
        obtain ⟨fuel', rfl⟩ := Nat.exists_eq_add_of_le' (Nat.le_trans (Nat.le_add_left 1 _) hfuel)
        have hcut := hw' fuel' (by omega)
        refine ⟨by rw [hcut.text_eq]; simp, hescaped.append hcut.escaped, fun r' _ => ?_⟩
        rw [List.cons_append, readString_escape, List.append_assoc]
        exact bind_eq_ok.mpr ⟨_, hagain _, bind_eq_ok.mpr ⟨_, hcut.again r' False.elim, rfl⟩⟩
      by_cases hcontrol : c.toNat < 0x20
      · rw [readString, if_neg hend, if_neg hescape, if_pos hcontrol] at h
        cases h
      · rw [readString_plain hend hescape hcontrol] at h
        obtain ⟨⟨s', u⟩, hs', h⟩ := bind_eq_ok.mp h
        obtain ⟨rfl, rfl⟩ := Prod.mk.inj (Except.ok.inj h)
        obtain ⟨w, hne, hw⟩ := ih hs'
        refine ⟨c :: w, by simp, fun fuel' hfuel => ?_⟩
        rw [List.length_cons] at hfuel
        obtain ⟨fuel', rfl⟩ := Nat.exists_eq_add_of_le' (Nat.le_trans (Nat.le_add_left 1 _) hfuel)
        have hcut := hw fuel' (by omega)
        refine ⟨congrArg (c :: ·) hcut.text_eq, .plain hescape hcut.escaped, fun r' _ => ?_⟩
        rw [List.cons_append, readString_plain hend hescape hcontrol]
        exact bind_eq_ok.mpr ⟨_, hcut.again r' False.elim, rfl⟩

end EvenChroma.Json
