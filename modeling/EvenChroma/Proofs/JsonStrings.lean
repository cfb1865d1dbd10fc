/-
  EvenChroma/Proofs/JsonStrings.lean
  ==================================
  **The strings of a JSON text.**  Outside its strings a JSON text has neither quotes nor
  backslashes, and between two strings there is a bracket, a brace, a colon or a comma, as
  there is before the first and after the last one of an object (`Strung`).  A string of
  letters and digits is written with letters, digits and backslashes.
-/
import EvenChroma.Proofs.JsonExtent

namespace EvenChroma

/-- What can be decided of a character can be decided of all characters of a text. -/
theorem Text.forall_of_all {p : Char → Prop} [DecidablePred p] {t : Text}
    (h : t.all (fun c => decide (p c)) = true) : ∀ c ∈ t, p c :=
  fun c hc => of_decide_eq_true (List.all_eq_true.mp h c hc)

namespace Json

/-! ### Strings of a value -/

mutual

/-- The strings of a value, keys included, in the order in which they are written. -/
def texts : Json → List Text
  | string s => [s]
  | array items => itemTexts items
  | object members => memberTexts members
  | _ => []

def itemTexts : List Json → List Text
  | [] => []
  | item :: items => texts item ++ itemTexts items

def memberTexts : List (Text × Json) → List Text
  | [] => []
  | (key, value) :: members => key :: (texts value ++ memberTexts members)

end

/-! ### Strings of a text -/

/-- Punctuation of arrays and objects. -/
def isMark (c : Char) : Bool :=
  c = '\x7b' || c = '\x7d' || c = '[' || c = ']' || c = ':' || c = ','

/-- A character that stands for itself, and neither in JSON nor around it for a quote. -/
def IsPlain (c : Char) : Prop := c ≠ '"' ∧ c ≠ '\\' ∧ c ≠ '\x27'

instance (c : Char) : Decidable (IsPlain c) := instDecidableAnd

theorem isPlain_of_kind {p : Char → Bool} {c : Char} (hc : p c = true) (hquote : p '"' = false)
    (hbackslash : p '\\' = false) (hapostrophe : p '\x27' = false) : IsPlain c := by
  have hne : ∀ d, p d = false → c ≠ d := by
    rintro d hd rfl
    rw [hd] at hc
    cases hc
  exact ⟨hne _ hquote, hne _ hbackslash, hne _ hapostrophe⟩

/-- A character that a string of letters and digits is written with. -/
def IsWordChar (c : Char) : Prop := c.isAlphanum = true ∨ c = '\\'

instance (c : Char) : Decidable (IsWordChar c) := instDecidableOr

/-- Written between quotes, `raw` gives the string; letters and digits are written with their own
    kind and backslashes. -/
def Spells (raw s : Text) : Prop :=
  (∀ c ∈ s, c.isAlphanum = true) → ∀ c ∈ raw, IsWordChar c

/-- The text is made of these strings in their quotes and of plain characters between them.  A
    string needs a mark between it and the string before; `marked` says whether there is one
    already, and `marked'` whether there is one behind the last string. -/
inductive Strung : (marked : Bool) → Text → List Text → (marked' : Bool) → Prop where
  | nil (marked : Bool) : Strung marked [] [] marked
  | plain {marked marked' : Bool} {c : Char} {w : Text} {ss : List Text} (hc : IsPlain c)
    (hlater : Strung (marked || isMark c) w ss marked') : Strung marked (c :: w) ss marked'
  | string {marked' : Bool} {raw s w : Text} {ss : List Text} (hraw : Spells raw s)
    (hlater : Strung false w ss marked') : Strung true ('"' :: (raw ++ '"' :: w)) (s :: ss) marked'

theorem isPlain_of_isMark {c : Char} (h : isMark c = true) : IsPlain c :=
  isPlain_of_kind h rfl rfl rfl

namespace Strung

variable {marked marked' marked'' : Bool} {w w' : Text} {ss ss' : List Text}

theorem append (h : Strung marked w ss marked') (hlater : Strung marked' w' ss' marked'') :
    Strung marked (w ++ w') (ss ++ ss') marked'' := by
  induction h with
  | nil marked => exact hlater
  | plain hc _ ih => exact plain hc (ih hlater)
  | @string _ raw s w ss hraw _ ih =>
    have hall := string hraw (ih hlater)
    rwa [List.cons_append, List.append_assoc, List.cons_append]

/-- Plain characters may stand anywhere, and marks among them stay seen. -/
theorem exists_plain (marked : Bool) (hw : ∀ c ∈ w, IsPlain c) :
    ∃ marked', Strung marked w [] marked' ∧ (marked = true → marked' = true) := by
  induction w generalizing marked with
  | nil => exact ⟨marked, nil marked, id⟩
  | cons c w ih =>
    obtain ⟨hc, hw⟩ := List.forall_mem_cons.mp hw
    obtain ⟨marked', hlater, hmarked⟩ := ih (marked || isMark c) hw
    exact ⟨marked', plain hc hlater, fun h => hmarked (by rw [h, Bool.true_or])⟩

theorem mark {c : Char} (hc : isMark c = true) (h : Strung true w ss marked') :
    Strung marked (c :: w) ss marked' := by
  apply plain (isPlain_of_isMark hc)
  rwa [hc, Bool.or_true]

theorem no_apostrophe (h : Strung marked w ss marked')
    (hss : ∀ s ∈ ss, ∀ c ∈ s, c.isAlphanum = true) : '\x27' ∉ w := by
  induction h with
  | nil => exact List.not_mem_nil
  | plain hc _ ih =>
    rw [List.mem_cons, not_or]
    exact ⟨hc.2.2.symm, ih hss⟩
  | string hraw _ ih =>
    obtain ⟨hs, hss⟩ := List.forall_mem_cons.mp hss
    have hword : '\x27' ∉ _ := fun hmem => absurd (hraw hs _ hmem) (by decide)
    simp [hword, ih hss]

/-- Plain characters in front of what may follow a mark. -/
theorem append_plain (hw : ∀ c ∈ w, IsPlain c) (h : Strung true w' ss marked') :
    Strung true (w ++ w') ss marked' := by
  obtain ⟨seen, hplain, hseen⟩ := exists_plain true hw
  obtain rfl : seen = true := hseen rfl
  exact hplain.append h

end Strung

/-! ### Numbers -/

/-- What is left of a text behind characters of a kind. -/
def Skips (p : Char → Prop) (t r : Text) : Prop := ∃ w, t = w ++ r ∧ ∀ c ∈ w, p c

namespace Skips

variable {p : Char → Prop} {t r : Text}

theorem refl (t : Text) : Skips p t t := ⟨[], rfl, nofun⟩

theorem cons {c : Char} (hc : p c) (h : Skips p t r) : Skips p (c :: t) r := by
  obtain ⟨w, rfl, hw⟩ := h
  exact ⟨c :: w, rfl, List.forall_mem_cons.mpr ⟨hc, hw⟩⟩

theorem trans {u : Text} (h : Skips p t u) (hlater : Skips p u r) : Skips p t r := by
  obtain ⟨w, rfl, hw⟩ := h
  obtain ⟨w', rfl, hw'⟩ := hlater
  exact ⟨w ++ w', (List.append_assoc ..).symm, List.forall_mem_append.mpr ⟨hw, hw'⟩⟩

end Skips

theorem isPlain_of_isDigit {c : Char} (h : c.isDigit = true) : IsPlain c :=
  isPlain_of_kind h rfl rfl rfl

theorem skips_dropWhile (t : Text) : Skips IsPlain t (t.dropWhile Char.isDigit) :=
  ⟨_, List.takeWhile_append_dropWhile.symm, fun c hc =>
    isPlain_of_isDigit (List.all_eq_true.mp List.all_takeWhile c hc)⟩

section

variable {negative : Bool} {s s' : Scanned} {t r : Text} {v : Json}

theorem skips_scanWhole (n : Nat) (t : Text) : Skips IsPlain t (scanWhole n t).2 := by
  fun_induction scanWhole n t with
  | case1 => exact .refl _
  | case2 n c t hc hadmits ih => exact .cons (isPlain_of_isDigit hc) ih
  | case3 n c t hc hadmits digits => exact skips_dropWhile (c :: t)
  | case4 n c t hc => exact .refl _

theorem skips_scanFraction (s : Scanned) (t : Text) : Skips IsPlain t (scanFraction s t).2 := by
  fun_induction scanFraction s t with
  | case1 => exact .refl _
  | case2 s c t hc hadmits ih => exact .cons (isPlain_of_isDigit hc) ih
  | case3 s c t hc hadmits => exact skips_dropWhile (c :: t)
  | case4 s c t hc => exact .refl _

theorem skips_readDigits {f : Text → Scanned} (h : readDigits f t = .ok (s, r)) :
    Skips IsPlain t r := by
  rw [readDigits] at h
  split_ifs at h
  obtain ⟨-, rfl⟩ := Prod.mk.inj (Except.ok.inj h)
  exact skips_dropWhile t

theorem skips_scanExponent (h : scanExponent s t = .ok (s', r)) : Skips IsPlain t r := by
  by_cases hminus : t.head? = some '-'
  · obtain ⟨t, rfl⟩ := List.head?_eq_some_iff.mp hminus
    rw [scanExponent_minus] at h
    exact .cons (by decide) (skips_readDigits h)
  by_cases hplus : t.head? = some '+'
  · obtain ⟨t, rfl⟩ := List.head?_eq_some_iff.mp hplus
    rw [scanExponent_plus] at h
    exact .cons (by decide) (skips_readDigits h)
  rw [scanExponent_of_ne s hminus hplus] at h
  exact skips_readDigits h

theorem skips_readTail {finish : Scanned → Text → Except Fault (Json × Text)}
    (hfinish : TakesNothing (finish s)) (h : readTail negative finish s t = .ok (v, r)) :
    Skips IsPlain t r := by
  cases t with
  | nil =>
    obtain ⟨rfl, -⟩ := hfinish _ _ _ h
    exact .refl _
  | cons e t =>
    rw [readTail] at h
    split at h
    · next he =>
      obtain ⟨⟨s', r'⟩, hexponent, hvalue⟩ := bind_eq_ok.mp h
      obtain ⟨rfl, -⟩ := takesNothing_ofScanned negative s' r' r v hvalue
      have hplain : IsPlain e := by
        rcases he with rfl | rfl
        · decide
        · decide
      exact .cons hplain (skips_scanExponent hexponent)
    · obtain ⟨rfl, -⟩ := hfinish _ _ _ h
      exact .refl _

theorem skips_readAfterWhole (h : readAfterWhole negative s t = .ok (v, r)) :
    Skips IsPlain t r := by
  by_cases hpoint : t.head? = some '.'
  · obtain ⟨t, rfl⟩ := List.head?_eq_some_iff.mp hpoint
    cases t with
    | nil => cases h
    | cons c t =>
      by_cases hc : c.isDigit = true
      · rw [readAfterWhole_point hc] at h
        exact .cons (by decide)
          ((skips_scanFraction s _).trans (skips_readTail (takesNothing_ofScanned negative _) h))
      · simp [readAfterWhole, hc] at h
  · rw [readAfterWhole_of_ne hpoint] at h
    exact skips_readTail (takesNothing_ofInteger negative s) h

theorem skips_readNumber (h : readNumber negative t = .ok (v, r)) : Skips IsPlain t r := by
  obtain ⟨c, u, rfl, hc, hzero⟩ := exists_cons_of_readNumber h
  rw [readNumber_cons hc hzero] at h
  exact (skips_scanWhole 0 _).trans (skips_readAfterWhole h)

end

/-! ### Letters and digits in strings -/

theorem isAlphanum_iff {c : Char} :
    c.isAlphanum = true ↔ (c.isUpper = true ∨ c.isLower = true) ∨ c.isDigit = true := by
  change ((c.isUpper || c.isLower) || c.isDigit) = true ↔ _
  rw [Bool.or_eq_true, Bool.or_eq_true]

theorem isAlphanum_of_hexValue? {c : Char} {n : Nat} (h : hexValue? c = some n) :
    c.isAlphanum = true := by
  unfold hexValue? at h
  split_ifs at h with hdigit hlower hupper
  · exact isAlphanum_iff.mpr (.inr hdigit)
  · have hle : c.val ≤ 'z'.val := UInt32.le_trans hlower.2 (by decide)
    have hletter : c.isLower = true :=
      Bool.and_eq_true_iff.mpr ⟨decide_eq_true hlower.1, decide_eq_true hle⟩
    exact isAlphanum_iff.mpr (.inl (.inr hletter))
  · have hle : c.val ≤ 'Z'.val := UInt32.le_trans hupper.2 (by decide)
    have hletter : c.isUpper = true := decide_eq_true ⟨hupper.1, hle⟩
    exact isAlphanum_iff.mpr (.inl (.inl hletter))

section

variable {t r : Text} {n : Nat}

theorem skipsWord_readHex (h : readHex t = .ok (n, r)) : Skips IsWordChar t r := by
  unfold readHex at h
  split_ifs at h
  split at h
  · next a b c d hhex =>
    obtain ⟨-, rfl⟩ := Prod.mk.inj (Except.ok.inj h)
    refine ⟨t.take 4, (List.take_append_drop 4 t).symm, fun c hc => ?_⟩
    obtain ⟨m, hm⟩ := (length_mapM hhex).2 c hc
    exact .inl (isAlphanum_of_hexValue? hm)
  · cases h

theorem skipsWord_readUnits (h : readUnits t = .ok (n, r)) : Skips IsWordChar t r := by
  rw [readUnits_eq] at h
  obtain ⟨⟨m, u⟩, hm, h⟩ := bind_eq_ok.mp h
  apply (skipsWord_readHex hm).trans
  rw [finishUnits] at h
  split_ifs at h
  · unfold readLow at h
    dsimp only at h
    split at h
    · next u' =>
      obtain ⟨⟨low, u''⟩, hlow, h⟩ := bind_eq_ok.mp h
      dsimp only at h
      split_ifs at h
      obtain ⟨-, rfl⟩ := Prod.mk.inj (Except.ok.inj h)
      exact .cons (.inr rfl) (.cons (.inl rfl) (skipsWord_readHex hlow))
    · cases h
    · cases h
    · cases h
  · obtain ⟨-, rfl⟩ := Prod.mk.inj (Except.ok.inj h)
    exact .refl _

theorem isAlphanum_of_simpleEscape? {c e : Char} (h : simpleEscape? c = some e) :
    e.isAlphanum = false := by
  unfold simpleEscape? at h
  split_ifs at h with hself
  · obtain rfl := Option.some.inj h
    rcases hself with rfl | rfl | rfl
    all_goals rfl
  all_goals
    obtain rfl := Option.some.inj h
    rfl

/-- An escape that gives a letter or a digit is a code point in hexadecimal digits. -/
theorem skipsWord_readEscape {e : Char} (h : readEscape t = .ok (e, r))
    (he : e.isAlphanum = true) : Skips IsWordChar t r := by
  cases t with
  | nil => cases h
  | cons c t =>
    by_cases hc : c = 'u'
    · subst hc
      obtain ⟨⟨n, u⟩, hn, h⟩ := bind_eq_ok.mp h
      obtain ⟨-, rfl⟩ := Prod.mk.inj (Except.ok.inj h)
      exact .cons (.inl rfl) (skipsWord_readUnits hn)
    · rw [readEscape_of_ne hc] at h
      split at h
      · next e' hsimple =>
        obtain ⟨rfl, -⟩ := Prod.mk.inj (Except.ok.inj h)
        rw [isAlphanum_of_simpleEscape? hsimple] at he
        cases he
      · cases h

/-- A string goes up to its closing quote. -/
theorem exists_spells {fuel : Nat} {s : Text} (h : readString fuel t = .ok (s, r)) :
    ∃ raw, t = raw ++ '"' :: r ∧ Spells raw s := by
  induction fuel generalizing t s with
  | zero => cases h
  | succ fuel ih =>
    cases t with
    | nil => cases h
    | cons c t =>
      by_cases hend : c = '"'
      · subst hend
        obtain ⟨rfl, rfl⟩ := Prod.mk.inj (Except.ok.inj h)
        exact ⟨[], rfl, fun _ => nofun⟩
      by_cases hescape : c = '\\'
      · subst hescape
        rw [readString_escape] at h
        obtain ⟨⟨e, u⟩, he, h⟩ := bind_eq_ok.mp h
        obtain ⟨⟨s', u'⟩, hs', h⟩ := bind_eq_ok.mp h
        obtain ⟨rfl, rfl⟩ := Prod.mk.inj (Except.ok.inj h)
        obtain ⟨w, rfl, -, -⟩ := exists_readEscape he
        obtain ⟨raw, rfl, hraw⟩ := ih hs'
        refine ⟨'\\' :: (w ++ raw), by simp, fun hs => ?_⟩
        obtain ⟨halnum, hs⟩ := List.forall_mem_cons.mp hs
        obtain ⟨w', hw', hword⟩ := skipsWord_readEscape he halnum
        obtain rfl := List.append_cancel_right hw'
        exact List.forall_mem_cons.mpr ⟨.inr rfl, List.forall_mem_append.mpr ⟨hword, hraw hs⟩⟩
      by_cases hcontrol : c.toNat < 0x20
      · rw [readString, if_neg hend, if_neg hescape, if_pos hcontrol] at h
        cases h
      · rw [readString_plain hend hescape hcontrol] at h
        obtain ⟨⟨s', u⟩, hs', h⟩ := bind_eq_ok.mp h
        obtain ⟨rfl, rfl⟩ := Prod.mk.inj (Except.ok.inj h)
        obtain ⟨raw, rfl, hraw⟩ := ih hs'
        refine ⟨c :: raw, rfl, fun hs => ?_⟩
        obtain ⟨halnum, hs⟩ := List.forall_mem_cons.mp hs
        exact List.forall_mem_cons.mpr ⟨.inl halnum, hraw hs⟩

end

/-! ### Strings of what is read -/

theorem isPlain_of_isJsonBlank {c : Char} (h : isJsonBlank c = true) : IsPlain c :=
  isPlain_of_kind h rfl rfl rfl

/-- What is read off the front of `t` has these strings, with a mark before the first of them
    and behind the last one; the mark before may have come already if `first` is true. -/
def Leaves (first : Bool) (t : Text) (ss : List Text) (r : Text) : Prop :=
  ∃ w, t = w ++ r ∧ ∀ marked, (first = true → marked = true) → Strung marked w ss true

namespace Leaves

variable {first : Bool} {t r : Text} {ss : List Text}

theorem blanks {ws : Text} (hws : ∀ c ∈ ws, isJsonBlank c = true) (h : Leaves first t ss r) :
    Leaves first (ws ++ t) ss r := by
  obtain ⟨w, rfl, hw⟩ := h
  refine ⟨ws ++ w, (List.append_assoc ..).symm, fun marked hfirst => ?_⟩
  obtain ⟨seen, hplain, hseen⟩ :=
    Strung.exists_plain marked fun c hc => isPlain_of_isJsonBlank (hws c hc)
  exact hplain.append (hw seen fun h => hseen (hfirst h))

theorem mark {c : Char} (hc : isMark c = true) (h : Leaves true t ss r) :
    Leaves first (c :: t) ss r := by
  obtain ⟨w, rfl, hw⟩ := h
  exact ⟨c :: w, rfl, fun marked _ => .mark hc (hw true fun _ => rfl)⟩

theorem close {c : Char} (hc : isMark c = true) (r : Text) : Leaves first (c :: r) [] r :=
  ⟨[c], rfl, fun _ _ => .mark hc (.nil true)⟩

/-- A value and what is left behind it. -/
theorem append {w : Text} {ss' : List Text} {marked : Bool} (hvalue : Strung true w ss marked)
    (h : Leaves false t ss' r) : Leaves true (w ++ t) (ss ++ ss') r := by
  obtain ⟨w', rfl, hw'⟩ := h
  refine ⟨w ++ w', (List.append_assoc ..).symm, fun seen hseen => ?_⟩
  obtain rfl := hseen rfl
  exact hvalue.append (hw' marked nofun)

end Leaves

def ValuesStrung (fuel : Nat) : Prop :=
  ∀ depth t v r, readValue fuel depth t = .ok (v, r) →
    ∃ w marked, t = w ++ r ∧ Strung true w v.texts marked

def ItemsStrung (fuel : Nat) : Prop :=
  ∀ depth first t items r, readItems fuel depth first t = .ok (items, r) →
    Leaves first t (itemTexts items) r

def LaterItemsStrung (fuel : Nat) : Prop :=
  ∀ depth t items r, readItemsFrom fuel depth t = .ok (items, r) →
    Leaves true t (itemTexts items) r

def MembersStrung (fuel : Nat) : Prop :=
  ∀ depth first t members r, readMembers fuel depth first t = .ok (members, r) →
    Leaves first t (memberTexts members) r

def LaterMembersStrung (fuel : Nat) : Prop :=
  ∀ depth t members r, readMembersFrom fuel depth t = .ok (members, r) →
    Leaves true t (memberTexts members) r

theorem texts_of_isNumber {v : Json} (h : v.isNumber = true) : v.texts = [] := by
  cases v with
  | array => cases h
  | object => cases h
  | string => cases h
  | _ => rfl

theorem exists_strung_of_plain {v : Json} {t r : Text} (hv : v.texts = [])
    (h : Skips IsPlain t r) : ∃ w marked, t = w ++ r ∧ Strung true w v.texts marked := by
  obtain ⟨w, rfl, hw⟩ := h
  obtain ⟨marked, hstrung, -⟩ := Strung.exists_plain true hw
  exact ⟨w, marked, rfl, hv ▸ hstrung⟩

theorem skips_readWord {word t r : Text} {value v : Json} (hword : ∀ c ∈ word, IsPlain c)
    (h : readWord word value t = .ok (v, r)) : Skips IsPlain t r ∧ v = value := by
  obtain ⟨rfl, rfl⟩ := readWord_eq_ok_iff.mp h
  exact ⟨⟨word, rfl, hword⟩, rfl⟩

theorem valuesStrung_succ {fuel : Nat} (hitems : ItemsStrung fuel) (hmembers : MembersStrung fuel) :
    ValuesStrung (fuel + 1) := by
  intro depth t v r h
  cases hskip : skipBlanks t with
  | nil =>
    rw [readValue, hskip] at h
    cases h
  | cons c u =>
    have hhead := head_of_readValue hskip h
    obtain ⟨ws, rfl, hws, hc⟩ := exists_skipBlanks hskip
    rw [readValue_blanks hws hc] at h
    suffices hvalue : ∃ w marked, c :: u = w ++ r ∧ Strung true w v.texts marked by
      obtain ⟨w, marked, htext, hw⟩ := hvalue
      refine ⟨ws ++ w, marked, by rw [htext, List.append_assoc], ?_⟩
      exact hw.append_plain fun c hc => isPlain_of_isJsonBlank (hws c hc)
    cases hhead with
    | null =>
      rw [readValue_null] at h
      obtain ⟨hskips, rfl⟩ := skips_readWord (Text.forall_of_all (by decide)) h
      exact exists_strung_of_plain rfl (.cons (by decide) hskips)
    | true =>
      rw [readValue_true] at h
      obtain ⟨hskips, rfl⟩ := skips_readWord (Text.forall_of_all (by decide)) h
      exact exists_strung_of_plain rfl (.cons (by decide) hskips)
    | false =>
      rw [readValue_false] at h
      obtain ⟨hskips, rfl⟩ := skips_readWord (Text.forall_of_all (by decide)) h
      exact exists_strung_of_plain rfl (.cons (by decide) hskips)
    | minus =>
      rw [readValue_minus] at h
      exact exists_strung_of_plain (texts_of_isNumber (exists_readNumber h).1)
        (.cons (by decide) (skips_readNumber h))
    | digit hdigit =>
      rw [readValue_digit _ _ _ hdigit] at h
      exact exists_strung_of_plain (texts_of_isNumber (exists_readNumber h).1) (skips_readNumber h)
    | string =>
      rw [readValue_string] at h
      obtain ⟨⟨s, u'⟩, hs, h⟩ := bind_eq_ok.mp h
      obtain ⟨rfl, rfl⟩ := Prod.mk.inj (Except.ok.inj h)
      obtain ⟨raw, rfl, hraw⟩ := exists_spells hs
      exact ⟨_, false, by simp, .string hraw (.nil false)⟩
    | @array depth =>
      rw [readValue_array] at h
      obtain ⟨⟨items, u'⟩, hs, h⟩ := bind_eq_ok.mp h
      obtain ⟨rfl, rfl⟩ := Prod.mk.inj (Except.ok.inj h)
      obtain ⟨w, rfl, hw⟩ := hitems depth _ _ _ _ hs
      exact ⟨'[' :: w, true, rfl, .mark rfl (hw true fun _ => rfl)⟩
    | @object depth =>
      rw [readValue_object] at h
      obtain ⟨⟨members, u'⟩, hs, h⟩ := bind_eq_ok.mp h
      obtain ⟨rfl, rfl⟩ := Prod.mk.inj (Except.ok.inj h)
      obtain ⟨w, rfl, hw⟩ := hmembers depth _ _ _ _ hs
      exact ⟨'\x7b' :: w, true, rfl, .mark rfl (hw true fun _ => rfl)⟩

theorem itemsStrung_succ {fuel : Nat} (hlater : LaterItemsStrung fuel) :
    ItemsStrung (fuel + 1) := by
  intro depth first t items r h
  cases hskip : skipBlanks t with
  | nil =>
    rw [readItems, hskip] at h
    cases h
  | cons c u =>
    obtain ⟨ws, rfl, hws, hc⟩ := exists_skipBlanks hskip
    rw [readItems_blanks hws hc] at h
    apply Leaves.blanks hws
    rcases cases_readItems hc h with
      ⟨rfl, rfl, rfl⟩ | ⟨-, rfl, hfrom⟩ | ⟨rfl, rfl, ws', d, u', rfl, hws', -, -, hfrom⟩
    · exact .close rfl u
    · exact hlater _ _ _ _ hfrom
    · exact .mark rfl ((hlater _ _ _ _ hfrom).blanks hws')

theorem laterItemsStrung_succ {fuel : Nat} (hvalues : ValuesStrung fuel)
    (hitems : ItemsStrung fuel) : LaterItemsStrung (fuel + 1) := by
  intro depth t items r h
  rw [readItemsFrom] at h
  obtain ⟨⟨item, u⟩, hitem, h⟩ := bind_eq_ok.mp h
  obtain ⟨⟨items', u'⟩, hlater, h⟩ := bind_eq_ok.mp h
  obtain ⟨rfl, rfl⟩ := Prod.mk.inj (Except.ok.inj h)
  obtain ⟨w, marked, rfl, hw⟩ := hvalues _ _ _ _ hitem
  exact .append hw (hitems _ _ _ _ _ hlater)

theorem membersStrung_succ {fuel : Nat} (hlater : LaterMembersStrung fuel) :
    MembersStrung (fuel + 1) := by
  intro depth first t members r h
  cases hskip : skipBlanks t with
  | nil =>
    rw [readMembers, hskip] at h
    cases h
  | cons c u =>
    obtain ⟨ws, rfl, hws, hc⟩ := exists_skipBlanks hskip
    rw [readMembers_blanks hws hc] at h
    apply Leaves.blanks hws
    rcases cases_readMembers hc h with
      ⟨rfl, rfl, rfl⟩ | ⟨-, rfl, hfrom⟩ | ⟨rfl, rfl, ws', d, u', rfl, hws', -, hfrom⟩
    · exact .close rfl u
    · exact hlater _ _ _ _ hfrom
    · exact .mark rfl ((hlater _ _ _ _ hfrom).blanks hws')

theorem laterMembersStrung_succ {fuel : Nat} (hvalues : ValuesStrung fuel)
    (hmembers : MembersStrung fuel) : LaterMembersStrung (fuel + 1) := by
  intro depth t members r h
  obtain ⟨u, rfl⟩ := exists_quote_of_readMembersFrom h
  obtain ⟨key, ws, u', hkey, hws⟩ := exists_colon_of_readMembersFrom h
  rw [readMembersFrom_key hkey hws] at h
  obtain ⟨⟨value, u₁⟩, hvalue, h⟩ := bind_eq_ok.mp h
  obtain ⟨⟨members', u₂⟩, hlater, h⟩ := bind_eq_ok.mp h
  obtain ⟨rfl, rfl⟩ := Prod.mk.inj (Except.ok.inj h)
  obtain ⟨raw, rfl, hraw⟩ := exists_spells hkey
  obtain ⟨w, marked, rfl, hw⟩ := hvalues _ _ _ _ hvalue
  obtain ⟨w', htext, hw'⟩ := Leaves.append hw (hmembers _ _ _ _ _ hlater)
  -- the colon stands between the key and the strings of the value
  have hcolon : Leaves false (':' :: _) _ _ := .mark rfl ⟨w', htext, hw'⟩
  obtain ⟨w'', htext', hw''⟩ := hcolon.blanks hws
  refine ⟨'"' :: (raw ++ '"' :: w''), ?_, fun seen hseen => ?_⟩
  · rw [htext']
    simp
  · obtain rfl := hseen rfl
    exact .string hraw (hw'' false nofun)

/-! ### The strings of a whole text -/

theorem all_strung (fuel : Nat) : ValuesStrung fuel ∧ ItemsStrung fuel ∧ LaterItemsStrung fuel ∧
    MembersStrung fuel ∧ LaterMembersStrung fuel := by
  -- every reader calls the others with less fuel
  induction fuel with
  | zero =>
    obtain ⟨hvalue, hitems, hlaterItems, hmembers, hlaterMembers⟩ := not_read_zero
    exact ⟨fun _ _ _ _ h => (hvalue _ _ _ h).elim, fun _ _ _ _ _ h => (hitems _ _ _ _ h).elim,
      fun _ _ _ _ h => (hlaterItems _ _ _ h).elim, fun _ _ _ _ _ h => (hmembers _ _ _ _ h).elim,
      fun _ _ _ _ h => (hlaterMembers _ _ _ h).elim⟩
  | succ fuel ih =>
    obtain ⟨hvalues, hitems, hlaterItems, hmembers, hlaterMembers⟩ := ih
    exact ⟨valuesStrung_succ hitems hmembers, itemsStrung_succ hlaterItems,
      laterItemsStrung_succ hvalues hitems, membersStrung_succ hlaterMembers,
      laterMembersStrung_succ hvalues hmembers⟩

/-- **A text that is an object opens with a brace, and between the brace and its end it has the
    strings of the object.** -/
theorem exists_strung {t : Text} {members : List (Text × Json)}
    (h : ofText ('\x7b' :: t) = .ok (.object members)) :
    Strung true t (memberTexts members) true := by
  obtain ⟨⟨v, r⟩, hvalue, h⟩ := bind_eq_ok.mp h
  rw [show maxDepth = 126 + 1 from rfl, readValue_object] at hvalue
  obtain ⟨⟨members', r'⟩, hmembers, hvalue⟩ := bind_eq_ok.mp hvalue
  obtain ⟨rfl, rfl⟩ := Prod.mk.inj (Except.ok.inj hvalue)
  dsimp only at h
  split at h
  · next hblank =>
    obtain rfl := Json.object.inj (Except.ok.inj h)
    obtain ⟨-, -, -, hstrung, -⟩ := all_strung _
    obtain ⟨w, rfl, hw⟩ := hstrung _ _ _ _ _ hmembers
    obtain ⟨marked, hplain, hmarked⟩ := Strung.exists_plain true fun c hc =>
      isPlain_of_isJsonBlank (List.dropWhile_eq_nil_iff.mp hblank c hc)
    obtain rfl := hmarked rfl
    simpa using (hw true fun _ => rfl).append hplain
  · cases h

end Json

end EvenChroma
