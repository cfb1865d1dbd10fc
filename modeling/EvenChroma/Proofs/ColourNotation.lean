/-
  EvenChroma/Proofs/ColourNotation.lean
  =====================================
  **The notation of a colour hides nothing from a scan.**  A colour is written as one list
  in parentheses without quotes (`Notation`), so a scan for quotes and parentheses is behind
  it where it was before it.  No call begins in the notation, and none that begins before it
  reaches into it.
-/
import EvenChroma.Engine
import EvenChroma.Proofs.CallSites
import EvenChroma.Proofs.PlainText
import Mathlib.Data.List.Infix

namespace EvenChroma

/-! ### Characters of a notation -/

def isMarkup (c : Char) : Bool := c = '(' || c = ')' || c = '\\' || Css.isQuote c

def Unmarked (w : Text) : Prop := ∀ c ∈ w, isMarkup c = false

instance (w : Text) : Decidable (Unmarked w) :=
  List.decidableBAll (p := (isMarkup · = false)) w

theorem unmarked_append {v w : Text} : Unmarked (v ++ w) ↔ Unmarked v ∧ Unmarked w :=
  List.forall_mem_append

theorem unmarked_intercalate {separator : Text} (hseparator : Unmarked separator)
    {ws : List Text} (hws : ∀ w ∈ ws, Unmarked w) : Unmarked (separator.intercalate ws) := by
  induction ws with
  | nil => simp [Unmarked]
  | cons w ws ih =>
    obtain ⟨hw, hws⟩ := List.forall_mem_cons.mp hws
    cases ws with
    | nil => simpa using hw
    | cons v ws =>
      rw [List.intercalate_cons_cons, unmarked_append, unmarked_append]
      exact ⟨⟨hw, hseparator⟩, ih hws⟩

theorem isMarkup_eq_true {c : Char} (h : isMarkup c = true) :
    c ∈ ['(', ')', '\\', '\x27', '"'] := by
  simpa [isMarkup, Css.isQuote, or_assoc] using h

theorem unmarked_plain (x : Float) : Unmarked (Double.plain x) := by
  have hplain : ∀ c ∈ ['(', ')', '\\', '\x27', '"'], c ∉ Double.plain x := by
    simp only [List.forall_mem_cons, List.not_mem_nil, false_implies, implies_true, and_true]
    refine ⟨?_, ?_, ?_, ?_, ?_⟩
    all_goals exact Double.not_mem_plain (by decide) (by decide) x
  intro c hc
  rw [← Bool.not_eq_true]
  exact fun hmarkup => hplain c (isMarkup_eq_true hmarkup) hc

theorem unmarked_number (n : Float) : Unmarked (Color.Css.number n) := by
  unfold Color.Css.number
  split
  · decide
  · exact unmarked_plain _

theorem unmarked_percent (n : Float) : Unmarked (Color.Css.percent n) := by
  unfold Color.Css.percent
  split
  · decide
  · rw [unmarked_append]
    exact ⟨unmarked_number n, by decide⟩

/-! ### The form of a notation -/

def colourFunctions : List Text :=
  ["oklch".toList, "oklab".toList, "lab".toList, "lch".toList, "hsl".toList, "hwb".toList,
    "rgb".toList, "color".toList]

/-- A colour function with its argument list. -/
def Notation (w : Text) : Prop :=
  ∃ function ∈ colourFunctions, ∃ inner,
    w = function ++ '(' :: (inner ++ [')']) ∧ Unmarked inner

theorem exists_body (model : Model) (c : Triple) :
    (∃ function ∈ colourFunctions, ∃ ident,
        (Color.Css.body model c).1.toList = function ++ '(' :: ident ∧ Unmarked ident) ∧
      ∀ w ∈ (Color.Css.body model c).2, Unmarked w := by
  have hcoords : ∀ {x y z : Text}, Unmarked x → Unmarked y → Unmarked z →
      ∀ w ∈ [x, y, z], Unmarked w := by
    intro x y z hx hy hz
    simp [hx, hy, hz]
  have hx := unmarked_number c.x
  have hnumbers := hcoords hx (unmarked_number c.y) (unmarked_number c.z)
  cases model with
  | oklch =>
    exact ⟨⟨"oklch".toList, by decide, [], by simp [Color.Css.body], by decide⟩,
      hcoords (unmarked_percent _) (unmarked_number _) (unmarked_number _)⟩
  | oklab =>
    exact ⟨⟨"oklab".toList, by decide, [], by simp [Color.Css.body], by decide⟩,
      hcoords (unmarked_percent _) (unmarked_number _) (unmarked_number _)⟩
  | lab => exact ⟨⟨"lab".toList, by decide, [], by simp [Color.Css.body], by decide⟩, hnumbers⟩
  | lch => exact ⟨⟨"lch".toList, by decide, [], by simp [Color.Css.body], by decide⟩, hnumbers⟩
  | hsl =>
    exact ⟨⟨"hsl".toList, by decide, [], by simp [Color.Css.body], by decide⟩,
      hcoords hx (unmarked_percent _) (unmarked_percent _)⟩
  | hwb =>
    exact ⟨⟨"hwb".toList, by decide, [], by simp [Color.Css.body], by decide⟩,
      hcoords hx (unmarked_percent _) (unmarked_percent _)⟩
  | srgb =>
    exact ⟨⟨"rgb".toList, by decide, [], by simp [Color.Css.body], by decide⟩,
      hcoords (unmarked_percent _) (unmarked_percent _) (unmarked_percent _)⟩
  | p3 =>
    exact ⟨⟨"color".toList, by decide, "display-p3 ".toList, by simp [Color.Css.body], by decide⟩,
      hnumbers⟩
  | rec2020 =>
    exact ⟨⟨"color".toList, by decide, "rec2020 ".toList, by simp [Color.Css.body], by decide⟩,
      hnumbers⟩
  | xyz =>
    exact ⟨⟨"color".toList, by decide, "xyz-d65 ".toList, by simp [Color.Css.body], by decide⟩,
      hnumbers⟩
  | hct =>
    exact ⟨⟨"color".toList, by decide, "--hct ".toList, by simp [Color.Css.body], by decide⟩,
      hnumbers⟩

/-- **Every colour is written in this form.** -/
theorem Color.notation_css (c : Color) : Notation c.css := by
  obtain ⟨⟨function, hfunction, ident, hname, hident⟩, hcoords⟩ := exists_body c.model c.coords
  have hopacity : Unmarked (if c.alpha < 1.0 then " / ".toList ++ Css.number c.alpha else []) := by
    split
    · rw [unmarked_append]
      exact ⟨by decide, unmarked_number _⟩
    · decide
  refine ⟨function, hfunction, ident ++ ([' '].intercalate (Css.body c.model c.coords).2 ++
    if c.alpha < 1.0 then " / ".toList ++ Css.number c.alpha else []), ?_, ?_⟩
  · rw [Color.css]
    simp [hname]
  · rw [unmarked_append, unmarked_append]
    exact ⟨hident, unmarked_intercalate (by decide) hcoords, hopacity⟩

/-! ### Scans over a notation -/

open Css

variable {w : Text}

theorem Css.scan_unmarked (hw : Unmarked w) (depth : Nat) (t : Text) :
    scan .outside depth (w ++ t) = scan .outside depth t := by
  induction w with
  | nil => rfl
  | cons c w ih =>
    obtain ⟨hc, hw⟩ := List.forall_mem_cons.mp hw
    simp only [isMarkup, Bool.or_eq_false_iff, decide_eq_false_iff_not] at hc
    obtain ⟨⟨⟨hopen, hclose⟩, -⟩, hquote⟩ := hc
    have hnext : Quoting.outside.next c = .outside := by
      rw [Quoting.next, hquote]
      rfl
    rw [List.cons_append, scan_outside hclose, if_neg hopen, hnext, ih hw]

theorem Css.scan_inside {quote : Char} (hquote : quote ∉ w) (hescape : '\\' ∉ w) (depth : Nat) :
    scan (.inside quote) depth w = some (.inside quote, depth) := by
  induction w with
  | nil => rfl
  | cons c w ih =>
    rw [List.mem_cons, not_or] at hquote hescape
    have hnext : (Quoting.inside quote).next c = .inside quote := by
      rw [Quoting.next, if_neg (Ne.symm hescape.1), if_neg (Ne.symm hquote.1)]
    have hstep : scan (.inside quote) depth (c :: w)
        = scan ((Quoting.inside quote).next c) depth w := rfl
    rw [hstep, hnext]
    exact ih hquote.2 hescape.2

theorem unmarked_colourFunctions : ∀ function ∈ colourFunctions, Unmarked function := by
  decide

theorem Notation.scan_outside (h : Notation w) (depth : Nat) :
    scan .outside depth w = some (.outside, depth) := by
  obtain ⟨function, hfunction, inner, rfl, hinner⟩ := h
  rw [scan_unmarked (unmarked_colourFunctions function hfunction),
    Css.scan_outside (by decide)]
  exact scan_unmarked hinner (depth + 1) [')']

theorem Notation.not_mem (h : Notation w) {c : Char} (hmarkup : isMarkup c = true)
    (hopen : c ≠ '(') (hclose : c ≠ ')') : c ∉ w := by
  obtain ⟨function, hfunction, inner, rfl, hinner⟩ := h
  have hunmarked : ∀ {v : Text}, Unmarked v → c ∉ v := by
    intro v hv hc
    rw [hv c hc] at hmarkup
    cases hmarkup
  have hname := hunmarked (unmarked_colourFunctions function hfunction)
  simp [hname, hunmarked hinner, hopen, hclose]

theorem Notation.quote_not_mem (h : Notation w) {quote : Char} (hquote : isQuote quote = true) :
    quote ∉ w ∧ '\\' ∉ w := by
  constructor
  · apply h.not_mem
    · simp [isMarkup, hquote]
    · rintro rfl
      cases hquote
    · rintro rfl
      cases hquote
  · exact h.not_mem rfl (by decide) (by decide)

theorem Notation.scan_inside (h : Notation w) {quote : Char} (hquote : isQuote quote = true)
    (depth : Nat) : scan (.inside quote) depth w = some (.inside quote, depth) :=
  Css.scan_inside (h.quote_not_mem hquote).1 (h.quote_not_mem hquote).2 depth

theorem Notation.getLast?_eq (h : Notation w) : w.getLast? = some ')' := by
  obtain ⟨function, -, inner, rfl, -⟩ := h
  rw [← List.singleton_append, ← List.append_assoc, ← List.append_assoc]
  exact List.getLast?_concat

theorem Notation.ne_nil (h : Notation w) : w ≠ [] := by
  rintro rfl
  cases h.getLast?_eq

theorem Notation.scan_escaped (h : Notation w) {quote : Char} (hquote : isQuote quote = true)
    (depth : Nat) : scan (.escaped quote) depth w = some (.inside quote, depth) := by
  obtain ⟨hfree, hescape⟩ := h.quote_not_mem hquote
  cases w with
  | nil => exact (h.ne_nil rfl).elim
  | cons c w =>
    rw [List.mem_cons, not_or] at hfree hescape
    exact Css.scan_inside hfree.2 hescape.2 depth

/-! ### Calls next to a notation -/

/-- The text begins with `p`, in any case. -/
def Spells (p t : Text) : Prop := ∃ s rest, t = s ++ rest ∧ s.map Char.toLower = p

theorem spells_cons {a c : Char} {p t : Text} :
    Spells (a :: p) (c :: t) ↔ c.toLower = a ∧ Spells p t := by
  constructor
  · rintro ⟨_ | ⟨d, s⟩, rest, ht, hs⟩
    · cases hs
    · obtain ⟨rfl, rfl⟩ := List.cons.inj ht
      obtain ⟨hc, hs⟩ := List.cons.inj hs
      exact ⟨hc, s, rest, rfl, hs⟩
  · rintro ⟨rfl, s, rest, rfl, rfl⟩
    exact ⟨c :: s, rest, rfl, rfl⟩

theorem not_spells_nil {a : Char} {p : Text} : ¬ Spells (a :: p) [] := by
  rintro ⟨s, rest, ht, hs⟩
  obtain ⟨rfl, -⟩ := List.append_eq_nil_iff.mp ht.symm
  cases hs

/-- What the text begins with and the spelling agree as far as both go. -/
theorem Spells.take_eq {p v u : Text} (h : Spells p (v ++ u)) :
    p.take v.length = (v.map Char.toLower).take p.length := by
  induction v generalizing p with
  | nil => simp
  | cons c v ih =>
    cases p with
    | nil => simp
    | cons a p =>
      obtain ⟨rfl, htail⟩ := spells_cons.mp h
      simpa using ih htail

/-- The name of a call does not go on behind a list that is closed. -/
theorem Unmarked.not_spells (hw : Unmarked w) {p : Text} (hp : Unmarked p) (t : Text) :
    ¬ Spells (p ++ ['(']) (w ++ ')' :: t) := by
  intro h
  induction w generalizing p with
  | nil =>
    cases p with
    | nil => cases (spells_cons.mp h).1
    | cons a p =>
      have hclose : (')' : Char).toLower = a := (spells_cons.mp h).1
      cases hclose ▸ hp a List.mem_cons_self
  | cons c w ih =>
    obtain ⟨hc, hw⟩ := List.forall_mem_cons.mp hw
    cases p with
    | nil =>
      obtain rfl := Text.eq_openParen_of_toLower (spells_cons.mp h).1
      cases hc
    | cons a p => exact ih hw (List.forall_mem_cons.mp hp).2 (spells_cons.mp h).2

theorem exists_letters {p : Text} (hp : p <:+ callStart) (hne : p ≠ []) :
    ∃ letters, p = letters ++ ['('] ∧ Unmarked letters := by
  have hsuffixes : ∀ p ∈ callStart.tails, p ≠ [] →
      p = p.dropLast ++ ['('] ∧ Unmarked p.dropLast := by
    decide
  exact ⟨p.dropLast, hsuffixes p ((List.mem_tails _ _).mpr hp) hne⟩

/-- **No call begins in a notation, and the name of none goes on with one.** -/
theorem Notation.not_spells (h : Notation w) {v u p : Text} (hsplit : w = v ++ u) (hu : u ≠ [])
    (hp : p <:+ callStart) (hne : p ≠ []) (hbegins : p = callStart ∨ v = []) (t : Text) :
    ¬ Spells p (u ++ t) := by
  -- the two spellings differ within the name of the function
  have hdiffer : ∀ function ∈ colourFunctions, ∀ u ∈ (function ++ ['(']).tails, u ≠ [] →
      ∀ p ∈ callStart.tails, p ≠ [] → (p = callStart ∨ u = function ++ ['(']) →
      p.take u.length ≠ (u.map Char.toLower).take p.length := by
    decide
  obtain ⟨letters, rfl, hletters⟩ := exists_letters hp hne
  obtain ⟨function, hfunction, inner, rfl, hinner⟩ := h
  have hlist : ∀ {u : Text}, u <:+ inner ++ [')'] → u ≠ [] →
      ¬ Spells (letters ++ ['(']) (u ++ t) := by
    rintro u ⟨front, hfront⟩ hu
    obtain ⟨u, c, rfl⟩ := (List.eq_nil_or_concat' u).resolve_left hu
    rw [← List.append_assoc] at hfront
    obtain ⟨rfl, hc⟩ := List.append_inj' hfront rfl
    obtain rfl := List.singleton_inj.mp hc
    rw [List.append_assoc]
    exact Unmarked.not_spells (unmarked_append.mp hinner).2 hletters t
  have hwhole : (function ++ ['(']) ++ (inner ++ [')']) = v ++ u := by
    rw [← hsplit]
    simp
  rcases List.append_eq_append_iff.mp hwhole with ⟨front, rfl, hback⟩ | ⟨back, hname, rfl⟩
  · exact hlist ⟨front, hback.symm⟩ hu
  · by_cases hback : back = []
    · subst hback
      exact hlist (List.suffix_refl _) (by simp)
    · intro hspells
      rw [List.append_assoc] at hspells
      refine hdiffer function hfunction back ((List.mem_tails _ _).mpr ⟨v, hname.symm⟩) hback _
        ((List.mem_tails _ _).mpr hp) hne ?_ hspells.take_eq
      rcases hbegins with hstart | rfl
      · exact .inl hstart
      · exact .inr hname.symm

end EvenChroma
