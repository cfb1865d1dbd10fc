/-
  EvenChroma/Proofs/NameBoundaries.lean
  =====================================
  **Calls begin where names do.**  Every `egal(` that no name runs into is listed once, in order,
  and none is listed behind a letter or a digit of any script.  The tokens of an argument list
  know more characters of names: to them every character beyond ASCII is one.  So a call may begin
  behind such a character, and exactly behind those that are neither letters nor digits.
-/
import EvenChroma.Css.Token
import EvenChroma.Proofs.CallSites
import Mathlib.Data.List.Nodup

namespace EvenChroma.Css

/-! ### Characters of names -/

/-- Every ASCII letter or digit counts as one in all scripts. -/
theorem isAlphanumeric_of_isAscii {c : Char} (h : isAscii c = true) :
    Text.isAlphanumeric c = c.isAlphanum :=
  if_pos (of_decide_eq_true h)

theorem isNameChar_of_not_isAscii {c : Char} (h : isAscii c = false) : isNameChar c = true := by
  simp [isNameChar, h]

/-- Names go on with the letters and digits of every script. -/
theorem isNameChar_of_isAlphanumeric {c : Char} (h : Text.isAlphanumeric c = true) :
    isNameChar c = true := by
  cases hascii : isAscii c with
  | true =>
    rw [isAlphanumeric_of_isAscii hascii] at h
    simp [isNameChar, h]
  | false => exact isNameChar_of_not_isAscii hascii

/-- Among ASCII characters only the backslash joins a name and is no part of one. -/
theorem joinsName_of_isAscii {c : Char} (h : isAscii c = true) :
    joinsName c = (isNameChar c || c = '\\') := by
  simp [joinsName, isNameChar, isAlphanumeric_of_isAscii h, h]

/-- Beyond ASCII only letters and digits join a name. -/
theorem joinsName_of_not_isAscii {c : Char} (h : isAscii c = false) :
    joinsName c = Text.isAlphanumeric c := by
  have hne : ∀ d : Char, isAscii d = true → c ≠ d := by
    rintro d hd rfl
    rw [h] at hd
    cases hd
  simp [joinsName, hne '_' (by decide), hne '-' (by decide), hne '\\' (by decide)]

/-- What joins a name is part of one, but for the backslash. -/
theorem joinsName_eq_false {c : Char} (hname : isNameChar c = false) (hescape : c ≠ '\\') :
    joinsName c = false := by
  have hascii : isAscii c = true := by
    by_contra hnot
    rw [isNameChar_of_not_isAscii (by simpa using hnot)] at hname
    cases hname
  simp [joinsName_of_isAscii hascii, hname, hescape]

/-- The characters of names that join none are those beyond ASCII that are neither letters nor
    digits. -/
theorem isNameChar_of_not_joinsName {c : Char} (h : joinsName c = false) :
    isNameChar c = true ↔ isAscii c = false := by
  constructor
  · intro hname
    by_contra hascii
    rw [Bool.not_eq_false] at hascii
    rw [joinsName_of_isAscii hascii, hname] at h
    cases h
  · exact isNameChar_of_not_isAscii

/-! ### Before a call -/

/-- The character before a site, if the site does not begin the text. -/
def CallSite.before? (site : CallSite) (t : Text) : Option Char :=
  (Text.takeBytes site.span.start t).getLast?

theorem CallSite.before?_at (s u : Text) :
    (CallSite.at (Text.byteSize s) u).before? (s ++ u) = s.getLast? := by
  rw [before?, start_at, Text.takeBytes_append]

theorem joinsName_before {t : Text} {site : CallSite} (h : site ∈ callSites t) :
    ∀ c ∈ site.before? t, joinsName c = false := by
  obtain ⟨s, u, rfl, -, hjoins, rfl⟩ := mem_callSites_iff.mp h
  intro c hc
  rw [CallSite.before?_at] at hc
  rwa [hc] at hjoins

/-- A call that nothing joins from the left is listed, once. -/
theorem countP_callSites {s u : Text} (hstarts : startsCall u = true)
    (hjoins : s.getLast?.any joinsName = false) :
    (callSites (s ++ u)).countP (·.span.start = Text.byteSize s) = 1 := by
  have hmem : CallSite.at (Text.byteSize s) u ∈ callSites (s ++ u) :=
    mem_callSites_iff.mpr ⟨s, u, rfl, hstarts, hjoins, rfl⟩
  have hnodup : ((callSites (s ++ u)).map (·.span.start)).Nodup := by
    apply List.Pairwise.map _ _ (pairwise_callSites (s ++ u))
    intro a b hlt
    exact Nat.ne_of_lt hlt
  have hplace : Text.byteSize s ∈ (callSites (s ++ u)).map (·.span.start) :=
    List.mem_map.mpr ⟨_, hmem, CallSite.start_at _ _⟩
  have hcount := List.count_eq_one_of_mem hnodup hplace
  rwa [List.count_eq_countP, List.countP_map] at hcount

/-- **Calls are listed in order, once each, wherever no name runs into them.**  None is listed
    behind a letter or a digit, an underscore, a hyphen or a backslash.  That no call stands
    behind a character of names is true of a text exactly if all characters beyond ASCII before
    an `egal(` are letters or digits. -/
theorem callSites_between_names (t : Text) :
    (callSites t).Pairwise (fun a b => a.span.start < b.span.start) ∧
    (∀ s u, t = s ++ u → startsCall u = true →
      (∀ c ∈ s.getLast?, isNameChar c = false ∧ c ≠ '\\') →
      (callSites t).countP (·.span.start = Text.byteSize s) = 1) ∧
    (∀ site ∈ callSites t, ∀ c ∈ site.before? t,
      Text.isAlphanumeric c = false ∧ c ≠ '_' ∧ c ≠ '-' ∧ c ≠ '\\') ∧
    ((∀ site ∈ callSites t, ∀ c ∈ site.before? t, isNameChar c = false) ↔
      ∀ s c u, t = s ++ c :: u → startsCall u = true → isAscii c = false →
        Text.isAlphanumeric c = true) := by
  refine ⟨pairwise_callSites t, ?_, ?_, ?_, ?_⟩
  · rintro s u rfl hstarts hfree
    apply countP_callSites hstarts
    cases hlast : s.getLast? with
    | none => rfl
    | some c =>
      obtain ⟨hname, hescape⟩ := hfree c hlast
      exact joinsName_eq_false hname hescape
  · intro site hsite c hc
    have hjoins := joinsName_before hsite c hc
    simpa [joinsName, and_assoc] using hjoins
  · rintro hfree s c u rfl hstarts hascii
    by_contra halpha
    have hjoins : joinsName c = false := by
      rw [joinsName_of_not_isAscii hascii]
      simpa using halpha
    -- the call behind this character is listed, and to the tokens the character is part of a name
    have hlast : (s ++ [c]).getLast? = some c := List.getLast?_concat
    have hmem : CallSite.at (Text.byteSize (s ++ [c])) u ∈ callSites (s ++ c :: u) :=
      mem_callSites_iff.mpr ⟨s ++ [c], u, by simp, hstarts, by simpa using hjoins, rfl⟩
    have hbefore := CallSite.before?_at (s ++ [c]) u
    rw [List.append_assoc, List.singleton_append, hlast] at hbefore
    have hname := hfree _ hmem c hbefore
    rw [isNameChar_of_not_isAscii hascii] at hname
    cases hname
  · intro hletters site hsite c hc
    have hjoins := joinsName_before hsite c hc
    obtain ⟨s, u, rfl, hstarts, -, rfl⟩ := mem_callSites_iff.mp hsite
    rw [CallSite.before?_at] at hc
    obtain ⟨s, rfl⟩ := List.getLast?_eq_some_iff.mp hc
    by_contra hname
    have hascii := (isNameChar_of_not_joinsName hjoins).mp (by simpa using hname)
    have halpha := hletters s c u (by simp) hstarts hascii
    rw [joinsName_of_not_isAscii hascii, halpha] at hjoins
    cases hjoins

theorem callSites_behind_arrow :
    let t : Text := "→egal(0 0 0)".toList
    let site : CallSite := ⟨⟨3, 14⟩, ⟨8, 13⟩, true⟩
    callSites t = [site] ∧ site.before? t = some '→' ∧ isNameChar '→' = true := by
  with_unfolding_all decide +kernel

end EvenChroma.Css
