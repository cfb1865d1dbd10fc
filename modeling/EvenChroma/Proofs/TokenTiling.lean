/-
  EvenChroma/Proofs/TokenTiling.lean
  ==================================
  **Every text is covered by its tokens, and each of them is a token on its own.**  Tokens lie
  side by side from the first byte to the last and are cut between characters.  What follows a
  token only ends it: alone, its characters are cut into that one token again (`ReadsAs.alone`).
-/
import EvenChroma.Proofs.NameBoundaries
import EvenChroma.Proofs.TokenPlaces

namespace EvenChroma.Css

/-! ### A token on its own -/

section

variable {w r : Text} {kind : TokenKind}

theorem begins_isAlphanumeric_of_splitName (h : splitName (w ++ r) = (w, r)) :
    begins Text.isAlphanumeric r = false := by
  cases r with
  | nil => rfl
  | cons c r =>
    have hends := isNameChar_of_splitName h c rfl
    rw [← Bool.not_eq_true]
    intro hnext
    rw [isNameChar_of_isAlphanumeric hnext] at hends
    cases hends

/-- A name that what follows has ended is ended by nothing as well. -/
theorem splitName_alone (h : splitName (w ++ r) = (w, r)) : splitName (w ++ []) = (w, []) :=
  splitName_before h (begins_isAlphanumeric_of_splitName h) nofun

/-- The character behind a hyphen that begins a name is part of the name. -/
theorem startsName_alone (hstarts : startsName (w ++ r) = true)
    (hsplit : splitName (w ++ r) = (w, r)) : startsName (w ++ []) = true := by
  obtain ⟨c, v, rfl⟩ := List.exists_cons_of_ne_nil (ne_nil_of_splitName hstarts hsplit)
  rw [List.cons_append, startsName_cons] at hstarts ⊢
  cases v with
  | cons d v => exact hstarts
  | nil =>
    rw [Bool.or_eq_true, Bool.and_eq_true] at hstarts ⊢
    rcases hstarts with hstart | ⟨-, hnext⟩
    · exact .inl hstart
    · cases r with
      | nil => cases hnext
      | cons d r =>
        have hends := isNameChar_of_splitName hsplit d rfl
        rw [List.nil_append, List.head?_cons, Option.any_some, Bool.or_eq_true,
          decide_eq_true_eq] at hnext
        rcases hnext with hstart | rfl
        · rw [isNameChar_of_isNameStart hstart] at hends
          cases hends
        · cases hends

/-- **A token is read from its own characters alone.** -/
theorem ReadsAs.alone (h : ReadsAs w kind r) : ReadsAs w kind [] := by
  apply Written.readsAs
  cases h.written with
  | blank hw hblanks hnext => exact .blank hw hblanks nofun
  | number hw hends hpercent hname => exact .number hw nofun nofun rfl
  | percentage hw => exact .percentage hw
  | @dimension w unit _ hw hends hstarts hsplit =>
    refine .dimension hw ?_ (startsName_alone hstarts hsplit) (splitName_alone hsplit)
    obtain ⟨c, v, rfl⟩ := List.exists_cons_of_ne_nil (ne_nil_of_splitName hstarts hsplit)
    exact hends
  | name hblank hstarts hsplit =>
    exact .name hblank (startsName_alone hstarts hsplit) (splitName_alone hsplit)
  | quoted hquote hraw => exact .quoted hquote hraw
  | unterminated hquote hv => exact .unterminated hquote hv
  | @single c _ hblank hnumber hname hquote =>
    -- alone, neither a sign nor a point nor a hyphen begins anything
    have hdigit : c.isDigit = false := by
      rw [← Bool.not_eq_true]
      intro hdigit
      have hpoint : c ≠ '.' := ne_of_kind hdigit rfl
      have hsign : isSign c = false := by
        simp [isSign, ne_of_kind (d := '+') hdigit rfl, ne_of_kind (d := '-') hdigit rfl]
      simp [startsNumber, hsign, startsUnsigned, hpoint, begins, hdigit] at hnumber
    have hstart : isNameStart c = false := by
      rw [startsName_cons, Bool.or_eq_false_iff] at hname
      exact hname.1
    refine .single hblank ?_ ?_ hquote
    · by_cases hpoint : c = '.'
      · subst hpoint
        rfl
      · simp [startsNumber, startsUnsigned, hpoint, begins, hdigit]
    · simp [startsName_cons, hstart]

theorem ReadsAs.tokens_eq (h : ReadsAs w kind r) : tokens w = [⟨kind, 0, Text.byteSize w⟩] := by
  have hlexed := Lexed.singleton h.alone 0
  rw [Nat.zero_add] at hlexed
  exact hlexed.tokensFrom_eq (Nat.le_refl _)

end

/-! ### Side by side -/

/-- The tokens lie side by side from one place to the other, and each takes a byte at least. -/
def SideBySide : (start : Nat) → List Token → (stop : Nat) → Prop
  | start, [], stop => start = stop
  | start, t :: ts, stop =>
    t.span.start = start ∧ start < t.span.stop ∧ SideBySide t.span.stop ts stop

theorem Lexed.sideBySide {start : Nat} {w rest : Text} {ts : List Token}
    (h : Lexed start w ts rest) : SideBySide start ts (start + Text.byteSize w) := by
  induction h with
  | nil start rest => rfl
  | @cons start w later rest kind ts hfirst _ ih =>
    have hpos := Text.byteSize_pos (List.length_pos_iff.mp hfirst.length_pos)
    refine ⟨rfl, Nat.lt_add_of_pos_right hpos, ?_⟩
    rwa [Text.byteSize_append, ← Nat.add_assoc]

/-- The characters of a token in the text it was cut from. -/
structure Token.StandsIn (token : Token) (t front w back : Text) : Prop where
  text_eq : t = front ++ (w ++ back)
  span_eq : token.span = ⟨Text.byteSize front, Text.byteSize front + Text.byteSize w⟩
  reads : ReadsAs w token.kind back

theorem Lexed.exists_standsIn (pre : Text) {w : Text} {ts : List Token} {token : Token}
    (h : Lexed (Text.byteSize pre) w ts []) (htoken : token ∈ ts) :
    ∃ front u back, token.StandsIn (pre ++ w) front u back := by
  obtain ⟨before, after, rfl⟩ := List.append_of_mem htoken
  obtain ⟨u, v, rfl, hfront, hback⟩ := h.split
  rw [← Text.byteSize_append] at hback
  cases hback with
  | @cons _ w later _ kind _ hfirst hlater =>
    rw [List.append_nil] at hfirst
    exact ⟨pre ++ u, w, later, by simp, rfl, hfirst⟩

theorem exists_standsIn_of_mem_tokens {t : Text} {token : Token} (h : token ∈ tokens t) :
    ∃ front w back, token.StandsIn t front w back :=
  Lexed.exists_standsIn [] (.of_tokensFrom 0 (Nat.le_refl t.length)) h

/-- The place lies between two characters of the text, or at one of its ends. -/
def IsBoundary (t : Text) (place : Nat) : Prop :=
  ∃ front back, t = front ++ back ∧ Text.byteSize front = place

/-- **The tokens tile the text, and each of them is the only token of its own characters.**
    The text is cut to its end: with more fuel, no token is added. -/
theorem tokens_tile (t : Text) :
    (∀ fuel, t.length ≤ fuel → tokensFrom fuel 0 t = tokens t) ∧
    SideBySide 0 (tokens t) (Text.byteSize t) ∧
    ∀ token ∈ tokens t,
      IsBoundary t token.span.start ∧ IsBoundary t token.span.stop ∧
      tokens (Text.slice t token.span)
        = [⟨token.kind, 0, token.span.stop - token.span.start⟩] := by
  have hlexed : Lexed 0 t (tokens t) [] := .of_tokensFrom 0 (Nat.le_refl t.length)
  refine ⟨fun fuel hfuel => hlexed.tokensFrom_eq hfuel, ?_, fun token htoken => ?_⟩
  · have hside := hlexed.sideBySide
    rwa [Nat.zero_add] at hside
  · obtain ⟨front, w, back, rfl, hspan, hreads⟩ := exists_standsIn_of_mem_tokens htoken
    rw [hspan, Text.slice_append, hreads.tokens_eq]
    refine ⟨⟨front, _, rfl, rfl⟩, ⟨front ++ w, back, by simp, by simp⟩, ?_⟩
    simp

theorem tokens_tile_unit_before_point :
    let t : Text := "-.5é.x. \"it".toList
    let value := numberValue "-.5".toList
    tokens t = [⟨.dimension value "é.x".toList, 0, 7⟩, ⟨.other '.', 7, 8⟩, ⟨.blank, 8, 9⟩,
      ⟨.quoted '"' "it".toList false, 9, 12⟩] ∧
    tokens "-.5é.x".toList = [⟨.dimension value "é.x".toList, 0, 7⟩] ∧
    tokens "\"it".toList = [⟨.quoted '"' "it".toList false, 0, 3⟩] := by
  intro t value
  have htokens : tokens t = [⟨.dimension value "é.x".toList, 0, 7⟩, ⟨.other '.', 7, 8⟩,
      ⟨.blank, 8, 9⟩, ⟨.quoted '"' "it".toList false, 9, 12⟩] := by with_unfolding_all rfl
  refine ⟨htokens, ?_, ?_⟩
  · exact ((tokens_tile t).2.2 _ (by rw [htokens]; exact .head _)).2.2
  · exact ((tokens_tile t).2.2 ⟨.quoted '"' "it".toList false, 9, 12⟩
      (by rw [htokens]; exact .tail _ (.tail _ (.tail _ (.head _))))).2.2

end EvenChroma.Css
