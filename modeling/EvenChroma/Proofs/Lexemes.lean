/-
  EvenChroma/Proofs/Lexemes.lean
  ==============================
  **The characters of a token.**  What a token takes and what it leaves make up the text
  again, something is always taken, and names and numbers are made of few kinds of
  characters.
-/
import EvenChroma.Css.Token

namespace EvenChroma.Css

/-! ### Names -/

theorem splitName_append (t : Text) : (splitName t).1 ++ (splitName t).2 = t := by
  fun_induction splitName t with
  | case1 => rfl
  | case2 c t hc name rest heq ih =>
    rw [heq] at ih
    exact congrArg (c :: ·) ih
  | case3 c t hc => rfl

theorem mem_splitName {t : Text} {c : Char} (h : c ∈ (splitName t).1) :
    isNameChar c = true ∨ c = '.' := by
  fun_induction splitName t with
  | case1 => cases h
  | case2 d t hd name rest heq ih =>
    rw [heq] at ih
    rcases List.mem_cons.mp h with rfl | h
    · simp only [Bool.or_eq_true, Bool.and_eq_true, decide_eq_true_eq] at hd
      exact hd.imp_right And.left
    · exact ih h
  | case3 d t hd => cases h

theorem isNameChar_of_isNameStart {c : Char} (h : isNameStart c = true) : isNameChar c = true := by
  simp only [isNameStart, isNameChar, Char.isAlphanum, Bool.or_eq_true] at h ⊢
  rcases h with (h | h) | h
  · exact .inl (.inl (.inl (.inl h)))
  · exact .inl (.inl (.inr h))
  · exact .inr h

theorem isNameChar_of_startsName {c : Char} {t : Text} (h : startsName (c :: t) = true) :
    isNameChar c = true := by
  unfold startsName at h
  split at h
  · next heq =>
    obtain ⟨rfl, -⟩ := List.cons.inj heq
    rfl
  · exact isNameChar_of_isNameStart h

theorem splitName_ne_nil {t : Text} (h : startsName t = true) : (splitName t).1 ≠ [] := by
  cases t with
  | nil => cases h
  | cons c t =>
    rw [splitName, if_pos (by rw [isNameChar_of_startsName h, Bool.true_or])]
    simp

/-! ### Numbers -/

/-- Whether a character may be part of a number. -/
def isNumeric (c : Char) : Bool := c.isDigit || c = '.' || isSign c

theorem splitUnsigned_append (t : Text) : (splitUnsigned t).1 ++ (splitUnsigned t).2 = t := by
  have hdigits := List.takeWhile_append_dropWhile (p := Char.isDigit) (l := t)
  unfold splitUnsigned
  split
  · next r hr =>
    rw [hr] at hdigits
    rw [List.append_assoc, List.cons_append, List.takeWhile_append_dropWhile]
    exact hdigits
  · exact hdigits

theorem mem_takeWhile_isDigit {t : Text} {c : Char} (h : c ∈ t.takeWhile Char.isDigit) :
    isNumeric c = true := by
  have hdigit := List.all_takeWhile (p := Char.isDigit) (l := t)
  rw [List.all_eq_true] at hdigit
  simp [isNumeric, hdigit c h]

theorem mem_splitUnsigned {t : Text} {c : Char} (h : c ∈ (splitUnsigned t).1) :
    isNumeric c = true := by
  unfold splitUnsigned at h
  split at h
  · rcases List.mem_append.mp h with h | h
    · exact mem_takeWhile_isDigit h
    · rcases List.mem_cons.mp h with rfl | h
      · rfl
      · exact mem_takeWhile_isDigit h
  · exact mem_takeWhile_isDigit h

theorem splitUnsigned_ne_nil {t : Text} (h : startsUnsigned t = true) :
    (splitUnsigned t).1 ≠ [] := by
  cases t with
  | nil => cases h
  | cons c t =>
    by_cases hdot : c = '.'
    · subst hdot
      simp [splitUnsigned]
    · have hdigit : c.isDigit = true := by
        unfold startsUnsigned at h
        split at h
        · next heq => exact (hdot (List.cons.inj heq).1).elim
        · exact h
      unfold splitUnsigned
      split
      · simp
      · simp [hdigit]

theorem splitNumber_append (t : Text) : (splitNumber t).1 ++ (splitNumber t).2 = t := by
  unfold splitNumber
  split
  · rfl
  · next c t =>
    split
    · exact congrArg (c :: ·) (splitUnsigned_append t)
    · exact splitUnsigned_append (c :: t)

theorem mem_splitNumber {t : Text} {c : Char} (h : c ∈ (splitNumber t).1) :
    isNumeric c = true := by
  unfold splitNumber at h
  split at h
  · cases h
  · split at h
    · next hsign =>
      rcases List.mem_cons.mp h with rfl | h
      · simp [isNumeric, hsign]
      · exact mem_splitUnsigned h
    · exact mem_splitUnsigned h

theorem splitNumber_ne_nil {t : Text} (h : startsNumber t = true) : (splitNumber t).1 ≠ [] := by
  cases t with
  | nil => cases h
  | cons c t =>
    rw [startsNumber] at h
    rw [splitNumber]
    split at h
    · next hsign =>
      rw [if_pos hsign]
      simp
    · next hsign =>
      rw [if_neg hsign]
      exact splitUnsigned_ne_nil h

end EvenChroma.Css
