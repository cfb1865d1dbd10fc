/-
  EvenChroma/Proofs/Places.lean
  =============================
  **Cutting text at places between characters.**  Places are counted in bytes, and a place
  between two characters is the byte size of the text before it.  There a cut loses
  nothing: dropping, taking and slicing give back the pieces the text was put together
  from.
-/
import EvenChroma.Text.Basic

namespace EvenChroma.Text

variable {s t u : Text}

@[simp] theorem byteSize_nil : byteSize [] = 0 := rfl

@[simp] theorem byteSize_cons (c : Char) (t : Text) :
    byteSize (c :: t) = c.utf8Size + byteSize t := rfl

attribute [simp] byteSize_append

theorem byteSize_pos (ht : t ≠ []) : 0 < byteSize t := by
  cases t with
  | nil => exact (ht rfl).elim
  | cons c t =>
    have := c.utf8Size_pos
    simp only [byteSize_cons]; omega

/-! ### Cuts -/

@[simp] theorem dropBytes_zero (t : Text) : dropBytes 0 t = t := by
  cases t <;> rfl

@[simp] theorem takeBytes_zero (t : Text) : takeBytes 0 t = [] := by
  cases t <;> rfl

theorem dropBytes_cons (c : Char) (n : Nat) (t : Text) :
    dropBytes (c.utf8Size + n) (c :: t) = dropBytes n t := by
  have hpos := c.utf8Size_pos
  rw [dropBytes, Nat.add_sub_cancel_left]
  omega

theorem takeBytes_cons (c : Char) (n : Nat) (t : Text) :
    takeBytes (c.utf8Size + n) (c :: t) = c :: takeBytes n t := by
  have hpos := c.utf8Size_pos
  rw [takeBytes, Nat.add_sub_cancel_left]
  omega

@[simp] theorem dropBytes_append (s t : Text) : dropBytes (byteSize s) (s ++ t) = t := by
  induction s with
  | nil => exact dropBytes_zero t
  | cons c s ih => rw [byteSize_cons, List.cons_append, dropBytes_cons, ih]

@[simp] theorem takeBytes_append (s t : Text) : takeBytes (byteSize s) (s ++ t) = s := by
  induction s with
  | nil => exact takeBytes_zero t
  | cons c s ih => rw [byteSize_cons, List.cons_append, takeBytes_cons, ih]

theorem slice_append (s t u : Text) :
    slice (s ++ (t ++ u)) ⟨byteSize s, byteSize s + byteSize t⟩ = t := by
  rw [slice, dropBytes_append, Nat.add_sub_cancel_left, takeBytes_append]

/-! ### On either side of a join -/

theorem takeBytes_append_of_le {n : Nat} (h : n ≤ byteSize s) (t : Text) :
    takeBytes n (s ++ t) = takeBytes n s := by
  induction s generalizing n with
  | nil =>
    obtain rfl := Nat.le_zero.mp h
    simp
  | cons c s ih =>
    cases n with
    | zero => rfl
    | succ n =>
      rw [byteSize_cons] at h
      exact congrArg (c :: ·) (ih (by omega))

theorem dropBytes_append_add (s t : Text) (n : Nat) :
    dropBytes (n + byteSize s) (s ++ t) = dropBytes n t := by
  induction s with
  | nil => rfl
  | cons c s ih =>
    rw [byteSize_cons, Nat.add_left_comm, List.cons_append, dropBytes_cons, ih]

theorem takeBytes_append_add (s t : Text) (n : Nat) :
    takeBytes (n + byteSize s) (s ++ t) = s ++ takeBytes n t := by
  induction s with
  | nil => rfl
  | cons c s ih =>
    rw [byteSize_cons, Nat.add_left_comm, List.cons_append, takeBytes_cons, ih, List.cons_append]

theorem slice_shift (s t : Text) (span : Span) :
    slice (s ++ t) (span.shift (byteSize s)) = slice t span := by
  rw [slice, Span.shift, dropBytes_append_add, Nat.add_sub_add_right, slice]

theorem charOffset_append_of_le {n : Nat} (h : n ≤ byteSize s) (t : Text) :
    charOffset (s ++ t) n = charOffset s n := by
  rw [charOffset, takeBytes_append_of_le h, charOffset]

theorem charOffset_append_add (s t : Text) (n : Nat) :
    charOffset (s ++ t) (n + byteSize s) = charOffset t n + s.length := by
  rw [charOffset, takeBytes_append_add, List.length_append, Nat.add_comm, charOffset]

theorem charOffset_mono {m n : Nat} (h : m ≤ n) (t : Text) : charOffset t m ≤ charOffset t n := by
  induction t generalizing m n with
  | nil => cases m <;> exact Nat.zero_le _
  | cons c t ih =>
    cases m with
    | zero => exact Nat.zero_le _
    | succ m =>
      cases n with
      | zero => cases h
      | succ n => exact Nat.succ_le_succ (ih (Nat.sub_le_sub_right h c.utf8Size))

theorem charOffset_le_length (t : Text) (n : Nat) : charOffset t n ≤ t.length := by
  induction t generalizing n with
  | nil => cases n <;> exact Nat.le_refl 0
  | cons c t ih =>
    cases n with
    | zero => exact Nat.zero_le _
    | succ n => exact Nat.succ_le_succ (ih (n + 1 - c.utf8Size))

/-! ### Prefixes -/

/-- Of two pieces at the front of a text the smaller one begins the other. -/
theorem isPrefix_of_byteSize_le (hs : s <+: u) (ht : t <+: u)
    (hle : byteSize s ≤ byteSize t) : s <+: t := by
  rcases List.prefix_or_prefix_of_prefix hs ht with h | ⟨v, rfl⟩
  · exact h
  · cases v with
    | nil => simp
    | cons c v =>
      have hpos : 0 < byteSize (c :: v) := byteSize_pos (by simp)
      rw [byteSize_append] at hle
      omega

/-- A text splits at a place in one way only. -/
theorem append_inj_of_byteSize_eq {s s' t t' : Text} (h : s ++ t = s' ++ t')
    (hsize : byteSize s = byteSize s') : s = s' ∧ t = t' := by
  have hle : s <+: s' := isPrefix_of_byteSize_le ⟨t, rfl⟩ ⟨t', h.symm⟩ (Nat.le_of_eq hsize)
  have hge : s' <+: s := isPrefix_of_byteSize_le ⟨t', h.symm⟩ ⟨t, rfl⟩ (Nat.le_of_eq hsize.symm)
  obtain rfl := hle.eq_of_length_le hge.length_le
  exact ⟨rfl, List.append_cancel_left h⟩

end EvenChroma.Text
