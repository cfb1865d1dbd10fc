/-
  EvenChroma/Proofs/TableEntries.lean
  ===================================
  **What looking up and storing do to the entries of a table.**  A lookup finds the value
  stored for the key and keeps the entries, and only storing adds one.
-/
import EvenChroma.RecencyCache

namespace EvenChroma.RecencyCache

variable {κ β : Type} [DecidableEq κ]

theorem get_eq (c : RecencyCache κ β) (k : κ) :
    (c.get k).1 = c.find? k ∧ ∀ e ∈ (c.get k).2.entries, e ∈ c.entries := by
  unfold get
  split
  · next v h =>
    refine ⟨h.symm, fun e he => ?_⟩
    rcases List.mem_cons.mp he with rfl | he
    · exact mem_of_find? h
    · exact (without_sublist k _).subset he
  · next h => exact ⟨h.symm, fun _ he => he⟩

theorem getOrInsert_value (c : RecencyCache κ β) (k : κ) (compute : Unit → β) :
    (c.getOrInsert k compute).1 = (c.find? k).getD (compute ()) := by
  rw [← (c.get_eq k).1]
  unfold getOrInsert
  split
  · next h => simp [h]
  · next h => simp [h]

theorem mem_getOrInsert {c : RecencyCache κ β} {k : κ} {compute : Unit → β} {e : κ × β}
    (he : e ∈ (c.getOrInsert k compute).2.entries) :
    e ∈ c.entries ∨ e = (k, compute ()) := by
  unfold getOrInsert at he
  split at he
  · next h =>
    have hsub := (c.get_eq k).2
    rw [h] at hsub
    exact .inl (hsub e he)
  · rcases List.mem_cons.mp he with rfl | he
    · exact .inr rfl
    · exact .inl ((without_sublist k _).subset (List.mem_of_mem_take he))

theorem find?_getOrInsert_empty (n : Nat) (k : κ) (compute : Unit → β) :
    ((empty n).getOrInsert k compute).2.find? k = some (compute ()) := by
  simp [getOrInsert, get, find?, empty, insert]

/-- What was asked for last is found. -/
theorem find?_getOrInsert (c : RecencyCache κ β) (k : κ) (compute : Unit → β) :
    (c.getOrInsert k compute).2.find? k = some (c.getOrInsert k compute).1 := by
  unfold getOrInsert get
  split
  · next v c' h =>
    split at h
    · next v' hfind =>
      obtain ⟨hv, rfl⟩ := Prod.mk.inj h
      obtain rfl := Option.some.inj hv
      simp [find?, promote]
    · cases h
  · simp [find?, insert]

theorem get_of_find?_eq_some {c : RecencyCache κ β} {k : κ} {v : β} (h : c.find? k = some v) :
    c.get k = (some v, c.promote k v (mem_of_find? h)) := by
  unfold get
  split
  · next v' hsome =>
    obtain rfl : v' = v := Option.some.inj (hsome.symm.trans h)
    rfl
  · next hnone =>
    rw [h] at hnone
    cases hnone

theorem get_of_find?_eq_none {c : RecencyCache κ β} {k : κ} (h : c.find? k = none) :
    c.get k = (none, c) := by
  unfold get
  split
  · next v hsome =>
    rw [h] at hsome
    cases hsome
  · rfl

theorem mem_of_get {c c' : RecencyCache κ β} {k : κ} {v : β} (h : c.get k = (some v, c')) :
    (k, v) ∈ c.entries := by
  apply mem_of_find?
  rw [← (c.get_eq k).1, h]

theorem mem_insert {c : RecencyCache κ β} {k : κ} {v : β} {e : κ × β}
    (he : e ∈ (c.insert k v).entries) : e = (k, v) ∨ e ∈ c.entries := by
  rcases List.mem_cons.mp he with rfl | he
  · exact .inl rfl
  · exact .inr ((without_sublist k _).subset (List.mem_of_mem_take he))

@[simp] theorem capacity_get (c : RecencyCache κ β) (k : κ) :
    (c.get k).2.capacity = c.capacity := by
  unfold get
  split
  · rfl
  · rfl

@[simp] theorem capacity_insert (c : RecencyCache κ β) (k : κ) (v : β) :
    (c.insert k v).capacity = c.capacity := rfl

omit [DecidableEq κ] in
@[simp] theorem capacity_clear (c : RecencyCache κ β) : c.clear.capacity = c.capacity := rfl

end EvenChroma.RecencyCache
