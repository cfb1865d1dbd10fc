/-
  EvenChroma/Proofs/UseHistory.lean
  =================================
  **A table holds the keys that were used most recently, with the values stored last.**  All
  uses since the table was last cleared are kept in a list (`Use`), which nothing is ever
  dropped from.  The list ranks the keys by their last uses (`ranking`), and a table for `n`
  entries has the first `n` of them (`Mirrors`): storing a key or finding it puts it in front
  on both sides, and what the table loses is what falls behind the first `n`.
-/
import EvenChroma.Logged
import EvenChroma.Proofs.ConcurrentTable

namespace EvenChroma.RecencyCache

/-! ### The uses of keys -/

/-- A key is used when a value is stored for it, and when it is looked up and found. -/
inductive Use (κ β : Type) where
  | stored (k : κ) (v : β)
  | found (k : κ)
deriving DecidableEq, Repr

variable {ι κ β : Type}

def Use.key : Use κ β → κ
  | stored k _ => k
  | found k => k

variable [DecidableEq κ]

/-- The keys that were used, in the order of their last uses.  In a list of uses the latest
    comes first. -/
def ranking : List (Use κ β) → List κ
  | [] => []
  | u :: us => u.key :: (ranking us).filter (· ≠ u.key)

/-- The value that was stored last for a key. -/
def lastStored? (k : κ) : List (Use κ β) → Option β
  | [] => none
  | .stored k' v :: us => if k' = k then some v else lastStored? k us
  | .found _ :: us => lastStored? k us

/-- What is known of a key when only the `n` keys used most recently are remembered. -/
def recalled? (n : Nat) (k : κ) (us : List (Use κ β)) : Option β :=
  if k ∈ (ranking us).take n then lastStored? k us else none

theorem nodup_ranking (us : List (Use κ β)) : (ranking us).Nodup := by
  induction us with
  | nil => exact List.nodup_nil
  | cons u us ih =>
    rw [ranking, List.nodup_cons]
    constructor
    · simp
    · exact ih.filter _

theorem mem_ranking_cons {k : κ} {u : Use κ β} {us : List (Use κ β)} :
    k ∈ ranking (u :: us) ↔ k = u.key ∨ k ∈ ranking us := by
  rw [ranking, List.mem_cons, List.mem_filter]
  by_cases hk : k = u.key
  · simp [hk]
  · simp [hk]

theorem mem_ranking_of_mem {u : Use κ β} {us : List (Use κ β)} (h : u ∈ us) :
    u.key ∈ ranking us := by
  induction us with
  | nil => cases h
  | cons u' us ih =>
    rw [mem_ranking_cons]
    rcases List.mem_cons.mp h with rfl | h
    · exact .inl rfl
    · exact .inr (ih h)

theorem lastStored?_stored (k : κ) (v : β) (us : List (Use κ β)) :
    lastStored? k (.stored k v :: us) = some v := if_pos rfl

theorem lastStored?_stored_of_ne {k k' : κ} (h : k' ≠ k) (v : β) (us : List (Use κ β)) :
    lastStored? k (.stored k' v :: us) = lastStored? k us := if_neg h

theorem isSome_lastStored?_iff {k : κ} {us : List (Use κ β)} :
    (lastStored? k us).isSome ↔ ∃ v, Use.stored k v ∈ us := by
  induction us with
  | nil => simp [lastStored?]
  | cons u us ih =>
    cases u with
    | found k' => simpa [lastStored?] using ih
    | stored k' v =>
      by_cases hk : k' = k
      · subst hk
        simp [lastStored?_stored]
      · have hk' : k ≠ k' := Ne.symm hk
        simpa [lastStored?_stored_of_ne hk, hk'] using ih

/-! ### Computations that are run when a key is missing -/

/-- The value of a key, computed and stored if the table lacks it.  The notices tell that
    the computation was run. -/
def getOrCompute (c : RecencyCache κ β) (k : κ) (compute : Unit → Logged ι β) :
    Logged ι (β × RecencyCache κ β) :=
  match c.get k with
  | (some v, c') => pure (v, c')
  | (none, _) => do
    let v ← compute ()
    pure (v, c.insert k v)

/-- Notices apart this is `getOrInsert`. -/
theorem value_getOrCompute (c : RecencyCache κ β) (k : κ) (compute : Unit → Logged ι β) :
    (c.getOrCompute k compute).value = c.getOrInsert k fun u => (compute u).value := by
  unfold getOrCompute getOrInsert
  rcases c.get k with ⟨_ | v, c'⟩
  · rfl
  · rfl

/-- The outcome of an operation on a table that no other thread touches, and the table
    afterwards. -/
def Operation.perform (c : RecencyCache κ β) : Operation κ β → Outcome β × RecencyCache κ β
  | set k v => (.done, c.insert k v)
  | get k => (.found (c.get k).1, (c.get k).2)
  | getOrInsert k compute => (.value (c.getOrInsert k compute).1, (c.getOrInsert k compute).2)
  | clear => (.done, c.clear)

def performAll : RecencyCache κ β → List (Operation κ β) → List (Outcome β) × RecencyCache κ β
  | c, [] => ([], c)
  | c, o :: os =>
    let (outcome, c') := o.perform c
    let (outcomes, last) := performAll c' os
    (outcome :: outcomes, last)

/-- What is asked of a table, with computations that give notice of being run. -/
inductive Query (ι κ β : Type) where
  | set (k : κ) (v : β)
  | get (k : κ)
  | getOrInsert (k : κ) (compute : Unit → Logged ι β)
  | clear

/-- The query without the notices. -/
def Query.operation : Query ι κ β → Operation κ β
  | set k v => .set k v
  | get k => .get k
  | getOrInsert k compute => .getOrInsert k fun u => (compute u).value
  | clear => .clear

/-- The answer of a table, and the table afterwards. -/
def Query.perform (c : RecencyCache κ β) : Query ι κ β → Logged ι (Outcome β × RecencyCache κ β)
  | set k v => pure (.done, c.insert k v)
  | get k => pure (.found (c.get k).1, (c.get k).2)
  | getOrInsert k compute => do
    let (v, c') ← c.getOrCompute k compute
    pure (.value v, c')
  | clear => pure (.done, c.clear)

/-- The answer of someone who remembers the `n` keys used most recently, and the uses
    afterwards.  A missing value is computed, and only then. -/
def Query.recall (n : Nat) (us : List (Use κ β)) :
    Query ι κ β → Logged ι (Outcome β × List (Use κ β))
  | set k v => pure (.done, .stored k v :: us)
  | get k =>
    match recalled? n k us with
    | some v => pure (.found (some v), .found k :: us)
    | none => pure (.found none, us)
  | getOrInsert k compute =>
    match recalled? n k us with
    | some v => pure (.value v, .found k :: us)
    | none => do
      let v ← compute ()
      pure (.value v, .stored k v :: us)
  | clear => pure (.done, [])

/-- The answers to queries, one after the other, and the state afterwards. -/
def answerAll {σ : Type} (answer : σ → Query ι κ β → Logged ι (Outcome β × σ)) :
    σ → List (Query ι κ β) → Logged ι (List (Outcome β) × σ)
  | s, [] => pure ([], s)
  | s, q :: qs => do
    let (o, s') ← answer s q
    let (os, last) ← answerAll answer s' qs
    pure (o :: os, last)

theorem Query.value_perform (c : RecencyCache κ β) (q : Query ι κ β) :
    (q.perform c).value = q.operation.perform c := by
  cases q with
  | set k v => rfl
  | get k => rfl
  | getOrInsert k compute =>
    simp only [perform, operation, Operation.perform, Logged.value_bind, Logged.value_pure,
      value_getOrCompute]
  | clear => rfl

theorem value_answerAll_perform (c : RecencyCache κ β) (qs : List (Query ι κ β)) :
    (answerAll Query.perform c qs).value = performAll c (qs.map Query.operation) := by
  induction qs generalizing c with
  | nil => rfl
  | cons q qs ih =>
    simp only [answerAll, List.map_cons, performAll, Logged.value_bind, Logged.value_pure,
      Query.value_perform, ih]

/-! ### One query -/

/-- The table has the first keys of the ranking, each with the value stored last, and every
    key that was used has been stored. -/
structure Mirrors (c : RecencyCache κ β) (us : List (Use κ β)) : Prop where
  keys : c.entries.map Prod.fst = (ranking us).take c.capacity
  values : ∀ e ∈ c.entries, lastStored? e.1 us = some e.2
  stored : ∀ k ∈ ranking us, (lastStored? k us).isSome

theorem mirrors_empty (n : Nat) : Mirrors (empty n : RecencyCache κ β) [] where
  keys := List.take_nil.symm
  values := nofun
  stored := nofun

/-- Without a key, the first keys of a ranking are those of the ranking without it. -/
theorem take_filter_ne {r : List κ} (h : r.Nodup) (n : Nat) (k : κ) :
    ((r.take n).filter (· ≠ k)).take (n - 1) = (r.filter (· ≠ k)).take (n - 1) := by
  induction r generalizing n with
  | nil => simp
  | cons a r ih =>
    obtain ⟨ha, hr⟩ := List.nodup_cons.mp h
    cases n with
    | zero => rfl
    | succ n =>
      rw [List.take_succ_cons, Nat.add_sub_cancel]
      by_cases hk : a = k
      · subst hk
        have hrest : ∀ s : List κ, s ⊆ r → s.filter (· ≠ a) = s := by
          intro s hs
          rw [List.filter_eq_self]
          intro b hb
          have hne : b ≠ a := by
            rintro rfl
            exact ha (hs hb)
          simpa using hne
        rw [List.filter_cons_of_neg (by simp), List.filter_cons_of_neg (by simp),
          hrest _ (List.take_subset n r), hrest _ (List.Subset.refl r), List.take_take,
          Nat.min_self]
      · rw [List.filter_cons_of_pos (by simpa using hk),
          List.filter_cons_of_pos (by simpa using hk)]
        cases n with
        | zero => rfl
        | succ n =>
          rw [List.take_succ_cons, List.take_succ_cons]
          exact congrArg (a :: ·) (ih hr (n + 1))

section

variable {c : RecencyCache κ β} {us : List (Use κ β)}

/-- The table finds what is remembered. -/
theorem Mirrors.find?_eq (h : Mirrors c us) (k : κ) : c.find? k = recalled? c.capacity k us := by
  rw [recalled?, ← h.keys]
  split
  · next hmem =>
    obtain ⟨e, he, hk⟩ := List.mem_map.mp hmem
    cases hfind : c.find? k with
    | some v => exact (h.values _ (mem_of_find? hfind)).symm
    | none =>
      rw [find?, Option.map_eq_none_iff, List.find?_eq_none] at hfind
      exact (hfind e he (by simpa using hk)).elim
  · next hmem =>
    cases hfind : c.find? k with
    | some v => exact (hmem (List.mem_map_of_mem (mem_of_find? hfind))).elim
    | none => rfl

/-- The keys of a table in which a key of the ranking is put in front. -/
theorem Mirrors.keys_cons (h : Mirrors c us) (k : κ) :
    k :: ((without k c.entries).map Prod.fst).take (c.capacity - 1)
      = (k :: (ranking us).filter (· ≠ k)).take c.capacity := by
  obtain ⟨n, hn⟩ : ∃ n, c.capacity = n + 1 :=
    Nat.exists_eq_succ_of_ne_zero (Nat.ne_of_gt c.capacity_pos)
  have hkeys := h.keys
  rw [hn] at hkeys ⊢
  rw [fst_without, hkeys, List.take_succ_cons]
  exact congrArg (k :: ·) (take_filter_ne (nodup_ranking us) (n + 1) k)

theorem Mirrors.insert (h : Mirrors c us) (k : κ) (v : β) :
    Mirrors (c.insert k v) (.stored k v :: us) where
  keys := by
    change k :: ((without k c.entries).take (c.capacity - 1)).map Prod.fst = _
    rw [List.map_take]
    exact h.keys_cons k
  values := by
    intro e he
    rcases List.mem_cons.mp he with rfl | he
    · exact lastStored?_stored k v us
    · obtain ⟨hmem, hne⟩ := List.mem_filter.mp (List.mem_of_mem_take he)
      have hk : k ≠ e.1 := Ne.symm (by simpa using hne)
      rw [lastStored?_stored_of_ne hk]
      exact h.values e hmem
  stored := by
    intro k' hk'
    by_cases hk : k = k'
    · subst hk
      simp [lastStored?_stored]
    · rw [lastStored?_stored_of_ne hk]
      rcases mem_ranking_cons.mp hk' with rfl | hk'
      · exact (hk rfl).elim
      · exact h.stored k' hk'

theorem Mirrors.promote (h : Mirrors c us) {k : κ} {v : β} (hmem : (k, v) ∈ c.entries) :
    Mirrors (c.promote k v hmem) (.found k :: us) where
  keys := by
    -- an entry was taken out, so the others are less than the capacity
    have hall : ((without k c.entries).map Prod.fst).take (c.capacity - 1)
        = (without k c.entries).map Prod.fst := by
      apply List.take_of_length_le
      have := length_without_lt hmem
      have := c.size_le
      rw [List.length_map]
      omega
    change k :: (without k c.entries).map Prod.fst = _
    rw [← hall]
    exact h.keys_cons k
  values := by
    intro e he
    rcases List.mem_cons.mp he with rfl | he
    · exact h.values _ hmem
    · exact h.values e ((without_sublist k _).subset he)
  stored := by
    intro k' hk'
    rcases mem_ranking_cons.mp hk' with rfl | hk'
    · exact Option.isSome_iff_exists.mpr ⟨v, h.values _ hmem⟩
    · exact h.stored k' hk'

/-- **A query is answered alike on both sides, with the same notices, and the table is again
    the first part of the ranking.** -/
theorem Mirrors.perform (h : Mirrors c us) (q : Query ι κ β) :
    let table := q.perform c
    let memory := q.recall c.capacity us
    table.value.1 = memory.value.1 ∧ table.log = memory.log ∧
      table.value.2.capacity = c.capacity ∧ Mirrors table.value.2 memory.value.2 := by
  intro table memory
  cases q with
  | set k v => exact ⟨rfl, rfl, rfl, h.insert k v⟩
  | clear => exact ⟨rfl, rfl, rfl, List.take_nil.symm, nofun, nofun⟩
  | get k =>
    have hrecalled : recalled? c.capacity k us = c.find? k := (h.find?_eq k).symm
    simp only [table, memory, Query.perform, Query.recall, hrecalled]
    cases hfind : c.find? k with
    | some v =>
      rw [get_of_find?_eq_some hfind]
      exact ⟨rfl, rfl, rfl, h.promote (mem_of_find? hfind)⟩
    | none =>
      rw [get_of_find?_eq_none hfind]
      exact ⟨rfl, rfl, rfl, h⟩
  | getOrInsert k compute =>
    have hrecalled : recalled? c.capacity k us = c.find? k := (h.find?_eq k).symm
    simp only [table, memory, Query.perform, Query.recall, getOrCompute, hrecalled]
    cases hfind : c.find? k with
    | some v =>
      rw [get_of_find?_eq_some hfind]
      exact ⟨rfl, rfl, rfl, h.promote (mem_of_find? hfind)⟩
    | none =>
      rw [get_of_find?_eq_none hfind]
      refine ⟨rfl, ?_, rfl, h.insert k (compute ()).value⟩
      simp

/-! ### All queries -/

theorem Mirrors.answerAll (h : Mirrors c us) (qs : List (Query ι κ β)) :
    let table := RecencyCache.answerAll Query.perform c qs
    let memory := RecencyCache.answerAll (Query.recall c.capacity) us qs
    table.value.1 = memory.value.1 ∧ table.log = memory.log ∧
      table.value.2.capacity = c.capacity ∧ Mirrors table.value.2 memory.value.2 := by
  induction qs generalizing c us with
  | nil => exact ⟨rfl, rfl, rfl, h⟩
  | cons q qs ih =>
    obtain ⟨hanswer, hlog, hcapacity, hafter⟩ := h.perform q
    obtain ⟨hanswers, hlogs, hcapacity', hlast⟩ := ih hafter
    rw [hcapacity] at hanswers hlogs hcapacity' hlast
    intro table memory
    refine ⟨?_, ?_, hcapacity', hlast⟩
    · exact List.cons_eq_cons.mpr ⟨hanswer, hanswers⟩
    · simp only [table, memory, RecencyCache.answerAll, Logged.log_bind, hlog, hlogs,
        Logged.log_pure]

end

/-- **A table is answered for by the list of all uses since it was last cleared.**  Of the keys
    stored since then it holds the `max capacity 1` that were used most recently, or all of
    them, each once and with the value stored last; looking a key up gives that value, and a
    value is computed exactly when its key is not held.  The notices tell of that and change
    nothing. -/
theorem table_holds_most_recent (capacity : Nat) (qs : List (Query ι κ β)) :
    let n := max capacity 1
    let table := answerAll Query.perform (.empty capacity) qs
    let memory := answerAll (Query.recall n) [] qs
    let c := table.value.2
    let us := memory.value.2
    table.value = performAll (.empty capacity) (qs.map Query.operation) ∧
      table.value.1 = memory.value.1 ∧ table.log = memory.log ∧
      c.entries.map Prod.fst = (ranking us).take n ∧
      c.entries.length = min n (ranking us).length ∧
      (∀ e ∈ c.entries, lastStored? e.1 us = some e.2) ∧
      (ranking us).Nodup ∧ ∀ k, k ∈ ranking us ↔ ∃ v, .stored k v ∈ us := by
  intro n table memory c us
  obtain ⟨hanswers, hlog, hcapacity, hmirrors⟩ := (mirrors_empty (β := β) capacity).answerAll qs
  have hkeys : c.entries.map Prod.fst = (ranking us).take n := by
    rw [← show c.capacity = n from hcapacity]
    exact hmirrors.keys
  refine ⟨value_answerAll_perform _ qs, hanswers, hlog, hkeys, ?_, hmirrors.values,
    nodup_ranking us, ?_⟩
  · rw [← List.length_map (f := Prod.fst), hkeys, List.length_take]
  · intro k
    constructor
    · intro hk
      exact isSome_lastStored?_iff.mp (hmirrors.stored k hk)
    · rintro ⟨v, hv⟩
      exact mem_ranking_of_mem hv

/-- Storing another value for a key of a full table drops nothing, and a lookup keeps its key
    from being dropped. -/
example :
    let table := answerAll Query.perform (.empty 2 : RecencyCache Nat Nat)
      [.set 1 10, .set 2 20, .set 2 21, .get 1, .getOrInsert 3 fun _ => Logged.noting () 30]
    table.value.2.entries = [(3, 30), (1, 10)] ∧ table.log = [()] := by
  decide

end EvenChroma.RecencyCache
