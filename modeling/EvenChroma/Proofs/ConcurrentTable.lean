/-
  EvenChroma/Proofs/ConcurrentTable.lean
  ======================================
  **Threads share a table safely, however their steps interleave.**  A value that is
  missing is computed while the table is free for others, so looking up, computing and
  storing are three steps: two threads may miss one key, and the table may lose entries,
  or all of them, between a lookup and the store that follows from it.

  The values stored are those of one function all the same (`Tabulates`), and so are those
  that a thread is about to store (`Thread.Sound`); both are kept by every step.
-/
import EvenChroma.Proofs.TableEntries
import Mathlib.Data.List.Forall2
import Mathlib.Logic.Function.Basic

namespace EvenChroma.RecencyCache

/-! ### Threads -/

/-- What a thread asks of the table. -/
inductive Operation (κ β : Type) where
  | getOrInsert (k : κ) (compute : Unit → β)
  | get (k : κ)
  | set (k : κ) (v : β)
  | clear

/-- What a thread is told. -/
inductive Outcome (β : Type) where
  | value (v : β)
  | found (v : Option β)
  | done
deriving DecidableEq, Repr

/-- What a thread has begun: the value of a key that it found missing. -/
inductive Activity (κ β : Type) where
  | idle
  | computing (k : κ) (compute : Unit → β)
  | storing (k : κ) (compute : Unit → β) (v : β)

structure Thread (κ β : Type) where
  activity : Activity κ β
  todo : List (Operation κ β)
  outcomes : List (Outcome β)

variable {ι κ β : Type} [DecidableEq ι] [DecidableEq κ]

/-- One step of a thread, during which no other thread touches the table. -/
def Thread.step (th : Thread κ β) (c : RecencyCache κ β) : Thread κ β × RecencyCache κ β :=
  match th.activity with
  | .computing k compute => ({ th with activity := .storing k compute (compute ()) }, c)
  | .storing k _ v => (⟨.idle, th.todo, th.outcomes ++ [.value v]⟩, c.insert k v)
  | .idle =>
    match th.todo with
    | [] => (th, c)
    | .getOrInsert k compute :: later =>
      match c.get k with
      | (some v, c') => (⟨.idle, later, th.outcomes ++ [.value v]⟩, c')
      | (none, c') => (⟨.computing k compute, later, th.outcomes⟩, c')
    | .get k :: later => (⟨.idle, later, th.outcomes ++ [.found (c.get k).1]⟩, (c.get k).2)
    | .set k v :: later => (⟨.idle, later, th.outcomes ++ [.done]⟩, c.insert k v)
    | .clear :: later => (⟨.idle, later, th.outcomes ++ [.done]⟩, c.clear)

/-- A table and the threads that share it. -/
structure System (ι κ β : Type) where
  table : RecencyCache κ β
  threads : ι → Thread κ β

namespace System

/-- An empty table, and nothing begun. -/
def start (capacity : Nat) (operations : ι → List (Operation κ β)) : System ι κ β :=
  ⟨.empty capacity, fun i => ⟨.idle, operations i, []⟩⟩

def step (s : System ι κ β) (i : ι) : System ι κ β :=
  let (th, c) := (s.threads i).step s.table
  ⟨c, Function.update s.threads i th⟩

/-- The threads take their steps in the order of the schedule. -/
def run (s : System ι κ β) (schedule : List ι) : System ι κ β := schedule.foldl step s

end System

/-- Taken one after the other, with no other thread in between, the steps are
    `getOrInsert`. -/
theorem System.run_getOrInsert (s : System ι κ β) (i : ι) {k : κ} {compute : Unit → β}
    (h : s.threads i = ⟨.idle, [.getOrInsert k compute], []⟩) :
    let s' := s.run [i, i, i]
    s'.threads i = ⟨.idle, [], [.value (s.table.getOrInsert k compute).1]⟩ ∧
      s'.table = (s.table.getOrInsert k compute).2 := by
  intro s'
  cases hfind : s.table.find? k with
  | some v =>
    obtain ⟨c, hget⟩ : ∃ c, s.table.get k = (some v, c) :=
      ⟨_, Prod.ext ((s.table.get_eq k).1.trans hfind) rfl⟩
    have hinsert : s.table.getOrInsert k compute = (v, c) := by
      rw [getOrInsert, hget]
    simp [s', run, step, Thread.step, h, hget, hinsert]
  | none =>
    have hget := get_of_find?_eq_none hfind
    have hinsert : s.table.getOrInsert k compute = (compute (), s.table.insert k (compute ())) := by
      rw [getOrInsert, hget]
    simp [s', run, step, Thread.step, h, hget, hinsert]

/-! ### What is computed and told -/

/-- Every entry is a key with its value under the function. -/
def Tabulates (f : κ → β) (c : RecencyCache κ β) : Prop := ∀ e ∈ c.entries, e.2 = f e.1

/-- What the operation computes or sets for a key is the value of the key. -/
def Operation.Agrees (f : κ → β) : Operation κ β → Prop
  | getOrInsert k compute => compute () = f k
  | set k v => v = f k
  | get _ => True
  | clear => True

/-- The operation is told the value of its key.  Only `get` may be told that there is none. -/
inductive Operation.Told (f : κ → β) : Operation κ β → Outcome β → Prop where
  | getOrInsert (k : κ) (compute : Unit → β) : Told f (.getOrInsert k compute) (.value (f k))
  | hit (k : κ) : Told f (.get k) (.found (some (f k)))
  | miss (k : κ) : Told f (.get k) (.found none)
  | set (k : κ) (v : β) : Told f (.set k v) .done
  | clear : Told f .clear .done

/-- The operation that has been begun. -/
def Activity.current : Activity κ β → List (Operation κ β)
  | idle => []
  | computing k compute => [.getOrInsert k compute]
  | storing k compute _ => [.getOrInsert k compute]

/-- A thread that was given the operations has been told the truth about those it finished,
    and what it is about to store is the value of the key. -/
structure Thread.Sound (f : κ → β) (operations : List (Operation κ β)) (th : Thread κ β) :
    Prop where
  told : ∃ finished, operations = finished ++ (th.activity.current ++ th.todo) ∧
    List.Forall₂ (Operation.Told f) finished th.outcomes
  computed : ∀ k compute v, th.activity = .storing k compute v → v = f k

section

variable {f : κ → β} {c c' : RecencyCache κ β}

omit [DecidableEq κ] in
theorem tabulates_empty (f : κ → β) (capacity : Nat) : Tabulates f (.empty capacity) := by
  intro e he
  cases he

theorem Tabulates.get (h : Tabulates f c) (k : κ) : Tabulates f (c.get k).2 := by
  intro e he
  exact h e ((c.get_eq k).2 e he)

theorem Tabulates.insert (h : Tabulates f c) (k : κ) : Tabulates f (c.insert k (f k)) := by
  intro e he
  rcases mem_insert he with rfl | he
  · rfl
  · exact h e he

theorem Tabulates.value_eq (h : Tabulates f c) {k : κ} {v : β} (hget : c.get k = (some v, c')) :
    v = f k := h _ (mem_of_get hget)

omit [DecidableEq κ] in
/-- One more operation is finished. -/
theorem told_append (later : List (Operation κ β)) {finished : List (Operation κ β)}
    {op : Operation κ β} {outcomes : List (Outcome β)} {o : Outcome β}
    (h : List.Forall₂ (Operation.Told f) finished outcomes) (hop : op.Told f o) :
    ∃ finished', finished ++ op :: later = finished' ++ later ∧
      List.Forall₂ (Operation.Told f) finished' (outcomes ++ [o]) := by
  refine ⟨finished ++ [op], ?_, ?_⟩
  · rw [List.append_assoc, List.singleton_append]
  · exact List.rel_append h (List.Forall₂.cons hop List.Forall₂.nil)

end

/-! ### One step -/

section

variable {f : κ → β} {c : RecencyCache κ β} {operations : List (Operation κ β)} {th : Thread κ β}

/-- **A step keeps the table and the thread sound.** -/
theorem Thread.Sound.step (hth : th.Sound f operations) (hc : Tabulates f c)
    (hagree : ∀ op ∈ operations, op.Agrees f) :
    (th.step c).1.Sound f operations ∧ Tabulates f (th.step c).2 ∧
      (th.step c).2.capacity = c.capacity := by
  obtain ⟨⟨finished, hsplit, htold⟩, hcomputed⟩ := hth
  obtain ⟨activity, todo, outcomes⟩ := th
  cases activity with
  | computing k compute =>
    have hvalue : compute () = f k :=
      hagree (.getOrInsert k compute) (by simp [hsplit, Activity.current])
    refine ⟨⟨⟨finished, hsplit, htold⟩, ?_⟩, hc, rfl⟩
    intro k' compute' v hstoring
    cases hstoring
    exact hvalue
  | storing k compute v =>
    have hvalue : v = f k := hcomputed k compute v rfl
    subst hvalue
    obtain ⟨finished', hfinished, htold'⟩ :=
      told_append todo htold (.getOrInsert k compute)
    refine ⟨⟨⟨finished', ?_, htold'⟩, nofun⟩, hc.insert k, rfl⟩
    exact hsplit.trans hfinished
  | idle =>
    cases todo with
    | nil => exact ⟨⟨⟨finished, hsplit, htold⟩, nofun⟩, hc, rfl⟩
    | cons op later =>
      have hop : op.Agrees f := hagree op (by simp [hsplit])
      have hfinish : ∀ {o : Outcome β}, op.Told f o →
          Thread.Sound f operations ⟨.idle, later, outcomes ++ [o]⟩ := by
        intro o ho
        obtain ⟨finished', hfinished, htold'⟩ := told_append later htold ho
        exact ⟨⟨finished', hsplit.trans hfinished, htold'⟩, nofun⟩
      cases op with
      | getOrInsert k compute =>
        have hcapacity := c.capacity_get k
        have htable := hc.get k
        simp only [Thread.step]
        split
        · next v c' hget =>
          rw [hget] at hcapacity htable
          obtain rfl := hc.value_eq hget
          exact ⟨hfinish (.getOrInsert k compute), htable, hcapacity⟩
        · next c' hget =>
          rw [hget] at hcapacity htable
          exact ⟨⟨⟨finished, hsplit, htold⟩, nofun⟩, htable, hcapacity⟩
      | get k =>
        refine ⟨hfinish ?_, hc.get k, c.capacity_get k⟩
        cases hget : (c.get k).1 with
        | none => exact .miss k
        | some v =>
          obtain rfl := hc.value_eq (Prod.ext hget rfl)
          exact .hit k
      | set k v =>
        obtain rfl : v = f k := hop
        exact ⟨hfinish (.set k (f k)), hc.insert k, rfl⟩
      | clear => exact ⟨hfinish .clear, nofun, rfl⟩

/-- How many steps a thread has left at most. -/
def Thread.work (th : Thread κ β) : Nat :=
  3 * th.todo.length +
    match th.activity with
    | .idle => 0
    | .computing _ _ => 2
    | .storing _ _ _ => 1

theorem Thread.work_step (th : Thread κ β) (c : RecencyCache κ β) :
    (th.step c).1.work ≤ th.work - 1 := by
  obtain ⟨activity, todo, outcomes⟩ := th
  cases activity with
  | computing k compute => exact Nat.le_refl _
  | storing k compute v => exact Nat.le_refl _
  | idle =>
    cases todo with
    | nil => exact Nat.le_refl 0
    | cons op later =>
      cases op with
      | getOrInsert k compute =>
        simp only [Thread.step]
        split
        · simp only [Thread.work, List.length_cons]
          omega
        · simp only [Thread.work, List.length_cons]
          omega
      | _ =>
        simp only [Thread.step, Thread.work, List.length_cons]
        omega

end

/-! ### All steps -/

namespace System

variable {f : κ → β} {operations : ι → List (Operation κ β)} {s : System ι κ β}

structure Sound (f : κ → β) (operations : ι → List (Operation κ β)) (s : System ι κ β) : Prop where
  table : Tabulates f s.table
  threads : ∀ i, (s.threads i).Sound f (operations i)

omit [DecidableEq ι] [DecidableEq κ] in
theorem sound_start (f : κ → β) (capacity : Nat) (operations : ι → List (Operation κ β)) :
    (start capacity operations).Sound f operations where
  table := tabulates_empty f capacity
  threads := fun _ => ⟨⟨[], rfl, .nil⟩, nofun⟩

theorem Sound.step (h : s.Sound f operations) (hagree : ∀ i, ∀ op ∈ operations i, op.Agrees f)
    (i : ι) : (s.step i).Sound f operations ∧ (s.step i).table.capacity = s.table.capacity := by
  obtain ⟨hthread, htable, hcapacity⟩ := (h.threads i).step h.table (hagree i)
  refine ⟨⟨htable, ?_⟩, hcapacity⟩
  intro j
  by_cases hj : j = i
  · subst hj
    simpa [System.step] using hthread
  · simpa [System.step, Function.update_of_ne hj] using h.threads j

theorem Sound.run (h : s.Sound f operations) (hagree : ∀ i, ∀ op ∈ operations i, op.Agrees f)
    (schedule : List ι) :
    (s.run schedule).Sound f operations ∧
      (s.run schedule).table.capacity = s.table.capacity := by
  induction schedule generalizing s with
  | nil => exact ⟨h, rfl⟩
  | cons i schedule ih =>
    obtain ⟨hstep, hcapacity⟩ := h.step hagree i
    obtain ⟨hrun, hcapacity'⟩ := ih hstep
    exact ⟨hrun, hcapacity'.trans hcapacity⟩

theorem work_run (s : System ι κ β) (schedule : List ι) (i : ι) :
    ((s.run schedule).threads i).work ≤ (s.threads i).work - schedule.count i := by
  induction schedule generalizing s with
  | nil => exact Nat.le_refl _
  | cons j schedule ih =>
    have hlater := ih (s.step j)
    by_cases hj : j = i
    · subst hj
      have hwork := (s.threads j).work_step s.table
      have hstep : ((s.step j).threads j).work ≤ (s.threads j).work - 1 := by
        simpa [step] using hwork
      rw [List.count_cons_self]
      exact Nat.le_trans hlater (by omega)
    · have hstep : (s.step j).threads i = s.threads i := by
        simp [step, Function.update_of_ne (Ne.symm hj)]
      rw [List.count_cons_of_ne hj, ← hstep]
      exact hlater

/-- **Whatever the interleaving, the table holds values of the function only, each thread is
    told the truth, and a thread that gets three steps for each of its operations is told
    the outcomes of all of them.** -/
theorem run_tells_truth (f : κ → β) (capacity : Nat) (operations : ι → List (Operation κ β))
    (hagree : ∀ i, ∀ op ∈ operations i, op.Agrees f) (schedule : List ι) :
    let s := (start capacity operations).run schedule
    (∀ e ∈ s.table.entries, e.2 = f e.1) ∧ (s.table.entries.map Prod.fst).Nodup ∧
      s.table.capacity = max capacity 1 ∧ s.table.entries.length ≤ s.table.capacity ∧
      ∀ i, (∃ finished,
          operations i = finished ++ ((s.threads i).activity.current ++ (s.threads i).todo) ∧
          List.Forall₂ (Operation.Told f) finished (s.threads i).outcomes) ∧
        (3 * (operations i).length ≤ schedule.count i →
          List.Forall₂ (Operation.Told f) (operations i) (s.threads i).outcomes) := by
  intro s
  obtain ⟨hsound, hcapacity⟩ := (sound_start f capacity operations).run hagree schedule
  refine ⟨hsound.table, s.table.distinct, hcapacity, s.table.size_le, ?_⟩
  intro i
  refine ⟨(hsound.threads i).told, ?_⟩
  intro hcount
  obtain ⟨finished, hsplit, htold⟩ := (hsound.threads i).told
  -- no work is left, so nothing is begun and nothing is to be done
  have hwork : (s.threads i).work = 0 := by
    have hle := work_run (start capacity operations) schedule i
    have hstart : ((start capacity operations).threads i).work = 3 * (operations i).length := rfl
    exact Nat.le_zero.mp (Nat.le_trans hle (by omega))
  have hrest : (s.threads i).activity.current ++ (s.threads i).todo = [] := by
    generalize s.threads i = th at hwork ⊢
    obtain ⟨activity, todo, outcomes⟩ := th
    cases activity with
    | idle =>
      have hlength : todo.length = 0 := by
        simp only [Thread.work] at hwork
        omega
      exact List.length_eq_zero_iff.mp hlength
    | computing k compute => simp [Thread.work] at hwork
    | storing k compute v => simp [Thread.work] at hwork
  have hall : operations i = finished := by
    rw [hsplit]
    exact (congrArg (finished ++ ·) hrest).trans (List.append_nil finished)
  rw [hall]
  exact htold

/-- Two threads miss the same key, and one of them stores its value after the other has
    cleared the table. -/
theorem run_tells_truth_stale_store :
    let square : Nat → Nat := fun k => k * k
    let operations : Bool → List (Operation Nat Nat)
      | true => [.getOrInsert 3 fun _ => 9]
      | false => [.getOrInsert 3 fun _ => 9, .clear]
    let schedule := [true, false, true, false, false, false, true, false, false]
    let s := (start 0 operations).run schedule
    (∀ i, ∀ op ∈ operations i, op.Agrees square) ∧ s.table.entries = [(3, 9)] ∧
      (∀ e ∈ s.table.entries, e.2 = square e.1) ∧
      ∀ i, List.Forall₂ (Operation.Told square) (operations i) (s.threads i).outcomes := by
  intro square operations schedule s
  have hagree : ∀ i, ∀ op ∈ operations i, op.Agrees square := by
    intro i op hop
    cases i with
    | true =>
      obtain rfl := List.mem_singleton.mp hop
      rfl
    | false =>
      rcases List.mem_pair.mp hop with rfl | rfl
      · rfl
      · trivial
  have hs : (start 0 operations).run schedule = s := rfl
  obtain ⟨hentries, -, -, -, hthreads⟩ := run_tells_truth square 0 operations hagree schedule
  rw [hs] at hentries hthreads
  have hsteps : ∀ i, 3 * (operations i).length ≤ schedule.count i := by decide
  have hlast : s.table.entries = [(3, 9)] := by decide
  refine ⟨hagree, hlast, hentries, ?_⟩
  intro i
  exact (hthreads i).2 (hsteps i)

end System

end EvenChroma.RecencyCache
