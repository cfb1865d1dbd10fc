/-
  EvenChroma/RecencyCache.lean
  ============================
  **A bounded table that forgets what was not used for longest.**  The entries are
  kept in order of use, the latest first: looking a key up or storing it moves it
  to the front, and when the table is full the last entry goes.

  No key occurs twice and the capacity is never exceeded; both are part of the type.
-/
namespace EvenChroma

/-- At most `capacity` entries, each key once, the most recently used first. -/
structure RecencyCache (κ β : Type) where
  capacity : Nat
  entries : List (κ × β)
  capacity_pos : 0 < capacity
  size_le : entries.length ≤ capacity
  distinct : (entries.map Prod.fst).Nodup

namespace RecencyCache

variable {κ β : Type}

/-- An empty table for at least one entry. -/
def empty (capacity : Nat) : RecencyCache κ β where
  capacity := max capacity 1
  entries := []
  capacity_pos := by omega
  size_le := by simp
  distinct := by simp

def size (c : RecencyCache κ β) : Nat := c.entries.length

def isEmpty (c : RecencyCache κ β) : Bool := c.entries.isEmpty

/-- The same table without entries. -/
def clear (c : RecencyCache κ β) : RecencyCache κ β where
  capacity := c.capacity
  entries := []
  capacity_pos := c.capacity_pos
  size_le := by simp
  distinct := by simp

variable [DecidableEq κ]

/-- The entries of all keys but one. -/
def without (k : κ) (es : List (κ × β)) : List (κ × β) := es.filter fun e => e.1 ≠ k

theorem without_sublist (k : κ) (es : List (κ × β)) : (without k es).Sublist es :=
  List.filter_sublist

theorem fst_without (k : κ) (es : List (κ × β)) :
    (without k es).map Prod.fst = (es.map Prod.fst).filter (· ≠ k) := by
  simp [without, List.filter_map, Function.comp_def]

theorem notMem_without (k : κ) (es : List (κ × β)) : k ∉ (without k es).map Prod.fst := by
  rw [fst_without]; simp

theorem length_without_lt {k : κ} {v : β} {es : List (κ × β)} (h : (k, v) ∈ es) :
    (without k es).length < es.length :=
  List.length_filter_lt_length_iff_exists.mpr ⟨(k, v), h, by simp⟩

/-- The value stored for a key. -/
def find? (c : RecencyCache κ β) (k : κ) : Option β :=
  (c.entries.find? fun e => e.1 = k).map Prod.snd

theorem mem_of_find? {c : RecencyCache κ β} {k : κ} {v : β} (h : c.find? k = some v) :
    (k, v) ∈ c.entries := by
  obtain ⟨e, he, rfl⟩ := Option.map_eq_some_iff.mp h
  have hk : e.1 = k := by simpa using List.find?_some he
  subst hk
  exact List.mem_of_find?_eq_some he

/-- The table with the entry of `k`, which is there, moved to the front. -/
def promote (c : RecencyCache κ β) (k : κ) (v : β) (h : (k, v) ∈ c.entries) :
    RecencyCache κ β where
  capacity := c.capacity
  entries := (k, v) :: without k c.entries
  capacity_pos := c.capacity_pos
  size_le := by
    have := length_without_lt h
    have := c.size_le
    simp only [List.length_cons]; omega
  distinct := by
    rw [List.map_cons, List.nodup_cons]
    exact ⟨notMem_without k _, c.distinct.sublist ((without_sublist k _).map _)⟩

/-- Look a key up; a hit counts as a use. -/
def get (c : RecencyCache κ β) (k : κ) : Option β × RecencyCache κ β :=
  match h : c.find? k with
  | some v => (some v, c.promote k v (mem_of_find? h))
  | none => (none, c)

/-- Store a value in front.  A full table that does not hold the key yet loses its
    last entry. -/
def insert (c : RecencyCache κ β) (k : κ) (v : β) : RecencyCache κ β where
  capacity := c.capacity
  entries := (k, v) :: (without k c.entries).take (c.capacity - 1)
  capacity_pos := c.capacity_pos
  size_le := by
    have := c.capacity_pos
    simp only [List.length_cons, List.length_take]; omega
  distinct := by
    rw [List.map_cons, List.nodup_cons]
    have sub : ((without k c.entries).take (c.capacity - 1)).Sublist (without k c.entries) :=
      List.take_sublist _ _
    exact ⟨fun h => notMem_without k c.entries ((sub.map _).subset h),
      c.distinct.sublist ((sub.trans (without_sublist k _)).map _)⟩

/-- The value of a key, computed and stored if the table lacks it. -/
def getOrInsert (c : RecencyCache κ β) (k : κ) (compute : Unit → β) : β × RecencyCache κ β :=
  match c.get k with
  | (some v, c') => (v, c')
  | (none, _) =>
    let v := compute ()
    (v, c.insert k v)

end RecencyCache

end EvenChroma
