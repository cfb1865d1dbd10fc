/-
  EvenChroma/Proofs/SharedFloors.lean
  ===================================
  **Sharing a table of floors is invisible, but for twins.**  Every entry of a table is
  the floor of some parameters that were asked for under its name (`Honest`).  Names tell
  all parameters apart but twins (`key_eq_iff`), so a call can only be answered with the
  floor of its own parameters or of a twin of theirs, and this decides which calls may
  share a table without noticing each other.
-/
import EvenChroma.Engine
import EvenChroma.Proofs.FloorKey
import EvenChroma.Proofs.TableEntries

namespace EvenChroma

/-! ### What a computation logs -/

namespace ColorM

theorem log_compute (r : Request Float) (table : FloorCache) :
    (compute r table).log = r.prepare.log.map Notice.record := by
  change (r.prepare.log.map Notice.record ++ []) ++ ([] ++ []) = _
  simp

theorem log_css (r : Request Float) (table : FloorCache) :
    (css r table).log = r.prepare.log.map Notice.record := by
  change (compute r table).log ++ [] = _
  rw [List.append_nil, log_compute]

end ColorM

/-! ### Calls -/

/-- What an engine, or the owner of its table, can be asked for.  An engine is a handle on
    its table and holds nothing else: which of the engines that share a table takes a call
    makes no difference. -/
inductive Call where
  | compute (r : Request Float)
  | css (r : Request Float)
  | chromaFloor (p : SearchParameters Float)
  | clear

inductive Answer where
  | color (c : Color)
  | text (t : Text)
  | floor (x : Float)
  | cleared

namespace Call

/-- The answer, with the warnings given, and the table afterwards. -/
def run : Call → ColorM Answer
  | compute r => .color <$> ColorM.compute r
  | css r => .text <$> ColorM.css r
  | chromaFloor p => .floor <$> ColorM.chromaFloor p
  | clear => fun table => pure (.cleared, table.clear)

def answer (c : Call) (table : FloorCache) : Logged Log.Record Answer := Prod.fst <$> c.run table

/-- The answer of an engine with a table of its own, which is empty. -/
def fresh (c : Call) : Logged Log.Record Answer := c.answer FloorCache.new

def leave (c : Call) (table : FloorCache) : FloorCache := (c.run table).value.2

/-- The answers to calls made one after the other on one table. -/
def answers : List Call → FloorCache → List (Logged Log.Record Answer)
  | [], _ => []
  | c :: cs, table => c.answer table :: answers cs (c.leave table)

/-- The parameters of the floor that a call needs. -/
def parameters? : Call → Option (SearchParameters Float)
  | compute r => some r.prepare.value.parameters
  | css r => some r.prepare.value.parameters
  | chromaFloor p => some p
  | clear => none

/-- The answer that a call gives once it has been told a floor. -/
def answerWith (floor : Float) : Call → Logged Log.Record Answer
  | compute r =>
    (r.prepare.mapLog Notice.record) >>= fun p =>
      pure (.color (ColorM.render r.options.output p floor))
  | css r =>
    (r.prepare.mapLog Notice.record) >>= fun p =>
      pure (.text (ColorM.render r.options.output p floor).css)
  | chromaFloor _ => pure (.floor floor)
  | clear => pure .cleared

theorem log_map {β : Type} (f : β → Answer) (m : ColorM β) (table : FloorCache) :
    ((f <$> m) table).log = (m table).log := List.append_nil _

theorem answer_eq {c : Call} {p : SearchParameters Float} (hp : c.parameters? = some p)
    (table : FloorCache) :
    c.answer table = c.answerWith (table.getOrInsert p.key fun _ => p.floor).1 := by
  cases c with
  | compute r =>
    cases hp
    exact congrArg (Logged.mk _) (by simp [log_map, run, ColorM.log_compute])
  | css r =>
    cases hp
    exact congrArg (Logged.mk _) (by simp [log_map, run, ColorM.log_css])
  | chromaFloor q => cases hp; rfl
  | clear => cases hp

theorem leave_eq {c : Call} {p : SearchParameters Float} (hp : c.parameters? = some p)
    (table : FloorCache) :
    c.leave table = (table.getOrInsert p.key fun _ => p.floor).2 := by
  cases c with
  | compute r => cases hp; rfl
  | css r => cases hp; rfl
  | chromaFloor q => cases hp; rfl
  | clear => cases hp

theorem answer_of_parameters_none {c : Call} (hp : c.parameters? = none) (table : FloorCache) :
    c.answer table = c.fresh := by
  cases c with
  | clear => rfl
  | _ => cases hp

theorem fresh_eq {c : Call} {p : SearchParameters Float} (hp : c.parameters? = some p) :
    c.fresh = c.answerWith p.floor := by
  rw [fresh, answer_eq hp]
  rfl

end Call

/-! ### What a table holds -/

/-- Every entry is the floor of parameters that one of the calls needs, under their name. -/
def FloorCache.Honest (calls : Set Call) (table : FloorCache) : Prop :=
  ∀ e ∈ table.entries, ∃ d ∈ calls, ∃ q, d.parameters? = some q ∧ e = (q.key, q.floor)

namespace Call

variable {calls : Set Call} {table : FloorCache}

theorem honest_empty (n : Nat) : FloorCache.Honest calls (.empty n) := by
  intro e he
  cases he

theorem honest_leave (hhonest : table.Honest calls) {c : Call} (hc : c ∈ calls) :
    (c.leave table).Honest calls := by
  intro e he
  cases hp : c.parameters? with
  | none =>
    cases c with
    | clear => cases he
    | _ => cases hp
  | some p =>
    rw [leave_eq hp] at he
    rcases RecencyCache.mem_getOrInsert he with he | rfl
    · exact hhonest e he
    · exact ⟨c, hc, p, hp, rfl⟩

/-- On an honest table a call is told the floor of its own parameters or of a twin. -/
theorem answer_of_honest (hhonest : table.Honest calls) {c : Call}
    {p : SearchParameters Float} (hp : c.parameters? = some p) :
    c.answer table = c.fresh ∨
      ∃ d ∈ calls, ∃ q, d.parameters? = some q ∧ p.Twins q ∧
        c.answer table = c.answerWith q.floor := by
  rw [fresh_eq hp, answer_eq hp, RecencyCache.getOrInsert_value]
  cases hfind : table.find? p.key with
  | none => exact .inl rfl
  | some v =>
    obtain ⟨d, hd, q, hq, hentry⟩ := hhonest _ (RecencyCache.mem_of_find? hfind)
    obtain ⟨hkey, rfl⟩ := Prod.mk.inj hentry
    rcases SearchParameters.key_eq_iff.mp hkey with rfl | htwins
    · exact .inl rfl
    · exact .inr ⟨d, hd, q, hq, htwins, rfl⟩

/-- No two of the calls have twin parameters whose floors they would answer to
    differently. -/
def TwinsAgree (calls : Set Call) : Prop :=
  ∀ c ∈ calls, ∀ d ∈ calls, ∀ p q, c.parameters? = some p → d.parameters? = some q →
    p.Twins q → c.answerWith q.floor = c.fresh

theorem answers_of_honest (hagree : TwinsAgree calls) (hhonest : table.Honest calls) :
    ∀ cs : List Call, (∀ c ∈ cs, c ∈ calls) → answers cs table = cs.map fresh := by
  intro cs
  induction cs generalizing table with
  | nil => exact fun _ => rfl
  | cons c cs ih =>
    intro hcs
    obtain ⟨hc, hcs⟩ := List.forall_mem_cons.mp hcs
    have hanswer : c.answer table = c.fresh := by
      cases hp : c.parameters? with
      | none => exact answer_of_parameters_none hp table
      | some p =>
        rcases answer_of_honest hhonest hp with h | ⟨d, hd, q, hq, htwins, h⟩
        · exact h
        · rw [h]
          exact hagree c hc d hd p q hp hq htwins
    rw [answers, List.map_cons, hanswer, ih (honest_leave hhonest hc) hcs]

theorem answer_after_twin {c d : Call} {p q : SearchParameters Float}
    (hp : c.parameters? = some p) (hq : d.parameters? = some q) (htwins : p.Twins q) (n : Nat) :
    c.answer (d.leave (.empty n)) = c.answerWith q.floor := by
  rw [answer_eq hp, leave_eq hq, SearchParameters.key_eq_iff.mpr (.inr htwins),
    RecencyCache.getOrInsert_value, RecencyCache.find?_getOrInsert_empty]
  rfl

/-- **Calls share a table unnoticed, in any number and order and on a table of any size,
    exactly if their twins agree.** -/
theorem answers_eq_fresh_iff (calls : Set Call) :
    (∀ n : Nat, ∀ cs : List Call, (∀ c ∈ cs, c ∈ calls) →
      answers cs (.empty n) = cs.map fresh) ↔ TwinsAgree calls := by
  constructor
  · intro h c hc d hd p q hp hq htwins
    have hpair := h 1 [d, c] (by simp [hc, hd])
    simp only [answers, List.map_cons, List.map_nil, List.cons.injEq, and_true] at hpair
    rw [← answer_after_twin hp hq htwins 1]
    exact hpair.2
  · intro hagree n cs hcs
    exact answers_of_honest hagree (honest_empty n) cs hcs

/-- A step of 540 degrees gives the hue 0 alone, the list of 540 gives the opposite hue. -/
theorem answers_ne_fresh :
    let step : SearchParameters Float := ⟨0.01, .step 540, .oklch, .rec2020, 0.03125⟩
    let list : SearchParameters Float := ⟨0.01, .list [540], .oklch, .rec2020, 0.03125⟩
    answers [chromaFloor step, chromaFloor list] (.empty 1) ≠
      [chromaFloor step, chromaFloor list].map fresh := by
  intro step list hanswers
  have htwins : list.Twins step := ⟨rfl, rfl, rfl, rfl, rfl⟩
  simp only [answers, List.map_cons, List.map_nil, List.cons.injEq, and_true] at hanswers
  have hsecond : (chromaFloor list).answerWith step.floor = (chromaFloor list).fresh :=
    (answer_after_twin rfl rfl htwins 1).symm.trans hanswers.2
  have hfloor : step.floor = list.floor := Answer.floor.inj (congrArg Logged.value hsecond)
  have hbits : step.floor.toBits ≠ list.floor.toBits := by decide +kernel
  exact hbits (congrArg Float.toBits hfloor)

end Call

end EvenChroma
