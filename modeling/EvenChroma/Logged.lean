/-
  EvenChroma/Logged.lean
  ======================
  **Values with the notices that arose on the way.**  Nothing is printed while a
  colour is computed: a computation returns its value together with the list of
  notices, in the order in which they arose.
-/
namespace EvenChroma

/-- A value and the notices given while it was computed. -/
structure Logged (ι : Type) (β : Type) where
  value : β
  log : List ι

namespace Logged

variable {ι κ β γ : Type}

@[ext] theorem ext {m n : Logged ι β} (hvalue : m.value = n.value) (hlog : m.log = n.log) :
    m = n := by
  cases m
  cases n
  exact congr (congrArg mk hvalue) hlog

instance : Monad (Logged ι) where
  pure b := ⟨b, []⟩
  bind m f := ⟨(f m.value).value, m.log ++ (f m.value).log⟩

@[simp] theorem value_pure (b : β) : (pure b : Logged ι β).value = b := rfl

@[simp] theorem log_pure (b : β) : (pure b : Logged ι β).log = [] := rfl

@[simp] theorem value_bind (m : Logged ι β) (f : β → Logged ι γ) :
    (m >>= f).value = (f m.value).value := rfl

@[simp] theorem log_bind (m : Logged ι β) (f : β → Logged ι γ) :
    (m >>= f).log = m.log ++ (f m.value).log := rfl

/-- A value that replaces another one, and why. -/
def noting (i : ι) (b : β) : Logged ι β := ⟨b, [i]⟩

/-- The same value with its notices reworded. -/
def mapLog (f : ι → κ) (m : Logged ι β) : Logged κ β := ⟨m.value, m.log.map f⟩

@[simp] theorem value_mapLog (f : ι → κ) (m : Logged ι β) : (m.mapLog f).value = m.value := rfl

@[simp] theorem log_mapLog (f : ι → κ) (m : Logged ι β) :
    (m.mapLog f).log = m.log.map f := rfl

/-- Apply a noting function to every entry, from left to right. -/
def mapList (f : β → Logged ι γ) : List β → Logged ι (List γ)
  | [] => ⟨[], []⟩
  | b :: bs => ⟨(f b).value :: (mapList f bs).value, (f b).log ++ (mapList f bs).log⟩

theorem value_mapList (f : β → Logged ι γ) (bs : List β) :
    (mapList f bs).value = bs.map fun b => (f b).value := by
  induction bs with
  | nil => rfl
  | cons b bs ih => simp [mapList, ih]

end Logged

end EvenChroma
