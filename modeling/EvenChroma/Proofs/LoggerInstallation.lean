/-
  EvenChroma/Proofs/LoggerInstallation.lean
  =========================================
  **The level of a refused logger stays.**  Only the first logger of a process is installed.
  Every other one is refused, but its level has come into force by then (`install_of_some`), so
  the level in force is always that of the last logger that asked.  Refused calls change nothing
  exactly if all loggers ask for one level.
-/
import EvenChroma.Logger

namespace EvenChroma.Log

/-! ### One call -/

section

variable {i : Installation} {k : Logger}

theorem Logger.install_of_none (h : i.logger = none) (l : Logger) :
    l.install i = (.ok (), ⟨l.level, some l⟩) := by
  rw [install, h]

theorem Logger.install_of_some (h : i.logger = some k) (l : Logger) :
    l.install i = (.error ⟨⟩, ⟨l.level, some k⟩) := by
  rw [install, h]

@[simp] theorem Logger.maxLevel_install (l : Logger) (i : Installation) :
    (l.install i).2.maxLevel = l.level := by
  cases h : i.logger with
  | none => rw [install_of_none h]
  | some k => rw [install_of_some h]

@[simp] theorem Logger.logger_install (l : Logger) (i : Installation) :
    (l.install i).2.logger = i.logger.or (some l) := by
  cases h : i.logger with
  | none => rw [install_of_none h, Option.none_or]
  | some k => rw [install_of_some h, Option.some_or]

end

/-! ### One call after another -/

namespace Installation

/-- The state after calls that install these loggers. -/
def afterAll (i : Installation) (ls : List Logger) : Installation :=
  ls.foldl (fun i l => (l.install i).2) i

/-- The loggers that are installed and not refused, in the order of the calls. -/
def accepted (i : Installation) : List Logger → List Logger
  | [] => []
  | l :: ls =>
    match l.install i with
    | (.ok _, j) => l :: j.accepted ls
    | (.error _, j) => j.accepted ls

/-- The level of the last logger that was installed, or the one in force before all calls. -/
def acceptedLevel (i : Installation) (ls : List Logger) : Option Level :=
  match (i.accepted ls).getLast? with
  | some l => l.level
  | none => i.maxLevel

/-- After each call the level is that of the last logger that was installed, and a refused call
    leaves the level and the logger as they were. -/
structure KeptByFailures (i : Installation) (ls : List Logger) : Prop where
  level_eq : ∀ pre l post, ls = pre ++ l :: post →
    (i.afterAll (pre ++ [l])).maxLevel = i.acceptedLevel (pre ++ [l])
  state_eq : ∀ pre l post, ls = pre ++ l :: post →
    ∀ e, (l.install (i.afterAll pre)).1 = .error e → i.afterAll (pre ++ [l]) = i.afterAll pre

variable {i : Installation} {k : Logger}

theorem afterAll_concat (i : Installation) (ls : List Logger) (l : Logger) :
    i.afterAll (ls ++ [l]) = (l.install (i.afterAll ls)).2 := by
  rw [afterAll, afterAll, List.foldl_append, List.foldl_cons, List.foldl_nil]

/-- The first logger stays. -/
theorem logger_afterAll (i : Installation) (ls : List Logger) :
    (i.afterAll ls).logger = i.logger.or ls.head? := by
  induction ls generalizing i with
  | nil => exact Option.or_none.symm
  | cons l ls ih =>
    have hstep : (i.afterAll (l :: ls)).logger = (i.logger.or (some l)).or ls.head? := by
      rw [← Logger.logger_install]
      exact ih _
    rw [hstep, Option.or_assoc, Option.some_or, List.head?_cons]

theorem accepted_of_some (h : i.logger = some k) (ls : List Logger) : i.accepted ls = [] := by
  induction ls generalizing i with
  | nil => rfl
  | cons l ls ih =>
    rw [accepted, Logger.install_of_some h]
    exact ih rfl

theorem accepted_of_none (h : i.logger = none) (l : Logger) (ls : List Logger) :
    i.accepted (l :: ls) = [l] := by
  rw [accepted, Logger.install_of_none h]
  exact congrArg (l :: ·) (accepted_of_some rfl ls)

theorem acceptedLevel_of_some (h : i.logger = some k) (ls : List Logger) :
    i.acceptedLevel ls = i.maxLevel := by
  rw [acceptedLevel, accepted_of_some h]
  rfl

theorem acceptedLevel_of_none (h : i.logger = none) (l : Logger) (ls : List Logger) :
    i.acceptedLevel (l :: ls) = l.level := by
  rw [acceptedLevel, accepted_of_none h]
  rfl

/-- Later calls are all refused. -/
theorem acceptedLevel_append (i : Installation) {ls : List Logger} (hls : ls ≠ [])
    (later : List Logger) : i.acceptedLevel (ls ++ later) = i.acceptedLevel ls := by
  cases h : i.logger with
  | some k => rw [acceptedLevel_of_some h, acceptedLevel_of_some h]
  | none =>
    obtain ⟨l, ls, rfl⟩ := List.exists_cons_of_ne_nil hls
    rw [List.cons_append, acceptedLevel_of_none h, acceptedLevel_of_none h]

theorem acceptedLevel_upTo {ls pre post : List Logger} {l : Logger} (i : Installation)
    (hls : ls = pre ++ l :: post) : i.acceptedLevel (pre ++ [l]) = i.acceptedLevel ls := by
  rw [← i.acceptedLevel_append (by simp) post, hls, List.append_assoc, List.singleton_append]

/-- If all loggers ask for the level of the one that is installed, that level is in force
    whenever a call is refused. -/
theorem maxLevel_afterAll {ls pre post : List Logger} {l : Logger}
    (hlevels : ∀ l ∈ ls, l.level = i.acceptedLevel ls) (hls : ls = pre ++ l :: post)
    (hlogger : (i.afterAll pre).logger = some k) :
    (i.afterAll pre).maxLevel = i.acceptedLevel ls := by
  rcases List.eq_nil_or_concat pre with rfl | ⟨pre, l', rfl⟩
  · exact (acceptedLevel_of_some hlogger ls).symm
  · rw [List.concat_eq_append, afterAll_concat, Logger.maxLevel_install]
    exact hlevels l' (by simp [hls])

/-- **A call succeeds exactly if it is the first and no logger was installed before; the level of
    its logger comes into force in any case.**  So refused calls change nothing exactly if all
    loggers ask for the level of the one that is installed. -/
theorem keptByFailures_iff (i : Installation) (ls : List Logger) :
    (∀ pre l post, ls = pre ++ l :: post →
      ((l.install (i.afterAll pre)).1 = .ok () ↔ i.logger = none ∧ pre = []) ∧
      (i.afterAll (pre ++ [l])).logger = i.logger.or ls.head? ∧
      (i.afterAll (pre ++ [l])).maxLevel = l.level) ∧
    (i.KeptByFailures ls ↔ ∀ l ∈ ls, l.level = i.acceptedLevel ls) := by
  refine ⟨fun pre l post hls => ⟨?_, ?_, ?_⟩, fun hkept l hl => ?_, fun hlevels => ⟨?_, ?_⟩⟩
  · have hlogger := logger_afterAll i pre
    cases h : (i.afterAll pre).logger with
    | none =>
      rw [h, eq_comm, Option.or_eq_none_iff, List.head?_eq_none_iff] at hlogger
      rw [Logger.install_of_none h]
      exact iff_of_true rfl hlogger
    | some k =>
      rw [Logger.install_of_some h]
      refine iff_of_false nofun ?_
      rintro ⟨hnone, rfl⟩
      rw [h, hnone] at hlogger
      cases hlogger
  · rw [logger_afterAll, hls]
    cases pre with
    | nil => rfl
    | cons l' pre => rfl
  · rw [afterAll_concat, Logger.maxLevel_install]
  · obtain ⟨pre, post, hls⟩ := List.append_of_mem hl
    have hlevel := hkept.level_eq pre l post hls
    rwa [afterAll_concat, Logger.maxLevel_install, i.acceptedLevel_upTo hls] at hlevel
  · intro pre l post hls
    rw [afterAll_concat, Logger.maxLevel_install, i.acceptedLevel_upTo hls]
    exact hlevels l (by simp [hls])
  · intro pre l post hls e hrefused
    cases hlogger : (i.afterAll pre).logger with
    | none =>
      rw [Logger.install_of_none hlogger] at hrefused
      cases hrefused
    | some k =>
      have hlevel := maxLevel_afterAll hlevels hls hlogger
      rw [← hlevels l (by simp [hls])] at hlevel
      rw [afterAll_concat, Logger.install_of_some hlogger, ← hlevel, ← hlogger]

/-- A logger that writes nothing is refused, and from then on no record is made for the logger
    that is installed. -/
theorem not_keptByFailures_silent :
    ¬ KeptByFailures ⟨some .trace, some default⟩ [{ (default : Logger) with level := none }] := by
  intro hkept
  have hlevel := hkept.level_eq [] _ [] rfl
  cases hlevel

end Installation

end EvenChroma.Log
