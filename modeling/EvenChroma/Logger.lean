/-
  EvenChroma/Logger.lean
  ======================
  **A plain-text logger**: one line for every record, with time, level and target if
  wanted, and the rule by which the logger of a process is installed.
-/
import EvenChroma.Log
import EvenChroma.Text.Basic

namespace EvenChroma.Log

/-- How the time is written. -/
inductive TimeFormat where
  /-- Hours, minutes and seconds. -/
  | clock
  /-- The same text always. -/
  | fixed (text : String)
deriving DecidableEq, Repr

/-- The text that a description without components stands for: itself, with brackets and
    backslashes written after a backslash. -/
def literal? : Text → Option Text
  | [] => some []
  | ['\\'] => none
  | '\\' :: c :: t =>
    if c = '\\' ∨ c = '[' ∨ c = ']' then (literal? t).map (c :: ·) else none
  | c :: t => if c = '[' then none else (literal? t).map (c :: ·)

/-- The format that a description stands for.  Components in square brackets are not
    understood, apart from those of the clock. -/
def TimeFormat.ofDescription? (description : String) : Option TimeFormat :=
  if description = "[hour]:[minute]:[second]" then some .clock
  else (literal? description.toList).map fun t => .fixed (String.ofList t)

/-- A logger.  Records up to its level are written; without a level none are. -/
structure Logger where
  level : Option Level
  showTime : Bool
  showLevel : Bool
  showTarget : Bool
  timeFormat : TimeFormat
deriving DecidableEq, Repr

namespace Logger

instance : Inhabited Logger := ⟨⟨some .warn, true, true, true, .clock⟩⟩

/-- The logger with another time format; an invalid description changes nothing. -/
def withTimeFormat (l : Logger) (description : String) : Logger :=
  { l with timeFormat := (TimeFormat.ofDescription? description).getD l.timeFormat }

/-- Whether records of a level are written. -/
def enabled (l : Logger) (level : Level) : Bool :=
  match l.level with
  | some most => level.rank ≤ most.rank
  | none => false

/-- The level in a column of six characters. -/
def column (level : Level) : String :=
  level.name ++ String.ofList (List.replicate (6 - level.name.length) ' ')

/-- The line of a record; `clock` is the time of day. -/
def line (l : Logger) (clock : String) (r : Record) : String :=
  let time := match l.timeFormat with
    | .clock => clock
    | .fixed text => text
  (if l.showTime then time ++ " " else "")
    ++ (if l.showLevel then column r.level else "")
    ++ (if l.showTarget then r.target ++ ": " else "")
    ++ r.message

/-- What a record adds to a sink, which may refuse everything. -/
def written (l : Logger) (clock : String) (accepts : Bool) (r : Record) : String :=
  if l.enabled r.level && accepts then l.line clock r ++ "\n" else ""

end Logger

/-! ### Installation -/

/-- What a process knows of logging: the level beyond which no record is made, and the
    logger that records go to. -/
structure Installation where
  maxLevel : Option Level
  logger : Option Logger
deriving DecidableEq, Repr

/-- Another logger was installed before. -/
structure AlreadyInstalled where
deriving DecidableEq, Repr

def AlreadyInstalled.message : AlreadyInstalled → String
  | _ => "attempted to set a logger after the logging system was already initialized"

/-- Install a logger.  Its level comes into force first; a second logger is refused. -/
def Logger.install (l : Logger) (i : Installation) :
    Except AlreadyInstalled Unit × Installation :=
  let i := { i with maxLevel := l.level }
  match i.logger with
  | some _ => (.error ⟨⟩, i)
  | none => (.ok ⟨⟩, { i with logger := some l })

end EvenChroma.Log
