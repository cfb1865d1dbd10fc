/-
  EvenChroma/Log.lean
  ===================
  **Log records**: a level, the part of the program that speaks, a message.
-/
namespace EvenChroma.Log

/-- How serious a record is. -/
inductive Level where
  | error
  | warn
  | info
  | debug
  | trace
deriving DecidableEq, Repr

namespace Level

def name : Level → String
  | error => "ERROR"
  | warn => "WARN"
  | info => "INFO"
  | debug => "DEBUG"
  | trace => "TRACE"

def all : List Level := [error, warn, info, debug, trace]

/-- Number of levels that are at least as serious. -/
def rank : Level → Nat
  | error => 1
  | warn => 2
  | info => 3
  | debug => 4
  | trace => 5

end Level

/-- One log record. -/
structure Record where
  level : Level
  target : String
  message : String
deriving DecidableEq, Repr

end EvenChroma.Log
