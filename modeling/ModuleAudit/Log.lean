import ModuleAudit.Audit.Event

/-! How much a run logs, and what it logs of its events. -/

namespace ModuleAudit

/-- How much a log line matters, and from where on lines are logged. -/
inductive LogLevel where
  | error
  | warn
  | info
  | debug
  | trace
deriving DecidableEq, Repr

namespace LogLevel

/-- The level for a number of requests to say more. -/
def ofVerbosity : Nat → LogLevel
  | 0 => .warn
  | 1 => .info
  | 2 => .debug
  | _ => .trace

def text : LogLevel → String
  | .error => "error"
  | .warn => "warn"
  | .info => "info"
  | .debug => "debug"
  | .trace => "trace"

def rank : LogLevel → Nat
  | .error => 0
  | .warn => 1
  | .info => 2
  | .debug => 3
  | .trace => 4

/-- Whether lines of a level are logged. -/
def admits (threshold level : LogLevel) : Bool := level.rank ≤ threshold.rank

end LogLevel

structure LogLine where
  level : LogLevel
  text : String
deriving DecidableEq, Repr

def Event.logLine : Event → LogLine
  | .stageEntered stage => ⟨.debug, "entering audit stage stage=" ++ stage.text⟩
  | .stageFailed stage error => ⟨.error, "audit stage failed stage=" ++ stage.text ++ " error=" ++ error⟩
  | .edgeDropped source target =>
    ⟨.debug, "dropping edge to unknown module source=" ++ source ++ " target=" ++ target⟩
  | .layoutUnavailable reason => ⟨.debug, "layout coordinates unavailable reason=" ++ reason⟩
  | .runEmpty stage outcome reason =>
    ⟨.warn, "modularity audit produced no result stage=" ++ stage.text ++ " outcome=" ++ outcome.text ++
      " reason=" ++ reason⟩
  | .runCompleted modules edges communities =>
    ⟨.info, "modularity audit complete modules=" ++ toString modules ++ " edges=" ++ toString edges ++
      " communities=" ++ toString communities⟩

end ModuleAudit
