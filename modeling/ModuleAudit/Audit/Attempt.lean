import ModuleAudit.Audit.Stage
import ModuleAudit.Error

/-! Work that may go wrong. Dependency data and layouts come from outside, and what provides them may not only fail
    but break off. -/

namespace ModuleAudit

/-- What a broken-off computation leaves behind. -/
inductive Panic where
  | text (message : String)
  | other
deriving DecidableEq, Repr

def Panic.message : Panic → String
  | .text message => message
  | .other => "unknown panic"

/-- The outcome of work that may go wrong. -/
inductive Attempt (α : Type) where
  | ok (a : α)
  | error (e : Error)
  | panic (p : Panic)

namespace Attempt

variable {α β : Type}

def ofExcept : Except Error α → Attempt α
  | .ok a => .ok a
  | .error e => .error e

def map (f : α → β) : Attempt α → Attempt β
  | .ok a => .ok (f a)
  | .error e => .error e
  | .panic p => .panic p

/-- Turns a break-off during a stage into an error. -/
def settle (stage : Stage) : Attempt α → Except Error α
  | .ok a => .ok a
  | .error e => .error e
  | .panic p => .error (.stagePanicked stage.text p.message)

end Attempt
end ModuleAudit
