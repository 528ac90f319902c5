/-! What a command line may hold in place of a command: a question about the program, or something that is wrong. -/

namespace ModuleAudit.Command

inductive Fault where
  | helpAsked
  | versionAsked
  | nothingAsked
  | unknownCommand
  | unknownArgument
  /-- An argument that the command needs is not there. -/
  | missingArgument
  /-- There is no value where one is needed, or an empty one. -/
  | missingValue
  /-- The value is none of those to choose from. -/
  | unknownChoice
  | notNumber
  /-- An option that can be given once is given again. -/
  | repeated
  /-- An option that takes no value has one attached. -/
  | unneededValue
deriving DecidableEq, Repr

namespace Fault

/-- Questions are answered; all else is a failure. -/
def exitCode : Fault → Nat
  | .helpAsked | .versionAsked => 0
  | _ => 2

end Fault

def version : String := "modmap 0.3.0\n"

end ModuleAudit.Command
