import ModuleAudit.Glob
import ModuleAudit.Json.Fault

/-! What can go wrong in an audit and around it. -/

namespace ModuleAudit

inductive Error where
  | fileSystem (path reason : String)
  | extraction (reason : String)
  | layout (reason : String)
  | graph (reason : String)
  | metric (name reason : String)
  | stagePanicked (stage reason : String)
  | configuration (reason : String)
  | io (reason : String)
  | json (fault : Json.Fault)
  | toml
  | pattern (fault : Glob.Fault)

namespace Error

def message : Error → String
  | .fileSystem path reason => "File system error: " ++ path ++ ": " ++ reason
  | .extraction reason => "Extraction error: " ++ reason
  | .layout reason => "Layout error: " ++ reason
  | .graph reason => "Graph error: " ++ reason
  | .metric name reason => "Metric '" ++ name ++ "' failed: " ++ reason
  | .stagePanicked stage reason => "Stage '" ++ stage ++ "' panicked: " ++ reason
  | .configuration reason => "Configuration error: " ++ reason
  | .io reason => reason
  | .json fault => fault.message
  | .toml => "TOML error"
  | .pattern fault => fault.message

/-- The part of the program that a failure belongs to, as diagnostics name it. -/
def category : Error → String
  | .fileSystem .. | .io _ => "io"
  | .extraction _ | .json _ => "extraction"
  | .layout _ => "layout"
  | .graph _ => "graph"
  | .metric .. => "metric"
  | .stagePanicked .. => "panic"
  | .configuration _ | .toml | .pattern _ => "config"

/-- The error and what lies behind it, if that is told apart. -/
def chain : Error → List String
  | .fileSystem path reason => [message (.fileSystem path reason), reason]
  | e => [e.message]

end Error
end ModuleAudit
