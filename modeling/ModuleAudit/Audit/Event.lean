import ModuleAudit.Audit.Stage

/-! What an audit tells about its course. -/

namespace ModuleAudit

inductive Event where
  | stageEntered (stage : Stage)
  | stageFailed (stage : Stage) (error : String)
  /-- A dependency leads from or to a module that is not listed. -/
  | edgeDropped (source target : String)
  /-- There are no coordinates, and the graph is built without them. -/
  | layoutUnavailable (reason : String)
  /-- The run stopped at a stage and ends in `outcome`. -/
  | runEmpty (stage outcome : Stage) (reason : String)
  | runCompleted (modules edges communities : Nat)
deriving DecidableEq, Repr

end ModuleAudit
