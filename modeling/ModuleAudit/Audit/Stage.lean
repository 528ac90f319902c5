/-! The stages of an audit. Each success leads to the next stage and each failure to the empty end; both ends are
    final. -/

namespace ModuleAudit

inductive Stage where
  | start
  | treeBuilt
  | graphBuilt
  | metricsComputed
  | done
  | empty
deriving DecidableEq, Repr

namespace Stage

def next : Stage → Stage
  | .start => .treeBuilt
  | .treeBuilt => .graphBuilt
  | .graphBuilt => .metricsComputed
  | .metricsComputed => .done
  | .done => .done
  | .empty => .empty

def fail : Stage → Stage
  | .done => .done
  | _ => .empty

def isTerminal : Stage → Bool
  | .done | .empty => true
  | _ => false

def text : Stage → String
  | .start => "start"
  | .treeBuilt => "tree_built"
  | .graphBuilt => "graph_built"
  | .metricsComputed => "metrics_computed"
  | .done => "done"
  | .empty => "empty"

end Stage
end ModuleAudit
