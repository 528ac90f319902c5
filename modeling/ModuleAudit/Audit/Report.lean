import ModuleAudit.Community.Partition
import ModuleAudit.Graph.Cycles
import ModuleAudit.Metric.Centrality
import ModuleAudit.Metric.Coupling
import ModuleAudit.Metric.Rating

/-! The report of an audit. -/

namespace ModuleAudit

/-- Everything that an audit found out about a dependency tree. -/
structure Report where
  tree : Tree
  graph : Graph
  modularity : Float
  communities : ModuleMap Nat
  density : Float
  centrality : Centrality Float
  couplings : ModuleMap Coupling
  cycles : List Cycle
  warnings : List String
  orphans : List String
  leaves : List String

namespace Report

def moduleCount (r : Report) : Nat := r.tree.size

def communityCount (r : Report) : Nat := Community.Partition.countOf r.communities

def rating (r : Report) : Modularity := .ofScore r.modularity

def communityMembers (r : Report) : List (List String) :=
  (List.range r.communityCount).map fun c => (r.communities.toList.filter (·.2 == c)).map Prod.fst

/-- At most `limit` modules with the most coupling, in falling order; modules with equal coupling keep their
    order. -/
def mostCoupled (r : Report) (limit : Nat) : List (String × Coupling) :=
  (r.couplings.toList.mergeSort fun a b => b.2.total ≤ a.2.total).take limit

end Report
end ModuleAudit
