import ModuleAudit.Graph
import ModuleAudit.Graph.Reach

/-! Circular dependencies. Two modules are entangled when each can be reached from the other by one or more
    dependencies. A component is a module with the modules entangled with it. Each component that holds a cycle is
    reported once, by a shortest cycle through its earliest module. -/

namespace ModuleAudit

/-- Modules of which each depends on the next and the last on the first. -/
abbrev Cycle := List String

namespace Graph

/-- The modules that each module depends on, directly or not. -/
def dependsOn (g : Graph) : ModuleMap (List String) :=
  g.nodes.mapValues fun m _ => Reach.after g.successors g.nodeCount m

/-- Whether two modules lie on a common closed walk. -/
def entangled (reach : ModuleMap (List String)) (a b : String) : Bool :=
  ((reach.get? a).getD []).contains b && ((reach.get? b).getD []).contains a

/-- A module and those entangled with it, first added first. -/
def component (g : Graph) (reach : ModuleMap (List String)) (m : String) : List String :=
  g.modules.filter fun a => a == m || entangled reach m a

/-- The components, each of them once. -/
def components (g : Graph) : List (List String) :=
  let reach := g.dependsOn
  (g.modules.map (g.component reach)).eraseDups

/-- Whether a component holds a cycle: it has several modules, or its only module depends on itself. -/
def circular (g : Graph) (component : List String) : Bool :=
  decide (1 < component.length) || component.head?.any fun m => g.hasEdge m m

/-- The components that hold a cycle, each with the slot of its earliest module, in the order of these slots. -/
def starts (g : Graph) (components : List (List String)) : List (Nat × List String) :=
  ((components.filter g.circular).filterMap fun c => (c.filterMap g.slot?).min?.map fun i => (i, c)).mergeSort
    fun s t => s.1 ≤ t.1

/-- One shortest cycle for each of the components that holds one, from the earliest module of the component on. -/
def cyclesAmong (g : Graph) (components : List (List String)) : List Cycle :=
  (g.starts components).filterMap fun s => do Reach.shortestCycle? g.successors (← g.modules[s.1]?) s.2

def cycles (g : Graph) : List Cycle := g.cyclesAmong g.components

end Graph
end ModuleAudit
