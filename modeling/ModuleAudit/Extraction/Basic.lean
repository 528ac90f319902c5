import ModuleAudit.Graph.Cycles

/-! What an audit starts from: a dependency tree with what can be seen in it directly. -/

namespace ModuleAudit

/-- A dependency tree, the diagram drawn of it, if any, and remarks about it. -/
structure Extracted where
  tree : Tree
  diagram : Option (List UInt8) := none
  warnings : List String := []
  cycles : List Cycle := []
  orphans : List String := []
  leaves : List String := []

namespace Tree

/-- The graph of a tree, without positions. -/
def graph (t : Tree) : Graph := .ofListing t.listing fun _ => none

/-- The modules that no other module imports. -/
def orphans (t : Tree) : List String :=
  t.keys.filter fun m => !t.dependencies.any fun d => d.2 == m && d.1 != m

/-- The modules that import none. -/
def leaves (t : Tree) : List String := (t.toList.filter (·.2.isEmpty)).map Prod.fst

end Tree

/-- What is seen in a tree: its cycles, orphans and leaves. -/
def Extracted.ofTree (t : Tree) : Extracted where
  tree := t
  cycles := t.graph.cycles
  orphans := t.orphans
  leaves := t.leaves

end ModuleAudit
