import Std.Data.TreeMap
import ModuleAudit.Graph

/-! Graphs of modules kept in an arena. An arena numbers its nodes and knows nothing of names, so an index by name
    stands beside it. It has the edges of each node at hand, but the latest first; where edges are asked for in the order
    in which they were added, they are turned around. -/

namespace ModuleAudit

/-- Graphs with numbered nodes. A number that no node has is not asked for. -/
class Arena (ν : outParam Type) (G : Type) where
  empty : G
  /-- Adds a node and says which number it has. -/
  addNode : G → ν → G × Nat
  addEdge : G → Nat → Nat → G
  nodeCount : G → Nat
  edgeCount : G → Nat
  node : G → Nat → ν
  hasEdge : G → Nat → Nat → Bool
  /-- The numbers at the ends of the edges. -/
  ends : G → List (Nat × Nat)
  /-- The nodes that the edges of a node lead to. -/
  outgoing : G → Nat → List Nat
  /-- The nodes that the edges of a node come from. -/
  incoming : G → Nat → List Nat

/-- A module with its position. -/
abbrev Node := String × Option Position

/-- An arena of modules, and the number of each of them. -/
structure Indexed (G : Type) where
  arena : G
  index : Std.TreeMap String Nat

namespace Indexed

variable {G : Type} [Arena Node G]

def empty : Indexed G := ⟨Arena.empty, ∅⟩

/-- Adds a module, and says whether it is new. A module that is there keeps its position. -/
def addNode (g : Indexed G) (m : String) (p : Option Position) : Indexed G × Bool :=
  if g.index.contains m then (g, false)
  else
    let (arena, i) := Arena.addNode g.arena (m, p)
    (⟨arena, g.index.insert m i⟩, true)

/-- Adds an edge, and says whether it is new and joins two modules of the graph. -/
def addEdge (g : Indexed G) (a b : String) : Indexed G × Bool :=
  match g.index[a]?, g.index[b]? with
  | some i, some j =>
    if Arena.hasEdge g.arena i j then (g, false) else ({ g with arena := Arena.addEdge g.arena i j }, true)
  | _, _ => (g, false)

def name (g : Indexed G) (i : Nat) : String := (Arena.node g.arena i).1

def nodes (g : Indexed G) : List Node := (List.range (Arena.nodeCount g.arena)).map (Arena.node g.arena)

def edges (g : Indexed G) : List Dependency := (Arena.ends g.arena).map fun e => (g.name e.1, g.name e.2)

def nodeCount (g : Indexed G) : Nat := Arena.nodeCount g.arena

def edgeCount (g : Indexed G) : Nat := Arena.edgeCount g.arena

def hasNode (g : Indexed G) (m : String) : Bool := g.index.contains m

def hasEdge (g : Indexed G) (a b : String) : Bool :=
  match g.index[a]?, g.index[b]? with
  | some i, some j => Arena.hasEdge g.arena i j
  | _, _ => false

def node? (g : Indexed G) (m : String) : Option Node := g.index[m]?.map (Arena.node g.arena)

def slot? (g : Indexed G) (m : String) : Option Nat := g.index[m]?

/-- The modules at the other ends of the edges of a module, the first edge first. -/
def adjacent (g : Indexed G) (edgesOf : G → Nat → List Nat) (m : String) : List String :=
  match g.index[m]? with
  | some i => ((edgesOf g.arena i).map g.name).reverse
  | none => []

def degree (g : Indexed G) (edgesOf : G → Nat → List Nat) (m : String) : Nat :=
  (g.index[m]?.map fun i => (edgesOf g.arena i).length).getD 0

def successors (g : Indexed G) : String → List String := g.adjacent Arena.outgoing

def predecessors (g : Indexed G) : String → List String := g.adjacent Arena.incoming

def outDegree (g : Indexed G) : String → Nat := g.degree Arena.outgoing

def inDegree (g : Indexed G) : String → Nat := g.degree Arena.incoming

end Indexed
end ModuleAudit
