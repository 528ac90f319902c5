import ModuleAudit.Graph
import ModuleAudit.Community.Tally

/-! The weighted graphs on which communities are sought. The first level has the modules as nodes and each
    dependency as a link of weight one. Each further level has the communities of the level before as nodes;
    the links between two communities are merged into one, and those inside a community into a loop.

    A level is given by its links alone. What the moves ask of it node by node can be entered in tables in one pass over
    the links; `stored` are these tables. -/

namespace ModuleAudit.Community

/-- A link between two nodes, given by their numbers. -/
structure Link (α : Type) where
  source : Nat
  target : Nat
  weight : α
deriving Repr

/-- Nodes `0, …, size - 1` and the links between them. -/
structure Level (α : Type) where
  size : Nat
  links : List (Link α)
deriving Repr

namespace Level

variable {α : Type} [Weight α]

def outgoing (l : Level α) (i : Nat) : List (Link α) := l.links.filter (·.source == i)

def incoming (l : Level α) (i : Nat) : List (Link α) := l.links.filter (·.target == i)

/-- The weight of the links that leave a node, its loop included. -/
def outWeight (l : Level α) (i : Nat) : α := Weight.sum ((l.outgoing i).map (·.weight))

/-- The weight of the links that enter a node, its loop included. -/
def inWeight (l : Level α) (i : Nat) : α := Weight.sum ((l.incoming i).map (·.weight))

def total (l : Level α) : α := Weight.sum (l.links.map (·.weight))

def ofGraph (g : Graph) : Level α where
  size := g.nodeCount
  links := g.edges.filterMap fun e => do return ⟨← g.slot? e.1, ← g.slot? e.2, 1⟩

/-- The other nodes that a node is linked with, in either direction, with the weights of the links. -/
def neighbours (l : Level α) (i : Nat) : List (Nat × α) :=
  let both := (l.outgoing i).map (fun k => (k.target, k.weight)) ++ (l.incoming i).map fun k => (k.source, k.weight)
  both.filter (·.1 != i)

/-- The level whose nodes are the communities `0, …, count - 1` of this one. -/
def aggregate (l : Level α) (labels : Array Nat) (count : Nat) : Level α where
  size := count
  links := (List.range count).flatMap fun c =>
    let leaving := l.links.filter fun k => labels.getD k.source 0 == c
    (Tally.ofList (leaving.map fun k => (labels.getD k.target 0, k.weight))).map fun p => ⟨c, p.1, p.2⟩

/-- The tables of a level: for each node its links and the sum of their weights, in either direction, and the sum of all
    weights. A link is entered at one node with the other node and its weight. -/
structure Stored (α : Type) where
  outEdges : Array (List (Nat × α))
  inEdges : Array (List (Nat × α))
  outWeight : Array α
  inWeight : Array α
  total : α

def Stored.empty (size : Nat) : Stored α where
  outEdges := .replicate size []
  inEdges := .replicate size []
  outWeight := .replicate size 0
  inWeight := .replicate size 0
  total := 0

/-- Enters a link behind those that are there, at its source and at its target; a loop is entered at both. -/
def Stored.add (s : Stored α) (k : Link α) : Stored α where
  outEdges := s.outEdges.modify k.source (· ++ [(k.target, k.weight)])
  inEdges := s.inEdges.modify k.target (· ++ [(k.source, k.weight)])
  outWeight := s.outWeight.modify k.source (· + k.weight)
  inWeight := s.inWeight.modify k.target (· + k.weight)
  total := s.total + k.weight

def stored (l : Level α) : Stored α := l.links.foldl .add (.empty l.size)

end Level
end ModuleAudit.Community
