import ModuleAudit.Graph
import ModuleAudit.Weight

/-! Degree centrality: the number of edges at a module, as a share of the number of other modules. Loops and
    mutual dependencies can push the share above one, where it is capped. -/

namespace ModuleAudit

/-- Shares of every module, counted over the edges in both directions, leading in, and leading out. -/
structure Centrality (α : Type) where
  degree : ModuleMap α
  incoming : ModuleMap α
  outgoing : ModuleMap α

namespace Centrality

variable {α : Type}

def empty : Centrality α := ⟨∅, ∅, ∅⟩

/-- Inserts a module into each of the three maps. -/
def insert (c : Centrality α) (m : String) (degree incoming outgoing : α) : Centrality α where
  degree := c.degree.insert m degree
  incoming := c.incoming.insert m incoming
  outgoing := c.outgoing.insert m outgoing

end Centrality

namespace Graph

variable {α : Type} [Weight α]

/-- A count of edges as a share of the other modules, of which there is always taken to be one. -/
def share (g : Graph) (edges : Nat) : α :=
  Weight.capped (Weight.ofNat edges / Weight.ofNat (max 1 (g.nodeCount - 1)))

def insertShares (g : Graph) (c : Centrality α) (m : String) : Centrality α :=
  let incoming := g.inDegree m
  let outgoing := g.outDegree m
  c.insert m (g.share (incoming + outgoing)) (g.share incoming) (g.share outgoing)

def centrality (g : Graph) : Centrality α := g.modules.foldl g.insertShares .empty

end Graph
end ModuleAudit
