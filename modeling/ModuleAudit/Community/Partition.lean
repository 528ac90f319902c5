import ModuleAudit.Community.Moving

/-! Partitions of the modules into communities, found level by level: nodes are moved, and then the communities
    become the nodes of the next level, until no node moves. The modularity of a partition compares the weight
    inside the communities with the weight that chance would put there. -/

namespace ModuleAudit.Community

/-- Numbers labels by first appearance, and says how many different ones there are. -/
def renumber (labels : List Nat) : List Nat × Nat :=
  let firsts := labels.eraseDups
  (labels.map firsts.idxOf, firsts.length)

variable {α : Type} [Weight α]

/-- The communities of the first level after moving and contracting for at most `levels` levels. `membership`
    gives the node of `l` that each node of the first level has become part of. -/
def refine (t : Tuning α) : Nat → Level α → List Nat → List Nat
  | 0, _, membership => membership
  | levels + 1, l, membership =>
    let (s, moved) := Moving.run t l
    let (dense, count) := renumber s.labels.toList
    if !moved || count == l.size then membership
    else
      let labels := dense.toArray
      refine t levels (l.aggregate labels count) (membership.map (labels.getD · 0))

/-- The community of each node, numbered by first appearance. Each level that is contracted has fewer nodes
    than the one before, which bounds their number. Without any weight every node is alone. -/
def optimize (t : Tuning α) (l : Level α) : List Nat :=
  let alone := List.range l.size
  if Weight.less 0 l.total then (renumber (refine t (l.size + 1) l alone)).1 else alone

/-- What a community adds to the modularity: the weight inside it without what chance would give. -/
def contribution (t : Tuning α) (l : Level α) (labels : Array Nat) (c : Nat) : α :=
  let inside := l.links.filter fun k => labels.getD k.source 0 == c && labels.getD k.target 0 == c
  let members := (List.range l.size).filter fun i => labels.getD i 0 == c
  let outTotal := Weight.sum (members.map l.outWeight)
  let inTotal := Weight.sum (members.map l.inWeight)
  Weight.sum (inside.map (·.weight)) - t.penalty * outTotal * inTotal / l.total

/-- The modularity of a partition into the communities `0, …, count - 1`, as a share of the whole weight. -/
def modularity (t : Tuning α) (l : Level α) (labels : List Nat) : α :=
  if Weight.less 0 l.total then
    let count := (labels.max?.map (· + 1)).getD 0
    Weight.sum ((List.range count).map (contribution t l labels.toArray)) / l.total
  else 0

/-- The community of each module, and the modularity of the partition. -/
structure Partition (α : Type) where
  communities : ModuleMap Nat
  modularity : α

namespace Partition

/-- The number of communities, taken from the highest number in use. -/
def countOf (communities : ModuleMap Nat) : Nat := (communities.values.max?.map (· + 1)).getD 0

def count (p : Partition α) : Nat := countOf p.communities

end Partition

def detect (t : Tuning α) (g : Graph) : Partition α :=
  if g.isEmpty then ⟨∅, 0⟩
  else
    let l : Level α := .ofGraph g
    let labels := optimize t l
    ⟨.ofList (g.modules.zip labels), modularity t l labels⟩

end ModuleAudit.Community
