import ModuleAudit.Community.Level
import ModuleAudit.Community.Tuning

/-! Local moving. At first every node is a community of its own. The nodes are gone through in order, and each
    moves to the neighbouring community where it gains most; passes follow until one moves no node. The totals
    of the communities are kept up to date with each move. -/

namespace ModuleAudit.Community

/-- The community of each node, and for each community the total out and in weight of its nodes. -/
structure Moving (α : Type) where
  labels : Array Nat
  outTotals : Array α
  inTotals : Array α
deriving Repr

namespace Moving

variable {α : Type} [Weight α]

/-- Every node by itself. -/
def start (l : Level α) : Moving α where
  labels := Array.range l.size
  outTotals := ((List.range l.size).map l.outWeight).toArray
  inTotals := ((List.range l.size).map l.inWeight).toArray

def label (s : Moving α) (i : Nat) : Nat := s.labels.getD i 0

/-- The weight of the links between a node and each community that its neighbours belong to. -/
def links (s : Moving α) (l : Level α) (i : Nat) : Tally α :=
  Tally.ofList ((l.neighbours i).map fun p => (s.label p.1, p.2))

/-- Takes the weights of a node out of the totals of community `c`. -/
def leave (s : Moving α) (l : Level α) (i c : Nat) : Moving α :=
  { s with
    outTotals := s.outTotals.modify c (· - l.outWeight i)
    inTotals := s.inTotals.modify c (· - l.inWeight i) }

/-- Adds the weights of a node to the totals of community `c`. -/
def join (s : Moving α) (l : Level α) (i c : Nat) : Moving α :=
  { s with
    outTotals := s.outTotals.modify c (· + l.outWeight i)
    inTotals := s.inTotals.modify c (· + l.inWeight i) }

/-- What a node that has left its community gains in community `c`, with which its links have weight `link`:
    that weight without what chance would give. -/
def gain (s : Moving α) (t : Tuning α) (l : Level α) (i c : Nat) (link : α) : α :=
  link - t.penalty * (l.outWeight i * s.inTotals.getD c 0 + l.inWeight i * s.outTotals.getD c 0) / l.total

/-- The best of the candidates. A later one has to gain more than the best so far by more than the tolerance. -/
def best (gain : Nat → α → α) (candidates : Tally α) (start : Nat × α) : Nat × α :=
  candidates.foldl (fun top p =>
    let g := gain p.1 p.2
    if Weight.less (top.2 + Weight.tolerance) g then (p.1, g) else top) start

/-- The community where a node gains most, once it has left its own, with the gain. Its own community comes first,
    then the others in ascending order. -/
def choose (s : Moving α) (t : Tuning α) (l : Level α) (i : Nat) : Nat × α :=
  let current := s.label i
  let links := s.links l i
  let gain := (s.leave l i current).gain t l i
  best gain (links.filter (·.1 != current)) (current, gain current (links.get current))

/-- Moves one node to the community where it gains most, and says whether it moved. -/
def visit (t : Tuning α) (l : Level α) (s : Moving α) (i : Nat) : Moving α × Bool :=
  let current := s.label i
  let target := (s.choose t l i).1
  let left := s.leave l i current
  ({ left.join l i target with labels := left.labels.setIfInBounds i target }, target != current)

/-- Visits every node once, and says whether one moved. -/
def pass (t : Tuning α) (l : Level α) (s : Moving α) : Moving α × Bool :=
  (List.range l.size).foldl (fun (s, moved) i =>
    let (s', m) := s.visit t l i
    (s', moved || m)) (s, false)

/-- Passes until one moves no node, at most `passes`; says whether a node moved. -/
def settle (t : Tuning α) (l : Level α) : Nat → Moving α → Moving α × Bool
  | 0, s => (s, false)
  | passes + 1, s =>
    let (s', moved) := s.pass t l
    if moved then ((settle t l passes s').1, true) else (s', false)

/-- The communities that local moving ends with, and whether a node moved. -/
def run (t : Tuning α) (l : Level α) : Moving α × Bool := settle t l (max 1 t.maxPasses) (start l)

end Moving
end ModuleAudit.Community
