/-! Breadth-first search along a successor function. `reachable` finds what can be reached from given nodes;
    `shortestCycle?` finds a shortest way from a node back to itself. Both take the successors of a node in
    order, so among ways of one length the first in that order is found. -/

namespace ModuleAudit.Reach

variable {α : Type} [DecidableEq α]

/-- The nodes in `seen` and those that can be reached from `todo`, where `todo` holds the seen nodes whose
    successors are still to be looked at. Each step looks at one node, so as many steps suffice as there are
    nodes. -/
def reachable (next : α → List α) : Nat → List α → List α → List α
  | 0, _, seen => seen
  | _ + 1, [], seen => seen
  | steps + 1, a :: todo, seen =>
    let fresh := (next a).eraseDups.filter (!seen.contains ·)
    reachable next steps (todo ++ fresh) (seen ++ fresh)

/-- What can be reached from `a` in one or more steps. -/
def after (next : α → List α) (steps : Nat) (a : α) : List α :=
  let first := (next a).eraseDups
  reachable next steps first first

/-- What a search has come to: the nodes that are still to be looked at, those that were seen, and for each found node
    the one from which it was found, latest first. -/
structure Trail (α : Type) where
  queue : List α
  seen : List α
  parents : List (α × α)

namespace Trail

def start (a : α) : Trail α := ⟨[a], [a], []⟩

/-- A new node, found from `a`. -/
def find (s : Trail α) (a b : α) : Trail α := ⟨s.queue ++ [b], s.seen ++ [b], (b, a) :: s.parents⟩

/-- Finds the new members among the successors of `a`, up to one that is `start`; says whether there is one. -/
def scan (start : α) (members : List α) (a : α) : List α → Trail α → Trail α × Bool
  | [], s => (s, false)
  | b :: bs, s =>
    if b = start then (s, true)
    else if members.contains b && !s.seen.contains b then scan start members a bs (s.find a b)
    else scan start members a bs s

end Trail

/-- The nodes from `start` to `a`, followed back along the parents, and then `path`. No more steps are needed than there
    are parents. -/
def unwind (parents : List (α × α)) (start : α) : Nat → α → List α → List α
  | 0, a, path => a :: path
  | steps + 1, a, path =>
    if a = start then a :: path
    else
      match parents.lookup a with
      | some b => unwind parents start steps b (a :: path)
      | none => a :: path

/-- Looks for a way back to `start` that stays among `members`. Each step looks at one node. -/
def search? (next : α → List α) (start : α) (members : List α) : Nat → Trail α → Option (List α)
  | 0, _ => none
  | steps + 1, s =>
    match s.queue with
    | [] => none
    | a :: queue =>
      let (s', back) := Trail.scan start members a (next a) { s with queue }
      if back then some (unwind s'.parents start s'.parents.length a [])
      else search? next start members steps s'

/-- A shortest cycle through `start` that stays among `members`, from `start` on. -/
def shortestCycle? (next : α → List α) (start : α) (members : List α) : Option (List α) :=
  search? next start members members.length (.start start)

end ModuleAudit.Reach
