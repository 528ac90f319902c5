import ModuleAudit.Weight

/-! Weights added up under numbers. A tally lists each number once, in ascending order. -/

namespace ModuleAudit.Community

/-- Numbers with the weight counted for each. -/
abbrev Tally (α : Type) := List (Nat × α)

namespace Tally

variable {α : Type} [Weight α]

/-- Adds `w` to the weight under `k`, which is zero at first. -/
def add (k : Nat) (w : α) : Tally α → Tally α
  | [] => [(k, 0 + w)]
  | (k', v) :: rest =>
    if k < k' then (k, 0 + w) :: (k', v) :: rest
    else if k = k' then (k', v + w) :: rest
    else (k', v) :: add k w rest

/-- Adds up the weights of the pairs, in the order of the list. -/
def ofList (pairs : List (Nat × α)) : Tally α := pairs.foldl (fun t p => t.add p.1 p.2) []

/-- The weight under `k`; zero when nothing was counted there. -/
def get (t : Tally α) (k : Nat) : α := (t.lookup k).getD 0

end Tally
end ModuleAudit.Community
