import ModuleAudit.Graph
import ModuleAudit.Weight

/-! Density: the number of edges as a share of the ordered pairs of distinct modules. -/

namespace ModuleAudit.Graph

variable {α : Type} [Weight α]

/-- The share of possible edges that are there. Loops can push it above one, where it is capped; fewer than two
    modules have no possible edge and density zero. -/
def density (g : Graph) : α :=
  let n := g.nodeCount
  if n ≤ 1 then 0
  else Weight.capped (Weight.ofNat g.edgeCount / (Weight.ofNat n * Weight.ofNat (n - 1)))

end ModuleAudit.Graph
