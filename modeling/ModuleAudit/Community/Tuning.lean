import ModuleAudit.Weight
import ModuleAudit.Decimal.Text

/-! The settings of community detection. The number of edges that chance would put into a community is divided
    by the resolution, so a higher resolution gives fewer and larger communities. -/

namespace ModuleAudit.Community

/-- The resolution, and how often the nodes of one level are gone through at most. -/
structure Tuning (α : Type) where
  resolution : α
  maxPasses : Nat
deriving Repr

namespace Tuning

/-- By default the resolution is a little below one, for smaller communities. -/
def standard : Tuning Float := ⟨0.8, 100⟩

instance : Inhabited (Tuning Float) := ⟨standard⟩

inductive Fault (α : Type) where
  | resolution (value : α)
  | noPasses
deriving Repr

def Fault.message : Fault Float → String
  | .resolution value => "community.resolution must be a positive number, got " ++ Decimal.plain value
  | .noPasses => "community.max_passes must be at least 1"

variable {α : Type} [Weight α]

/-- The first fault of the settings: the resolution has to be finite and positive, and there has to be at least
    one pass. -/
def fault? (t : Tuning α) : Option (Fault α) :=
  if !(Weight.isFinite t.resolution && Weight.less 0 t.resolution) then some (.resolution t.resolution)
  else if t.maxPasses == 0 then some .noPasses
  else none

def penalty (t : Tuning α) : α := 1 / t.resolution

end Tuning
end ModuleAudit.Community
