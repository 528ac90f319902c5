import ModuleAudit.ModuleMap

/-! Dependency trees: the modules of a project with the modules that each of them imports, in declaration order.
    A module may import itself, import another one twice, or import one that is not listed. -/

namespace ModuleAudit

/-- Each listed module with its dependencies. -/
abbrev Tree := ModuleMap (List String)

/-- A module and one that it depends on. -/
abbrev Dependency := String × String

/-- A tree taken apart: its modules, and one pair for each dependency of each module. -/
structure Listing where
  modules : List String
  dependencies : List Dependency
deriving DecidableEq, Repr

namespace Tree

/-- Every listed dependency, in declaration order and with repetitions. -/
def dependencies (t : Tree) : List Dependency := t.toList.flatMap fun e => e.2.map fun d => (e.1, d)

def listing (t : Tree) : Listing := ⟨t.keys, t.dependencies⟩

end Tree

namespace Listing

def isEmpty (l : Listing) : Bool := l.modules.isEmpty

end Listing
end ModuleAudit
