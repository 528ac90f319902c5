import ModuleAudit.Graph

/-! The layout of a diagram: where its nodes stand, by title. -/

namespace ModuleAudit

structure PlacedNode where
  title : String
  x : Float
  y : Float
deriving Repr

/-- The nodes of a diagram in the order in which it draws them. Titles may repeat. -/
abbrev Layout := List PlacedNode

namespace Layout

/-- The position of each title. Of several nodes with one title the first counts. -/
def positions (l : Layout) : ModuleMap Position :=
  l.foldl (fun t n => if t.contains n.title then t else t.insert n.title ⟨n.x, n.y⟩) ∅

end Layout
end ModuleAudit
