import ModuleAudit.Community.Partition
import ModuleAudit.Diagram.Layout
import ModuleAudit.Extraction.Basic
import ModuleAudit.Metric.Density
import ModuleAudit.Proofs.Graph.Listing
import ModuleAudit.Proofs.Metric.Centrality

/-! Graphs without their positions. The positions of a graph are those that its modules have in a layout, and nothing
    that is computed from the graph looks at them. -/

namespace ModuleAudit

namespace Graph

variable {g : Graph} {l : Listing} {m : String} {position : String → Option Position}

/-- The graph with every position taken away. -/
def unplaced (g : Graph) : Graph where
  nodes := g.nodes.mapValues fun _ _ => none
  edges := g.edges
  edges_nodup := g.edges_nodup
  mem_of_edge := g.mem_of_edge

theorem unplaced_unplaced (g : Graph) : g.unplaced.unplaced = g.unplaced :=
  eq_of_parts (ModuleMap.mapValues_mapValues (fun _ _ => none) (fun _ _ => none) g.nodes) rfl

@[simp]
theorem edges_unplaced (g : Graph) : g.unplaced.edges = g.edges := rfl

@[simp]
theorem modules_unplaced (g : Graph) : g.unplaced.modules = g.modules := ModuleMap.keys_mapValues _ _

@[simp]
theorem nodeCount_unplaced (g : Graph) : g.unplaced.nodeCount = g.nodeCount := by
  rw [nodeCount_eq, modules_unplaced, nodeCount_eq]

@[simp]
theorem isEmpty_unplaced (g : Graph) : g.unplaced.isEmpty = g.isEmpty := by
  rw [Bool.eq_iff_iff, isEmpty_iff, modules_unplaced, isEmpty_iff]

/-! ### Building a graph -/

theorem unplaced_addNode (g : Graph) (m : String) (p : Option Position) :
    (g.addNode m p).unplaced = g.unplaced.addNode m none := by
  have hcontains : g.unplaced.nodes.contains m = g.nodes.contains m := rfl
  rw [addNode, addNode, hcontains]
  split
  · rfl
  · exact eq_of_parts (ModuleMap.mapValues_insert (fun _ _ => none) g.nodes m p) rfl

theorem unplaced_addEdge (g : Graph) (a b : String) : (g.addEdge a b).unplaced = g.unplaced.addEdge a b := by
  refine eq_of_parts ?_ ?_
  · change (g.addEdge a b).nodes.mapValues (fun _ _ => none) = _
    rw [nodes_addEdge, nodes_addEdge]
    rfl
  · rw [edges_unplaced, edges_addEdge, edges_addEdge]
    rfl

theorem unplaced_ofListing (l : Listing) (position : String → Option Position) :
    (ofListing l position).unplaced = ofListing l fun _ => none := by
  have hempty : (∅ : Graph).unplaced = ∅ := eq_of_parts (ModuleMap.mapValues_empty fun _ _ => none) rfl
  have hnodes : (l.modules.foldl (fun (g : Graph) m => g.addNode m (position m)) ∅).unplaced =
      l.modules.foldl (fun (g : Graph) m => g.addNode m none) ∅ := by
    conv_rhs => rw [← hempty]
    exact (List.foldl_hom unplaced fun g m => (unplaced_addNode g m (position m)).symm).symm
  rw [ofListing, ofListing, ← hnodes]
  exact (List.foldl_hom unplaced fun g d => (unplaced_addEdge g d.1 d.2).symm).symm

/-! ### What is computed from a graph -/

section
variable {α : Type} [Weight α]

theorem density_unplaced (g : Graph) : (g.unplaced.density : α) = g.density := by
  rw [density, density, nodeCount_unplaced]
  rfl

theorem centrality_unplaced (g : Graph) : (g.unplaced.centrality : Centrality α) = g.centrality := by
  have hshare (n : Nat) : (g.unplaced.share n : α) = g.share n := by rw [share, share, nodeCount_unplaced]
  have hvalues (f : String → α) : g.unplaced.nodes.rebuild (fun m _ => f m) = g.nodes.rebuild fun m _ => f m :=
    ModuleMap.rebuild_mapValues (fun _ _ => none) (fun m _ => f m) g.nodes
  simp only [centrality_eq, hshare, hvalues]
  rfl

theorem ofGraph_unplaced (g : Graph) : (Community.Level.ofGraph g.unplaced : Community.Level α) = .ofGraph g := by
  rw [Community.Level.ofGraph, Community.Level.ofGraph, nodeCount_unplaced]
  rfl

theorem detect_unplaced (t : Community.Tuning α) (g : Graph) :
    Community.detect t g.unplaced = Community.detect t g := by
  rw [Community.detect, Community.detect, isEmpty_unplaced, modules_unplaced, ofGraph_unplaced]

/-- The communities of a tree are the same wherever its modules stand. -/
theorem detect_listing (t : Community.Tuning α) (tree : Tree) (position : String → Option Position) :
    Community.detect t (ofListing tree.listing position) = Community.detect t tree.graph := by
  rw [← detect_unplaced, unplaced_ofListing, Tree.graph]

end

theorem dependsOn_unplaced (g : Graph) : g.unplaced.dependsOn = g.dependsOn := by
  have hvalues := ModuleMap.mapValues_mapValues (fun _ _ => none)
    (fun m (_ : Option Position) => Reach.after g.successors g.nodeCount m) g.nodes
  rw [dependsOn, dependsOn, nodeCount_unplaced]
  exact hvalues

theorem components_unplaced (g : Graph) : g.unplaced.components = g.components := by
  have hcomponent (reach : ModuleMap (List String)) : g.unplaced.component reach = g.component reach := by
    funext m
    rw [component, component, modules_unplaced]
  rw [components, components, modules_unplaced, dependsOn_unplaced, hcomponent]

theorem cycles_unplaced (g : Graph) : g.unplaced.cycles = g.cycles := by
  have hstarts : g.unplaced.starts g.components = g.starts g.components := rfl
  rw [cycles, cycles, cyclesAmong, cyclesAmong, components_unplaced, modules_unplaced, hstarts]
  rfl

/-- The cycles of a tree are the same wherever its modules stand. -/
theorem cycles_listing (tree : Tree) (position : String → Option Position) :
    (ofListing tree.listing position).cycles = tree.graph.cycles := by
  rw [← cycles_unplaced, unplaced_ofListing, Tree.graph]

end Graph

namespace Layout

/-! ### Where modules stand -/

theorem get?_foldl_positions (l : Layout) (m : String) : ∀ t : ModuleMap Position,
    (l.foldl (fun t n => if t.contains n.title then t else t.insert n.title ⟨n.x, n.y⟩) t).get? m =
      (t.get? m).or ((l.find? (·.title == m)).map fun n => ⟨n.x, n.y⟩) := by
  induction l with
  | nil => simp
  | cons n l ih =>
    intro t
    rw [List.foldl_cons, ih, List.find?_cons]
    have hcontains := ModuleMap.isSome_get? t n.title
    cases hget : t.get? n.title with
    | some p =>
      rw [hget, Option.isSome_some] at hcontains
      rw [if_pos hcontains.symm]
      by_cases hm : n.title = m
      · rw [← hm, hget, Option.some_or, Option.some_or]
      · rw [beq_false_of_ne hm]
    | none =>
      rw [hget, Option.isSome_none] at hcontains
      rw [if_neg (by simp [← hcontains]), ModuleMap.get?_insert]
      by_cases hm : n.title = m
      · rw [if_pos hm.symm, ← hm, hget]
        simp
      · rw [if_neg (Ne.symm hm), beq_false_of_ne hm]

/-- A title stands where the first node with this title stands. -/
theorem get?_positions (l : Layout) (m : String) :
    l.positions.get? m = (l.find? (·.title == m)).map fun n => ⟨n.x, n.y⟩ :=
  get?_foldl_positions l m ∅

end Layout
end ModuleAudit
