import ModuleAudit.Metric.Centrality
import ModuleAudit.Proofs.ModuleMap

/-! Centrality, map by map. One pass over the modules fills the three maps together; each of them is the one that would
    come of the modules by itself. -/

namespace ModuleAudit.Graph

variable {α : Type} [Weight α]

/-- A map that gets one value for each module. -/
theorem centrality_map_eq (g : Graph) (map : Centrality α → ModuleMap α) {f : String → α} (hempty : map .empty = ∅)
    (hinsert : ∀ c m, map (g.insertShares c m) = (map c).insert m (f m)) :
    map g.centrality = g.nodes.rebuild fun m _ => f m := by
  have hpass : map g.centrality = g.modules.foldl (fun t m => t.insert m (f m)) (map .empty) :=
    (List.foldl_hom map fun c m => (hinsert c m).symm).symm
  rw [hpass, hempty, modules, ModuleMap.keys, List.foldl_map, ModuleMap.rebuild, ModuleMap.ofList, List.foldl_map]

theorem centrality_eq (g : Graph) : (g.centrality : Centrality α) =
    { degree := g.nodes.rebuild fun m _ => g.share (g.inDegree m + g.outDegree m)
      incoming := g.nodes.rebuild fun m _ => g.share (g.inDegree m)
      outgoing := g.nodes.rebuild fun m _ => g.share (g.outDegree m) } := by
  have hdegree := g.centrality_map_eq (α := α) Centrality.degree rfl fun _ _ => rfl
  have hincoming := g.centrality_map_eq (α := α) Centrality.incoming rfl fun _ _ => rfl
  have houtgoing := g.centrality_map_eq (α := α) Centrality.outgoing rfl fun _ _ => rfl
  calc (g.centrality : Centrality α)
      = ⟨g.centrality.degree, g.centrality.incoming, g.centrality.outgoing⟩ := rfl
    _ = _ := by rw [hdegree, hincoming, houtgoing]

theorem keys_centrality (g : Graph) :
    (g.centrality : Centrality α).degree.keys = g.modules ∧ (g.centrality : Centrality α).incoming.keys = g.modules ∧
      (g.centrality : Centrality α).outgoing.keys = g.modules := by
  rw [centrality_eq]
  exact ⟨ModuleMap.keys_rebuild _ _, ModuleMap.keys_rebuild _ _, ModuleMap.keys_rebuild _ _⟩

end ModuleAudit.Graph
