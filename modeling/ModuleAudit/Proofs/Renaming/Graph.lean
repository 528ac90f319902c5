import Mathlib.Data.List.Basic
import ModuleAudit.Metric.Density
import ModuleAudit.Proofs.Community.Assigned
import ModuleAudit.Proofs.Graph.Listing
import ModuleAudit.Proofs.Metric.Centrality

/-! Graphs with other names for their modules. Names are compared and looked up, and nothing else is done with them; as
    long as different names stay different, a lookup under the new name finds what was found under the old one, in the
    same place. So whatever is counted, weighed or found in a graph comes out the same, at modules with new names. -/

namespace ModuleAudit

variable {α β γ δ : Type} {r : String → String}

namespace ModuleMap

variable {t : ModuleMap α} {t' : ModuleMap β} {φ : α → β} {m : String}

/-- The second map has the entries of the first one, with new names and new values. -/
def Renamed (r : String → String) (φ : α → β) (t : ModuleMap α) (t' : ModuleMap β) : Prop :=
  t'.toList = t.toList.map (Prod.map r φ)

namespace Renamed

theorem empty : Renamed r φ ∅ ∅ := rfl

theorem congr {r' : String → String} (h : Renamed r φ t t') (hr : ∀ m ∈ t.keys, r m = r' m) : Renamed r' φ t t' :=
  Eq.trans h (List.map_congr_left fun _ he => Prod.ext (hr _ (List.mem_map_of_mem he)) rfl)

theorem keys (h : Renamed r φ t t') : t'.keys = t.keys.map r := by
  rw [ModuleMap.keys, h, ModuleMap.keys, List.map_map, List.map_map]
  rfl

theorem values (h : Renamed r φ t t') : t'.values = t.values.map φ := by
  rw [ModuleMap.values, h, ModuleMap.values, List.map_map, List.map_map]
  rfl

theorem isEmpty (h : Renamed r φ t t') : t'.isEmpty = t.isEmpty := by
  rw [Bool.eq_iff_iff, isEmpty_iff, isEmpty_iff, h.keys, List.map_eq_nil_iff]

theorem slot? (hr : r.Injective) (h : Renamed r φ t t') (m : String) : t'.slot? (r m) = t.slot? m := by
  ext i
  rw [slot?_eq_some_iff, slot?_eq_some_iff, h.keys, List.getElem?_map, Option.map_eq_some_iff]
  constructor
  · rintro ⟨n, hn, hnm⟩
    rwa [← hr hnm]
  · exact fun hm => ⟨m, hm, rfl⟩

theorem get? (hr : r.Injective) (h : Renamed r φ t t') (m : String) : t'.get? (r m) = (t.get? m).map φ := by
  ext v
  rw [get?_eq_some_iff, h, Option.map_eq_some_iff, List.mem_map]
  constructor
  · rintro ⟨⟨n, w⟩, hn, heq⟩
    obtain ⟨hnm, rfl⟩ := Prod.mk.inj heq
    exact ⟨w, get?_eq_some_iff.mpr (hr hnm ▸ hn), rfl⟩
  · rintro ⟨w, hw, rfl⟩
    exact ⟨(m, w), get?_eq_some_iff.mp hw, rfl⟩

theorem contains (hr : r.Injective) (h : Renamed r φ t t') (m : String) : t'.contains (r m) = t.contains m := by
  rw [ModuleMap.contains, h.slot? hr, ModuleMap.contains]

/-- What is made of the entries is made of the renamed entries. -/
theorem mapValues (h : Renamed r φ t t') {f : String → α → γ} {f' : String → β → δ} {ψ : γ → δ}
    (hf : ∀ e ∈ t.toList, f' (r e.1) (φ e.2) = ψ (f e.1 e.2)) : Renamed r ψ (t.mapValues f) (t'.mapValues f') := by
  rw [Renamed, toList_mapValues, toList_mapValues, h, List.map_map, List.map_map]
  exact List.map_congr_left fun e he => Prod.ext rfl (hf e he)

theorem rebuild (h : Renamed r φ t t') {f : String → α → γ} {f' : String → β → δ} {ψ : γ → δ}
    (hf : ∀ e ∈ t.toList, f' (r e.1) (φ e.2) = ψ (f e.1 e.2)) : Renamed r ψ (t.rebuild f) (t'.rebuild f') := by
  rw [Renamed, toList_rebuild, toList_rebuild, ← toList_mapValues, ← toList_mapValues]
  exact h.mapValues hf

theorem insert (hr : r.Injective) (h : Renamed r φ t t') (hm : m ∉ t.keys) (v : α) :
    Renamed r φ (t.insert m v) (t'.insert (r m) (φ v)) := by
  have hm' : r m ∉ t'.keys := by
    rw [h.keys, List.mem_map_of_injective hr]
    exact hm
  rw [Renamed, toList_insert_of_notMem hm, toList_insert_of_notMem hm', h, List.map_append]
  rfl

end Renamed

/-- New names can be given to all entries at once. -/
theorem renamed_ofList (hr : r.Injective) (φ : α → β) (t : ModuleMap α) :
    Renamed r φ t (ofList (t.toList.map (Prod.map r φ))) := by
  have hkeys : (t.toList.map (Prod.map r φ)).map Prod.fst = t.keys.map r := by
    rw [keys, List.map_map, List.map_map]
    rfl
  refine toList_ofList ?_
  rw [hkeys]
  exact t.keys_nodup.map hr

end ModuleMap

namespace Graph

variable {g g' : Graph} {l : Listing} {a b m : String}

/-- The second graph has the modules and edges of the first one, with new names. -/
structure Renamed (r : String → String) (g g' : Graph) : Prop where
  nodes : g.nodes.Renamed r id g'.nodes
  edges : g'.edges = g.edges.map (Prod.map r r)

namespace Renamed

theorem modules (h : Renamed r g g') : g'.modules = g.modules.map r := h.nodes.keys

theorem congr {r' : String → String} (h : Renamed r g g') (hr : ∀ m ∈ g.modules, r m = r' m) : Renamed r' g g' where
  nodes := h.nodes.congr hr
  edges := by
    rw [h.edges]
    refine List.map_congr_left fun e he => ?_
    exact Prod.ext (hr _ (Edge.mem_modules he).1) (hr _ (Edge.mem_modules he).2)

theorem nodeCount (h : Renamed r g g') : g'.nodeCount = g.nodeCount := by
  rw [nodeCount_eq, nodeCount_eq, h.modules, List.length_map]

theorem edgeCount (h : Renamed r g g') : g'.edgeCount = g.edgeCount := by
  rw [Graph.edgeCount, h.edges, List.length_map, Graph.edgeCount]

theorem isEmpty (h : Renamed r g g') : g'.isEmpty = g.isEmpty := h.nodes.isEmpty

section
variable (hr : r.Injective) (h : Renamed r g g')
include hr h

theorem slot? (m : String) : g'.slot? (r m) = g.slot? m := h.nodes.slot? hr m

theorem hasNode (m : String) : g'.hasNode (r m) = g.hasNode m := h.nodes.contains hr m

theorem hasEdge (a b : String) : g'.hasEdge (r a) (r b) = g.hasEdge a b := by
  have hmem : (r a, r b) ∈ g.edges.map (Prod.map r r) ↔ (a, b) ∈ g.edges :=
    List.mem_map_of_injective (hr.prodMap hr) (a := (a, b))
  rw [Bool.eq_iff_iff, hasEdge_iff, hasEdge_iff, Edge, h.edges, hmem, Edge]

theorem successors (m : String) : g'.successors (r m) = (g.successors m).map r := by
  have hends : g.edges.filter ((·.1 == r m) ∘ Prod.map r r) = g.edges.filter (·.1 == m) :=
    List.filter_congr fun e _ => by simp [hr.eq_iff]
  rw [Graph.successors, h.edges, List.filter_map, hends, Graph.successors, List.map_map, List.map_map]
  rfl

theorem predecessors (m : String) : g'.predecessors (r m) = (g.predecessors m).map r := by
  have hends : g.edges.filter ((·.2 == r m) ∘ Prod.map r r) = g.edges.filter (·.2 == m) :=
    List.filter_congr fun e _ => by simp [hr.eq_iff]
  rw [Graph.predecessors, h.edges, List.filter_map, hends, Graph.predecessors, List.map_map, List.map_map]
  rfl

theorem outDegree (m : String) : g'.outDegree (r m) = g.outDegree m := by
  rw [Graph.outDegree, h.successors hr, List.length_map, Graph.outDegree]

theorem inDegree (m : String) : g'.inDegree (r m) = g.inDegree m := by
  rw [Graph.inDegree, h.predecessors hr, List.length_map, Graph.inDegree]

end

/-! ### What is computed from a graph -/

section
variable [Weight α]

theorem density (h : Renamed r g g') : (g'.density : α) = g.density := by
  rw [Graph.density, Graph.density, h.nodeCount, h.edgeCount]

theorem share (h : Renamed r g g') (n : Nat) : (g'.share n : α) = g.share n := by
  rw [Graph.share, Graph.share, h.nodeCount]

/-- The levels speak of numbers only. -/
theorem ofGraph (hr : r.Injective) (h : Renamed r g g') :
    (Community.Level.ofGraph g' : Community.Level α) = .ofGraph g := by
  rw [Community.Level.ofGraph, Community.Level.ofGraph, h.nodeCount, h.edges, List.filterMap_map]
  refine congrArg _ (List.filterMap_congr fun e _ => ?_)
  simp only [Function.comp_apply, Prod.map_fst, Prod.map_snd, h.slot? hr]

theorem modularity_detect (hr : r.Injective) (h : Renamed r g g') (t : Community.Tuning α) :
    (Community.detect t g').modularity = (Community.detect t g).modularity := by
  rw [Community.detect, Community.detect, h.isEmpty, h.ofGraph hr]
  split <;> rfl

theorem communities_detect (hr : r.Injective) (h : Renamed r g g') (t : Community.Tuning α) :
    (Community.detect t g).communities.Renamed r id (Community.detect t g').communities := by
  by_cases hg : g.modules = []
  · rw [Community.detect, Community.detect, h.isEmpty, if_pos (isEmpty_iff.mpr hg), if_pos (isEmpty_iff.mpr hg)]
    exact .empty
  · have hg' : g'.modules ≠ [] := by rwa [h.modules, ne_eq, List.map_eq_nil_iff]
    rw [ModuleMap.Renamed, Community.toList_detect hg, Community.toList_detect hg', h.ofGraph hr, h.modules,
      List.zip_map_left]

theorem centrality (hr : r.Injective) (h : Renamed r g g') :
    (g.centrality : Centrality α).degree.Renamed r id g'.centrality.degree ∧
      (g.centrality : Centrality α).incoming.Renamed r id g'.centrality.incoming ∧
      (g.centrality : Centrality α).outgoing.Renamed r id g'.centrality.outgoing := by
  rw [centrality_eq, centrality_eq]
  refine ⟨h.nodes.rebuild fun e _ => ?_, h.nodes.rebuild fun e _ => ?_, h.nodes.rebuild fun e _ => ?_⟩
  · rw [h.share, h.inDegree hr, h.outDegree hr, id_eq]
  · rw [h.share, h.inDegree hr, id_eq]
  · rw [h.share, h.outDegree hr, id_eq]

end
end Renamed

/-! ### Building a graph -/

section
variable (hr : r.Injective)
include hr

theorem Renamed.addNode (h : Renamed r g g') (m : String) (p : Option Position) :
    Renamed r (g.addNode m p) (g'.addNode (r m) p) := by
  rw [Graph.addNode, Graph.addNode, h.nodes.contains hr]
  split
  · exact h
  next hm => exact ⟨h.nodes.insert hr (fun hmem => hm (ModuleMap.contains_iff.mpr hmem)) p, h.edges⟩

theorem Renamed.admits (h : Renamed r g g') (a b : String) : g'.admits (r a) (r b) = g.admits a b := by
  rw [Graph.admits, h.hasNode hr, h.hasNode hr, h.hasEdge hr, Graph.admits]

theorem Renamed.addEdge (h : Renamed r g g') (a b : String) : Renamed r (g.addEdge a b) (g'.addEdge (r a) (r b)) := by
  constructor
  · rw [nodes_addEdge, nodes_addEdge]
    exact h.nodes
  · rw [edges_addEdge, edges_addEdge, h.admits hr, h.edges]
    split
    · rw [List.map_append]
      rfl
    · rfl

theorem Renamed.foldl_addNode (ms : List String) : ∀ {g g'}, Renamed r g g' →
    Renamed r (ms.foldl (fun g m => g.addNode m none) g) ((ms.map r).foldl (fun g m => g.addNode m none) g') := by
  induction ms with
  | nil => exact id
  | cons m ms ih => exact fun h => ih (h.addNode hr m none)

theorem Renamed.foldl_addEdge (ds : List Dependency) : ∀ {g g'}, Renamed r g g' →
    Renamed r (ds.foldl (fun g d => g.addEdge d.1 d.2) g)
      ((ds.map (Prod.map r r)).foldl (fun g d => g.addEdge d.1 d.2) g') := by
  induction ds with
  | nil => exact id
  | cons d ds ih => exact fun h => ih (h.addEdge hr d.1 d.2)

end

end Graph

/-- The listing with new names. -/
def Listing.rename (r : String → String) (l : Listing) : Listing := ⟨l.modules.map r, l.dependencies.map (Prod.map r r)⟩

namespace Graph

variable {l : Listing}

theorem renamed_ofListing (hr : r.Injective) (l : Listing) :
    Renamed r (ofListing l fun _ => none) (ofListing (l.rename r) fun _ => none) :=
  .foldl_addEdge hr l.dependencies (.foldl_addNode hr l.modules ⟨.empty, rfl⟩)

theorem unknown_rename (hr : r.Injective) (l : Listing) : unknown (l.rename r) = (unknown l).map (Prod.map r r) := by
  rw [unknown, unknown, Listing.rename, List.filter_map]
  simp only [Function.comp_def, Prod.map_fst, Prod.map_snd, Lists.contains_map hr]

end Graph
end ModuleAudit
