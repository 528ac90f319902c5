import ModuleAudit.Graph
import ModuleAudit.Proofs.ModuleMap

/-! Graphs read through their two lists: the modules, each of them once, and the edges between them. -/

namespace ModuleAudit.Graph

variable {g : Graph} {a b m : String} {i : Nat}

theorem eq_of_parts {g h : Graph} (hnodes : g.nodes = h.nodes) (hedges : g.edges = h.edges) : g = h := by
  cases g
  cases h
  cases hnodes
  cases hedges
  rfl

/-- The module `a` depends on `b` directly. -/
def Edge (g : Graph) (a b : String) : Prop := (a, b) ∈ g.edges

theorem modules_nodup (g : Graph) : g.modules.Nodup := g.nodes.keys_nodup

theorem Edge.mem_modules (h : g.Edge a b) : a ∈ g.modules ∧ b ∈ g.modules :=
  ⟨ModuleMap.mem_iff_mem_keys.mp (g.mem_of_edge _ h).1, ModuleMap.mem_iff_mem_keys.mp (g.mem_of_edge _ h).2⟩

theorem modules_ne_nil (h : 0 < g.edgeCount) : g.modules ≠ [] := by
  obtain ⟨e, he⟩ := List.exists_mem_of_length_pos h
  exact List.ne_nil_of_mem (Edge.mem_modules (g := g) (a := e.1) (b := e.2) he).1

theorem nodeCount_eq (g : Graph) : g.nodeCount = g.modules.length := by
  simp [nodeCount, modules, ModuleMap.keys, ModuleMap.toList, ModuleMap.size]

theorem isEmpty_iff : g.isEmpty = true ↔ g.modules = [] := ModuleMap.isEmpty_iff

theorem slot?_eq_some_iff : g.slot? m = some i ↔ g.modules[i]? = some m := ModuleMap.slot?_eq_some_iff

theorem slot?_eq_idxOf (h : m ∈ g.modules) : g.slot? m = some (g.modules.idxOf m) := by
  rw [slot?_eq_some_iff, List.getElem?_eq_getElem (List.idxOf_lt_length_of_mem h), List.getElem_idxOf]

theorem idxOf_eq (h : g.modules[i]? = some m) : g.modules.idxOf m = i := by
  have hplace := slot?_eq_idxOf (List.mem_of_getElem? h)
  rwa [slot?_eq_some_iff.mpr h, Option.some.injEq, eq_comm] at hplace

theorem hasNode_iff : g.hasNode m = true ↔ m ∈ g.modules := ModuleMap.contains_iff

theorem hasEdge_iff : g.hasEdge a b = true ↔ g.Edge a b := by
  rw [hasEdge, List.contains_iff_mem, Edge]

theorem mem_successors : b ∈ g.successors a ↔ g.Edge a b := by
  simp [successors, Edge]

theorem successors_subset (g : Graph) (a : String) : g.successors a ⊆ g.modules := fun _ hb =>
  (mem_successors.mp hb).mem_modules.2

theorem mem_predecessors : a ∈ g.predecessors m ↔ g.Edge a m := by
  simp [predecessors, Edge]

theorem predecessors_subset (g : Graph) (m : String) : g.predecessors m ⊆ g.modules := fun _ ha =>
  (mem_predecessors.mp ha).mem_modules.1

theorem successors_nodup (g : Graph) (a : String) : (g.successors a).Nodup := by
  refine (g.edges_nodup.filter _).map_on fun e he f hf heq => Prod.ext ?_ heq
  have he := beq_iff_eq.mp (List.mem_filter.mp he).2
  have hf := beq_iff_eq.mp (List.mem_filter.mp hf).2
  exact he.trans hf.symm

theorem predecessors_nodup (g : Graph) (m : String) : (g.predecessors m).Nodup := by
  refine (g.edges_nodup.filter _).map_on fun e he f hf heq => Prod.ext heq ?_
  have he := beq_iff_eq.mp (List.mem_filter.mp he).2
  have hf := beq_iff_eq.mp (List.mem_filter.mp hf).2
  exact he.trans hf.symm

/-! ### Building a graph -/

theorem nodes_addEdge (g : Graph) (a b : String) : (g.addEdge a b).nodes = g.nodes := by
  unfold addEdge
  split <;> rfl

@[simp]
theorem modules_addEdge (g : Graph) (s t : String) : (g.addEdge s t).modules = g.modules := by
  rw [modules, nodes_addEdge, modules]

theorem nodes_foldl_addEdge (ds : List Dependency) :
    ∀ g : Graph, (ds.foldl (fun g d => g.addEdge d.1 d.2) g).nodes = g.nodes := by
  induction ds with
  | nil => exact fun _ => rfl
  | cons d ds ih =>
    intro g
    rw [List.foldl_cons, ih, nodes_addEdge]

theorem modules_foldl_addEdge (ds : List Dependency) (g : Graph) :
    (ds.foldl (fun g d => g.addEdge d.1 d.2) g).modules = g.modules := by
  rw [modules, nodes_foldl_addEdge, modules]

theorem addNode_of_mem (h : m ∈ g.modules) (p : Option Position) : g.addNode m p = g := by
  rw [addNode, if_pos (ModuleMap.contains_iff.mpr h)]

/-- Modules that are added stand in the order in which they first come, each where it is put. -/
theorem toList_foldl_addNode (position : String → Option Position) (ms : List String) :
    (ms.foldl (fun g m => g.addNode m (position m)) (∅ : Graph)).nodes.toList =
      ms.eraseDups.map fun m => (m, position m) := by
  induction ms using List.reverseRecOn with
  | nil => rfl
  | append_singleton ms m ih =>
    set g := ms.foldl (fun g m => g.addNode m (position m)) (∅ : Graph)
    have hmem : m ∈ g.modules ↔ m ∈ ms := by
      rw [modules, ModuleMap.keys_of_toList ih, List.mem_eraseDups]
    rw [List.foldl_append, List.foldl_cons, List.foldl_nil]
    by_cases hm : m ∈ ms
    · rw [addNode_of_mem (hmem.mpr hm), ih, Lists.eraseDups_append_cons_of_mem hm, List.append_nil]
    · have hfree : m ∉ g.nodes.keys := fun h => hm (hmem.mp h)
      have hadded : (g.addNode m (position m)).nodes = g.nodes.insert m (position m) := by
        rw [addNode, if_neg fun h => hfree (ModuleMap.contains_iff.mp h)]
      rw [hadded, ModuleMap.toList_insert_of_notMem hfree, ih, Lists.eraseDups_concat_of_notMem hm, List.map_append]
      rfl

section Listing
variable {l : Listing} {position : String → Option Position}

theorem toList_nodes_ofListing (l : Listing) (position : String → Option Position) :
    (ofListing l position).nodes.toList = l.modules.eraseDups.map fun m => (m, position m) := by
  rw [ofListing, nodes_foldl_addEdge, toList_foldl_addNode]

theorem modules_ofListing (l : Listing) (position : String → Option Position) :
    (ofListing l position).modules = l.modules.eraseDups :=
  ModuleMap.keys_of_toList (toList_nodes_ofListing l position)

theorem mem_modules_ofListing : m ∈ (ofListing l position).modules ↔ m ∈ l.modules := by
  rw [modules_ofListing, List.mem_eraseDups]

/-- Each module of a listing stands where it was put. -/
theorem node?_ofListing (h : m ∈ l.modules) : (ofListing l position).node? m = some (position m) := by
  rw [node?, ModuleMap.get?_eq_some_iff, toList_nodes_ofListing]
  exact List.mem_map_of_mem (List.mem_eraseDups.mpr h)

theorem modules_listing (t : Tree) (position : String → Option Position) :
    (ofListing t.listing position).modules = t.keys :=
  (modules_ofListing t.listing position).trans (Lists.eraseDups_of_nodup t.keys_nodup)

end Listing

end ModuleAudit.Graph
