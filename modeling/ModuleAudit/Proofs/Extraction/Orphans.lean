import ModuleAudit.Extraction.Basic
import ModuleAudit.Proofs.Graph.Cycles
import ModuleAudit.Proofs.Metric.Coupling

/-! Orphans and leaves, seen in a tree, in its graph and in its coupling. An import of itself hides no orphan, for the
    graph and the coupling both count it once; and a leaf lists nothing at all, not even an unlisted module. Whatever
    lies on a cycle with other modules is neither. -/

namespace ModuleAudit

namespace Tree

variable {t : Tree} {a m : String} {deps : List String} {c : Cycle} {position : String → Option Position}

theorem edge_ofListing : (Graph.ofListing t.listing position).Edge a m ↔ (a, m) ∈ t.dependencies ∧ m ∈ t.keys :=
  Graph.mem_edges_listing

/-! ### Orphans -/

theorem not_any_iff :
    (!t.dependencies.any fun d => d.2 == m && d.1 != m) = true ↔ ∀ a, (a, m) ∈ t.dependencies → a = m := by
  rw [Bool.not_eq_true', ← Bool.not_eq_true, List.any_eq_true]
  constructor
  · intro hnone a hd
    by_contra hne
    exact hnone ⟨_, hd, by simpa using hne⟩
  · rintro hself ⟨⟨a, b⟩, hd, hab⟩
    obtain ⟨rfl, hne⟩ : b = m ∧ a ≠ m := by simpa using hab
    exact hne (hself a hd)

theorem mem_orphans : m ∈ t.orphans ↔ m ∈ t.keys ∧ ∀ a, (a, m) ∈ t.dependencies → a = m := by
  rw [orphans, List.mem_filter, not_any_iff]

theorem predecessors_subset_iff (hm : m ∈ t.keys) :
    (Graph.ofListing t.listing position).predecessors m ⊆ [m] ↔ ∀ a, (a, m) ∈ t.dependencies → a = m := by
  constructor
  · exact fun h a hd => List.mem_singleton.mp (h (Graph.mem_predecessors.mpr (edge_ofListing.mpr ⟨hd, hm⟩)))
  · exact fun h a ha => List.mem_singleton.mpr (h a (edge_ofListing.mp (Graph.mem_predecessors.mp ha)).1)

theorem orphans_eq_filter (t : Tree) (position : String → Option Position) :
    t.orphans = t.keys.filter fun m => (Graph.ofListing t.listing position).predecessors m ⊆ [m] := by
  refine List.filter_congr fun m hm => ?_
  rw [Bool.eq_iff_iff, decide_eq_true_iff, predecessors_subset_iff hm, not_any_iff]

theorem mem_predecessors_self (h : t.get? m = some deps) :
    m ∈ (Graph.ofListing t.listing position).predecessors m ↔ m ∈ deps := by
  rw [Graph.mem_predecessors, edge_ofListing, mem_dependencies, h]
  simp [ModuleMap.mem_keys_of_get? h]

/-- The coupling of a module counts its predecessors in the graph. -/
theorem afferent_eq_length (position : String → Option Position) (h : t.get? m = some deps) :
    (t.couplings.get? m).map Coupling.afferent =
      some ((Graph.ofListing t.listing position).predecessors m).length := by
  rw [get?_couplings h, Option.map_some, (countedIn_graph h position).afferent_inDegree]
  rfl

theorem afferent_eq_iff (position : String → Option Position) (h : t.get? m = some deps) :
    (t.couplings.get? m).map Coupling.afferent = some (if m ∈ deps then 1 else 0) ↔
      (Graph.ofListing t.listing position).predecessors m ⊆ [m] := by
  rw [afferent_eq_length position h, Option.some.injEq, Lists.subset_singleton_iff (Graph.predecessors_nodup _ m)]
  simp only [mem_predecessors_self h]

/-! ### Leaves -/

theorem efferent_eq_zero_iff (h : t.get? m = some deps) :
    (t.couplings.get? m).map Coupling.efferent = some 0 ↔ deps = [] := by
  rw [get?_couplings h, Option.map_some, (countedIn_graph h fun _ => none).efferent_distinct, Option.some.injEq,
    Finset.card_eq_zero, List.toFinset_eq_empty_iff]

theorem mem_leaves : m ∈ t.leaves ↔ t.get? m = some [] := by
  rw [leaves, List.mem_map]
  constructor
  · rintro ⟨⟨_, deps⟩, he, rfl⟩
    obtain ⟨he, hdeps⟩ := List.mem_filter.mp he
    rw [ModuleMap.get?_eq_some_iff, ← List.isEmpty_iff.mp hdeps]
    exact he
  · intro h
    exact ⟨(m, []), List.mem_filter.mpr ⟨ModuleMap.get?_eq_some_iff.mp h, rfl⟩, rfl⟩

theorem not_mem_dependencies_of_leaf (hm : m ∈ t.leaves) (b : String) : (m, b) ∉ t.dependencies := by
  rw [mem_dependencies, mem_leaves.mp hm]
  simp

theorem leaves_eq_filter (t : Tree) :
    t.leaves = t.keys.filter fun m => (t.couplings.get? m).map Coupling.efferent = some 0 := by
  rw [leaves, ModuleMap.keys, List.filter_map]
  refine congrArg (List.map Prod.fst) (List.filter_congr fun e he => ?_)
  rw [Function.comp_apply, Bool.eq_iff_iff, decide_eq_true_iff,
    efferent_eq_zero_iff (ModuleMap.get?_eq_some_iff.mpr he), List.isEmpty_iff]

/-! ### The views together -/

/-- What lies on a cycle with others has one of them before it and a module after it. -/
theorem not_mem_ends (h : (Graph.ofListing t.listing position).IsCycle c) (hlen : 2 ≤ c.length) (hm : m ∈ c) :
    m ∉ t.orphans ∧ m ∉ t.leaves := by
  obtain ⟨⟨b, hmb⟩, a, hne, ham⟩ := h.exists_neighbours hlen hm
  refine ⟨fun horphan => ?_, fun hleaf => ?_⟩
  · exact hne ((mem_orphans.mp horphan).2 a (edge_ofListing.mp ham).1)
  · exact not_mem_dependencies_of_leaf hleaf b (edge_ofListing.mp hmb).1

/-- What is seen in a tree at its ends, against a graph of the tree and against its couplings. -/
structure Ends (t : Tree) (g : Graph) (x : Extracted) : Prop where
  predecessors : x.orphans = t.keys.filter fun m => g.predecessors m ⊆ [m]
  afferent : x.orphans = t.keys.filter fun m =>
    (t.couplings.get? m).map Coupling.afferent = some (if m ∈ (t.get? m).getD [] then 1 else 0)
  efferent : x.leaves = t.keys.filter fun m => (t.couplings.get? m).map Coupling.efferent = some 0
  isolated : ∀ m ∈ x.orphans, m ∈ x.leaves →
    g.predecessors m = [] ∧ g.successors m = [] ∧ (t.couplings.get? m).map Coupling.instability = some 0
  circular : ∀ c ∈ x.cycles, 2 ≤ c.length → ∀ m ∈ c, m ∉ x.orphans ∧ m ∉ x.leaves

/-- An orphan that is a leaf too stands alone, for its only predecessor could be itself. -/
theorem isolated (position : String → Option Position) (horphan : m ∈ t.orphans) (hleaf : m ∈ t.leaves) :
    (Graph.ofListing t.listing position).predecessors m = [] ∧
      (Graph.ofListing t.listing position).successors m = [] ∧
      (t.couplings.get? m).map Coupling.instability = some 0 := by
  have hget := mem_leaves.mp hleaf
  have hpred : (Graph.ofListing t.listing position).predecessors m = [] := by
    refine List.eq_nil_iff_forall_not_mem.mpr fun a ha => ?_
    have hd := (edge_ofListing.mp (Graph.mem_predecessors.mp ha)).1
    obtain rfl := (mem_orphans.mp horphan).2 a hd
    exact not_mem_dependencies_of_leaf hleaf a hd
  refine ⟨hpred, ?_, ?_⟩
  · refine List.eq_nil_iff_forall_not_mem.mpr fun b hb => ?_
    exact not_mem_dependencies_of_leaf hleaf b (edge_ofListing.mp (Graph.mem_successors.mp hb)).1
  · have hafferent := (countedIn_graph hget position).afferent_inDegree
    rw [Graph.inDegree, hpred] at hafferent
    rw [get?_couplings hget]
    exact congrArg (fun n => some (Coupling.instabilityOf 0 n)) hafferent

/-- The orphans of a tree are the modules that only they themselves lead to, and its leaves those that count no import
    at all, in declaration order and in the graph as in the coupling; a module that is both stands alone, and one on a
    cycle with others is neither. -/
theorem ends_agree (t : Tree) (position : String → Option Position) :
    t.Ends (.ofListing t.listing position) (.ofTree t) where
  predecessors := orphans_eq_filter t position
  afferent := by
    refine (orphans_eq_filter t position).trans (List.filter_congr fun m hm => ?_)
    obtain ⟨deps, hget⟩ := ModuleMap.mem_keys_iff.mp hm
    rw [hget, Option.getD_some]
    exact decide_eq_decide.mpr (afferent_eq_iff position hget).symm
  efferent := leaves_eq_filter t
  isolated _ := isolated position
  circular c hc hlen m hm := not_mem_ends (t.graph.components_splitsInto.represents.cycle c hc) hlen hm

/-- The importer of itself is an orphan still, and what imports only an unlisted module is no leaf. -/
example :
    let x := Extracted.ofTree (.ofList [("app", ["app", "core"]), ("core", ["serde"]), ("notes", [])])
    x.orphans = ["app", "notes"] ∧ x.leaves = ["notes"] := by decide +kernel

end Tree

end ModuleAudit
