import Mathlib.Algebra.BigOperators.Group.Finset.Basic
import Mathlib.Algebra.Ring.Nat
import Mathlib.Data.Finset.Card
import Mathlib.Data.Finset.Prod
import ModuleAudit.Proofs.Graph.Listing

/-! Degrees. The degree of a module is the number of edges at one of its ends, so that the degrees of all modules add
    up to the number of edges. An edge stands once, so that there is at most one for each ordered pair of modules, and
    without loops at most one for each pair of distinct ones. In the graph of a tree the edges are the dependencies on
    listed modules, each once; the degrees there count the distinct names in a list, and the lists in which a name
    stands. -/

namespace ModuleAudit

namespace Graph

variable {m : String}

theorem edgeCount_eq_card (g : Graph) : g.edgeCount = g.edges.toFinset.card :=
  (List.toFinset_card_of_nodup g.edges_nodup).symm

theorem length_filter_edges (g : Graph) (p : Dependency → Bool) :
    (g.edges.filter p).length = {e ∈ g.edges.toFinset | p e = true}.card := by
  rw [← List.toFinset_filter, List.toFinset_card_of_nodup (g.edges_nodup.filter p)]

theorem outDegree_eq_card (g : Graph) (m : String) : g.outDegree m = {e ∈ g.edges.toFinset | e.1 = m}.card := by
  rw [outDegree, successors, List.length_map, length_filter_edges]
  simp

theorem inDegree_eq_card (g : Graph) (m : String) : g.inDegree m = {e ∈ g.edges.toFinset | e.2 = m}.card := by
  rw [inDegree, predecessors, List.length_map, length_filter_edges]
  simp

/-- The edges, counted apart for each module at one of their ends. -/
theorem sum_map_card (g : Graph) {side : Dependency → String} (hside : ∀ e ∈ g.edges, side e ∈ g.modules) :
    (g.modules.map fun m => {e ∈ g.edges.toFinset | side e = m}.card).sum = g.edgeCount := by
  have hends : ∀ e ∈ g.edges.toFinset, side e ∈ g.modules.toFinset := fun e he =>
    List.mem_toFinset.mpr (hside e (List.mem_toFinset.mp he))
  rw [← List.sum_toFinset _ g.modules_nodup, edgeCount_eq_card, Finset.card_eq_sum_card_fiberwise hends]

/-- Every edge leaves one module of the graph. -/
theorem sum_map_outDegree (g : Graph) : (g.modules.map g.outDegree).sum = g.edgeCount := by
  rw [← g.sum_map_card fun _ he => (Edge.mem_modules he).1]
  exact congrArg List.sum (List.map_congr_left fun m _ => outDegree_eq_card g m)

/-- Every edge enters one module of the graph. -/
theorem sum_map_inDegree (g : Graph) : (g.modules.map g.inDegree).sum = g.edgeCount := by
  rw [← g.sum_map_card fun _ he => (Edge.mem_modules he).2]
  exact congrArg List.sum (List.map_congr_left fun m _ => inDegree_eq_card g m)

/-! ### How many edges there can be -/

theorem outDegree_le (g : Graph) (m : String) : g.outDegree m ≤ g.nodeCount := by
  rw [nodeCount_eq]
  exact (List.subperm_of_subset (g.successors_nodup m) (g.successors_subset m)).length_le

theorem inDegree_le (g : Graph) (m : String) : g.inDegree m ≤ g.nodeCount := by
  rw [nodeCount_eq]
  exact (List.subperm_of_subset (g.predecessors_nodup m) (g.predecessors_subset m)).length_le

theorem card_modules (g : Graph) : g.modules.toFinset.card = g.nodeCount := by
  rw [List.toFinset_card_of_nodup g.modules_nodup, nodeCount_eq]

/-- There is at most one edge for each ordered pair of modules. -/
theorem edgeCount_le (g : Graph) : g.edgeCount ≤ g.nodeCount * g.nodeCount := by
  rw [edgeCount_eq_card, ← card_modules, ← Finset.card_product]
  refine Finset.card_le_card fun e he => ?_
  have hends := Edge.mem_modules (g := g) (List.mem_toFinset.mp he)
  exact Finset.mem_product.mpr ⟨List.mem_toFinset.mpr hends.1, List.mem_toFinset.mpr hends.2⟩

/-- No module depends on itself. -/
def Loopless (g : Graph) : Prop := ∀ m, ¬g.Edge m m

/-- The edges at a module, whichever of their ends it is. -/
def edgesAt (g : Graph) (m : String) : List Dependency := g.edges.filter fun e => e.1 == m || e.2 == m

namespace Loopless

variable {g : Graph}

/-- Distinct modules other than `m` are fewer than all, if `m` is one of these. -/
theorem length_le_of_others {ms : List String} (hnodup : ms.Nodup) (hsub : ms ⊆ g.modules)
    (hm : ms ≠ [] → m ∈ g.modules) (hother : m ∉ ms) : ms.length ≤ g.nodeCount - 1 := by
  by_cases hempty : ms = []
  · rw [hempty]
    exact Nat.zero_le _
  · have hlen := (List.subperm_of_subset (List.nodup_cons.mpr ⟨hother, hnodup⟩)
      (List.cons_subset.mpr ⟨hm hempty, hsub⟩)).length_le
    rw [List.length_cons, ← nodeCount_eq] at hlen
    omega

theorem outDegree_le (h : g.Loopless) (m : String) : g.outDegree m ≤ g.nodeCount - 1 := by
  refine length_le_of_others (g.successors_nodup m) (g.successors_subset m) (fun hne => ?_)
    fun hm => h m (mem_successors.mp hm)
  obtain ⟨b, hb⟩ := List.exists_mem_of_ne_nil _ hne
  exact (mem_successors.mp hb).mem_modules.1

theorem inDegree_le (h : g.Loopless) (m : String) : g.inDegree m ≤ g.nodeCount - 1 := by
  refine length_le_of_others (g.predecessors_nodup m) (g.predecessors_subset m) (fun hne => ?_)
    fun hm => h m (mem_predecessors.mp hm)
  obtain ⟨a, ha⟩ := List.exists_mem_of_ne_nil _ hne
  exact (mem_predecessors.mp ha).mem_modules.2

/-- Without loops the edges are among the ordered pairs of distinct modules. -/
theorem edges_subset (h : g.Loopless) : g.edges.toFinset ⊆ g.modules.toFinset.offDiag := by
  rintro ⟨a, b⟩ he
  have hedge : g.Edge a b := List.mem_toFinset.mp he
  rw [Finset.mem_offDiag, List.mem_toFinset, List.mem_toFinset]
  refine ⟨hedge.mem_modules.1, hedge.mem_modules.2, fun hab : a = b => ?_⟩
  exact h a (hab ▸ hedge)

theorem card_pairs (g : Graph) : g.modules.toFinset.offDiag.card = g.nodeCount * (g.nodeCount - 1) := by
  rw [Finset.offDiag_card, card_modules, Nat.mul_sub_one]

theorem edgeCount_le (h : g.Loopless) : g.edgeCount ≤ g.nodeCount * (g.nodeCount - 1) := by
  rw [edgeCount_eq_card, ← card_pairs]
  exact Finset.card_le_card h.edges_subset

/-- There are as many edges as pairs only where every pair is an edge. -/
theorem edgeCount_eq_iff (h : g.Loopless) : g.edgeCount = g.nodeCount * (g.nodeCount - 1) ↔
    ∀ a ∈ g.modules, ∀ b ∈ g.modules, a ≠ b → g.Edge a b := by
  rw [edgeCount_eq_card, ← card_pairs]
  constructor
  · intro hcard a ha b hb hab
    have hpair : (a, b) ∈ g.modules.toFinset.offDiag :=
      Finset.mem_offDiag.mpr ⟨List.mem_toFinset.mpr ha, List.mem_toFinset.mpr hb, hab⟩
    rw [← Finset.eq_of_subset_of_card_le h.edges_subset hcard.ge] at hpair
    exact List.mem_toFinset.mp hpair
  · intro hall
    refine congrArg Finset.card (h.edges_subset.antisymm ?_)
    rintro ⟨a, b⟩ hpair
    rw [Finset.mem_offDiag, List.mem_toFinset, List.mem_toFinset] at hpair
    exact List.mem_toFinset.mpr (hall a hpair.1 b hpair.2.1 hpair.2.2)

/-- Without loops no edge enters and leaves the same module. -/
theorem length_edgesAt (h : g.Loopless) (m : String) : (g.edgesAt m).length = g.inDegree m + g.outDegree m := by
  have hdisjoint : Disjoint {e ∈ g.edges.toFinset | e.1 = m} {e ∈ g.edges.toFinset | e.2 = m} := by
    rw [Finset.disjoint_filter]
    rintro ⟨_, b⟩ he rfl (hb : b = _)
    exact h _ (hb ▸ List.mem_toFinset.mp he)
  rw [add_comm, outDegree_eq_card, inDegree_eq_card, ← Finset.card_union_of_disjoint hdisjoint, ← Finset.filter_or,
    edgesAt, length_filter_edges]
  simp only [Bool.or_eq_true, beq_iff_eq]

end Loopless

end Graph

/-! ### Dependencies of a tree, by their ends -/

namespace Tree

variable {t : Tree} {m : String} {deps : List String}

/-- The dependencies of a module are the names in its list. -/
theorem card_imported (h : t.get? m = some deps) (p : String → Prop) [DecidablePred p] :
    {d ∈ t.dependencies.toFinset | p d.2 ∧ d.1 = m}.card = {b ∈ deps.toFinset | p b}.card := by
  have himage : {d ∈ t.dependencies.toFinset | p d.2 ∧ d.1 = m} = {b ∈ deps.toFinset | p b}.image (Prod.mk m) := by
    ext ⟨a, b⟩
    simp only [Finset.mem_filter, List.mem_toFinset, mem_dependencies, Finset.mem_image, Prod.mk.injEq]
    constructor
    · rintro ⟨⟨deps', hget, hb⟩, hp, rfl⟩
      rw [h] at hget
      exact ⟨b, ⟨Option.some.inj hget ▸ hb, hp⟩, rfl, rfl⟩
    · rintro ⟨_, ⟨hb, hp⟩, rfl, rfl⟩
      exact ⟨⟨deps, h, hb⟩, hp, rfl⟩
  rw [himage, Finset.card_image_of_injective _ (Prod.mk_right_injective m)]

/-- The dependencies on a name come from the modules in whose lists it stands. -/
theorem card_importing (t : Tree) (m : String) :
    {d ∈ t.dependencies.toFinset | d.2 = m}.card = (t.toList.filter fun e => m ∈ e.2).length := by
  have hnodup : ((t.toList.filter fun e => m ∈ e.2).map Prod.fst).Nodup :=
    t.keys_nodup.sublist (List.filter_sublist.map Prod.fst)
  have himage : {d ∈ t.dependencies.toFinset | d.2 = m} =
      (((t.toList.filter fun e => m ∈ e.2).map Prod.fst).toFinset).image (·, m) := by
    ext ⟨a, b⟩
    simp only [Finset.mem_filter, List.mem_toFinset, mem_dependencies, ModuleMap.get?_eq_some_iff, Finset.mem_image,
      List.mem_map, List.mem_filter, decide_eq_true_eq, Prod.mk.injEq]
    constructor
    · rintro ⟨⟨deps, he, hb⟩, rfl⟩
      exact ⟨a, ⟨(a, deps), ⟨he, hb⟩, rfl⟩, rfl, rfl⟩
    · rintro ⟨_, ⟨⟨_, deps⟩, ⟨he, hb⟩, rfl⟩, rfl, rfl⟩
      exact ⟨⟨deps, he, hb⟩, rfl⟩
  rw [himage, Finset.card_image_of_injective _ (Prod.mk_left_injective m), List.toFinset_card_of_nodup hnodup,
    List.length_map]

end Tree

namespace Graph

variable {t : Tree} {m : String} {deps : List String} {position : String → Option Position}

theorem toFinset_edges_listing (t : Tree) (position : String → Option Position) :
    (ofListing t.listing position).edges.toFinset = {d ∈ t.dependencies.toFinset | d.2 ∈ t.keys} := by
  ext d
  rw [List.mem_toFinset, mem_edges_listing, Finset.mem_filter, List.mem_toFinset]

theorem toFinset_unknown_listing (t : Tree) :
    (unknown t.listing).toFinset = {d ∈ t.dependencies.toFinset | d.2 ∉ t.keys} := by
  ext d
  simp [unknown_listing]

theorem outDegree_listing (h : t.get? m = some deps) :
    (ofListing t.listing position).outDegree m = {b ∈ deps.toFinset | b ∈ t.keys}.card := by
  rw [outDegree_eq_card, toFinset_edges_listing, Finset.filter_filter, Tree.card_imported h]

theorem inDegree_listing (hm : m ∈ t.keys) :
    (ofListing t.listing position).inDegree m = (t.toList.filter fun e => m ∈ e.2).length := by
  rw [inDegree_eq_card, toFinset_edges_listing, Finset.filter_filter, ← Tree.card_importing]
  refine congrArg Finset.card (Finset.filter_congr fun d _ => ?_)
  exact and_iff_right_of_imp fun hd => hd ▸ hm

/-- The distinct dependencies of a tree are its edges and the unknown ones. -/
theorem card_dependencies (t : Tree) (position : String → Option Position) :
    t.dependencies.toFinset.card = (ofListing t.listing position).edgeCount + (unknown t.listing).toFinset.card := by
  rw [edgeCount_eq_card, toFinset_edges_listing, toFinset_unknown_listing]
  exact (Finset.card_filter_add_card_filter_not fun d : Dependency => d.2 ∈ t.keys).symm

end Graph
end ModuleAudit
