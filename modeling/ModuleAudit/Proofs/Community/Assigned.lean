import ModuleAudit.Proofs.Community.Reached
import ModuleAudit.Proofs.Graph.Basic

/-! The communities assigned to the modules of a graph, in whatever arithmetic the weights are computed: every module
    has one, the numbers are given by first appearance, and modules share one only if edges connect them. -/

namespace ModuleAudit

/-! ### Edges without direction -/

namespace Graph

variable {g : Graph} {a b m : String}

/-- A way of edges leads from one module to the other, whatever the directions of the edges. -/
def Connected (g : Graph) (a b : String) : Prop := Relation.ReflTransGen (fun x y => g.Edge x y ∨ g.Edge y x) a b

/-- A module has no edge, or only one to itself. -/
def Isolated (g : Graph) (m : String) : Prop := ∀ e ∈ g.edges, e.1 = m ∨ e.2 = m → e = (m, m)

theorem Isolated.eq_of_connected (hm : g.Isolated m) (h : g.Connected m b) : b = m := by
  induction h with
  | refl => rfl
  | tail _ hbc ih =>
    subst ih
    rcases hbc with he | he
    · exact congrArg Prod.snd (hm _ he (Or.inl rfl))
    · exact congrArg Prod.fst (hm _ he (Or.inr rfl))

end Graph

namespace Community

variable {α : Type} [Weight α] {g : Graph} {t : Tuning α} {a b : String} {i j : Nat}

/-! ### The first level -/

namespace Level

theorem links_ofGraph (g : Graph) : (ofGraph g : Level α).links =
    g.edges.map fun e => ⟨g.modules.idxOf e.1, g.modules.idxOf e.2, 1⟩ := by
  rw [ofGraph, ← List.filterMap_eq_map]
  refine List.filterMap_congr fun e he => ?_
  have hends := Graph.Edge.mem_modules (g := g) (a := e.1) (b := e.2) he
  simp [Graph.slot?_eq_idxOf hends.1, Graph.slot?_eq_idxOf hends.2]

theorem size_ofGraph (g : Graph) : (ofGraph g : Level α).size = g.modules.length := g.nodeCount_eq

theorem closed_ofGraph (g : Graph) : (ofGraph g : Level α).Closed := by
  intro k hk
  rw [links_ofGraph] at hk
  obtain ⟨e, he, rfl⟩ := List.mem_map.mp hk
  have hends := Graph.Edge.mem_modules (g := g) (a := e.1) (b := e.2) he
  rw [size_ofGraph]
  exact ⟨List.idxOf_lt_length_of_mem hends.1, List.idxOf_lt_length_of_mem hends.2⟩

/-- Nodes joined on the first level are modules that edges connect. -/
theorem connected_of_joined (h : (ofGraph g : Level α).Joined i j) (ha : g.modules[i]? = some a)
    (hb : g.modules[j]? = some b) : g.Connected a b := by
  have name {x : String} (hx : x ∈ g.modules) : g.modules[g.modules.idxOf x]? = some x :=
    Graph.slot?_eq_some_iff.mp (Graph.slot?_eq_idxOf hx)
  induction h generalizing b with
  | refl =>
    rw [ha] at hb
    exact Option.some.inj hb ▸ .refl
  | tail _ hjk ih =>
    obtain ⟨k, hk, hends⟩ := hjk
    rw [links_ofGraph] at hk
    obtain ⟨e, he, rfl⟩ := List.mem_map.mp hk
    have hmem := Graph.Edge.mem_modules (g := g) (a := e.1) (b := e.2) he
    rcases hends with ⟨rfl, rfl⟩ | ⟨rfl, rfl⟩
    · rw [name hmem.2] at hb
      exact .tail (ih (name hmem.1)) (Or.inl (Option.some.inj hb ▸ he))
    · rw [name hmem.1] at hb
      exact .tail (ih (name hmem.2)) (Or.inr (Option.some.inj hb ▸ he))

end Level

/-! ### The labels found -/

section Labels
variable {l : Level α}

theorem renumber_range (n : Nat) : (renumber (List.range n)).1 = List.range n := by
  rw [renumber, eraseDups_range]
  simpa using map_idxOf_self (List.nodup_range (n := n))

/-- The labels that are found number the nodes of the last level that was reached. -/
theorem exists_reached_optimize (hl : l.Closed) : ∃ l' membership, Reached t l l' membership ∧
    optimize t l = (renumber membership).1 ∧ (Weight.less 0 l.total = true → (Moving.run t l').2 = false) := by
  unfold optimize
  dsimp only
  split
  · obtain ⟨l', h, hstill⟩ := exists_reached_refine (t := t) hl (l.size + 1) l _ .base (Nat.lt_succ_self _)
    exact ⟨l', _, h, rfl, fun _ => hstill⟩
  · rename_i hless
    exact ⟨l, _, .base, (renumber_range _).symm, fun h => absurd h hless⟩

theorem length_optimize (hl : l.Closed) : (optimize t l).length = l.size := by
  obtain ⟨l', membership, h, heq, -⟩ := exists_reached_optimize (t := t) hl
  rw [heq, length_renumber, (h.lifted hl).length]

theorem exists_numbered_optimize (hl : l.Closed) : ∃ count, Numbered (optimize t l) count := by
  obtain ⟨l', membership, -, heq, -⟩ := exists_reached_optimize (t := t) hl
  exact ⟨_, heq ▸ renumber_numbered membership⟩

theorem joined_optimize (hl : l.Closed) (hi : i < l.size) (hj : j < l.size)
    (hij : (optimize t l).getD i 0 = (optimize t l).getD j 0) : l.Joined i j := by
  obtain ⟨l', membership, h, heq, -⟩ := exists_reached_optimize (t := t) hl
  have hlift := h.lifted hl
  rw [heq, renumber_getD_eq_iff (hlift.length ▸ hi) (hlift.length ▸ hj)] at hij
  exact hlift.joined i hi j hj (hij ▸ .refl)

end Labels

/-! ### The communities of a graph -/

/-- Every module of the graph has a community; the communities are numbered by first appearance; and those who share
    one are connected. -/
structure Assigned (g : Graph) (communities : ModuleMap Nat) : Prop where
  keys : communities.keys = g.modules
  numbered : Numbered communities.values (Partition.countOf communities)
  connected : ∀ a b c, (a, c) ∈ communities.toList → (b, c) ∈ communities.toList → g.Connected a b
  alone : ∀ m, g.Isolated m → ∀ b c, (m, c) ∈ communities.toList → (b, c) ∈ communities.toList → b = m

theorem toList_detect (hg : g.modules ≠ []) :
    (detect t g).communities.toList = g.modules.zip (optimize t (Level.ofGraph g)) := by
  have hempty : ¬g.isEmpty = true := fun h => hg (Graph.isEmpty_iff.mp h)
  rw [detect, if_neg hempty]
  refine ModuleMap.toList_ofList ?_
  rw [List.map_fst_zip]
  · exact g.modules_nodup
  · rw [length_optimize (Level.closed_ofGraph g), Level.size_ofGraph]

theorem values_detect (hg : g.modules ≠ []) : (detect t g).communities.values = optimize t (Level.ofGraph g) := by
  rw [ModuleMap.values, toList_detect hg, List.map_snd_zip]
  rw [length_optimize (Level.closed_ofGraph g), Level.size_ofGraph]

theorem mem_detect (hg : g.modules ≠ []) {c : Nat} (h : (a, c) ∈ (detect t g).communities.toList) :
    ∃ i, g.modules[i]? = some a ∧ i < (Level.ofGraph g : Level α).size ∧
      (optimize t (Level.ofGraph g)).getD i 0 = c := by
  rw [toList_detect hg] at h
  obtain ⟨i, hi⟩ := List.mem_iff_getElem?.mp h
  obtain ⟨ha, hc⟩ := List.getElem?_zip_eq_some.mp hi
  refine ⟨i, ha, ?_, by simp [List.getD_eq_getElem?_getD, hc]⟩
  rw [Level.size_ofGraph]
  exact (List.getElem?_eq_some_iff.mp ha).1

theorem detect_assigned (t : Tuning α) (g : Graph) : Assigned g (detect t g).communities := by
  by_cases hg : g.modules = []
  · have hcomm : (detect t g).communities = ∅ := by
      rw [detect, if_pos (Graph.isEmpty_iff.mpr hg)]
    rw [hcomm]
    exact ⟨hg.symm, numbered_range 0, fun _ _ _ h => by simp at h, fun _ _ _ _ h => by simp at h⟩
  have hl : (Level.ofGraph g : Level α).Closed := Level.closed_ofGraph g
  have hlen : (optimize t (Level.ofGraph g)).length = g.modules.length := by
    rw [length_optimize hl, Level.size_ofGraph]
  have hconn : ∀ a b c, (a, c) ∈ (detect t g).communities.toList → (b, c) ∈ (detect t g).communities.toList →
      g.Connected a b := by
    intro a b c ha hb
    obtain ⟨i, hia, hi, hic⟩ := mem_detect hg ha
    obtain ⟨j, hjb, hj, hjc⟩ := mem_detect hg hb
    exact Level.connected_of_joined (joined_optimize hl hi hj (hic.trans hjc.symm)) hia hjb
  refine ⟨?_, ?_, hconn, fun m hm b c hmc hbc => hm.eq_of_connected (hconn m b c hmc hbc)⟩
  · rw [ModuleMap.keys, toList_detect hg, List.map_fst_zip (by rw [hlen])]
  · obtain ⟨count, hcount⟩ := exists_numbered_optimize (t := t) hl
    rw [Partition.countOf, values_detect hg, hcount.max?_eq]
    exact hcount

end Community
end ModuleAudit
