import Mathlib.Algebra.Order.Field.Basic
import ModuleAudit.Proofs.Graph.Degrees
import ModuleAudit.Proofs.Metric.Centrality
import ModuleAudit.Proofs.Metric.Density

/-! Density and centrality are shares, and most of them are what they are without their cap. A graph without loops has
    no more edges than there are pairs of distinct modules, and no module has more edges in one direction than there are
    other modules; so only the edges of a module in both directions together can exceed the number of other modules. -/

namespace ModuleAudit

namespace Weight

variable {x : Rat}

theorem capped_eq_min (x : Rat) : capped x = min x 1 := by
  rw [capped, min_def_lt]
  exact if_congr decide_eq_true_iff rfl rfl

theorem capped_eq_self (h : x ≤ 1) : capped x = x := by
  rw [capped_eq_min, min_eq_left h]

theorem capped_eq_one (h : 1 ≤ x) : capped x = 1 := by
  rw [capped_eq_min, min_eq_right h]

theorem capped_nonneg (h : 0 ≤ x) : 0 ≤ capped x := by
  rw [capped_eq_min]
  exact le_min h zero_le_one

theorem capped_le_one (x : Rat) : capped x ≤ 1 := by
  rw [capped_eq_min]
  exact min_le_right x 1

end Weight

namespace Graph

variable {g : Graph} {m : String} {k : Nat}

/-- The density of a graph, and the shares of all of its modules. -/
def shares (α : Type) [Weight α] (g : Graph) : List α :=
  g.density :: (g.centrality.degree.values ++ g.centrality.incoming.values ++ g.centrality.outgoing.values)

section
variable {α : Type} [Weight α]

/-- Every share is that of some number of edges, or the density. -/
theorem mem_shares {x : α} (h : x ∈ g.shares α) : x = g.density ∨ ∃ k, x = g.share k := by
  have hvalue {f : String → Nat} (hx : x ∈ (g.nodes.rebuild fun m _ => (g.share (f m) : α)).values) :
      ∃ k, x = g.share k := by
    rw [ModuleMap.values, ModuleMap.toList_rebuild, List.map_map] at hx
    obtain ⟨e, -, rfl⟩ := List.mem_map.mp hx
    exact ⟨f e.1, rfl⟩
  rw [shares, centrality_eq] at h
  rcases List.mem_cons.mp h with rfl | h
  · exact Or.inl rfl
  · rcases List.mem_append.mp h with h | h
    · rcases List.mem_append.mp h with h | h
      · exact Or.inr (hvalue h)
      · exact Or.inr (hvalue h)
    · exact Or.inr (hvalue h)

theorem get?_centrality (hm : m ∈ g.modules) :
    (g.centrality : Centrality α).degree.get? m = some (g.share (g.inDegree m + g.outDegree m)) ∧
      (g.centrality : Centrality α).incoming.get? m = some (g.share (g.inDegree m)) ∧
        (g.centrality : Centrality α).outgoing.get? m = some (g.share (g.outDegree m)) := by
  obtain ⟨p, hp⟩ := ModuleMap.mem_keys_iff.mp hm
  simp only [centrality_eq, ModuleMap.get?_rebuild, hp, Option.map_some, and_self]

end

/-! ### Shares lie between zero and one -/

theorem unit_density (g : Graph) : 0 ≤ (g.density : Rat) ∧ (g.density : Rat) ≤ 1 := by
  rw [density]
  split
  · exact ⟨le_refl _, zero_le_one⟩
  · refine ⟨Weight.capped_nonneg (div_nonneg ?_ (mul_nonneg ?_ ?_)), Weight.capped_le_one _⟩ <;>
      exact Nat.cast_nonneg _

theorem unit_share (g : Graph) (k : Nat) : 0 ≤ (g.share k : Rat) ∧ (g.share k : Rat) ≤ 1 :=
  ⟨Weight.capped_nonneg (div_nonneg (Nat.cast_nonneg _) (Nat.cast_nonneg _)), Weight.capped_le_one _⟩

theorem unit_shares {x : Rat} (h : x ∈ g.shares Rat) : 0 ≤ x ∧ x ≤ 1 := by
  rcases mem_shares h with rfl | ⟨k, rfl⟩
  · exact g.unit_density
  · exact g.unit_share k

theorem unit_shares_floating {x : Float} (h : x ∈ g.shares Float) : 0 ≤ x ∧ x ≤ 1 := by
  rcases mem_shares h with rfl | ⟨k, rfl⟩
  · rw [density]
    split
    · exact ⟨by decide, by decide⟩
    · exact Floating.capped_mem_unit (Floating.unsigned_repack (Floating.unsigned_div (Floating.unsigned_ofNat _)
        (Floating.unsigned_repack (Floating.unsigned_mul (Floating.unsigned_ofNat _) (Floating.unsigned_ofNat _)))))
  · exact Floating.capped_mem_unit (Floating.unsigned_repack
      (Floating.unsigned_div (Floating.unsigned_ofNat _) (Floating.unsigned_ofNat _)))

/-! ### Where the cap does nothing -/

section
variable (hn : 2 ≤ g.nodeCount)
include hn

theorem density_eq_capped :
    (g.density : Rat) = Weight.capped ((g.edgeCount : Rat) / (g.nodeCount * (g.nodeCount - 1 : Nat))) := by
  rw [density, if_neg (by omega)]
  rfl

theorem share_eq_capped (k : Nat) : (g.share k : Rat) = Weight.capped ((k : Rat) / (g.nodeCount - 1 : Nat)) := by
  rw [share, Nat.max_eq_right (by omega)]
  rfl

theorem others_pos : (0 : Rat) < (g.nodeCount - 1 : Nat) := by
  exact_mod_cast (by omega : 0 < g.nodeCount - 1)

theorem share_eq (hk : k ≤ g.nodeCount - 1) : (g.share k : Rat) = k / (g.nodeCount - 1 : Nat) := by
  rw [share_eq_capped hn]
  refine Weight.capped_eq_self ((div_le_one (others_pos hn)).mpr ?_)
  exact_mod_cast hk

theorem share_eq_one (hk : g.nodeCount - 1 ≤ k) : (g.share k : Rat) = 1 := by
  rw [share_eq_capped hn]
  refine Weight.capped_eq_one ((one_le_div (others_pos hn)).mpr ?_)
  exact_mod_cast hk

theorem pairs_pos : (0 : Rat) < g.nodeCount * (g.nodeCount - 1 : Nat) :=
  mul_pos (by exact_mod_cast (by omega : 0 < g.nodeCount)) (others_pos hn)

theorem Loopless.density_eq (h : g.Loopless) :
    (g.density : Rat) = g.edgeCount / (g.nodeCount * (g.nodeCount - 1 : Nat)) := by
  rw [density_eq_capped hn]
  refine Weight.capped_eq_self ((div_le_one (pairs_pos hn)).mpr ?_)
  exact_mod_cast h.edgeCount_le

theorem Loopless.density_eq_one_iff (h : g.Loopless) :
    (g.density : Rat) = 1 ↔ ∀ a ∈ g.modules, ∀ b ∈ g.modules, a ≠ b → g.Edge a b := by
  rw [h.density_eq hn, div_eq_one_iff_eq (pairs_pos hn).ne', ← h.edgeCount_eq_iff]
  exact_mod_cast Iff.rfl

end

/-! ### What is counted, and what the shares are -/

/-- Every edge is counted once on either side, and there is at most one for each ordered pair of modules. -/
structure Counted (g : Graph) : Prop where
  incoming : (g.modules.map g.inDegree).sum = g.edgeCount
  outgoing : (g.modules.map g.outDegree).sum = g.edgeCount
  inDegree_le : ∀ m, g.inDegree m ≤ g.nodeCount
  outDegree_le : ∀ m, g.outDegree m ≤ g.nodeCount
  edgeCount_le : g.edgeCount ≤ g.nodeCount * g.nodeCount

theorem counted (g : Graph) : Counted g where
  incoming := g.sum_map_inDegree
  outgoing := g.sum_map_outDegree
  inDegree_le := g.inDegree_le
  outDegree_le := g.outDegree_le
  edgeCount_le := g.edgeCount_le

/-- Shares that are not capped, apart from that of a module with more edges than there are other modules. -/
structure Uncapped (g : Graph) : Prop where
  density : (g.density : Rat) = g.edgeCount / (g.nodeCount * (g.nodeCount - 1 : Nat))
  incoming : ∀ m ∈ g.modules, g.centrality.incoming.get? m = some ((g.inDegree m : Rat) / (g.nodeCount - 1 : Nat))
  outgoing : ∀ m ∈ g.modules, g.centrality.outgoing.get? m = some ((g.outDegree m : Rat) / (g.nodeCount - 1 : Nat))
  degree : ∀ m ∈ g.modules, g.centrality.degree.get? m =
    some (if (g.edgesAt m).length ≤ g.nodeCount - 1 then ((g.edgesAt m).length : Rat) / (g.nodeCount - 1 : Nat) else 1)
  dense : (g.density : Rat) = 1 ↔ ∀ a ∈ g.modules, ∀ b ∈ g.modules, a ≠ b → g.Edge a b

theorem Loopless.uncapped (h : g.Loopless) (hn : 2 ≤ g.nodeCount) : Uncapped g where
  density := h.density_eq hn
  incoming m hm := by rw [(get?_centrality hm).2.1, share_eq hn (h.inDegree_le m)]
  outgoing m hm := by rw [(get?_centrality hm).2.2, share_eq hn (h.outDegree_le m)]
  degree m hm := by
    rw [(get?_centrality hm).1, ← h.length_edgesAt]
    split_ifs with hle
    · rw [share_eq hn hle]
    · rw [share_eq_one hn (by omega)]
  dense := h.density_eq_one_iff hn

/-- Edges are counted alike from both sides. Without loops a module has at most as many of them in one direction as
    there are other modules, and with two modules or more the cap then changes no share, in exact arithmetic, unless the
    edges of a module in both directions are more than the other modules. In exact arithmetic and in floating point
    every share lies between zero and one. -/
theorem shares_counted (g : Graph) :
    Counted g ∧
      (g.Loopless → (∀ m, g.inDegree m ≤ g.nodeCount - 1 ∧ g.outDegree m ≤ g.nodeCount - 1) ∧
        g.edgeCount ≤ g.nodeCount * (g.nodeCount - 1) ∧ (2 ≤ g.nodeCount → Uncapped g)) ∧
      (∀ x ∈ g.shares Rat, 0 ≤ x ∧ x ≤ 1) ∧ ∀ x ∈ g.shares Float, 0 ≤ x ∧ x ≤ 1 :=
  ⟨g.counted,
    fun h => ⟨fun m => ⟨h.inDegree_le m, h.outDegree_le m⟩, h.edgeCount_le, h.uncapped⟩,
    fun _ => unit_shares, fun _ => unit_shares_floating⟩

/-- Two modules that depend on each other, one of them on a third as well. -/
def reciprocal : Graph := .ofListing ⟨["a", "b", "c"], [("a", "b"), ("b", "a"), ("b", "c")]⟩ fun _ => none

/-- The module in the middle has three edges and two other modules, so that its share is capped. -/
theorem reciprocal_counted :
    (reciprocal.Loopless ∧ 2 ≤ reciprocal.nodeCount) ∧ (reciprocal.density : Rat) = 1 / 2 ∧
      reciprocal.centrality.degree.get? "b" = some (1 : Rat) ∧
        reciprocal.centrality.outgoing.get? "a" = some (1 / 2 : Rat) := by
  have hedges : reciprocal.edges = [("a", "b"), ("b", "a"), ("b", "c")] := by decide +kernel
  have hloopless : reciprocal.Loopless := by
    have hdistinct : ∀ e ∈ reciprocal.edges, e.1 ≠ e.2 := by
      rw [hedges]
      decide
    exact fun m hm => hdistinct _ hm rfl
  have hnodes : reciprocal.nodeCount = 3 := by decide +kernel
  have hmem {m : String} (hm : m ∈ ["a", "b", "c"]) : m ∈ reciprocal.modules := by
    have hmodules : reciprocal.modules = ["a", "b", "c"] := by decide +kernel
    rwa [hmodules]
  obtain ⟨-, -, huncapped⟩ := (shares_counted reciprocal).2.1 hloopless
  have h := huncapped (by omega)
  refine ⟨⟨hloopless, by omega⟩, ?_, ?_, ?_⟩
  · rw [h.density, hnodes, edgeCount, hedges]
    norm_num
  · rw [h.degree "b" (hmem (by simp)), hnodes, edgesAt, hedges]
    decide +kernel
  · rw [h.outgoing "a" (hmem (by simp)), hnodes, outDegree, successors, hedges]
    decide +kernel

end Graph
end ModuleAudit
