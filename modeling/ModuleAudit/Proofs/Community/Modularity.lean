import Mathlib.Algebra.BigOperators.Field
import Mathlib.Algebra.BigOperators.Group.Finset.Sigma
import ModuleAudit.Proofs.Community.Ascent
import ModuleAudit.Proofs.Community.Assigned

/-! The modularity that is reported. Computed community by community from the links of the first level, it is the
    modularity of the graph by its definition: a sum over the pairs of modules that share a community. With what is
    known of the moves it follows that the search only ever improves on modules by themselves. -/

namespace ModuleAudit

/-! ### The modularity of a graph -/

namespace Graph

variable {g : Graph} {t : Community.Tuning Rat} {community community' : String → Nat} {m : String}

/-- The modularity of communities of the modules, by definition: for each ordered pair of modules that share a
    community, whether there is an edge, less the share of the edges that chance would put there. -/
def quality (g : Graph) (t : Community.Tuning Rat) (community : String → Nat) : Rat :=
  (∑ a ∈ g.modules.toFinset, ∑ b ∈ g.modules.toFinset,
    if community a = community b then
      (if g.hasEdge a b then 1 else 0) - 1 / t.resolution * g.outDegree a * g.inDegree b / g.edgeCount
    else 0) / g.edgeCount

theorem sum_edges (g : Graph) (f : String → String → Rat) : (g.edges.map fun e => f e.1 e.2).sum =
    ∑ a ∈ g.modules.toFinset, ∑ b ∈ g.modules.toFinset, if g.hasEdge a b then f a b else 0 := by
  have hfilter : (g.modules.toFinset ×ˢ g.modules.toFinset).filter (fun e => g.hasEdge e.1 e.2) = g.edges.toFinset := by
    ext e
    simp only [Finset.mem_filter, Finset.mem_product, List.mem_toFinset, hasEdge_iff]
    exact ⟨fun he => he.2, fun he => ⟨Edge.mem_modules he, he⟩⟩
  rw [← Finset.sum_product', ← Finset.sum_filter, hfilter, List.sum_toFinset _ g.edges_nodup]

/-- Counting edges by one of their ends. -/
theorem sum_count {f : Dependency → String} (hf : ∀ e ∈ g.edges, f e ∈ g.modules) (h : String → Rat) :
    ∑ a ∈ g.modules.toFinset, ((g.edges.filter (f · == a)).length : Rat) * h a =
      (g.edges.map fun e => h (f e)).sum := by
  suffices key : ∀ es : List Dependency, (∀ e ∈ es, f e ∈ g.modules) →
      ∑ a ∈ g.modules.toFinset, ((es.filter (f · == a)).length : Rat) * h a = (es.map fun e => h (f e)).sum from
    key g.edges hf
  intro es hes
  induction es with
  | nil => simp
  | cons e es ih =>
    have hcons (a : String) : (((e :: es).filter (f · == a)).length : Rat) * h a =
        (if f e = a then h a else 0) + ((es.filter (f · == a)).length : Rat) * h a := by
      by_cases he : f e = a
      · simp [he, add_mul, add_comm]
      · simp [he]
    simp only [hcons, Finset.sum_add_distrib, List.map_cons, List.sum_cons]
    rw [ih fun e he => hes e (List.mem_cons_of_mem _ he), Finset.sum_ite_eq,
      if_pos (List.mem_toFinset.mpr (hes e List.mem_cons_self))]

theorem sum_outDegree (g : Graph) (h : String → Rat) :
    ∑ a ∈ g.modules.toFinset, (g.outDegree a : Rat) * h a = (g.edges.map fun e => h e.1).sum := by
  simp only [outDegree, successors, List.length_map]
  exact sum_count (fun e he => (Edge.mem_modules he).1) h

theorem sum_inDegree (g : Graph) (h : String → Rat) :
    ∑ b ∈ g.modules.toFinset, (g.inDegree b : Rat) * h b = (g.edges.map fun e => h e.2).sum := by
  simp only [inDegree, predecessors, List.length_map]
  exact sum_count (fun e he => (Edge.mem_modules he).2) h

theorem quality_congr
    (h : ∀ a ∈ g.modules, ∀ b ∈ g.modules, (community a = community b ↔ community' a = community' b)) :
    g.quality t community = g.quality t community' := by
  refine congrArg (· / (g.edgeCount : Rat)) ?_
  refine Finset.sum_congr rfl fun a ha => Finset.sum_congr rfl fun b hb => ?_
  simp only [h a (List.mem_toFinset.mp ha) b (List.mem_toFinset.mp hb)]

end Graph

namespace Community

variable {g : Graph} {t : Tuning Rat} {label : Nat → Nat}

/-! ### The first level of a graph -/

namespace Level

theorem sum_ofGraph (g : Graph) (F : Pattern) :
    (ofGraph g).sum F = (g.edges.map fun e => F (g.modules.idxOf e.1) (g.modules.idxOf e.2)).sum := by
  rw [sum_apply, links_ofGraph, List.map_map]
  refine congrArg List.sum (List.map_congr_left fun e _ => ?_)
  exact mul_one _

theorem total_ofGraph (g : Graph) : (ofGraph g : Level Rat).total = g.edgeCount := by
  rw [total_eq, sum_ofGraph]
  simp [Graph.edgeCount]

theorem total_ofGraph_pos (hg : 0 < g.edgeCount) : 0 < (ofGraph g : Level Rat).total := by
  rw [total_ofGraph]
  exact_mod_cast hg

theorem weight_ofGraph {k : Link Rat} (hk : k ∈ (ofGraph g).links) : k.weight = 1 := by
  rw [links_ofGraph] at hk
  obtain ⟨e, -, rfl⟩ := List.mem_map.mp hk
  rfl

theorem nonneg_ofGraph (g : Graph) : (ofGraph g : Level Rat).Nonneg := fun _ hk =>
  (weight_ofGraph hk).symm ▸ zero_le_one

theorem quality_ofGraph (g : Graph) (t : Tuning Rat) (label : Nat → Nat) :
    (ofGraph g).quality t label = g.quality t fun m => label (g.modules.idxOf m) := by
  have hsum : (ofGraph g).sum (same label) = ∑ a ∈ g.modules.toFinset, ∑ b ∈ g.modules.toFinset,
      if label (g.modules.idxOf a) = label (g.modules.idxOf b) then (if g.hasEdge a b then 1 else 0) else 0 := by
    rw [sum_ofGraph, Graph.sum_edges g fun a b => same label (g.modules.idxOf a) (g.modules.idxOf b)]
    refine Finset.sum_congr rfl fun a _ => Finset.sum_congr rfl fun b _ => ?_
    rw [same]
    split_ifs <;> rfl
  have hpaired : (ofGraph g).paired (same label) = ∑ a ∈ g.modules.toFinset, ∑ b ∈ g.modules.toFinset,
      if label (g.modules.idxOf a) = label (g.modules.idxOf b) then (g.outDegree a : Rat) * g.inDegree b else 0 := by
    rw [paired_apply, sources_apply, sum_ofGraph]
    simp only [targets_apply, sum_ofGraph]
    rw [← g.sum_outDegree fun a => (g.edges.map fun e => same label (g.modules.idxOf a) (g.modules.idxOf e.2)).sum]
    refine Finset.sum_congr rfl fun a _ => ?_
    rw [← g.sum_inDegree fun b => same label (g.modules.idxOf a) (g.modules.idxOf b), Finset.mul_sum]
    refine Finset.sum_congr rfl fun b _ => ?_
    rw [same]
    split <;> simp
  rw [quality, Graph.quality, surplus_apply, total_ofGraph, hsum, hpaired, Finset.mul_sum, Finset.sum_div,
    ← Finset.sum_sub_distrib]
  refine congrArg (· / (g.edgeCount : Rat)) (Finset.sum_congr rfl fun a _ => ?_)
  rw [Finset.mul_sum, Finset.sum_div, ← Finset.sum_sub_distrib]
  refine Finset.sum_congr rfl fun b _ => ?_
  rw [Tuning.penalty]
  split
  · ring
  · simp

end Level

/-! ### The modularity that is computed -/

section Computed
variable {l : Level Rat} {labels : List Nat} {count c : Nat}

/-- What a functional gives for each of the chosen nodes adds up to what it gives for them together. -/
theorem sum_chosen (W : (Nat → Rat) →ₗ[Rat] Rat) (n : Nat) (p : Nat → Bool) :
    (((List.range n).filter p).map fun i => W fun a => if a = i then 1 else 0).sum =
      W fun a => if a < n ∧ p a = true then 1 else 0 := by
  rw [← List.sum_toFinset _ (List.nodup_range.filter p), ← map_nodes]
  simp only [List.mem_toFinset, List.mem_filter, List.mem_range]

/-- The pattern that counts the pairs inside one community. -/
def inside (label : Nat → Nat) (c : Nat) : Pattern := fun a b =>
  (if label a = c then 1 else 0) * if label b = c then 1 else 0

/-- A pair with one label is inside exactly one community. -/
theorem sum_inside {a : Nat} (b : Nat) (ha : label a < count) :
    (∑ c ∈ Finset.range count, inside label c) a b = same label a b := by
  simp only [Finset.sum_apply, inside, same, ite_mul, one_mul, zero_mul, Finset.sum_ite_eq, Finset.mem_range, if_pos ha,
    eq_comm (a := label b)]

/-- What a community contributes is the surplus of the pairs inside it. -/
theorem contribution_eq (hl : l.Closed) (t : Tuning Rat) (labels : Array Nat) (c : Nat) :
    contribution t l labels c = l.surplus t (inside (labels.getD · 0) c) := by
  have hends (e : End) : Weight.sum (((List.range l.size).filter fun i => labels.getD i 0 == c).map (l.weightAt e)) =
      l.ends e fun a => if labels.getD a 0 = c then 1 else 0 := by
    rw [weightSum_eq, funext (l.weightAt_eq e), sum_chosen]
    exact Level.ends_congr hl e fun a ha => by simp [ha]
  have hout := hends .source
  have hin := hends .target
  have hinside : Weight.sum ((l.links.filter fun k =>
      labels.getD k.source 0 == c && labels.getD k.target 0 == c).map (·.weight)) =
        l.sum (inside (labels.getD · 0) c) := by
    rw [weightSum_eq, sum_map_filter, Level.sum_apply]
    simp only [inside, Bool.and_eq_true, beq_iff_eq, ite_and, ite_mul, one_mul, zero_mul]
  have hpaired := l.paired_mul (fun a => if labels.getD a 0 = c then 1 else 0)
    (fun b => if labels.getD b 0 = c then 1 else 0)
  simp only [Level.weightAt, Level.ends] at hout hin
  rw [contribution, Level.surplus_apply, hinside, hout, hin, mul_assoc, ← hpaired]
  rfl

/-- Summed over the communities the contributions give the modularity. -/
theorem modularity_eq (hl : l.Closed) (hpos : 0 < l.total) (t : Tuning Rat) (hlen : labels.length = l.size) :
    modularity t l labels = l.quality t (labels.getD · 0) := by
  have hless : Weight.less 0 l.total = true := by simpa [Weight.less] using hpos
  have hget (a : Nat) : labels.toArray.getD a 0 = labels.getD a 0 := by
    simp [Array.getD_eq_getD_getElem?, List.getD_eq_getElem?_getD]
  calc modularity t l labels
      = Weight.sum ((List.range ((labels.max?.map (· + 1)).getD 0)).map (contribution t l labels.toArray)) /
          l.total := by rw [modularity, if_pos hless]
    _ = (∑ c ∈ Finset.range ((labels.max?.map (· + 1)).getD 0),
          l.surplus t (inside (labels.toArray.getD · 0) c)) / l.total := by
        rw [weightSum_eq, funext (contribution_eq hl t labels.toArray)]
        rfl
    _ = l.surplus t (∑ c ∈ Finset.range ((labels.max?.map (· + 1)).getD 0),
          inside (labels.toArray.getD · 0) c) / l.total := by rw [map_sum]
    _ = l.quality t (labels.getD · 0) := by
        refine congrArg (· / l.total) (Level.surplus_congr hl fun a ha b _ => ?_)
        simp only [hget]
        exact sum_inside b (getD_lt_max? (hlen ▸ ha))

end Computed

/-! ### The communities that are found -/

/-- The community of a module. -/
def Partition.community {α : Type} (p : Partition α) (m : String) : Nat := (p.communities.get? m).getD 0

/-- The community of a module while the search moves the nodes of some level: the label of the node that the module
    has become part of. -/
def placed {α : Type} (g : Graph) (membership : List Nat) (s : Moving α) (m : String) : Nat :=
  s.label (membership.getD (g.modules.idxOf m) 0)

theorem community_detect {m : String} (t : Tuning Rat) (hm : m ∈ g.modules) :
    (detect t g).community m = (optimize t (Level.ofGraph g)).getD (g.modules.idxOf m) 0 := by
  have hlt := List.idxOf_lt_length_of_mem hm
  have hlabel : g.modules.idxOf m < (optimize t (Level.ofGraph g)).length := by
    rwa [length_optimize (Level.closed_ofGraph g), Level.size_ofGraph]
  have hentry : (m, (optimize t (Level.ofGraph g)).getD (g.modules.idxOf m) 0) ∈
      (detect t g).communities.toList := by
    rw [toList_detect (List.ne_nil_of_mem hm), List.getD_eq_getElem _ _ hlabel]
    refine List.mem_iff_getElem?.mpr ⟨g.modules.idxOf m, List.getElem?_zip_eq_some.mpr ⟨?_, ?_⟩⟩
    · rw [List.getElem?_eq_getElem hlt, List.getElem_idxOf]
    · exact List.getElem?_eq_getElem hlabel
  rw [Partition.community, ModuleMap.get?_eq_some_iff.mpr hentry, Option.getD_some]

/-- Communities that are coarser than those found have the same modularity on the first level. -/
theorem quality_coarser (g : Graph) (t : Tuning Rat) (f : Nat → Nat) :
    (Level.ofGraph g).quality t (fun a => f ((optimize t (Level.ofGraph g)).getD a 0)) =
      g.quality t fun m => f ((detect t g).community m) := by
  rw [Level.quality_ofGraph]
  refine Graph.quality_congr fun a ha b hb => ?_
  rw [community_detect t ha, community_detect t hb]

theorem quality_optimize (g : Graph) (t : Tuning Rat) :
    (Level.ofGraph g).quality t ((optimize t (Level.ofGraph g)).getD · 0) = g.quality t (detect t g).community :=
  quality_coarser g t id

theorem modularity_detect (hg : 0 < g.edgeCount) (t : Tuning Rat) :
    (detect t g).modularity = g.quality t (detect t g).community := by
  have hl : (Level.ofGraph g : Level Rat).Closed := Level.closed_ofGraph g
  rw [← quality_optimize, ← modularity_eq hl (Level.total_ofGraph_pos hg) t (length_optimize hl), detect, if_neg]
  exact fun hempty => Graph.modules_ne_nil hg (Graph.isEmpty_iff.mp hempty)

/-- In exact arithmetic the reported modularity is that of the communities found; every move that the search makes, on
    whatever level, raises the modularity of the communities of the modules by more than the tolerance, as a share of
    the number of edges; so what is found is no worse than modules by themselves. -/
theorem detect_ascends (t : Tuning Rat) (g : Graph) (hg : 0 < g.edgeCount) :
    (detect t g).modularity = g.quality t (detect t g).community ∧
      (∀ l membership, Reached t (Level.ofGraph g) l membership → ∀ s, Moving.Reachable t l s → ∀ i < l.size,
        (s.visit t l i).2 = true →
          g.quality t (placed g membership s) + Weight.tolerance / g.edgeCount <
            g.quality t (placed g membership (s.visit t l i).1)) ∧
        ∀ alone : String → Nat, (∀ a ∈ g.modules, ∀ b ∈ g.modules, alone a = alone b → a = b) →
          g.quality t alone ≤ g.quality t (detect t g).community := by
  have hbase : (Level.ofGraph g : Level Rat).Closed := Level.closed_ofGraph g
  have hpos := Level.total_ofGraph_pos hg
  refine ⟨modularity_detect hg t, fun l membership h s hs i hi hmoved => ?_, fun alone halone => ?_⟩
  · have hgain := Moving.quality_of_moved (h.lifted hbase).closed (h.total_eq hbase ▸ hpos) hs hi hmoved
    rwa [h.quality_eq hbase, h.quality_eq hbase, h.total_eq hbase, Level.total_ofGraph,
      Level.quality_ofGraph, Level.quality_ofGraph] at hgain
  · obtain ⟨l, membership, h, heq, -⟩ := exists_reached_optimize (t := t) hbase
    calc g.quality t alone
        = g.quality t g.modules.idxOf := Graph.quality_congr fun a ha b hb =>
          ⟨fun hab => by rw [halone a ha b hb hab], fun hab => by rw [(List.idxOf_inj ha).mp hab]⟩
      _ = (Level.ofGraph g).quality t id := (Level.quality_ofGraph g t id).symm
      _ ≤ (Level.ofGraph g).quality t (membership.getD · 0) := h.le_quality hbase hpos
      _ = (Level.ofGraph g).quality t ((optimize t (Level.ofGraph g)).getD · 0) := by
        refine Level.quality_congr hbase fun a ha b hb => ?_
        have hlen := (h.lifted hbase).length
        rw [heq, renumber_getD_eq_iff (hlen ▸ ha) (hlen ▸ hb)]
      _ = g.quality t (detect t g).community := quality_optimize g t

/-- Two modules, the first of which depends on the second. -/
def pair : Graph := .ofListing ⟨["a", "b"], [("a", "b")]⟩ fun _ => none

/-- Half of the edges that chance would put into a community, and a single pass. -/
def halved : Tuning Rat := ⟨2, 1⟩

/-- In a pair the first module moves to the second, and that raises the modularity. -/
theorem pair_ascends :
    0 < pair.edgeCount ∧ (detect halved pair).modularity = pair.quality halved (detect halved pair).community ∧
      pair.quality halved (placed pair [0, 1] (.start (Level.ofGraph pair : Level Rat))) +
          Weight.tolerance / pair.edgeCount <
        pair.quality halved (placed pair [0, 1] (Moving.visit halved (.ofGraph pair) (.start (.ofGraph pair)) 0).1) ∧
      pair.quality halved pair.modules.idxOf ≤ pair.quality halved (detect halved pair).community := by
  have hedge : 0 < pair.edgeCount := by decide +kernel
  obtain ⟨hmodularity, hmove, halone⟩ := detect_ascends halved pair hedge
  exact ⟨hedge, hmodularity, hmove _ _ .base _ .start 0 (by decide +kernel) (by decide +kernel),
    halone _ fun _ ha _ _ hab => (List.idxOf_inj ha).mp hab⟩

end Community
end ModuleAudit
