import Mathlib.Algebra.Order.BigOperators.Group.Finset
import ModuleAudit.Proofs.Community.Contraction

/-! The totals kept while nodes are moved, in exact arithmetic. A visit takes the weights of a node out of the totals of
    its community and adds them to those of the one where it goes; so before a visit, in the middle of it and after it
    each total is the sum of the weights of the nodes that count for it, and no weight is lost. A node weighs its links
    with the communities of its neighbours by themselves, without its loop. -/

namespace ModuleAudit.Community

variable {l : Level Rat} {t : Tuning Rat} {s : Moving Rat} {i c : Nat}

/-! ### The levels built -/

namespace Level

/-- The level of a graph, and those whose nodes are the communities of another one, however its nodes are put into
    communities. -/
inductive Built : Level Rat → Prop
  | ofGraph (g : Graph) : Built (ofGraph g)
  | aggregate {l : Level Rat} {labels : Array Nat} {count : Nat} (hsize : labels.size = l.size)
      (hlt : ∀ a < l.size, labels.getD a 0 < count) (h : Built l) : Built (l.aggregate labels count)

theorem Built.closed (h : Built l) : l.Closed := by
  induction h with
  | ofGraph g => exact closed_ofGraph g
  | aggregate _ hlt _ ih => exact ih.aggregate hlt

theorem Built.nonneg (h : Built l) : l.Nonneg := by
  induction h with
  | ofGraph g => exact nonneg_ofGraph g
  | aggregate _ _ _ ih => exact ih.aggregate _ _

/-- The levels that the search goes through are among them. -/
theorem Built.of_reached {g : Graph} {membership : List Nat} (h : Reached t (.ofGraph g) l membership) : l.Built := by
  induction h with
  | base => exact .ofGraph g
  | contract _ ih =>
    refine .aggregate ?_ (fun _ ha => number_lt ha) ih
    rw [List.size_toArray, length_renumber, length_labels_run]

end Level

/-! ### Totals as sums over nodes -/

/-- For each label the sum of the weights of the nodes that have it, among those that are counted. -/
structure Balanced (totals : Array Rat) (size : Nat) (weight : Nat → Rat) (label : Nat → Nat) (nodes : Finset Nat) :
    Prop where
  size_eq : totals.size = size
  entry : ∀ c < size, totals[c]? = some (∑ i ∈ nodes with label i = c, weight i)
  sum : totals.toList.sum = ∑ i ∈ nodes, weight i
  nonneg : ∀ w ∈ totals, 0 ≤ w

theorem sum_toList_eq (totals : Array Rat) : totals.toList.sum = ∑ c ∈ Finset.range totals.size, totals.getD c 0 := by
  have hlist : totals.toList = (List.range totals.size).map (totals.getD · 0) :=
    List.ext_getElem (by simp) fun c hc _ => by simp [Array.getD_eq_getD_getElem?, Array.length_toList ▸ hc]
  rw [hlist]
  rfl

/-- What the nodes weigh at one end of the links is all the weight. -/
theorem Level.sum_weightAt (hl : l.Closed) (e : End) : ∑ i ∈ Finset.range l.size, l.weightAt e i = l.total := by
  calc ∑ i ∈ Finset.range l.size, l.weightAt e i
      = l.ends e fun _ => 1 := by
        rw [funext (l.weightAt_eq e), ← map_nodes]
        exact ends_congr hl e fun a ha => if_pos (Finset.mem_range.mpr ha)
    _ = l.total := by rw [ends_apply, total_eq]

theorem Totals.balanced {e : End} {totals : Array Rat} {member : Nat → Nat → Rat} {label : Nat → Nat}
    {nodes : Finset Nat} (h : Totals (l.ends e) l.size totals member) (hl : l.Closed) (hnonneg : l.Nonneg)
    (hmember : ∀ c, ∀ a < l.size, member c a = if a ∈ nodes ∧ label a = c then 1 else 0)
    (hlt : ∀ a ∈ nodes, label a < l.size) : Balanced totals l.size (l.weightAt e) label nodes := by
  have hget : ∀ c < l.size, totals.getD c 0 = ∑ i ∈ nodes with label i = c, l.weightAt e i := by
    intro c hc
    rw [h.getD_eq c hc, funext (l.weightAt_eq e), ← map_nodes]
    refine Level.ends_congr hl e fun a ha => ?_
    rw [hmember c a ha]
    simp only [Finset.mem_filter]
  refine ⟨h.size_eq, fun c hc => ?_, ?_, fun w hw => ?_⟩
  · rw [← hget c hc, Array.getD_eq_getD_getElem?, Array.getElem?_eq_getElem (h.size_eq ▸ hc), Option.getD_some]
  · rw [sum_toList_eq, h.size_eq]
    -- Each node counts for one label, so the sums for all labels are the sum over all nodes.
    calc ∑ c ∈ Finset.range l.size, totals.getD c 0
        = ∑ c ∈ Finset.range l.size, ∑ i ∈ nodes with label i = c, l.weightAt e i :=
          Finset.sum_congr rfl fun c hc => hget c (Finset.mem_range.mp hc)
      _ = ∑ i ∈ nodes, l.weightAt e i :=
          Finset.sum_fiberwise_of_maps_to (fun a ha => Finset.mem_range.mpr (hlt a ha)) (l.weightAt e)
  · obtain ⟨c, hc, rfl⟩ := Array.mem_iff_getElem.mp hw
    have hentry := hget c (h.size_eq ▸ hc)
    rw [Array.getD_eq_getD_getElem?, Array.getElem?_eq_getElem hc, Option.getD_some] at hentry
    rw [hentry]
    exact Finset.sum_nonneg fun i _ => hnonneg.weightAt_nonneg e i

namespace Moving

/-! ### Before, in and after a visit -/

section
variable (h : Tallied l s) (hl : l.Closed) (hnonneg : l.Nonneg) (hlt : ∀ a < l.size, s.label a < l.size) (e : End)
include h hl hnonneg hlt

theorem Tallied.balanced : Balanced (s.totals e) l.size (l.weightAt e) s.label (Finset.range l.size) := by
  refine (h e).balanced hl hnonneg (fun c a ha => ?_) fun a ha => hlt a (Finset.mem_range.mp ha)
  simp only [Finset.mem_range, ha, true_and]

/-- Once a node has left its community, the totals are those of the other nodes. -/
theorem Tallied.balanced_leave (i : Nat) : Balanced ((s.leave l i (s.label i)).totals e) l.size (l.weightAt e) s.label
    ((Finset.range l.size).erase i) := by
  refine (h.leave i e).balanced hl hnonneg (fun c a ha => ?_) fun a ha =>
    hlt a (Finset.mem_range.mp (Finset.mem_of_mem_erase ha))
  simp only [others, Finset.mem_erase, Finset.mem_range, ha, and_true]

end

/-! ### The links of a node -/

/-- The communities of the other nodes that a node is adjacent to, each once and in ascending order, with the weight of
    the links in both directions. -/
structure Linked (l : Level Rat) (s : Moving Rat) (i : Nat) : Prop where
  ascending : ((s.links l i).map Prod.fst).Pairwise (· < ·)
  keys : ∀ c, c ∈ (s.links l i).map Prod.fst ↔ ∃ j < l.size, j ≠ i ∧ l.Adjacent i j ∧ s.label j = c
  weight : ∀ p ∈ s.links l i,
    p.2 = ∑ j ∈ (Finset.range l.size).erase i with s.label j = p.1, (l.weightTo i j + l.weightTo j i)
  get : ∀ c, (s.links l i).get c =
    ∑ j ∈ (Finset.range l.size).erase i with s.label j = c, (l.weightTo i j + l.weightTo j i)

theorem mem_keys_links_iff (hl : l.Closed) :
    c ∈ (s.links l i).map Prod.fst ↔ ∃ j < l.size, j ≠ i ∧ l.Adjacent i j ∧ s.label j = c := by
  rw [mem_keys_links]
  constructor
  · rintro ⟨p, hp, hlabel⟩
    have hij := Level.adjacent_of_mem_neighbours hp
    exact ⟨p.1, (hl.lt_of_adjacent hij).2, (Level.mem_neighbours.mp hp).1, hij, hlabel⟩
  · rintro ⟨j, -, hne, ⟨k, hk, hends⟩, hlabel⟩
    exact ⟨(j, k.weight), Level.mem_neighbours.mpr ⟨hne, k, hk, rfl, hends⟩, hlabel⟩

/-- The links that touch a node and the others of a community, counted by the other end. -/
theorem sum_touch (hl : l.Closed) (label : Nat → Nat) (i c : Nat) : l.sum (touch label i c) =
    ∑ j ∈ (Finset.range l.size).erase i with label j = c, (l.weightTo i j + l.weightTo j i) := by
  -- An end of a link is another node of the community exactly when it is one of those that the sum goes over.
  have hothers {a : Nat} (ha : a < l.size) : others label i c a =
      ∑ j ∈ (Finset.range l.size).erase i with label j = c, if a = j then 1 else 0 := by
    rw [Finset.sum_ite_eq]
    simp only [others, Finset.mem_filter, Finset.mem_erase, Finset.mem_range, ha, and_true]
  simp only [Level.weightTo_eq, ← map_add, ← map_sum]
  refine Level.sum_congr fun k hk => ?_
  simp only [touch, Finset.sum_apply, Pi.add_apply, Finset.sum_add_distrib, ← Finset.mul_sum, ← Finset.sum_mul]
  rw [hothers (hl k hk).1, hothers (hl k hk).2]

theorem linked (hl : l.Closed) (s : Moving Rat) (i : Nat) : Linked l s i where
  ascending := Tally.sorted_ofList _
  keys _ := mem_keys_links_iff hl
  weight _ hp := (weight_of_mem_links hp).trans (sum_touch hl _ _ _)
  get c := (links_get s l i c).trans (sum_touch hl s.label i c)

/-! ### The totals never drift -/

/-- The totals before a visit, and in the middle of the visit of each node, and the links from which it chooses. -/
structure InStep (l : Level Rat) (s : Moving Rat) : Prop where
  out : Balanced s.outTotals l.size l.outWeight s.label (Finset.range l.size)
  into : Balanced s.inTotals l.size l.inWeight s.label (Finset.range l.size)
  outTotal : s.outTotals.toList.sum = l.total
  inTotal : s.inTotals.toList.sum = l.total
  left : ∀ i < l.size,
    Balanced (s.leave l i (s.label i)).outTotals l.size l.outWeight s.label ((Finset.range l.size).erase i) ∧
      Balanced (s.leave l i (s.label i)).inTotals l.size l.inWeight s.label ((Finset.range l.size).erase i)
  links : ∀ i < l.size, Linked l s i

theorem Reachable.inStep (hl : l.Closed) (hnonneg : l.Nonneg) (h : Reachable t l s) : InStep l s := by
  have hlt : ∀ a < l.size, s.label a < l.size := fun _ ha => h.label_lt hl ha
  have hbalanced := (h.tallied hl).balanced hl hnonneg hlt
  have hleft := (h.tallied hl).balanced_leave hl hnonneg hlt
  exact {
    out := hbalanced .source
    into := hbalanced .target
    outTotal := (hbalanced .source).sum.trans (Level.sum_weightAt hl .source)
    inTotal := (hbalanced .target).sum.trans (Level.sum_weightAt hl .target)
    left := fun i _ => ⟨hleft .source i, hleft .target i⟩
    links := fun i _ => linked hl s i }

end Moving

/-- The totals stay in step on every level that the search for the communities of a graph goes through. -/
theorem Reached.inStep {g : Graph} {membership : List Nat} (h : Reached t (.ofGraph g) l membership)
    (hs : Moving.Reachable t l s) : Moving.InStep l s := by
  have hbuilt := Level.Built.of_reached h
  exact hs.inStep hbuilt.closed hbuilt.nonneg

/-- In exact arithmetic the totals stay in step with the labels: on every level, whatever the settings, before and after
    each visit. -/
theorem visits_in_step (t : Tuning Rat) (l : Level Rat) (hl : l.Built) (s : Moving Rat)
    (hs : Moving.Reachable t l s) :
    Moving.InStep l s ∧ (∀ i < l.size, Moving.InStep l (s.visit t l i).1) ∧ Moving.InStep l (Moving.run t l).1 :=
  ⟨hs.inStep hl.closed hl.nonneg, fun _ hi => (Moving.Reachable.visit hi hs).inStep hl.closed hl.nonneg,
    (Moving.run_reachable t l).inStep hl.closed hl.nonneg⟩

/-- Of three modules the first two are one node; the third depends on itself. -/
def folded : Level Rat :=
  let edges := [("a", "b"), ("b", "a"), ("b", "c"), ("c", "a"), ("c", "c")]
  (Level.ofGraph (.ofListing ⟨["a", "b", "c"], edges⟩ fun _ => none)).aggregate #[0, 0, 1] 2

/-- When the two nodes have become one community it has all the weight, and each has two links with it, one in each
    direction: the loops are left out. -/
theorem folded_in_step :
    let t : Tuning Rat := ⟨4, 1⟩
    let s := ((Moving.start folded).visit t folded 0).1
    (folded.Built ∧ Moving.Reachable t folded s) ∧ Moving.InStep folded s ∧
      s.labels = #[1, 1] ∧ s.outTotals = #[0, 5] ∧ s.inTotals = #[0, 5] ∧
      s.links folded 0 = [(1, 2)] ∧ s.links folded 1 = [(1, 2)] := by
  intro t s
  have hbuilt : folded.Built := .aggregate (by decide +kernel) (by decide +kernel) (.ofGraph _)
  have hreachable : Moving.Reachable t folded s := .visit (by decide +kernel) .start
  exact ⟨⟨hbuilt, hreachable⟩, (visits_in_step t folded hbuilt s hreachable).1, by decide +kernel, by decide +kernel,
    by decide +kernel, by decide +kernel, by decide +kernel⟩

end ModuleAudit.Community
