import Mathlib.Algebra.Order.BigOperators.Group.Finset
import Mathlib.Data.Finset.Card
import Mathlib.Tactic.FieldSimp
import Mathlib.Tactic.Linarith
import ModuleAudit.Proofs.Community.Modularity

/-! Mergers of the communities that are found, in exact arithmetic. The search stops at a level where no node moves, and
    the nodes of that level are the communities; that none of them moves to another says that no two have links with a
    surplus above the tolerance. Since surpluses add up, no coarser communities are better by more than the tolerance
    for each pair that they merge. -/

namespace ModuleAudit.Community

variable {l base : Level Rat} {g : Graph} {t : Tuning Rat} {label f : Nat → Nat} {i j k c d : Nat}

/-- The pattern that counts the links between two communities, in both directions. -/
def between (label : Nat → Nat) (p : Nat × Nat) : Pattern := fun a b =>
  (if (label a, label b) = p then 1 else 0) + if (label b, label a) = p then 1 else 0

theorem between_nonneg (label : Nat → Nat) (p : Nat × Nat) (a b : Nat) : 0 ≤ between label p a b := by
  rw [between]
  split_ifs <;> simp

/-- Of the communities `0, …, k - 1`, the pairs that become one. -/
def merged (f : Nat → Nat) (k : Nat) : Finset (Nat × Nat) :=
  (Finset.range k ×ˢ Finset.range k).filter fun p => p.1 < p.2 ∧ f p.1 = f p.2

theorem mem_merged {p : Nat × Nat} : p ∈ merged f k ↔ (p.1 < k ∧ p.2 < k) ∧ p.1 < p.2 ∧ f p.1 = f p.2 := by
  rw [merged, Finset.mem_filter, Finset.mem_product, Finset.mem_range, Finset.mem_range]

/-! ### Where no node moves -/

/-- A node by itself has no links with others of its community. -/
theorem surplus_touch_self {s : Moving Rat} (hl : l.Closed) (hown : ∀ j < l.size, s.label j = j) (hi : i < l.size) :
    l.surplus t (touch s.label i (s.label i)) = 0 := by
  rw [Level.surplus_congr (G := 0) hl fun a ha b hb => ?_, map_zero]
  simp only [touch, others, hown a ha, hown b hb, hown i hi, Pi.zero_apply]
  by_cases hai : a = i <;> by_cases hbi : b = i <;> simp [hai, hbi]

/-- On a level where no node moves, the links between two nodes have no surplus above the tolerance. -/
theorem surplus_between_of_still (hl : l.Closed) (hnonneg : l.Nonneg) (ht : 0 ≤ t.penalty)
    (hstill : (Moving.run t l).2 = false) (hi : i < l.size) (hj : j < l.size) (hij : i ≠ j) :
    l.surplus t (between id (i, j)) ≤ Weight.tolerance := by
  obtain ⟨s, hs, hown, hstay⟩ := Moving.exists_still hstill hi
  by_cases hlinked : j ∈ (s.links l i).map Prod.fst
  · have hpair : l.surplus t (between id (i, j)) = l.surplus t (touch s.label i j) := by
      refine Level.surplus_congr hl fun a ha b hb => ?_
      simp only [between, touch, others, hown a ha, hown b hb, id_eq, Prod.mk.injEq]
      by_cases hai : a = i <;> by_cases hbi : b = i <;> simp [hai, hbi, hij]
    have hle := Moving.surplus_of_still hl hs hi hstay hlinked (by rw [hown i hi]; exact hij.symm)
    rwa [surplus_touch_self hl hown hi, zero_add, ← hpair] at hle
  · refine (Level.surplus_nonpos hnonneg ht (between_nonneg _ _) fun k hk => ?_).trans Moving.tolerance_nonneg
    have hunlinked : ¬((k.source = i ∧ k.target = j) ∨ (k.source = j ∧ k.target = i)) := fun hends =>
      hlinked (Moving.mem_keys_links.mpr
        ⟨(j, k.weight), Level.mem_neighbours.mpr ⟨hij.symm, k, hk, rfl, hends⟩, hown j hj⟩)
    rw [not_or] at hunlinked
    simp [between, hunlinked.1, and_comm, hunlinked.2]

/-- The links between two of the communities found have no surplus above the tolerance. -/
theorem surplus_between_optimize (hbase : base.Closed) (hnonneg : base.Nonneg) (ht : 0 ≤ t.penalty)
    (hpos : 0 < base.total) (hnum : Numbered (optimize t base) k) (hc : c < k) (hd : d < k) (hcd : c ≠ d) :
    base.surplus t (between ((optimize t base).getD · 0) (c, d)) ≤ Weight.tolerance := by
  obtain ⟨l, membership, h, heq, hstill⟩ := exists_reached_optimize (t := t) hbase
  have hlift := h.lifted hbase
  -- Each community is a node of the last level.
  have hnode {c : Nat} (hc : c < k) :
      ∃ i < l.size, ∀ a < base.size, (optimize t base).getD a 0 = c ↔ membership.getD a 0 = i := by
    obtain ⟨x, hx, rfl⟩ := hnum.exists_getD_eq hc
    rw [length_optimize hbase] at hx
    refine ⟨membership.getD x 0, hlift.getD_lt hx, fun a ha => ?_⟩
    rw [heq]
    exact renumber_getD_eq_iff (hlift.length ▸ ha) (hlift.length ▸ hx)
  obtain ⟨i, hi, hci⟩ := hnode hc
  obtain ⟨j, hj, hdj⟩ := hnode hd
  have hij : i ≠ j := by
    rintro rfl
    obtain ⟨x, hx, hxc⟩ := hnum.exists_getD_eq hc
    rw [length_optimize hbase] at hx
    exact hcd (hxc.symm.trans ((hdj x hx).mpr ((hci x hx).mp hxc)))
  have hless : Weight.less 0 base.total = true := by simpa [Weight.less] using hpos
  have hle := surplus_between_of_still hlift.closed (h.nonneg hnonneg) ht (hstill hless) hi hj hij
  rw [h.surplus_eq hbase] at hle
  rw [Level.surplus_congr hbase fun a ha b hb => ?_]
  · exact hle
  · simp only [between, id_eq, Prod.mk.injEq, hci a ha, hci b hb, hdj a ha, hdj b hb]

/-! ### Coarser communities -/

/-- Two nodes share a merged community when they share one already or their communities become one. -/
theorem same_merged (label f : Nat → Nat) {a b : Nat} (ha : label a < k) (hb : label b < k) :
    same (fun a => f (label a)) a b = (same label + ∑ p ∈ merged f k, between label p) a b := by
  simp only [same, between, Pi.add_apply, Finset.sum_apply, Finset.sum_add_distrib, Finset.sum_ite_eq, mem_merged, ha,
    hb, and_self, true_and]
  rcases lt_trichotomy (label a) (label b) with hab | hab | hab
  · simp [hab, hab.ne, hab.not_gt]
  · simp [hab]
  · simp [hab, hab.ne', hab.not_gt, eq_comm]

/-- Where the links between any two communities have no surplus above a bound, a merger raises the modularity by no
    more than the bound for each merged pair. -/
theorem quality_merged_le (hl : l.Closed) (hpos : 0 < l.total) {bound : Rat} (f : Nat → Nat)
    (hlabel : ∀ a < l.size, label a < k) (hbound : ∀ p ∈ merged f k, l.surplus t (between label p) ≤ bound) :
    l.quality t (fun a => f (label a)) ≤ l.quality t label + (merged f k).card * (bound / l.total) := by
  have hsurplus : l.surplus t (same fun a => f (label a)) =
      l.surplus t (same label) + ∑ p ∈ merged f k, l.surplus t (between label p) := by
    rw [← map_sum, ← map_add]
    exact Level.surplus_congr hl fun a ha b hb => same_merged label f (hlabel a ha) (hlabel b hb)
  have hsum := Finset.sum_le_card_nsmul _ _ _ hbound
  rw [nsmul_eq_mul] at hsum
  rw [Level.quality, Level.quality, hsurplus, add_div, ← mul_div_assoc]
  exact add_le_add_right ((div_le_div_iff_of_pos_right hpos).mpr hsum) _

theorem quality_const (hpos : 0 < l.total) (t : Tuning Rat) (c : Nat) : l.quality t (fun _ => c) = 1 - t.penalty := by
  have hsame : (same fun _ => c) = fun _ _ => 1 := by
    funext a b
    simp [same]
  have hsum : l.sum (same fun _ => c) = l.total := by rw [hsame, Level.total_eq]
  have hpaired : l.paired (same fun _ => c) = l.total * l.total := by rw [hsame, Level.paired_one]
  rw [Level.quality, Level.surplus_apply, hsum, hpaired]
  field_simp

theorem card_merged_le (f : Nat → Nat) (k : Nat) : ((merged f k).card : Rat) ≤ k * (k - 1) / 2 := by
  induction k with
  | zero => simp [merged]
  | succ k ih =>
    have hsub : merged f (k + 1) ⊆ merged f k ∪ (Finset.range k).image fun c => (c, k) := by
      intro p hp
      obtain ⟨⟨hc, hd⟩, hcd, hf⟩ := mem_merged.mp hp
      rcases Nat.lt_succ_iff_lt_or_eq.mp hd with hd | hd
      · exact Finset.mem_union_left _ (mem_merged.mpr ⟨⟨by omega, hd⟩, hcd, hf⟩)
      · exact Finset.mem_union_right _ (Finset.mem_image.mpr
          ⟨p.1, Finset.mem_range.mpr (by omega), Prod.ext rfl hd.symm⟩)
    have hcard : (merged f (k + 1)).card ≤ (merged f k).card + k := by
      refine (Finset.card_le_card hsub).trans ((Finset.card_union_le _ _).trans (Nat.add_le_add_left ?_ _))
      exact Finset.card_image_le.trans (Finset.card_range k).le
    have hcard' : ((merged f (k + 1)).card : Rat) ≤ (merged f k).card + k := by exact_mod_cast hcard
    push_cast
    linarith

theorem card_merged_pair_le (c d k : Nat) : (merged (fun x => if x = d then c else x) k).card ≤ 1 := by
  refine Finset.card_le_one.mpr fun p hp q hq => ?_
  obtain ⟨-, hp, hfp⟩ := mem_merged.mp hp
  obtain ⟨-, hq, hfq⟩ := mem_merged.mp hq
  refine Prod.ext ?_ ?_ <;> split_ifs at hfp hfq <;> omega

/-! ### The communities found -/

theorem resolution_pos (ht : t.fault? = none) : 0 < t.resolution := by
  by_contra hneg
  simp [Tuning.fault?, Weight.less, Weight.isFinite, hneg] at ht

theorem penalty_nonneg (ht : t.fault? = none) : 0 ≤ t.penalty := div_nonneg zero_le_one (resolution_pos ht).le

theorem numbered_optimize (t : Tuning Rat) (hg : 0 < g.edgeCount) :
    Numbered (optimize t (Level.ofGraph g)) (detect t g).count := by
  have := (detect_assigned t g).numbered
  rwa [values_detect (Graph.modules_ne_nil hg)] at this

/-- No communities that are coarser than those found are better by more than the tolerance for each merged pair. -/
theorem quality_coarser_le (ht : t.fault? = none) (hg : 0 < g.edgeCount) (f : Nat → Nat) :
    g.quality t (fun m => f ((detect t g).community m)) ≤ g.quality t (detect t g).community +
      (merged f (detect t g).count).card * (Weight.tolerance / g.edgeCount) := by
  have hbase : (Level.ofGraph g : Level Rat).Closed := Level.closed_ofGraph g
  have hpos := Level.total_ofGraph_pos hg
  have hnum := numbered_optimize t hg
  have hlt : ∀ a < (Level.ofGraph g : Level Rat).size, (optimize t (Level.ofGraph g)).getD a 0 < (detect t g).count :=
    fun a ha => hnum.getD_lt (length_optimize hbase ▸ ha)
  have hle := quality_merged_le hbase hpos f hlt fun p hp => by
    obtain ⟨⟨hc, hd⟩, hcd, -⟩ := mem_merged.mp hp
    exact surplus_between_optimize hbase (Level.nonneg_ofGraph g) (penalty_nonneg ht) hpos hnum hc hd hcd.ne
  rwa [Level.total_ofGraph, quality_optimize, quality_coarser] at hle

theorem quality_together (hg : 0 < g.edgeCount) (t : Tuning Rat) : g.quality t (fun _ => 0) = 1 - 1 / t.resolution := by
  rw [← Level.quality_ofGraph g t fun _ => 0, quality_const (Level.total_ofGraph_pos hg)]
  rfl

/-- In exact arithmetic no two of the communities found are better merged by more than the tolerance, as a share of the
    number of edges; no coarser communities are better by more than that for each pair that they merge; and compared
    with one community of all modules this bounds the modularity that is reported from below. -/
theorem detect_merge_stable (t : Tuning Rat) (g : Graph) (ht : t.fault? = none) (hg : 0 < g.edgeCount) :
    (∀ c < (detect t g).count, ∀ d < (detect t g).count, c ≠ d →
      g.quality t (fun m => if (detect t g).community m = d then c else (detect t g).community m) ≤
        g.quality t (detect t g).community + Weight.tolerance / g.edgeCount) ∧
      (∀ f : Nat → Nat, g.quality t (fun m => f ((detect t g).community m)) ≤
        g.quality t (detect t g).community +
          (merged f (detect t g).count).card * (Weight.tolerance / g.edgeCount)) ∧
      1 - 1 / t.resolution - (detect t g).count * ((detect t g).count - 1) / 2 * (Weight.tolerance / g.edgeCount) ≤
        (detect t g).modularity := by
  have htol : 0 ≤ Weight.tolerance / (g.edgeCount : Rat) := div_nonneg Moving.tolerance_nonneg (Nat.cast_nonneg _)
  refine ⟨fun c _ d _ _ => ?_, quality_coarser_le ht hg, ?_⟩
  · refine (quality_coarser_le ht hg fun x => if x = d then c else x).trans (add_le_add_right ?_ _)
    have hcard : ((merged (fun x => if x = d then c else x) (detect t g).count).card : Rat) ≤ 1 := by
      exact_mod_cast card_merged_pair_le c d _
    exact (mul_le_mul_of_nonneg_right hcard htol).trans_eq (one_mul _)
  · have hle := quality_coarser_le ht hg fun _ => 0
    have hcard := mul_le_mul_of_nonneg_right (card_merged_le (fun _ => 0) (detect t g).count) htol
    rw [quality_together hg, ← modularity_detect hg] at hle
    linarith

/-- Twice the edges that chance would put into a community, and a single pass. -/
def doubled : Tuning Rat := ⟨1 / 2, 1⟩

/-- Here the modules of a pair stay apart, and neither merging them nor any other merger is better. -/
theorem pair_merge_stable :
    doubled.fault? = none ∧ 0 < pair.edgeCount ∧ (detect doubled pair).count = 2 ∧
      pair.quality doubled
          (fun m => if (detect doubled pair).community m = 1 then 0 else (detect doubled pair).community m) ≤
        pair.quality doubled (detect doubled pair).community + Weight.tolerance / pair.edgeCount ∧
      (∀ f : Nat → Nat, pair.quality doubled (fun m => f ((detect doubled pair).community m)) ≤
        pair.quality doubled (detect doubled pair).community +
          (merged f (detect doubled pair).count).card * (Weight.tolerance / pair.edgeCount)) ∧
      1 - 1 / doubled.resolution -
          (detect doubled pair).count * ((detect doubled pair).count - 1) / 2 * (Weight.tolerance / pair.edgeCount) ≤
        (detect doubled pair).modularity := by
  have hfault : doubled.fault? = none := by decide +kernel
  have hedge : 0 < pair.edgeCount := by decide +kernel
  have hcount : (detect doubled pair).count = 2 := by decide +kernel
  obtain ⟨hmerge, hcoarser, hbound⟩ := detect_merge_stable doubled pair hfault hedge
  exact ⟨hfault, hedge, hcount, hmerge 0 (by omega) 1 (by omega) zero_ne_one, hcoarser, hbound⟩

end ModuleAudit.Community
