import Mathlib.Combinatorics.Enumerative.DoubleCounting
import ModuleAudit.Proofs.Community.Mergers

/-! The two ends of the scale of resolutions, in exact arithmetic. Where chance would give more than all edges, no first
    move is a gain and every module stays by itself. Where chance would give next to nothing, no two communities with an
    edge between them can be left apart, so that connected modules end together. -/

namespace ModuleAudit

namespace Community

variable {l : Level Rat} {g : Graph} {t t' : Tuning Rat} {s : Moving Rat} {F G : Pattern} {a b m : String} {i c : Nat}

/-! ### The communities of modules -/

theorem mem_communities (t : Tuning Rat) (hm : m ∈ g.modules) :
    (m, (detect t g).community m) ∈ (detect t g).communities.toList := by
  rw [← (detect_assigned t g).keys] at hm
  obtain ⟨⟨_, c⟩, he, rfl⟩ := List.mem_map.mp hm
  rw [Partition.community, ModuleMap.get?_eq_some_iff.mpr he]
  exact he

theorem connected_of_community_eq (ha : a ∈ g.modules) (hb : b ∈ g.modules)
    (h : (detect t g).community a = (detect t g).community b) : g.Connected a b :=
  (detect_assigned t g).connected a b _ (mem_communities t ha) (h ▸ mem_communities t hb)

theorem community_lt (t : Tuning Rat) (hm : m ∈ g.modules) : (detect t g).community m < (detect t g).count :=
  (detect_assigned t g).numbered.mem_iff.mp (List.mem_map_of_mem (mem_communities t hm))

theorem exists_community_eq (hc : c < (detect t g).count) : ∃ m ∈ g.modules, (detect t g).community m = c := by
  obtain ⟨⟨m, _⟩, he, rfl⟩ := List.mem_map.mp ((detect_assigned t g).numbered.mem_iff.mpr hc)
  refine ⟨m, (detect_assigned t g).keys ▸ List.mem_map_of_mem he, ?_⟩
  rw [Partition.community, ModuleMap.get?_eq_some_iff.mpr he]
  rfl

/-- Communities that lie within others are no fewer. -/
theorem count_le_of_finer (h : ∀ a ∈ g.modules, ∀ b ∈ g.modules,
    (detect t' g).community a = (detect t' g).community b → (detect t g).community a = (detect t g).community b) :
    (detect t g).count ≤ (detect t' g).count := by
  have hcard := Finset.card_le_card_of_forall_subsingleton (s := Finset.range (detect t g).count)
    (t := Finset.range (detect t' g).count)
    (fun c d => ∃ m ∈ g.modules, (detect t g).community m = c ∧ (detect t' g).community m = d) ?_ ?_
  · rwa [Finset.card_range, Finset.card_range] at hcard
  · intro c hc
    obtain ⟨m, hm, rfl⟩ := exists_community_eq (Finset.mem_range.mp hc)
    exact ⟨_, Finset.mem_range.mpr (community_lt t' hm), m, hm, rfl, rfl⟩
  · rintro d - c ⟨-, a, ha, rfl, rfl⟩ c' ⟨-, b, hb, rfl, hab⟩
    exact h a ha b hb hab.symm

/-! ### Where chance gives more than all edges -/

theorem touch_nonneg (label : Nat → Nat) (i c a b : Nat) : 0 ≤ touch label i c a b := by
  rw [touch, others, others]
  refine add_nonneg (mul_nonneg ?_ ?_) (mul_nonneg ?_ ?_) <;> split_ifs <;> simp

theorem optimize_of_still (h : (Moving.run t l).2 = false) : optimize t l = List.range l.size := by
  rw [optimize]
  split
  · rw [refine]
    simp [h, renumber_range]
  · rfl

namespace Level

/-- Where every link has the weight one, each counts in its pair with itself. -/
theorem sum_le_paired (hl : ∀ k ∈ l.links, k.weight = 1) (hF : ∀ a b, 0 ≤ F a b) : l.sum F ≤ l.paired F := by
  have hnonneg : l.Nonneg := fun k hk => (hl k hk).symm ▸ zero_le_one
  rw [sum_apply, paired_apply, sources_apply, sum_apply]
  refine List.sum_le_sum fun k hk => ?_
  have hle := hnonneg.le_sum (F := fun _ b => F k.source b) (fun _ b => hF k.source b) hk
  rw [hl k hk, mul_one] at hle
  rw [hl k hk, mul_one, mul_one]
  exact hle

/-- No links have a surplus where chance gives each pair of links as much as one link has. -/
theorem surplus_nonpos_of_total_le (hl : ∀ k ∈ l.links, k.weight = 1) (hpos : 0 < l.total)
    (ht : l.total ≤ t.penalty) (hF : ∀ a b, 0 ≤ F a b) : l.surplus t F ≤ 0 := by
  have hsum := sum_le_paired hl hF
  have hnonneg : 0 ≤ l.sum F := Nonneg.sum_nonneg (fun k hk => (hl k hk).symm ▸ zero_le_one) hF
  rw [surplus_apply, sub_nonpos, le_div_iff₀ hpos]
  calc l.sum F * l.total
      ≤ l.paired F * t.penalty := mul_le_mul hsum ht hpos.le (hnonneg.trans hsum)
    _ = t.penalty * l.paired F := mul_comm _ _

end Level

/-- Where chance gives that much, no node leaves its place. -/
theorem run_still_of_total_le (hclosed : l.Closed) (hl : ∀ k ∈ l.links, k.weight = 1) (hpos : 0 < l.total)
    (ht : l.total ≤ t.penalty) : (Moving.run t l).2 = false := by
  refine Moving.run_still fun s hs hown i hi => ?_
  by_contra hmoved
  have hgain := Moving.surplus_of_moved hclosed hs hi (by simpa using hmoved)
  have hnone := Level.surplus_nonpos_of_total_le hl hpos ht (touch_nonneg s.label i (s.choose t l i).1)
  rw [surplus_touch_self hclosed hown hi] at hgain
  linarith [Moving.tolerance_nonneg]

theorem eq_of_community_eq (ht : t.fault? = none) (hg : 0 < g.edgeCount) (hres : t.resolution ≤ 1 / g.edgeCount)
    (ha : a ∈ g.modules) (hb : b ∈ g.modules) (h : (detect t g).community a = (detect t g).community b) : a = b := by
  have hpos := Level.total_ofGraph_pos hg
  have hpenalty : (Level.ofGraph g : Level Rat).total ≤ t.penalty := by
    rw [Level.total_ofGraph] at hpos ⊢
    exact (le_div_comm₀ (resolution_pos ht) hpos).mp hres
  have hstill := run_still_of_total_le (Level.closed_ofGraph g) (fun _ => Level.weight_ofGraph) hpos hpenalty
  have hplace {m : String} (hm : m ∈ g.modules) : (detect t g).community m = g.modules.idxOf m := by
    have hlt : g.modules.idxOf m < (Level.ofGraph g : Level Rat).size := by
      rw [Level.size_ofGraph]
      exact List.idxOf_lt_length_of_mem hm
    rw [community_detect t hm, optimize_of_still hstill, List.getD_eq_getElem _ _ (by simpa using hlt),
      List.getElem_range]
  rw [hplace ha, hplace hb] at h
  exact (List.idxOf_inj ha).mp h

/-! ### Where chance gives next to nothing -/

theorem between_le_one (label : Nat → Nat) {c d : Nat} (hcd : c ≠ d) (a b : Nat) : between label (c, d) a b ≤ 1 := by
  simp only [between, Prod.mk.injEq]
  by_cases hac : label a = c
  · have had : label a ≠ d := hac ▸ hcd
    split_ifs <;> simp_all
  · split_ifs <;> simp_all

/-- The ends of an edge are not left apart: their communities gain nearly the weight of the edge when they merge. -/
theorem community_eq_of_edge (ht : t.fault? = none) (hg : 0 < g.edgeCount)
    (hres : g.edgeCount / t.resolution < 1 - Weight.tolerance) (he : g.Edge a b) :
    (detect t g).community a = (detect t g).community b := by
  by_contra hne
  obtain ⟨ha, hb⟩ := he.mem_modules
  have hnonneg := Level.nonneg_ofGraph g
  have hpos := Level.total_ofGraph_pos hg
  have hpenalty := penalty_nonneg ht
  have hle := surplus_between_optimize (Level.closed_ofGraph g) hnonneg hpenalty hpos (numbered_optimize t hg)
    (community_lt t ha) (community_lt t hb) hne
  set F := between ((optimize t (Level.ofGraph g)).getD · 0) ((detect t g).community a, (detect t g).community b) with hF
  -- The edge is one of the links between the two communities.
  have hsum : 1 ≤ (Level.ofGraph g).sum F := by
    have hlink : (⟨g.modules.idxOf a, g.modules.idxOf b, 1⟩ : Link Rat) ∈ (Level.ofGraph g).links := by
      rw [Level.links_ofGraph]
      exact List.mem_map.mpr ⟨(a, b), he, rfl⟩
    have hcounted : 1 ≤ F (g.modules.idxOf a) (g.modules.idxOf b) := by
      rw [hF, between, ← community_detect t ha, ← community_detect t hb, if_pos rfl]
      exact le_add_of_nonneg_right (by split_ifs <;> simp)
    have hone := hnonneg.le_sum (F := F) (between_nonneg _ _) hlink
    rw [mul_one] at hone
    exact hcounted.trans hone
  -- Chance gives these links no more than it gives all of them.
  have hpaired : (Level.ofGraph g).paired F ≤ (Level.ofGraph g).total * (Level.ofGraph g).total :=
    (hnonneg.paired_mono (between_le_one _ hne)).trans_eq (Level.paired_one _)
  have hchance : t.penalty * (Level.ofGraph g).paired F / (Level.ofGraph g).total ≤ g.edgeCount / t.resolution := by
    rw [div_le_iff₀ hpos]
    calc t.penalty * (Level.ofGraph g).paired F
        ≤ t.penalty * ((Level.ofGraph g).total * (Level.ofGraph g).total) :=
          mul_le_mul_of_nonneg_left hpaired hpenalty
      _ = g.edgeCount / t.resolution * (Level.ofGraph g).total := by
        rw [Tuning.penalty, Level.total_ofGraph]
        ring
  rw [Level.surplus_apply] at hle
  linarith

theorem community_eq_of_connected (ht : t.fault? = none) (hg : 0 < g.edgeCount)
    (hres : g.edgeCount / t.resolution < 1 - Weight.tolerance) (h : g.Connected a b) :
    (detect t g).community a = (detect t g).community b := by
  induction h with
  | refl => rfl
  | tail _ hbc ih =>
    rcases hbc with he | he
    · exact ih.trans (community_eq_of_edge ht hg hres he)
    · exact ih.trans (community_eq_of_edge ht hg hres he).symm

/-- In exact arithmetic, a resolution of no more than one by the number of edges leaves every module in a community of
    its own, and no resolution gives more communities; one that the number of edges is less than, by more than the
    tolerance, gives the connected modules, and no resolution gives fewer communities. -/
theorem detect_extremes (t : Tuning Rat) (g : Graph) (ht : t.fault? = none) (hg : 0 < g.edgeCount) :
    (t.resolution ≤ 1 / g.edgeCount →
      (∀ a ∈ g.modules, ∀ b ∈ g.modules, (detect t g).community a = (detect t g).community b → a = b) ∧
        ∀ t' : Tuning Rat, (detect t' g).count ≤ (detect t g).count) ∧
      (g.edgeCount / t.resolution < 1 - Weight.tolerance →
        (∀ a ∈ g.modules, ∀ b ∈ g.modules,
          (detect t g).community a = (detect t g).community b ↔ g.Connected a b) ∧
          ∀ t' : Tuning Rat, (detect t g).count ≤ (detect t' g).count) := by
  refine ⟨fun hres => ?_, fun hres => ?_⟩
  · have halone : ∀ a ∈ g.modules, ∀ b ∈ g.modules, (detect t g).community a = (detect t g).community b → a = b :=
      fun a ha b hb => eq_of_community_eq ht hg hres ha hb
    exact ⟨halone, fun t' => count_le_of_finer fun a ha b hb hab => by rw [halone a ha b hb hab]⟩
  · refine ⟨fun a ha b hb => ⟨connected_of_community_eq ha hb, community_eq_of_connected ht hg hres⟩, fun t' => ?_⟩
    refine count_le_of_finer fun a ha b hb hab => ?_
    exact community_eq_of_connected ht hg hres (connected_of_community_eq ha hb hab)

/-- Two modules that depend on each other and one of them on a third, and apart from these one with a loop. -/
def strewn : Graph :=
  .ofListing ⟨["a", "b", "c", "d"], [("a", "b"), ("b", "a"), ("b", "c"), ("d", "d")]⟩ fun _ => none

theorem strewn_extremes :
    let fine : Tuning Rat := ⟨1 / 4, 3⟩
    let coarse : Tuning Rat := ⟨5, 1⟩
    (fine.fault? = none ∧ fine.resolution ≤ 1 / strewn.edgeCount ∧ coarse.fault? = none ∧
        strewn.edgeCount / coarse.resolution < 1 - Weight.tolerance) ∧
      (detect fine strewn).community "a" ≠ (detect fine strewn).community "b" ∧
      ((detect coarse strewn).community "a" = (detect coarse strewn).community "c" ↔
        strewn.Connected "a" "c") ∧
      (detect coarse strewn).count ≤ (detect fine strewn).count := by
  intro fine coarse
  have hedges : strewn.edgeCount = 4 := by decide +kernel
  have hmem {m : String} (hm : m ∈ ["a", "b", "c", "d"]) : m ∈ strewn.modules := by
    have hmodules : strewn.modules = ["a", "b", "c", "d"] := by decide +kernel
    rwa [hmodules]
  have hfine : fine.resolution ≤ 1 / strewn.edgeCount := by
    rw [hedges]
    norm_num [fine]
  have hcoarse : strewn.edgeCount / coarse.resolution < 1 - Weight.tolerance := by
    rw [hedges]
    norm_num [coarse, Weight.tolerance]
  have hpos : 0 < strewn.edgeCount := by omega
  obtain ⟨halone, -⟩ := (detect_extremes fine strewn (by decide +kernel) hpos).1 hfine
  obtain ⟨hconnected, hfew⟩ := (detect_extremes coarse strewn (by decide +kernel) hpos).2 hcoarse
  refine ⟨⟨by decide +kernel, hfine, by decide +kernel, hcoarse⟩, fun hab => ?_,
    hconnected "a" (hmem (by simp)) "c" (hmem (by simp)), hfew fine⟩
  exact absurd (halone "a" (hmem (by simp)) "b" (hmem (by simp)) hab) (by decide)

end Community
end ModuleAudit
