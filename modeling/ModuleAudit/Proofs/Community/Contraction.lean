import ModuleAudit.Proofs.Community.Modularity

/-! Contraction is exact, in exact arithmetic. The level whose nodes are the communities of another one has all of its
    weight: between two communities, and inside each of them as its loop. So every partition of the communities has the
    modularity that the same partition of their nodes has. -/

namespace ModuleAudit.Community

variable {l : Level Rat} {labels : Array Nat} {count i j c d : Nat}

namespace Level

/-! ### Weights between nodes -/

/-- The weight of the links that lead from one node to another. -/
def weightTo (l : Level Rat) (i j : Nat) : Rat :=
  Weight.sum ((l.links.filter fun k => k.source == i && k.target == j).map (·.weight))

theorem weightTo_eq (l : Level Rat) (i j : Nat) :
    l.weightTo i j = l.sum fun a b => (if a = i then 1 else 0) * if b = j then 1 else 0 := by
  rw [weightTo, weightSum_eq, sum_map_filter, sum_apply]
  refine congrArg List.sum (List.map_congr_left fun k _ => ?_)
  by_cases hs : k.source = i <;> by_cases ht : k.target = j <;> simp [hs, ht]

/-- The weight of the links between two nodes that have the first one at this end. -/
def between (l : Level Rat) : End → Nat → Nat → Rat
  | .source, i, j => l.weightTo i j
  | .target, i, j => l.weightTo j i

theorem between_eq (l : Level Rat) (e : End) (i j : Nat) : l.between e i j =
    l.sum fun a b => (if e.near a b = i then 1 else 0) * if e.near b a = j then 1 else 0 := by
  cases e with
  | source => exact l.weightTo_eq i j
  | target => exact (l.weightTo_eq j i).trans (sum_congr fun _ _ => mul_comm _ _)

theorem between_self (l : Level Rat) (e : End) (i : Nat) : l.between e i i = l.weightTo i i := by
  cases e <;> rfl

/-- What a node weighs at one end of the links is its loop and the links with the other nodes. -/
theorem weightAt_eq_loop_add (hl : l.Closed) (hi : i < l.size) (e : End) :
    l.weightAt e i = l.weightTo i i + ∑ j ∈ (Finset.range l.size).erase i, l.between e i j := by
  rw [← l.between_self e, Finset.add_sum_erase _ _ (Finset.mem_range.mpr hi), weightAt_eq, ends_apply]
  simp only [between_eq]
  rw [← map_sum]
  refine sum_congr fun k hk => ?_
  have hfar : e.near k.target k.source < l.size := e.near_lt (hl k hk).2 (hl k hk).1
  simp only [Finset.sum_apply, mul_ite, mul_one, mul_zero, Finset.sum_ite_eq, Finset.mem_range, hfar, if_true]

/-! ### Weights between communities -/

/-- The nodes of a community. -/
def members (l : Level Rat) (labels : Array Nat) (c : Nat) : Finset Nat :=
  {i ∈ Finset.range l.size | labels.getD i 0 = c}

/-- Nodes of one community, each counted once. -/
theorem sum_members (ha : i < l.size) :
    (∑ j ∈ l.members labels c, if i = j then (1 : Rat) else 0) = if labels.getD i 0 = c then 1 else 0 := by
  simp only [Finset.sum_ite_eq, members, Finset.mem_filter, Finset.mem_range, ha, true_and]

/-- Two communities have at most one link in each direction. -/
theorem nodup_links_aggregate (l : Level Rat) (labels : Array Nat) (count : Nat) :
    ((l.aggregate labels count).links.map fun k => (k.source, k.target)).Nodup := by
  -- The links that leave a community are those of a tally, which has each number once.
  rw [aggregate, List.map_flatMap, List.nodup_flatMap]
  refine ⟨fun c _ => ?_, List.nodup_range.imp fun {c d} hcd => ?_⟩
  · have hkeys := (Tally.sorted_ofList ((l.links.filter fun k => labels.getD k.source 0 == c).map
      fun k => (labels.getD k.target 0, k.weight))).imp ne_of_lt
    have hends := List.Nodup.map (Prod.mk_right_injective c) hkeys
    rw [List.map_map] at hends ⊢
    exact hends
  · rintro ⟨a, b⟩ ha hb
    simp only [List.mem_map, Prod.mk.injEq] at ha hb
    obtain ⟨_, ⟨_, -, rfl⟩, rfl, -⟩ := ha
    obtain ⟨_, ⟨_, -, rfl⟩, hdc, -⟩ := hb
    exact hcd hdc.symm

section
variable (hl : l.Closed) (hlt : ∀ a < l.size, labels.getD a 0 < count)
include hl hlt

theorem weightTo_aggregate (c d : Nat) : (l.aggregate labels count).weightTo c d =
    ∑ i ∈ l.members labels c, ∑ j ∈ l.members labels d, l.weightTo i j := by
  rw [weightTo_eq, sum_aggregate hl hlt]
  simp only [weightTo_eq]
  simp only [← map_sum]
  refine sum_congr fun k hk => ?_
  simp only [Finset.sum_apply, ← Finset.mul_sum, ← Finset.sum_mul]
  rw [sum_members (hl k hk).1, sum_members (hl k hk).2]

theorem weightAt_aggregate (e : End) (c : Nat) :
    (l.aggregate labels count).weightAt e c = ∑ i ∈ l.members labels c, l.weightAt e i := by
  rw [weightAt_eq, ends_apply, sum_aggregate hl hlt]
  simp only [weightAt_eq]
  rw [← map_sum, ends_apply]
  refine sum_congr fun k hk => ?_
  rw [Finset.sum_apply, sum_members (e.near_lt (hl k hk).1 (hl k hk).2), e.near_map (labels.getD · 0)]

end

end Level

/-! ### Partitions of the communities -/

/-- Any partition of the communities has the modularity of the partition of the nodes that it induces. -/
theorem modularity_aggregate (hl : l.Closed) (hsize : labels.size = l.size)
    (hlt : ∀ a < l.size, labels.getD a 0 < count) (t : Tuning Rat) {parts : List Nat} (hparts : parts.length = count) :
    modularity t (l.aggregate labels count) parts = modularity t l (labels.toList.map (parts.getD · 0)) := by
  have htotal := Level.total_aggregate hl hlt
  by_cases hpos : 0 < l.total
  · rw [modularity_eq (hl.aggregate hlt) (htotal ▸ hpos) t hparts, modularity_eq hl hpos t (by simpa using hsize),
      Level.quality, Level.quality, htotal, Level.surplus_aggregate hl hlt]
    refine congrArg (· / l.total) (Level.surplus_congr hl fun a ha b hb => ?_)
    have hget {a : Nat} (ha : a < l.size) :
        (labels.toList.map (parts.getD · 0)).getD a 0 = parts.getD (labels.getD a 0) 0 := by
      rw [← hsize] at ha
      simp [List.getD_eq_getElem?_getD, Array.getD_eq_getD_getElem?, ha]
    rw [same, same, hget ha, hget hb]
  · have hless : Weight.less 0 l.total = false := by simpa [Weight.less] using hpos
    rw [modularity, modularity, htotal, hless, if_neg Bool.false_ne_true, if_neg Bool.false_ne_true]

/-- A level whose nodes are the communities of another one. A node weighs what the nodes of the community weigh together,
    and what joins those among each other makes its loop. -/
structure Contracts (l : Level Rat) (labels : Array Nat) (count : Nat) (l' : Level Rat) : Prop where
  size : l'.size = count
  closed : l'.Closed
  merged : (l'.links.map fun k => (k.source, k.target)).Nodup
  total : l'.total = l.total
  weightTo : ∀ c d, l'.weightTo c d = ∑ i ∈ l.members labels c, ∑ j ∈ l.members labels d, l.weightTo i j
  outWeight : ∀ c, l'.outWeight c = ∑ i ∈ l.members labels c, l.outWeight i
  inWeight : ∀ c, l'.inWeight c = ∑ i ∈ l.members labels c, l.inWeight i
  outLoop : ∀ c < count, l'.outWeight c = l'.weightTo c c + ∑ d ∈ (Finset.range count).erase c, l'.weightTo c d
  inLoop : ∀ c < count, l'.inWeight c = l'.weightTo c c + ∑ d ∈ (Finset.range count).erase c, l'.weightTo d c
  modularity : ∀ (t : Tuning Rat) (parts : List Nat), parts.length = count →
    modularity t l' parts = modularity t l (labels.toList.map (parts.getD · 0))

/-- In exact arithmetic a level is contracted without loss, into whatever communities its nodes are put. -/
theorem aggregate_contracts (l : Level Rat) (labels : Array Nat) (count : Nat) (hl : l.Closed)
    (hsize : labels.size = l.size) (hlt : ∀ a < l.size, labels.getD a 0 < count) :
    Contracts l labels count (l.aggregate labels count) where
  size := rfl
  closed := hl.aggregate hlt
  merged := l.nodup_links_aggregate labels count
  total := Level.total_aggregate hl hlt
  weightTo := Level.weightTo_aggregate hl hlt
  outWeight := Level.weightAt_aggregate hl hlt .source
  inWeight := Level.weightAt_aggregate hl hlt .target
  outLoop _ hc := Level.weightAt_eq_loop_add (hl.aggregate hlt) hc .source
  inLoop _ hc := Level.weightAt_eq_loop_add (hl.aggregate hlt) hc .target
  modularity t _ hparts := modularity_aggregate hl hsize hlt t hparts

/-- Three nodes with links in parallel, of which the second has a loop. -/
def braided : Level Rat := ⟨3, [⟨0, 1, 2⟩, ⟨1, 0, 1⟩, ⟨1, 1, 1 / 2⟩, ⟨1, 2, 3⟩, ⟨0, 2, 1⟩, ⟨0, 1, 1⟩]⟩

/-- The first two nodes of the braid become one: its loop has all that joined them. -/
theorem braided_contracts :
    braided.Closed ∧ Contracts braided #[0, 0, 1] 2 (braided.aggregate #[0, 0, 1] 2) ∧
      (braided.aggregate #[0, 0, 1] 2).weightTo 0 0 = 9 / 2 ∧
      modularity halved (braided.aggregate #[0, 0, 1] 2) [0, 1] = modularity halved braided [0, 0, 1] := by
  have hclosed : braided.Closed := by
    unfold Level.Closed
    decide +kernel
  have h := aggregate_contracts braided #[0, 0, 1] 2 hclosed rfl (by decide +kernel)
  exact ⟨hclosed, h, by decide +kernel, h.modularity halved [0, 1] rfl⟩

end ModuleAudit.Community
