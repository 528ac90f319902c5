import Mathlib.Logic.Relation
import ModuleAudit.Proofs.Community.Moving
import ModuleAudit.Proofs.Community.Numbering

/-! The levels that the search for communities goes through. Each is the contraction of the one before, so every node
    of the first level has become part of one node of each level reached (`Lifted`), and nodes that became part of
    one node are joined by links. The search ends at a level where no node moves: a contraction has fewer nodes. -/

namespace ModuleAudit.Community

variable {α : Type} {l base : Level α} {membership : List Nat} {a b i j c : Nat}

namespace Level

/-- A way of links leads from one node to the other, whatever their directions. -/
def Joined (l : Level α) (i j : Nat) : Prop := Relation.ReflTransGen l.Adjacent i j

theorem Adjacent.symm (h : l.Adjacent i j) : l.Adjacent j i := by
  obtain ⟨k, hk, h | h⟩ := h
  · exact ⟨k, hk, Or.inr h⟩
  · exact ⟨k, hk, Or.inl h⟩

theorem Joined.symm (h : l.Joined i j) : l.Joined j i := by
  have : Std.Symm l.Adjacent := ⟨fun _ _ => Adjacent.symm⟩
  exact Relation.ReflTransGen.stdSymm.symm _ _ h

theorem getD_labels (s : Moving α) (i : Nat) : s.labels.toList.getD i 0 = s.label i := by
  simp [Moving.label, Array.getD_eq_getD_getElem?, List.getD_eq_getElem?_getD]

variable [Weight α] {t : Tuning α} {labels : Array Nat} {count : Nat}

/-! ### Communities as nodes -/

/-- Two communities are linked by what links their nodes. -/
theorem mem_links_aggregate (hl : l.Closed) (hlt : ∀ a < l.size, labels.getD a 0 < count) :
    (∃ k ∈ (l.aggregate labels count).links, k.source = i ∧ k.target = j) ↔
      ∃ k ∈ l.links, labels.getD k.source 0 = i ∧ labels.getD k.target 0 = j := by
  have hkeys (c : Nat) : j ∈ (Tally.ofList ((l.links.filter fun k => labels.getD k.source 0 == c).map
      fun k => (labels.getD k.target 0, k.weight))).map Prod.fst ↔
        ∃ k ∈ l.links, labels.getD k.source 0 = c ∧ labels.getD k.target 0 = j := by
    rw [Tally.mem_keys_ofList]
    simp [and_assoc]
  simp only [aggregate, List.mem_flatMap, List.mem_range, List.mem_map]
  constructor
  · rintro ⟨k, ⟨c, hc, p, hp, rfl⟩, rfl, rfl⟩
    exact (hkeys c).mp (List.mem_map_of_mem hp)
  · rintro ⟨k, hk, rfl, rfl⟩
    obtain ⟨p, hp, hpj⟩ := List.mem_map.mp ((hkeys (labels.getD k.source 0)).mpr ⟨k, hk, rfl, rfl⟩)
    exact ⟨_, ⟨labels.getD k.source 0, hlt _ (hl k hk).1, p, hp, rfl⟩, rfl, hpj⟩

theorem Closed.aggregate (hl : l.Closed) (hlt : ∀ a < l.size, labels.getD a 0 < count) :
    (l.aggregate labels count).Closed := by
  intro k hk
  obtain ⟨k', hk', hs, ht⟩ := (mem_links_aggregate hl hlt).mp ⟨k, hk, rfl, rfl⟩
  exact ⟨hs ▸ hlt _ (hl k' hk').1, ht ▸ hlt _ (hl k' hk').2⟩

/-- The number of the community that a node ends in when its level is left. -/
def number (l : Level α) (t : Tuning α) (i : Nat) : Nat :=
  (renumber (Moving.run t l).1.labels.toList).1.toArray.getD i 0

/-- The level that follows: the communities of this one, numbered by first appearance. -/
def contract (l : Level α) (t : Tuning α) : Level α :=
  l.aggregate (renumber (Moving.run t l).1.labels.toList).1.toArray (renumber (Moving.run t l).1.labels.toList).2

/-! ### One contraction -/

theorem length_labels_run (l : Level α) (t : Tuning α) : (Moving.run t l).1.labels.toList.length = l.size := by
  rw [Array.length_toList, (Moving.run_reachable t l).size_labels]

theorem number_eq (i : Nat) : l.number t i = (renumber (Moving.run t l).1.labels.toList).1.getD i 0 := by
  simp [number, Array.getD_eq_getD_getElem?, List.getD_eq_getElem?_getD]

theorem number_eq_iff (hi : i < l.size) (hj : j < l.size) :
    l.number t i = l.number t j ↔ (Moving.run t l).1.label i = (Moving.run t l).1.label j := by
  rw [number_eq, number_eq, renumber_getD_eq_iff (length_labels_run l t ▸ hi) (length_labels_run l t ▸ hj), getD_labels,
    getD_labels]

theorem number_lt (hi : i < l.size) : l.number t i < (l.contract t).size := by
  rw [number_eq]
  exact renumber_getD_lt (length_labels_run l t ▸ hi)

theorem exists_number_eq (hc : c < (l.contract t).size) : ∃ i < l.size, l.number t i = c := by
  obtain ⟨i, hi, h⟩ := exists_renumber_getD_eq hc
  exact ⟨i, length_labels_run l t ▸ hi, by rw [number_eq, h]⟩

theorem mem_links_contract (hl : l.Closed) :
    (∃ k ∈ (l.contract t).links, k.source = i ∧ k.target = j) ↔
      ∃ k ∈ l.links, l.number t k.source = i ∧ l.number t k.target = j :=
  mem_links_aggregate hl fun _ hi => number_lt hi

theorem Closed.contract (hl : l.Closed) : (l.contract t).Closed := hl.aggregate fun _ hi => number_lt hi

/-- A level that is left after a move has more nodes than the one that follows: a label is vacant. -/
theorem size_contract_lt (hl : l.Closed) (h : (Moving.run t l).2 = true) : (l.contract t).size < l.size := by
  obtain ⟨c, hc, hvac⟩ := Moving.exists_vacant_run hl h
  have hsub : (Moving.run t l).1.labels.toList.eraseDups ⊆ (List.range l.size).erase c := by
    intro x hx
    obtain ⟨i, hi, rfl⟩ := List.mem_iff_getElem.mp (List.mem_eraseDups.mp hx)
    rw [← List.getD_eq_getElem _ 0 hi, getD_labels]
    rw [length_labels_run] at hi
    rw [List.nodup_range.mem_erase_iff, List.mem_range]
    exact ⟨hvac i hi, (Moving.run_reachable t l).label_lt hl hi⟩
  have hlen := (List.subperm_of_subset (Lists.nodup_eraseDups _) hsub).length_le
  rw [List.length_erase_of_mem (List.mem_range.mpr hc), List.length_range] at hlen
  show (Moving.run t l).1.labels.toList.eraseDups.length < l.size
  omega

/-! ### Nodes of one label are joined -/

theorem joined_of_reachable {s : Moving α} (hl : l.Closed) (h : Moving.Reachable t l s) (hi : i < l.size)
    (hj : j < l.size) (hij : s.label i = s.label j) : l.Joined i j := by
  induction h generalizing i j with
  | start =>
    rw [Moving.label_start hi, Moving.label_start hj] at hij
    exact hij ▸ .refl
  | @visit s k hk hs ih =>
    -- The visited node is joined with every node of the label that it takes.
    have taken : ∀ j < l.size, s.label j = (s.choose t l k).1 → l.Joined k j := by
      intro j hj hlabel
      rcases Moving.choose_cases s t l k with hstay | ⟨-, m, -, hkm, hm⟩
      · exact ih hk hj (hstay.symm.trans hlabel.symm)
      · exact .head hkm (ih (hl.lt_of_adjacent hkm).2 hj (hm.trans hlabel.symm))
    rw [Moving.label_visit (hs.size_labels ▸ hk), Moving.label_visit (hs.size_labels ▸ hk)] at hij
    split at hij <;> split at hij
    · rename_i hik hjk
      exact hik ▸ hjk ▸ .refl
    · rename_i hik _
      exact hik ▸ taken j hj hij.symm
    · rename_i _ hjk
      exact hjk ▸ (taken i hi hij).symm
    · exact ih hi hj hij

theorem joined_of_contract (hl : l.Closed) (hi : i < l.size) (hj : j < l.size)
    (h : (l.contract t).Joined (l.number t i) (l.number t j)) : l.Joined i j := by
  have same : ∀ {x y}, x < l.size → y < l.size → l.number t x = l.number t y → l.Joined x y := fun hx hy hxy =>
    joined_of_reachable hl (Moving.run_reachable t l) hx hy ((number_eq_iff hx hy).mp hxy)
  suffices key : ∀ d, (l.contract t).Joined (l.number t i) d → ∀ j < l.size, l.number t j = d → l.Joined i j from
    key _ h j hj rfl
  intro d hd
  induction hd with
  | refl => exact fun j hj hij => same hi hj hij.symm
  | @tail c d _ hcd ih =>
    intro j hj hjd
    obtain ⟨x, y, hx, hy, hxy, rfl, rfl⟩ : ∃ x y, x < l.size ∧ y < l.size ∧ l.Adjacent x y ∧ l.number t x = c ∧
        l.number t y = d := by
      obtain ⟨k, hk, ⟨hs, ht⟩ | ⟨hs, ht⟩⟩ := hcd
      · obtain ⟨k', hk', hs', ht'⟩ := (mem_links_contract hl).mp ⟨k, hk, hs, ht⟩
        exact ⟨_, _, (hl k' hk').1, (hl k' hk').2, ⟨k', hk', Or.inl ⟨rfl, rfl⟩⟩, hs', ht'⟩
      · obtain ⟨k', hk', hs', ht'⟩ := (mem_links_contract hl).mp ⟨k, hk, hs, ht⟩
        exact ⟨_, _, (hl k' hk').2, (hl k' hk').1, ⟨k', hk', Or.inr ⟨rfl, rfl⟩⟩, ht', hs'⟩
    exact ((ih x hx rfl).tail hxy).trans (same hy hj hjd.symm)

end Level

/-! ### The levels reached -/

/-- Every node of the base has become part of a node of the level, every node of the level has such parts, and
    nodes that are joined in the level have parts that were joined in the base. -/
structure Lifted (base l : Level α) (membership : List Nat) : Prop where
  closed : l.Closed
  length : membership.length = base.size
  lt : ∀ c ∈ membership, c < l.size
  covers : ∀ c < l.size, c ∈ membership
  joined : ∀ a < base.size, ∀ b < base.size, l.Joined (membership.getD a 0) (membership.getD b 0) → base.Joined a b

theorem Lifted.getD_lt (h : Lifted base l membership) (ha : a < base.size) : membership.getD a 0 < l.size := by
  rw [← h.length] at ha
  rw [List.getD_eq_getElem _ _ ha]
  exact h.lt _ (List.getElem_mem ha)

theorem Lifted.getD_map (h : Lifted base l membership) (f : Nat → Nat) (ha : a < base.size) :
    (membership.map f).getD a 0 = f (membership.getD a 0) := by
  rw [← h.length] at ha
  rw [List.getD_eq_getElem _ _ (by simpa using ha), List.getElem_map, List.getD_eq_getElem _ _ ha]

variable [Weight α] {t : Tuning α}

/-- The levels that are reached from `base` by contractions, each with the node of it that each node of `base` has
    become part of. -/
inductive Reached (t : Tuning α) (base : Level α) : Level α → List Nat → Prop
  | base : Reached t base base (List.range base.size)
  | contract {l : Level α} {membership : List Nat} (h : Reached t base l membership) :
      Reached t base (l.contract t) (membership.map (l.number t))

theorem Lifted.contract (h : Lifted base l membership) :
    Lifted base (l.contract t) (membership.map (l.number t)) where
  closed := h.closed.contract
  length := by rw [List.length_map, h.length]
  lt := by
    intro c hc
    obtain ⟨x, hx, rfl⟩ := List.mem_map.mp hc
    exact Level.number_lt (h.lt x hx)
  covers := by
    intro c hc
    obtain ⟨x, hx, rfl⟩ := Level.exists_number_eq hc
    exact List.mem_map_of_mem (h.covers x hx)
  joined := by
    intro a ha b hb hab
    rw [h.getD_map _ ha, h.getD_map _ hb] at hab
    exact h.joined a ha b hb (Level.joined_of_contract h.closed (h.getD_lt ha) (h.getD_lt hb) hab)

theorem Reached.lifted (hbase : base.Closed) (h : Reached t base l membership) : Lifted base l membership := by
  induction h with
  | base =>
    refine ⟨hbase, by simp, by simp, by simp, fun a ha b hb hab => ?_⟩
    simpa [List.getD_eq_getElem?_getD, ha, hb] using hab
  | contract _ ih => exact ih.contract

/-- The search stops at a level where no node moves. -/
theorem exists_reached_refine (hbase : base.Closed) :
    ∀ (levels : Nat) (l : Level α) (membership : List Nat), Reached t base l membership → l.size < levels →
      ∃ l', Reached t base l' (refine t levels l membership) ∧ (Moving.run t l').2 = false
  | 0, _, _, _, hlevels => by omega
  | levels + 1, l, membership, h, hlevels => by
    have hl := (h.lifted hbase).closed
    rw [refine]
    dsimp only
    split
    · rename_i hstop
      refine ⟨l, h, ?_⟩
      rcases Bool.or_eq_true_iff.mp hstop with hstill | hcount
      · simpa using hstill
      · -- As many communities as nodes means that no node moved.
        by_contra hmoved
        have := Level.size_contract_lt hl (by simpa using hmoved)
        exact absurd (beq_iff_eq.mp hcount) this.ne
    · rename_i hgo
      have hmoved : (Moving.run t l).2 = true := by
        by_contra hstill
        simp [hstill] at hgo
      have hlt : (l.contract t).size < l.size := Level.size_contract_lt hl hmoved
      exact exists_reached_refine hbase levels (l.contract t) _ h.contract (by omega)

end ModuleAudit.Community
