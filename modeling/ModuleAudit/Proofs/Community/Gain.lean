import ModuleAudit.Proofs.Community.Surplus

/-! What a node gains by a move, in exact arithmetic. The totals that local moving keeps up to date are those of the
    labels, so the gain of a node in a community is the surplus of its links with it; and what is counted inside the
    communities changes by the gain in the new community less the gain in the old one. -/

namespace ModuleAudit.Community

variable {l : Level Rat} {t : Tuning Rat} {s : Moving Rat} {i c d : Nat}

/-! ### The links of a node with a community -/

/-- The nodes of a community without the node `i`. -/
def others (label : Nat → Nat) (i c : Nat) : Nat → Rat := fun a => if a ≠ i ∧ label a = c then 1 else 0

/-- The pattern that counts the links between a node and the others of a community, in both directions. -/
def touch (label : Nat → Nat) (i c : Nat) : Pattern := fun a b =>
  (if a = i then 1 else 0) * others label i c b + others label i c a * if b = i then 1 else 0

/-- When a node takes another label, its links with the new community are counted, and no longer those with the old
    one. -/
theorem same_move (label : Nat → Nat) (i c : Nat) :
    same (fun a => if a = i then c else label a) = same label + (touch label i c - touch label i (label i)) := by
  funext a b
  simp only [same, touch, others, Pi.add_apply, Pi.sub_apply]
  by_cases ha : a = i <;> by_cases hb : b = i
  · simp [ha, hb]
  · subst ha
    simp [hb, eq_comm]
  · subst hb
    simp [ha]
  · simp [ha, hb]

/-- The links with one end at a node, tallied by the label of the other end. -/
theorem sum_linked (l : Level Rat) (near far : Link Rat → Nat) (label : Nat → Nat) (i c : Nat) :
    ((((l.links.filter (near · == i)).map fun k => (far k, k.weight)).filter (·.1 != i)).map
      fun p => (if label p.1 = c then 1 else 0) * p.2).sum =
        (l.links.map fun k => (if near k = i then 1 else 0) * others label i c (far k) * k.weight).sum := by
  rw [List.filter_map, List.map_map, List.filter_filter, sum_map_filter]
  refine congrArg List.sum (List.map_congr_left fun k _ => ?_)
  by_cases hnear : near k = i <;> by_cases hfar : far k = i <;> simp [others, hnear, hfar]

theorem links_get (s : Moving Rat) (l : Level Rat) (i c : Nat) : (s.links l i).get c = l.sum (touch s.label i c) := by
  rw [Moving.links, Tally.get_ofList, List.map_map, Level.neighbours, List.filter_append, List.map_append,
    List.sum_append, Level.sum_apply]
  refine (congrArg₂ (· + ·) (sum_linked l (·.source) (·.target) s.label i c)
    (sum_linked l (·.target) (·.source) s.label i c)).trans ?_
  rw [← List.sum_map_add]
  refine congrArg List.sum (List.map_congr_left fun k _ => ?_)
  rw [touch]
  ring

theorem paired_touch (l : Level Rat) (label : Nat → Nat) (i c : Nat) :
    l.paired (touch label i c) =
      l.outWeight i * l.targets (others label i c) + l.inWeight i * l.sources (others label i c) := by
  rw [Level.outWeight_eq, Level.inWeight_eq, mul_comm (l.targets fun b => if b = i then 1 else 0), ← Level.paired_mul,
    ← Level.paired_mul, ← map_add]
  rfl

/-! ### The totals of the communities -/

/-- The totals hold, for each label, what a functional gives for the nodes that count for it. -/
structure Totals (W : (Nat → Rat) →ₗ[Rat] Rat) (size : Nat) (totals : Array Rat) (member : Nat → Nat → Rat) : Prop where
  size_eq : totals.size = size
  getD_eq : ∀ c < size, totals.getD c 0 = W (member c)

namespace Totals

variable {W : (Nat → Rat) →ₗ[Rat] Rat} {size : Nat} {totals : Array Rat} {label : Nat → Nat}

theorem getD_modify (f : Rat → Rat) (hc : c < totals.size) :
    (totals.modify d f).getD c 0 = if d = c then f (totals.getD c 0) else totals.getD c 0 := by
  rw [Array.getD_eq_getD_getElem?, Array.getD_eq_getD_getElem?, Array.getElem?_modify, Array.getElem?_eq_getElem hc]
  split <;> simp

theorem leave (h : Totals W size totals fun c a => if label a = c then 1 else 0) (i : Nat) :
    Totals W size (totals.modify (label i) (· - W fun a => if a = i then 1 else 0)) (others label i) where
  size_eq := by rw [Array.size_modify, h.size_eq]
  getD_eq c hc := by
    rw [getD_modify _ (h.size_eq ▸ hc), h.getD_eq c hc]
    split
    · rename_i heq
      rw [← map_sub]
      refine congrArg W (funext fun a => ?_)
      by_cases ha : a = i <;> simp [others, ha, heq]
    · rename_i hne
      refine congrArg W (funext fun a => ?_)
      by_cases ha : a = i <;> simp [others, ha, hne]

theorem join (h : Totals W size totals (others label i)) (d : Nat) :
    Totals W size (totals.modify d (· + W fun a => if a = i then 1 else 0))
      fun c a => if (if a = i then d else label a) = c then 1 else 0 where
  size_eq := by rw [Array.size_modify, h.size_eq]
  getD_eq c hc := by
    rw [getD_modify _ (h.size_eq ▸ hc), h.getD_eq c hc]
    split
    · rename_i heq
      rw [← map_add]
      refine congrArg W (funext fun a => ?_)
      by_cases ha : a = i <;> simp [others, ha, heq]
    · rename_i hne
      refine congrArg W (funext fun a => ?_)
      by_cases ha : a = i <;> simp [others, ha, hne]

end Totals

namespace Moving

/-- The totals of what the links weigh at one end. -/
def totals (s : Moving Rat) : End → Array Rat
  | .source => s.outTotals
  | .target => s.inTotals

theorem totals_start (e : End) : (start l).totals e = ((List.range l.size).map (l.weightAt e)).toArray := by
  cases e <;> rfl

theorem totals_leave (e : End) : (s.leave l i c).totals e = (s.totals e).modify c (· - l.weightAt e i) := by
  cases e <;> rfl

theorem totals_visit (e : End) : (s.visit t l i).1.totals e =
    ((s.leave l i (s.label i)).totals e).modify (s.choose t l i).1 (· + l.weightAt e i) := by
  cases e <;> rfl

/-- The totals at both ends are those of the labels. -/
def Tallied (l : Level Rat) (s : Moving Rat) : Prop :=
  ∀ e, Totals (l.ends e) l.size (s.totals e) fun c a => if s.label a = c then 1 else 0

theorem tallied_start (hl : l.Closed) : Tallied l (start l) := by
  intro e
  refine ⟨by simp [totals_start], fun c hc => ?_⟩
  have hget : ((start l).totals e).getD c 0 = l.weightAt e c := by
    simp [totals_start, Array.getD_eq_getD_getElem?, hc]
  rw [hget, Level.weightAt_eq]
  exact Level.ends_congr hl e fun a ha => by rw [label_start ha]

/-- Once a node has left its community, the totals are those of the other nodes. -/
theorem Tallied.leave (h : Tallied l s) (i : Nat) (e : End) :
    Totals (l.ends e) l.size ((s.leave l i (s.label i)).totals e) (others s.label i) := by
  rw [totals_leave, Level.weightAt_eq]
  exact (h e).leave i

theorem label_visit_eq (hi : i < s.labels.size) :
    (s.visit t l i).1.label = fun a => if a = i then (s.choose t l i).1 else s.label a :=
  funext fun _ => label_visit hi

theorem Tallied.visit (h : Tallied l s) (hi : i < s.labels.size) : Tallied l (s.visit t l i).1 := by
  intro e
  rw [label_visit_eq hi, totals_visit, Level.weightAt_eq]
  exact (h.leave i e).join (s.choose t l i).1

theorem Reachable.tallied (hl : l.Closed) (h : Reachable t l s) : Tallied l s := by
  induction h with
  | start => exact tallied_start hl
  | visit hi hs ih => exact ih.visit (hs.size_labels ▸ hi)

/-! ### Gains -/

/-- The gain of a node in a community is the surplus of its links with it. -/
theorem gain_eq (h : Tallied l s) (hc : c < l.size) :
    (s.leave l i (s.label i)).gain t l i c (l.sum (touch s.label i c)) = l.surplus t (touch s.label i c) := by
  have hout : (s.leave l i (s.label i)).outTotals.getD c 0 = l.sources (others s.label i c) :=
    (h.leave i .source).getD_eq c hc
  have hin : (s.leave l i (s.label i)).inTotals.getD c 0 = l.targets (others s.label i c) :=
    (h.leave i .target).getD_eq c hc
  rw [gain, hout, hin, Level.surplus_apply, paired_touch]

theorem tolerance_nonneg : (0 : Rat) ≤ Weight.tolerance := by
  show (0 : Rat) ≤ 1 / 1000000000000
  norm_num

theorem best_gains (gain : Nat → Rat → Rat) (candidates : Tally Rat) : ∀ start : Nat × Rat,
    best gain candidates start = start ∨ start.2 + Weight.tolerance < (best gain candidates start).2 := by
  induction candidates with
  | nil => exact fun start => Or.inl rfl
  | cons p candidates ih =>
    intro start
    rw [best_cons]
    split
    · rename_i hless
      have hp : start.2 + Weight.tolerance < gain p.1 p.2 := by simpa [Weight.less] using hless
      rcases ih (p.1, gain p.1 p.2) with hbest | hbest
      · rw [hbest]
        exact Or.inr hp
      · exact Or.inr (hp.trans_le ((le_add_of_nonneg_right tolerance_nonneg).trans hbest.le))
    · exact ih start

/-- A candidate comes with the weight of the links of the node with it. -/
theorem weight_of_mem_links {p : Nat × Rat} (hp : p ∈ s.links l i) : p.2 = l.sum (touch s.label i p.1) := by
  rw [← links_get]
  exact (Tally.get_eq_of_mem (Tally.sorted_ofList _) hp).symm

/-- A node moves only to a community where its links have more surplus, by more than the tolerance. -/
theorem surplus_of_moved (hl : l.Closed) (h : Reachable t l s) (hi : i < l.size) (hmoved : (s.visit t l i).2 = true) :
    l.surplus t (touch s.label i (s.label i)) + Weight.tolerance <
      l.surplus t (touch s.label i (s.choose t l i).1) := by
  have htallied := h.tallied hl
  have hne := visit_snd.mp hmoved
  rw [choose] at hne ⊢
  rw [links_get, gain_eq htallied (h.label_lt hl hi)] at hne ⊢
  rcases best_gains _ _ _ with hbest | hbest
  · rw [hbest] at hne
    exact absurd rfl hne
  · rcases best_cases (_ : Nat → Rat → Rat) _ _ with ⟨hstart, -⟩ | ⟨p, hp, hbestp⟩
    · rw [hstart] at hne
      exact absurd rfl hne
    · have hlinks := List.mem_of_mem_filter hp
      rw [hbestp] at hbest ⊢
      rwa [weight_of_mem_links hlinks, gain_eq htallied (lt_of_mem_links hl h hlinks)] at hbest

/-- A node that stays has links with no other community whose surplus is greater by more than the tolerance. -/
theorem surplus_of_still (hl : l.Closed) (h : Reachable t l s) (hi : i < l.size) (hstill : (s.visit t l i).2 = false)
    (hc : c ∈ (s.links l i).map Prod.fst) (hne : c ≠ s.label i) :
    l.surplus t (touch s.label i c) ≤ l.surplus t (touch s.label i (s.label i)) + Weight.tolerance := by
  have htallied := h.tallied hl
  have hstay : (s.choose t l i).1 = s.label i := by
    by_contra hmove
    rw [visit_snd.mpr hmove] at hstill
    cases hstill
  obtain ⟨p, hp, rfl⟩ := List.mem_map.mp hc
  have hcand : p ∈ (s.links l i).filter (·.1 != s.label i) := List.mem_filter.mpr ⟨hp, by simpa using hne⟩
  rw [choose] at hstay
  rw [links_get, gain_eq htallied (h.label_lt hl hi)] at hstay
  rcases best_cases ((s.leave l i (s.label i)).gain t l i) ((s.links l i).filter (·.1 != s.label i))
      (s.label i, l.surplus t (touch s.label i (s.label i))) with ⟨-, hless⟩ | ⟨q, hq, hbest⟩
  · have := hless p hcand
    rw [weight_of_mem_links hp, gain_eq htallied (lt_of_mem_links hl h hp)] at this
    simpa [Weight.less] using this
  · rw [hbest] at hstay
    exact absurd hstay (by simpa using (List.mem_filter.mp hq).2)

end Moving
end ModuleAudit.Community
