import Mathlib.Algebra.BigOperators.Pi
import Mathlib.Algebra.BigOperators.Ring.List
import Mathlib.Algebra.Module.LinearMap.Basic
import Mathlib.Algebra.Module.Pi
import Mathlib.Tactic.LinearCombination
import ModuleAudit.Proofs.Community.Reached

/-! The surplus of a level, in exact arithmetic. A pattern says how much each pair of nodes counts; its surplus is the
    weight of the links that it counts, without the weight that chance would give them. The surplus is linear in the
    pattern, and a contraction does not change it, which is all that the arguments on moves and mergers need. -/

namespace ModuleAudit.Community

/-- How much each pair of nodes counts. -/
abbrev Pattern := Nat → Nat → Rat

/-- The pattern that counts the pairs of nodes with one label. -/
def same (label : Nat → Nat) : Pattern := fun a b => if label a = label b then 1 else 0

/-- An end of a link. What holds of the sources of links holds of their targets as well. -/
inductive End where
  | source
  | target

/-- What stands at this end, when a link leads from `a` to `b`. -/
def End.near {β : Type} : End → β → β → β
  | source, a, _ => a
  | target, _, b => b

theorem End.near_map {β γ : Type} (e : End) (f : β → γ) (a b : β) : e.near (f a) (f b) = f (e.near a b) := by
  cases e <;> rfl

theorem End.near_lt {n a b : Nat} (e : End) (ha : a < n) (hb : b < n) : e.near a b < n := by
  cases e with
  | source => exact ha
  | target => exact hb

theorem weightSum_eq (xs : List Rat) : Weight.sum xs = xs.sum := by
  rw [Weight.sum, List.sum_eq_foldl]

/-- A sum over chosen members is one in which the others count nothing. -/
theorem sum_map_filter {β : Type} (p : β → Bool) (f : β → Rat) (xs : List β) :
    ((xs.filter p).map f).sum = (xs.map fun x => (if p x = true then 1 else 0) * f x).sum := by
  induction xs with
  | nil => rfl
  | cons x xs ih =>
    by_cases hx : p x = true
    · simp [hx, ih]
    · simp [hx, ih]

/-- What a functional gives for nodes together is the sum of what it gives for each. -/
theorem map_nodes (W : (Nat → Rat) →ₗ[Rat] Rat) (nodes : Finset Nat) :
    (W fun a => if a ∈ nodes then 1 else 0) = ∑ i ∈ nodes, W fun a => if a = i then 1 else 0 := by
  rw [← map_sum]
  refine congrArg W (funext fun a => ?_)
  rw [Finset.sum_apply, Finset.sum_ite_eq]

namespace Level

variable {l : Level Rat} {t : Tuning Rat} {F G : Pattern} {i j : Nat}

/-! ### Sums over the links -/

/-- The weight of the links, each as often as the pattern counts it. -/
def sum (l : Level Rat) : Pattern →ₗ[Rat] Rat where
  toFun F := (l.links.map fun k => F k.source k.target * k.weight).sum
  map_add' F G := by
    rw [← List.sum_map_add]
    simp only [Pi.add_apply, add_mul]
  map_smul' c F := by
    rw [RingHom.id_apply, smul_eq_mul, ← List.sum_map_mul_left]
    simp only [Pi.smul_apply, smul_eq_mul, mul_assoc]

theorem sum_apply (l : Level Rat) (F : Pattern) :
    l.sum F = (l.links.map fun k => F k.source k.target * k.weight).sum := rfl

theorem sum_congr (h : ∀ k ∈ l.links, F k.source k.target = G k.source k.target) : l.sum F = l.sum G := by
  rw [sum_apply, sum_apply]
  exact congrArg List.sum (List.map_congr_left fun k hk => by rw [h k hk])

/-- No link has a negative weight. -/
def Nonneg (l : Level Rat) : Prop := ∀ k ∈ l.links, 0 ≤ k.weight

theorem Nonneg.sum_nonneg (hl : l.Nonneg) (hF : ∀ a b, 0 ≤ F a b) : 0 ≤ l.sum F := by
  refine List.sum_nonneg fun x hx => ?_
  obtain ⟨k, hk, rfl⟩ := List.mem_map.mp hx
  exact mul_nonneg (hF _ _) (hl k hk)

theorem Nonneg.sum_mono (hl : l.Nonneg) (h : ∀ a b, F a b ≤ G a b) : l.sum F ≤ l.sum G := by
  rw [sum_apply, sum_apply]
  exact List.sum_le_sum fun k hk => mul_le_mul_of_nonneg_right (h _ _) (hl k hk)

/-- A single link counts no more than all. -/
theorem Nonneg.le_sum (hl : l.Nonneg) (hF : ∀ a b, 0 ≤ F a b) {k : Link Rat} (hk : k ∈ l.links) :
    F k.source k.target * k.weight ≤ l.sum F := by
  rw [sum_apply]
  refine List.single_le_sum (fun x hx => ?_) _ (List.mem_map_of_mem hk)
  obtain ⟨k', hk', rfl⟩ := List.mem_map.mp hx
  exact mul_nonneg (hF _ _) (hl k' hk')

/-- The weight of the links, each as often as its source counts. -/
def sources (l : Level Rat) : (Nat → Rat) →ₗ[Rat] Rat where
  toFun f := l.sum fun a _ => f a
  map_add' f g := map_add l.sum (fun a _ => f a) (fun a _ => g a)
  map_smul' c f := map_smul l.sum c (fun a _ => f a)

/-- The weight of the links, each as often as its target counts. -/
def targets (l : Level Rat) : (Nat → Rat) →ₗ[Rat] Rat where
  toFun f := l.sum fun _ b => f b
  map_add' f g := map_add l.sum (fun _ b => f b) (fun _ b => g b)
  map_smul' c f := map_smul l.sum c (fun _ b => f b)

theorem sources_apply (l : Level Rat) (f : Nat → Rat) : l.sources f = l.sum fun a _ => f a := rfl

theorem targets_apply (l : Level Rat) (f : Nat → Rat) : l.targets f = l.sum fun _ b => f b := rfl

theorem outWeight_eq (l : Level Rat) (i : Nat) : l.outWeight i = l.sources fun a => if a = i then 1 else 0 := by
  rw [outWeight, weightSum_eq, outgoing, sum_map_filter, sources_apply, sum_apply]
  simp only [beq_iff_eq]

theorem inWeight_eq (l : Level Rat) (i : Nat) : l.inWeight i = l.targets fun b => if b = i then 1 else 0 := by
  rw [inWeight, weightSum_eq, incoming, sum_map_filter, targets_apply, sum_apply]
  simp only [beq_iff_eq]

theorem total_eq (l : Level Rat) : l.total = l.sum fun _ _ => 1 := by
  simp [total, weightSum_eq, sum_apply]

/-! ### Either end of the links -/

/-- The weight of the links, each as often as its node at this end counts. -/
def ends (l : Level Rat) : End → (Nat → Rat) →ₗ[Rat] Rat
  | .source => l.sources
  | .target => l.targets

/-- The weight of the links that have a node at this end. -/
def weightAt (l : Level Rat) : End → Nat → Rat
  | .source => l.outWeight
  | .target => l.inWeight

theorem ends_apply (l : Level Rat) (e : End) (f : Nat → Rat) : l.ends e f = l.sum fun a b => f (e.near a b) := by
  cases e <;> rfl

theorem weightAt_eq (l : Level Rat) (e : End) (i : Nat) :
    l.weightAt e i = l.ends e fun a => if a = i then 1 else 0 := by
  cases e with
  | source => exact l.outWeight_eq i
  | target => exact l.inWeight_eq i

theorem ends_congr (hl : l.Closed) (e : End) {f g : Nat → Rat} (h : ∀ a < l.size, f a = g a) :
    l.ends e f = l.ends e g := by
  rw [ends_apply, ends_apply]
  exact sum_congr fun k hk => h _ (e.near_lt (hl k hk).1 (hl k hk).2)

theorem Nonneg.weightAt_nonneg (hl : l.Nonneg) (e : End) (i : Nat) : 0 ≤ l.weightAt e i := by
  rw [weightAt_eq, ends_apply]
  exact hl.sum_nonneg fun a b => by split <;> simp

/-! ### Sums over pairs of links -/

/-- The sources of the links paired with the targets, each pair as often as the pattern counts it, by the product of
    the weights. -/
def paired (l : Level Rat) : Pattern →ₗ[Rat] Rat where
  toFun F := l.sources fun a => l.targets (F a)
  map_add' F G := by
    rw [← map_add]
    exact congrArg l.sources (funext fun a => map_add l.targets (F a) (G a))
  map_smul' c F := by
    rw [RingHom.id_apply, ← map_smul]
    exact congrArg l.sources (funext fun a => map_smul l.targets c (F a))

theorem paired_apply (l : Level Rat) (F : Pattern) : l.paired F = l.sources fun a => l.targets (F a) := rfl

/-- A pattern that counts sources and targets apart gives a product. -/
theorem paired_mul (l : Level Rat) (f g : Nat → Rat) :
    (l.paired fun a b => f a * g b) = l.sources f * l.targets g := by
  have hinner (a : Nat) : (l.targets fun b => f a * g b) = l.targets g * f a := by
    rw [mul_comm]
    exact map_smul l.targets (f a) g
  rw [paired_apply, mul_comm]
  simp only [hinner]
  exact map_smul l.sources (l.targets g) f

theorem paired_one (l : Level Rat) : (l.paired fun _ _ => 1) = l.total * l.total := by
  have := l.paired_mul (fun _ => 1) (fun _ => 1)
  simpa only [mul_one, sources_apply, targets_apply, ← total_eq] using this

theorem paired_congr (hl : l.Closed) (h : ∀ a < l.size, ∀ b < l.size, F a b = G a b) : l.paired F = l.paired G := by
  rw [paired_apply, paired_apply]
  exact ends_congr hl .source fun a ha => ends_congr hl .target fun b hb => h a ha b hb

theorem Nonneg.paired_mono (hl : l.Nonneg) (h : ∀ a b, F a b ≤ G a b) : l.paired F ≤ l.paired G := by
  rw [paired_apply, paired_apply, sources_apply, sources_apply]
  refine hl.sum_mono fun a _ => ?_
  rw [targets_apply, targets_apply]
  exact hl.sum_mono fun _ b => h a b

/-! ### The surplus -/

/-- What a pattern counts among the links, without what chance would give: a link from each source to each target in
    proportion to their weights. -/
def surplus (l : Level Rat) (t : Tuning Rat) : Pattern →ₗ[Rat] Rat where
  toFun F := l.sum F - t.penalty * l.paired F / l.total
  map_add' F G := by
    rw [map_add, map_add]
    ring
  map_smul' c F := by
    rw [map_smul, map_smul, RingHom.id_apply, smul_eq_mul, smul_eq_mul, smul_eq_mul]
    ring

theorem surplus_apply (l : Level Rat) (t : Tuning Rat) (F : Pattern) :
    l.surplus t F = l.sum F - t.penalty * l.paired F / l.total := rfl

theorem surplus_congr (hl : l.Closed) (h : ∀ a < l.size, ∀ b < l.size, F a b = G a b) :
    l.surplus t F = l.surplus t G := by
  rw [surplus_apply, surplus_apply, paired_congr hl h, sum_congr fun k hk => h _ (hl k hk).1 _ (hl k hk).2]

/-- A pattern that counts no link has no surplus: chance gives no less than nothing. -/
theorem surplus_nonpos (hl : l.Nonneg) (ht : 0 ≤ t.penalty) (hF : ∀ a b, 0 ≤ F a b)
    (h : ∀ k ∈ l.links, F k.source k.target = 0) : l.surplus t F ≤ 0 := by
  have hsum : l.sum F = 0 := by
    rw [sum_congr (G := 0) h, map_zero]
  have hpaired : 0 ≤ l.paired F := by
    rw [paired_apply, sources_apply]
    refine hl.sum_nonneg fun a _ => ?_
    rw [targets_apply]
    exact hl.sum_nonneg fun _ b => hF a b
  have htotal : 0 ≤ l.total := by
    rw [total_eq]
    exact hl.sum_nonneg fun _ _ => zero_le_one
  rw [surplus_apply, hsum, zero_sub, neg_nonpos]
  exact div_nonneg (mul_nonneg ht hpaired) htotal

/-! ### Contraction -/

section
variable {labels : Array Nat} {count : Nat} (hl : l.Closed) (hlt : ∀ a < l.size, labels.getD a 0 < count)
include hl hlt

/-- What a pattern counts among communities, the pattern of the labels counts among their nodes. -/
theorem sum_aggregate (F : Pattern) :
    (l.aggregate labels count).sum F = l.sum fun a b => F (labels.getD a 0) (labels.getD b 0) := by
  have hrow (c : Nat) : ((Tally.ofList ((l.links.filter fun k => labels.getD k.source 0 == c).map
      fun k => (labels.getD k.target 0, k.weight))).map fun p => F c p.1 * p.2).sum =
        l.sum fun a b => if labels.getD a 0 = c then F c (labels.getD b 0) else 0 := by
    rw [Tally.sum_ofList (F c), List.map_map]
    refine (sum_map_filter _ _ _).trans (congrArg List.sum (List.map_congr_left fun k _ => ?_))
    simp only [beq_iff_eq, Function.comp_apply]
    split <;> simp
  calc (l.aggregate labels count).sum F
      = ((List.range count).map fun c => l.sum fun a b =>
          if labels.getD a 0 = c then F c (labels.getD b 0) else 0).sum := by
        rw [sum_apply, aggregate, List.map_flatMap, List.flatMap_def, List.sum_flatten, List.map_map]
        refine congrArg List.sum (List.map_congr_left fun c _ => ?_)
        rw [← hrow, Function.comp_apply, List.map_map]
        rfl
    _ = ∑ c ∈ Finset.range count, l.sum fun a b => if labels.getD a 0 = c then F c (labels.getD b 0) else 0 := rfl
    _ = l.sum (∑ c ∈ Finset.range count, fun a b =>
          if labels.getD a 0 = c then F c (labels.getD b 0) else 0) := (map_sum l.sum _ _).symm
    _ = l.sum fun a b => F (labels.getD a 0) (labels.getD b 0) := by
        refine sum_congr fun k hk => ?_
        rw [Finset.sum_apply, Finset.sum_apply, Finset.sum_ite_eq, if_pos (Finset.mem_range.mpr (hlt _ (hl k hk).1))]

theorem total_aggregate : (l.aggregate labels count).total = l.total := by
  rw [total_eq, total_eq, sum_aggregate hl hlt]

theorem surplus_aggregate (F : Pattern) : (l.aggregate labels count).surplus t F =
    l.surplus t fun a b => F (labels.getD a 0) (labels.getD b 0) := by
  rw [surplus_apply, surplus_apply, paired_apply, paired_apply, total_aggregate hl hlt, sum_aggregate hl hlt]
  simp only [sources_apply, targets_apply, sum_aggregate hl hlt]

end

theorem total_contract (hl : l.Closed) : (l.contract t).total = l.total := total_aggregate hl fun _ ha => number_lt ha

theorem surplus_contract (hl : l.Closed) (F : Pattern) :
    (l.contract t).surplus t F = l.surplus t fun a b => F (l.number t a) (l.number t b) :=
  surplus_aggregate hl (fun _ ha => number_lt ha) F

theorem Nonneg.aggregate (hl : l.Nonneg) (labels : Array Nat) (count : Nat) : (l.aggregate labels count).Nonneg := by
  intro k hk
  obtain ⟨c, -, hk⟩ := List.mem_flatMap.mp hk
  obtain ⟨p, hp, rfl⟩ := List.mem_map.mp hk
  refine Tally.nonneg_ofList (fun q hq => ?_) p hp
  obtain ⟨k', hk', rfl⟩ := List.mem_map.mp hq
  exact hl k' (List.mem_of_mem_filter hk')

theorem Nonneg.contract (hl : l.Nonneg) : (l.contract t).Nonneg := hl.aggregate _ _

end Level
end ModuleAudit.Community
