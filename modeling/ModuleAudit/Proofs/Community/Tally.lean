import Mathlib.Algebra.Order.BigOperators.Group.List
import Mathlib.Algebra.Order.Ring.Rat
import Mathlib.Tactic.Ring
import ModuleAudit.Community.Tally

/-! Tallies list the numbers that were counted, each once and in ascending order, and in exact arithmetic nothing of
    what was counted is lost: any sum over a tally is the sum over the counted pairs. -/

namespace ModuleAudit.Community.Tally

/-! ### The numbers of a tally -/

section Keys
variable {α : Type} [Weight α] {k j : Nat} {w : α}

theorem mem_keys_add (t : Tally α) : j ∈ (t.add k w).map Prod.fst ↔ j = k ∨ j ∈ t.map Prod.fst := by
  induction t with
  | nil => simp [add]
  | cons p t ih =>
    obtain ⟨k', v⟩ := p
    rw [add]
    split
    · simp
    · split
      · rename_i hk
        simp [hk]
      · rw [List.map_cons, List.mem_cons, ih]
        simp only [List.map_cons, List.mem_cons]
        tauto

theorem sorted_add {t : Tally α} (h : (t.map Prod.fst).Pairwise (· < ·)) :
    ((t.add k w).map Prod.fst).Pairwise (· < ·) := by
  induction t with
  | nil => simp [add]
  | cons p t ih =>
    obtain ⟨k', v⟩ := p
    obtain ⟨hlt, ht⟩ := List.pairwise_cons.mp h
    rw [add]
    split
    · rename_i hk
      refine List.pairwise_cons.mpr ⟨fun j hj => ?_, h⟩
      rcases List.mem_cons.mp hj with rfl | hj
      · exact hk
      · exact hk.trans (hlt j hj)
    · split
      · exact h
      · rename_i hk hne
        refine List.pairwise_cons.mpr ⟨fun j hj => ?_, ih ht⟩
        rcases (mem_keys_add t).mp hj with rfl | hj
        · dsimp only
          omega
        · exact hlt j hj

theorem mem_keys_foldl (pairs : List (Nat × α)) : ∀ t : Tally α,
    k ∈ (pairs.foldl (fun t p => t.add p.1 p.2) t).map Prod.fst ↔ k ∈ t.map Prod.fst ∨ k ∈ pairs.map Prod.fst := by
  induction pairs with
  | nil => simp
  | cons p pairs ih =>
    intro t
    rw [List.foldl_cons, ih, mem_keys_add]
    simp only [List.map_cons, List.mem_cons]
    tauto

theorem mem_keys_ofList {pairs : List (Nat × α)} : k ∈ (ofList pairs).map Prod.fst ↔ k ∈ pairs.map Prod.fst := by
  rw [ofList, mem_keys_foldl]
  simp

theorem sorted_ofList (pairs : List (Nat × α)) : ((ofList pairs).map Prod.fst).Pairwise (· < ·) := by
  suffices h : ∀ t : Tally α, (t.map Prod.fst).Pairwise (· < ·) →
      ((pairs.foldl (fun t p => t.add p.1 p.2) t).map Prod.fst).Pairwise (· < ·) from h [] (by simp)
  induction pairs with
  | nil => exact fun _ h => h
  | cons p pairs ih => exact fun t h => ih _ (sorted_add h)

end Keys

/-! ### The weights of a tally -/

section Weights
variable {k : Nat} {w : Rat}

/-- Adding a weight adds its share to any sum over the tally. -/
theorem sum_add (F : Nat → Rat) (t : Tally Rat) :
    ((t.add k w).map fun p => F p.1 * p.2).sum = (t.map fun p => F p.1 * p.2).sum + F k * w := by
  induction t with
  | nil => simp [add]
  | cons p t ih =>
    obtain ⟨k', v⟩ := p
    rw [add]
    split
    · simp only [List.map_cons, List.sum_cons]
      ring
    · split
      · rename_i hk
        subst hk
        simp only [List.map_cons, List.sum_cons]
        ring
      · simp only [List.map_cons, List.sum_cons] at ih ⊢
        rw [ih]
        ring

theorem sum_ofList (F : Nat → Rat) (pairs : List (Nat × Rat)) :
    ((ofList pairs).map fun p => F p.1 * p.2).sum = (pairs.map fun p => F p.1 * p.2).sum := by
  suffices h : ∀ t : Tally Rat, ((pairs.foldl (fun t p => t.add p.1 p.2) t).map fun p => F p.1 * p.2).sum =
      (t.map fun p => F p.1 * p.2).sum + (pairs.map fun p => F p.1 * p.2).sum by
    simpa [ofList] using h []
  induction pairs with
  | nil => simp
  | cons p pairs ih =>
    intro t
    rw [List.foldl_cons, ih, sum_add, List.map_cons, List.sum_cons]
    ring

theorem get_cons (p : Nat × Rat) (t : Tally Rat) : get (p :: t) k = if k = p.1 then p.2 else get t k := by
  rw [get, List.lookup_cons]
  by_cases hk : k = p.1
  · simp [hk]
  · rw [beq_false_of_ne hk, if_neg hk, get]

/-- The weight under a number is all that the tally holds for it. -/
theorem get_eq_sum {t : Tally Rat} (h : (t.map Prod.fst).Pairwise (· < ·)) :
    t.get k = (t.map fun p => (if p.1 = k then 1 else 0) * p.2).sum := by
  induction t with
  | nil => simp [get]
  | cons p t ih =>
    obtain ⟨k', v⟩ := p
    obtain ⟨hlt, ht⟩ := List.pairwise_cons.mp h
    rw [List.map_cons, List.sum_cons, ← ih ht]
    rw [get_cons]
    by_cases hk : k = k'
    · subst hk
      have hrest : get t k = 0 := by
        rw [get, List.lookup_eq_none_iff.mpr fun p hp => ?_, Option.getD_none]
        have := hlt p.1 (List.mem_map_of_mem hp)
        simpa using this.ne
      simp [hrest]
    · simp [hk, Ne.symm hk]

theorem get_ofList (pairs : List (Nat × Rat)) :
    (ofList pairs).get k = (pairs.map fun p => (if p.1 = k then 1 else 0) * p.2).sum := by
  rw [get_eq_sum (sorted_ofList pairs), sum_ofList fun j => if j = k then 1 else 0]

theorem get_eq_of_mem {t : Tally Rat} (h : (t.map Prod.fst).Pairwise (· < ·)) (hw : (k, w) ∈ t) : t.get k = w := by
  induction t with
  | nil => cases hw
  | cons p t ih =>
    obtain ⟨hlt, ht⟩ := List.pairwise_cons.mp h
    rcases List.mem_cons.mp hw with rfl | hw
    · rw [get_cons, if_pos rfl]
    · have hne := hlt k (List.mem_map_of_mem (f := Prod.fst) hw)
      rw [get_cons, if_neg hne.ne', ih ht hw]

theorem nonneg_ofList {pairs : List (Nat × Rat)} (h : ∀ p ∈ pairs, 0 ≤ p.2) : ∀ p ∈ ofList pairs, 0 ≤ p.2 := by
  intro p hp
  rw [← get_eq_of_mem (sorted_ofList pairs) hp, get_ofList]
  refine List.sum_nonneg fun x hx => ?_
  obtain ⟨q, hq, rfl⟩ := List.mem_map.mp hx
  exact mul_nonneg (by split <;> simp) (h q hq)

end Weights
end ModuleAudit.Community.Tally
