import Mathlib.Data.List.TakeWhile
import ModuleAudit.Graph.Reach
import ModuleAudit.Proofs.Lists

/-! The search told by ways. Where the search keeps the parents of the nodes that it found, another one keeps the whole
    way to each node in the queue, and looks for the return before it looks for new nodes. Both give the same: the
    parents lead back along the ways, and what is found later is on none of them. -/

namespace ModuleAudit.Reach

variable {α : Type} {next : α → List α} {members bs fs before path : List α} {a b start : α}
  {parents : List (α × α)} {s : Trail α} {ways : List (α × List α)} {steps : Nat}

/-- What is found is put at the end of the queue and of the seen nodes. -/
theorem foldl_find (fs : List α) (a : α) (s : Trail α) :
    (fs.foldl (·.find a ·) s).queue = s.queue ++ fs ∧ (fs.foldl (·.find a ·) s).seen = s.seen ++ fs := by
  induction fs generalizing s with
  | nil => simp
  | cons b fs ih =>
    obtain ⟨hqueue, hseen⟩ := ih (s.find a b)
    rw [List.foldl_cons, hqueue, hseen]
    simp [Trail.find]

variable [DecidableEq α]

/-- The new members among nodes, each once. -/
def fresh (members seen bs : List α) : List α := bs.eraseDups.filter fun b => members.contains b && !seen.contains b

/-- Looks for a way back to `start` that stays among `members`. The queue holds the ways that are still to be
    prolonged, shortest first, each as its last node and the nodes before it, last first. -/
def wayBack? (next : α → List α) (start : α) (members : List α) :
    Nat → List (α × List α) → List α → Option (List α)
  | 0, _, _ => none
  | _ + 1, [], _ => none
  | steps + 1, (a, before) :: queue, seen =>
    if (next a).contains start then some (a :: before).reverse
    else
      let new := fresh members seen (next a)
      wayBack? next start members steps (queue ++ new.map fun b => (b, a :: before)) (seen ++ new)

/-! ### The scan of the successors -/

theorem fresh_cons_of_pos {seen : List α} (h : (members.contains b && !seen.contains b) = true) :
    fresh members seen (b :: bs) = b :: fresh members (seen ++ [b]) bs := by
  rw [fresh, fresh, List.eraseDups_cons, List.filter_cons, if_pos h, Lists.filter_eraseDups, Lists.filter_eraseDups,
    List.filter_filter]
  refine congrArg (b :: List.eraseDups ·) (List.filter_congr fun x _ => ?_)
  by_cases hx : x = b <;> simp [hx]

theorem fresh_cons_of_neg {seen : List α} (h : (members.contains b && !seen.contains b) ≠ true) :
    fresh members seen (b :: bs) = fresh members seen bs := by
  rw [fresh, fresh, Lists.filter_eraseDups, Lists.filter_eraseDups, List.filter_cons, if_neg h]

theorem mem_fresh {seen : List α} : b ∈ fresh members seen bs ↔ b ∈ bs ∧ b ∈ members ∧ b ∉ seen := by
  simp [fresh, List.mem_eraseDups]

theorem nodup_fresh (members seen bs : List α) : (fresh members seen bs).Nodup := (Lists.nodup_eraseDups bs).filter _

/-- The nodes before the return are found, one after the other. -/
theorem scan_eq (start : α) (members : List α) (a : α) (bs : List α) (s : Trail α) :
    Trail.scan start members a bs s =
      ((fresh members s.seen (bs.takeWhile (· != start))).foldl (·.find a ·) s, bs.contains start) := by
  induction bs generalizing s with
  | nil => rfl
  | cons b bs ih =>
    rw [Trail.scan]
    by_cases hb : b = start
    · subst hb
      simp [fresh]
    · rw [if_neg hb, List.takeWhile_cons_of_pos (by simpa using hb), List.contains_cons,
        beq_false_of_ne (Ne.symm hb), Bool.false_or]
      split
      · rename_i hnew
        rw [ih, fresh_cons_of_pos hnew]
        rfl
      · rename_i hold
        rw [ih, fresh_cons_of_neg hold]

/-! ### Ways along the parents -/

/-- The parents lead from a node to `start`, by way of the nodes before it, last first. -/
inductive Led (parents : List (α × α)) (start : α) : α → List α → Prop
  | start : Led parents start start []
  | step {a b : α} {before : List α} (hne : a ≠ start) (hparent : parents.lookup a = some b)
      (h : Led parents start b before) : Led parents start a (b :: before)

theorem Led.unwind_eq (h : Led parents start a before) (hsteps : before.length ≤ steps) :
    unwind parents start steps a path = (a :: before).reverse ++ path := by
  induction h generalizing steps path with
  | start =>
    cases steps with
    | zero => rfl
    | succ steps => rw [unwind, if_pos rfl]; rfl
  | @step a b before hne hparent _ ih =>
    cases steps with
    | zero => cases hsteps
    | succ steps =>
      rw [unwind, if_neg hne, hparent]
      dsimp only
      rw [ih (Nat.le_of_succ_le_succ hsteps)]
      simp

/-- A parent of a node that is not on the way changes nothing. -/
theorem Led.cons {c : α} (h : Led parents start a before) (hb : b ∉ a :: before) :
    Led ((b, c) :: parents) start a before := by
  induction h with
  | start => exact .start
  | @step a d before hne hparent _ ih =>
    rw [List.mem_cons, not_or] at hb
    refine .step hne ?_ (ih hb.2)
    rw [List.lookup_cons, beq_false_of_ne (Ne.symm hb.1)]
    exact hparent

/-- The way to a node goes through seen nodes, and has no more of them than have parents. -/
structure Traced (start : α) (s : Trail α) (e : α × List α) : Prop where
  led : Led s.parents start e.1 e.2
  seen : e.1 :: e.2 ⊆ s.seen
  short : e.2.length ≤ s.parents.length

theorem Traced.find {e : α × List α} {c : α} (h : Traced start s e) (hb : b ∉ s.seen) :
    Traced start (s.find c b) e where
  led := h.led.cons fun hmem => hb (h.seen hmem)
  seen := List.Subset.trans h.seen (List.subset_append_left _ _)
  short := h.short.trans (Nat.le_succ _)

theorem Traced.found (h : Traced start s (a, before)) (hb : b ∉ s.seen) (hne : b ≠ start) :
    Traced start (s.find a b) (b, a :: before) where
  led := .step hne List.lookup_cons_self (h.find hb).led
  seen := List.cons_subset.mpr ⟨List.mem_append_right _ List.mem_cons_self, (h.find hb).seen⟩
  short := Nat.succ_le_succ h.short

/-- When nodes are found from one that is traced, all ways are traced, the new ones included. -/
theorem traced_foldl_find (ha : Traced start s (a, before)) (hways : ∀ e ∈ ways, Traced start s e) (hnodup : fs.Nodup)
    (hfs : ∀ b ∈ fs, b ∉ s.seen ∧ b ≠ start) :
    Traced start (fs.foldl (·.find a ·) s) (a, before) ∧
      ∀ e ∈ ways ++ fs.map fun b => (b, a :: before), Traced start (fs.foldl (·.find a ·) s) e := by
  induction fs generalizing s ways with
  | nil => exact ⟨ha, by simpa using hways⟩
  | cons b fs ih =>
    obtain ⟨hb, hne⟩ := hfs b List.mem_cons_self
    obtain ⟨hnotMem, hnodup⟩ := List.nodup_cons.mp hnodup
    have hrest : ∀ c ∈ fs, c ∉ (s.find a b).seen ∧ c ≠ start := by
      intro c hc
      obtain ⟨hnew, hcne⟩ := hfs c (List.mem_cons_of_mem _ hc)
      refine ⟨fun hmem => ?_, hcne⟩
      rcases List.mem_append.mp hmem with hmem | hmem
      · exact hnew hmem
      · exact hnotMem (List.mem_singleton.mp hmem ▸ hc)
    have hways' : ∀ e ∈ ways ++ [(b, a :: before)], Traced start (s.find a b) e := by
      intro e he
      rcases List.mem_append.mp he with he | he
      · exact (hways e he).find hb
      · exact List.mem_singleton.mp he ▸ ha.found hb hne
    have h := ih (ha.find hb) hways' hnodup hrest
    rwa [List.append_assoc] at h

/-! ### The two searches -/

/-- With the ways of its queue traced, a search along the parents is one along the ways. -/
theorem search?_eq (steps : Nat) (hqueue : s.queue = ways.map Prod.fst) (hways : ∀ e ∈ ways, Traced start s e) :
    search? next start members steps s = wayBack? next start members steps ways s.seen := by
  induction steps generalizing s ways with
  | zero => rfl
  | succ steps ih =>
    cases ways with
    | nil => simp [search?, wayBack?, hqueue]
    | cons e ways =>
      obtain ⟨a, before⟩ := e
      have hfs : ∀ b ∈ fresh members s.seen ((next a).takeWhile (· != start)), b ∉ s.seen ∧ b ≠ start := by
        intro b hb
        obtain ⟨hb, -, hnew⟩ := mem_fresh.mp hb
        exact ⟨hnew, by simpa using List.mem_takeWhile_imp hb⟩
      -- Only the queue is shorter, so what is traced stays so.
      have hpop {e : α × List α} (h : Traced start s e) : Traced start { s with queue := ways.map Prod.fst } e :=
        ⟨h.led, h.seen, h.short⟩
      obtain ⟨ha, hnew⟩ := traced_foldl_find (hpop (hways (a, before) List.mem_cons_self))
        (fun e he => hpop (hways e (List.mem_cons_of_mem _ he))) (nodup_fresh _ _ _) hfs
      simp only [search?, wayBack?, hqueue, List.map_cons, scan_eq]
      split
      · rw [ha.led.unwind_eq ha.short, List.append_nil]
      · rename_i hback
        -- Without a return all of the successors are gone through.
        have hall : (next a).takeWhile (· != start) = next a := List.takeWhile_eq_self_iff.mpr fun b hb =>
          bne_iff_ne.mpr fun heq => hback (List.contains_iff_mem.mpr (heq ▸ hb))
        rw [hall] at hnew ⊢
        obtain ⟨hq, hseen⟩ := foldl_find (fresh members s.seen (next a)) a { s with queue := ways.map Prod.fst }
        rw [ih (by rw [hq]; simp [Function.comp_def]) hnew, hseen]

theorem shortestCycle?_eq (next : α → List α) (start : α) (members : List α) :
    shortestCycle? next start members = wayBack? next start members members.length [(start, [])] [start] :=
  search?_eq _ rfl fun _ he => List.mem_singleton.mp he ▸ ⟨.start, List.Subset.refl _, Nat.le_refl _⟩

end ModuleAudit.Reach
