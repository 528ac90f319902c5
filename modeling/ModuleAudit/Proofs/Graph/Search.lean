import Mathlib.Logic.Relation
import ModuleAudit.Proofs.Graph.Trail

/-! Breadth-first search finds what is there. A search has some nodes done and some still to do; together they are
    the seen ones, and what follows a done node is seen (`Frontier`). Each step does one more node, so with as many
    steps as there are nodes nothing is left to do, and the seen nodes are closed under successors. -/

namespace ModuleAudit.Reach

variable {α : Type} {next : α → List α} {nodes members done todo fresh : List α} {a b start : α}

/-- One step along the successors. -/
def Step (next : α → List α) (a b : α) : Prop := b ∈ next a

/-! ### Ways -/

/-- A cycle from `start` on that stays among `members`: no node stands twice in it, each is followed by one of its
    successors, and the last by `start`. -/
structure Loop (next : α → List α) (start : α) (members c : List α) : Prop where
  head : c.head? = some start
  nodup : c.Nodup
  subset : c ⊆ members
  chain : (c ++ [start]).IsChain (Step next)

/-- A way from `start` to a node through seen nodes, as the queue holds it: the last node first. -/
structure Way (next : α → List α) (start : α) (seen way : List α) : Prop where
  last : way.getLast? = some start
  nodup : way.Nodup
  subset : way ⊆ seen
  chain : way.IsChain fun a b => Step next b a

namespace Way

variable {seen way : List α}

theorem prolong (h : Way next start seen (a :: way)) (hb : b ∈ next a) (hnew : b ∉ seen) {seen' : List α}
    (hsub : seen ⊆ seen') (hmem : b ∈ seen') : Way next start seen' (b :: a :: way) where
  last := by rw [List.getLast?_cons_cons]; exact h.last
  nodup := List.nodup_cons.mpr ⟨fun hmem => hnew (h.subset hmem), h.nodup⟩
  subset := List.cons_subset.mpr ⟨hmem, List.Subset.trans h.subset hsub⟩
  chain := List.isChain_cons_cons.mpr ⟨hb, h.chain⟩

theorem mono (h : Way next start seen way) {seen' : List α} (hsub : seen ⊆ seen') : Way next start seen' way :=
  ⟨h.last, h.nodup, List.Subset.trans h.subset hsub, h.chain⟩

theorem loop (h : Way next start seen (a :: way)) (hstart : start ∈ next a)
    (hsub : seen ⊆ members) : Loop next start members (a :: way).reverse where
  head := by rw [List.head?_reverse]; exact h.last
  nodup := List.nodup_reverse.mpr h.nodup
  subset := fun _ hx => hsub (h.subset (List.mem_reverse.mp hx))
  chain := by
    have hchain : (start :: a :: way).IsChain fun a b => Step next b a := List.isChain_cons_cons.mpr ⟨hstart, h.chain⟩
    rw [← List.reverse_cons, List.isChain_reverse]
    exact hchain

end Way

variable [DecidableEq α]

/-! ### The frontier -/

/-- A search among `nodes`: no node is seen twice, and the successors of the done nodes are seen. -/
structure Frontier (next : α → List α) (nodes done todo : List α) : Prop where
  nodup : (done ++ todo).Nodup
  subset : done ++ todo ⊆ nodes
  closed : ∀ a ∈ done, ∀ b ∈ next a, b ∈ nodes → b ∈ done ++ todo

namespace Frontier

/-- A node is done when its unseen successors are put at the end. -/
theorem step (h : Frontier next nodes done (a :: todo)) (hnodup : fresh.Nodup)
    (hfresh : ∀ b, b ∈ fresh ↔ b ∈ next a ∧ b ∈ nodes ∧ b ∉ done ++ a :: todo) :
    Frontier next nodes (done ++ [a]) (todo ++ fresh) := by
  have seen : (done ++ [a]) ++ (todo ++ fresh) = (done ++ a :: todo) ++ fresh := by simp
  refine ⟨?_, ?_, fun x hx b hb hbn => ?_⟩
  · rw [seen, List.nodup_append]
    refine ⟨h.nodup, hnodup, fun x hx y hy hxy => ?_⟩
    exact ((hfresh y).mp hy).2.2 (hxy ▸ hx)
  · rw [seen]
    exact List.append_subset.mpr ⟨h.subset, fun b hb => ((hfresh b).mp hb).2.1⟩
  · rw [seen]
    by_cases hold : b ∈ done ++ a :: todo
    · exact List.mem_append_left _ hold
    · rcases List.mem_append.mp hx with hx | hx
      · exact absurd (h.closed x hx b hb hbn) hold
      · obtain rfl := List.mem_singleton.mp hx
        exact List.mem_append_right _ ((hfresh b).mpr ⟨hb, hbn, hold⟩)

/-- When as many nodes are done as there are, nothing is left to do. -/
theorem todo_eq_nil (h : Frontier next nodes done todo) (hlen : nodes.length ≤ done.length) : todo = [] := by
  obtain ⟨-, -, hdisj⟩ := List.nodup_append.mp h.nodup
  have hdone : nodes ⊆ done := Lists.subset_of_length_le (List.nodup_append.mp h.nodup).1
    (fun _ hx => h.subset (List.mem_append_left _ hx)) hlen
  refine List.eq_nil_iff_forall_not_mem.mpr fun x hx => ?_
  exact hdisj x (hdone (h.subset (List.mem_append_right _ hx))) x hx rfl

end Frontier

/-! ### What can be reached -/

theorem mem_unseen {seen : List α} : b ∈ (next a).eraseDups.filter (!seen.contains ·) ↔ b ∈ next a ∧ b ∉ seen := by
  simp [List.mem_eraseDups]

/-- The search ends with nothing to do, and keeps what it has seen. -/
theorem reachable_frontier (hnext : ∀ a ∈ nodes, next a ⊆ nodes) :
    ∀ (steps : Nat) (done todo : List α), Frontier next nodes done todo → nodes.length ≤ steps + done.length →
      Frontier next nodes (reachable next steps todo (done ++ todo)) [] ∧
        done ++ todo ⊆ reachable next steps todo (done ++ todo)
  | 0, done, todo, h, hlen => by
    obtain rfl := h.todo_eq_nil (by omega)
    simpa [reachable] using h
  | _ + 1, done, [], h, _ => by simpa [reachable] using h
  | steps + 1, done, a :: todo, h, hlen => by
    have hfresh : ∀ b, b ∈ (next a).eraseDups.filter (!(done ++ a :: todo).contains ·) ↔
        b ∈ next a ∧ b ∈ nodes ∧ b ∉ done ++ a :: todo := fun b => by
      rw [mem_unseen]
      have hb : b ∈ next a → b ∈ nodes := fun hb => hnext a (h.subset (by simp)) hb
      tauto
    have h' := h.step ((Lists.nodup_eraseDups _).filter _) hfresh
    obtain ⟨hend, hsub⟩ := reachable_frontier hnext steps _ _ h' (by simp; omega)
    have seen (l : List α) : (done ++ [a]) ++ (todo ++ l) = (done ++ a :: todo) ++ l := by simp
    rw [seen] at hend hsub
    exact ⟨hend, fun x hx => hsub (List.mem_append_left _ hx)⟩

theorem exists_of_mem_reachable :
    ∀ (steps : Nat) (todo seen : List α), todo ⊆ seen → ∀ b ∈ reachable next steps todo seen,
      ∃ a ∈ seen, Relation.ReflTransGen (Step next) a b
  | 0, _, _, _, b, hb => ⟨b, hb, .refl⟩
  | _ + 1, [], _, _, b, hb => ⟨b, hb, .refl⟩
  | steps + 1, a :: todo, seen, hsub, b, hb => by
    rw [reachable] at hb
    obtain ⟨x, hx, hxb⟩ := exists_of_mem_reachable steps _ _ (List.append_subset.mpr
      ⟨fun y hy => List.mem_append_left _ (hsub (List.mem_cons_of_mem _ hy)),
        fun y hy => List.mem_append_right _ hy⟩) b hb
    rcases List.mem_append.mp hx with hx | hx
    · exact ⟨x, hx, hxb⟩
    · exact ⟨a, hsub (List.mem_cons_self), .head (mem_unseen.mp hx).1 hxb⟩

/-- With as many steps as there are nodes, the search from the successors of a node finds exactly what can be
    reached from the node in one or more steps. -/
theorem mem_after_iff {steps : Nat} (hnext : ∀ a ∈ nodes, next a ⊆ nodes) (hsteps : nodes.length ≤ steps)
    (ha : a ∈ nodes) : b ∈ after next steps a ↔ Relation.TransGen (Step next) a b := by
  have hstart : Frontier next nodes [] (next a).eraseDups :=
    ⟨Lists.nodup_eraseDups _, fun x hx => hnext a ha (List.mem_eraseDups.mp hx), by simp⟩
  obtain ⟨hend, hsub⟩ := reachable_frontier hnext steps [] _ hstart (by simpa using hsteps)
  rw [List.nil_append] at hend hsub
  have hnodes : ∀ x ∈ reachable next steps (next a).eraseDups (next a).eraseDups, x ∈ nodes := fun x hx =>
    hend.subset (List.mem_append_left _ hx)
  constructor
  · intro hb
    obtain ⟨x, hx, hxb⟩ := exists_of_mem_reachable steps _ _ (List.Subset.refl _) b hb
    exact Relation.TransGen.head' (List.mem_eraseDups.mp hx) hxb
  · intro hab
    induction hab with
    | single hb => exact hsub (List.mem_eraseDups.mpr hb)
    | @tail b c _ hbc ih =>
      have hc := hend.closed b ih c hbc (hnext b (hnodes b ih) hbc)
      rwa [List.append_nil] at hc

/-! ### The way back -/

theorem loop_of_wayBack? {c : List α} : ∀ (steps : Nat) (queue : List (α × List α)) (seen : List α),
    (∀ e ∈ queue, Way next start seen (e.1 :: e.2)) → seen ⊆ members →
      wayBack? next start members steps queue seen = some c → Loop next start members c
  | 0, _, _, _, _, h => by simp [wayBack?] at h
  | _ + 1, [], _, _, _, h => by simp [wayBack?] at h
  | steps + 1, (a, before) :: queue, seen, hways, hsub, h => by
    have ha := hways (a, before) List.mem_cons_self
    rw [wayBack?] at h
    split at h
    · rename_i hstart
      rw [← Option.some.inj h]
      exact ha.loop (by simpa using hstart) hsub
    · refine loop_of_wayBack? steps _ _ (fun e he => ?_) ?_ h
      · rcases List.mem_append.mp he with he | he
        · exact (hways e (List.mem_cons_of_mem _ he)).mono (List.subset_append_left _ _)
        · obtain ⟨b, hb, rfl⟩ := List.mem_map.mp he
          exact ha.prolong (mem_fresh.mp hb).1 (mem_fresh.mp hb).2.2
            (List.subset_append_left _ _) (List.mem_append_right _ hb)
      · exact List.append_subset.mpr ⟨hsub, fun b hb => (mem_fresh.mp hb).2.1⟩

/-- A search that finds nothing has done all that it saw, and no node that it did is followed by `start`. -/
theorem frontier_of_wayBack?_eq_none :
    ∀ (steps : Nat) (done : List α) (queue : List (α × List α)),
      Frontier next members done (queue.map Prod.fst) → (∀ a ∈ done, start ∉ next a) →
        members.length ≤ steps + done.length →
          wayBack? next start members steps queue (done ++ queue.map Prod.fst) = none →
            ∃ done', Frontier next members done' [] ∧ (∀ a ∈ done', start ∉ next a) ∧
              done ++ queue.map Prod.fst ⊆ done'
  | 0, done, queue, h, hdone, hlen, _ => by
    have hnil := h.todo_eq_nil (by omega)
    rw [hnil] at h
    exact ⟨done, h, hdone, by simp [hnil]⟩
  | _ + 1, done, [], h, hdone, _, _ => ⟨done, h, hdone, by simp⟩
  | steps + 1, done, (a, before) :: queue, h, hdone, hlen, hnone => by
    rw [wayBack?] at hnone
    split at hnone
    · cases hnone
    · rename_i hstart
      have h' := h.step (nodup_fresh _ _ _) fun b => mem_fresh
      have seen (l : List α) : (done ++ [a]) ++ (queue.map Prod.fst ++ l) = (done ++ a :: queue.map Prod.fst) ++ l := by
        simp
      have hqueue (l : List α) : (queue ++ l.map fun b => (b, a :: before)).map Prod.fst = queue.map Prod.fst ++ l := by
        simp [Function.comp_def]
      obtain ⟨done', hend, hdone', hsub⟩ := frontier_of_wayBack?_eq_none steps (done ++ [a])
        (queue ++ _) (by rw [hqueue]; exact h')
        (fun x hx => by
          rcases List.mem_append.mp hx with hx | hx
          · exact hdone x hx
          · rw [List.mem_singleton.mp hx]
            simpa using hstart)
        (by simp; omega) (by rw [hqueue, seen]; exact hnone)
      rw [hqueue, seen] at hsub
      exact ⟨done', hend, hdone', fun x hx => hsub (List.mem_append_left _ hx)⟩

/-- Where a way leads from `start` back to it among the members, the search finds a cycle. -/
theorem exists_shortestCycle? (hmem : start ∈ members)
    (hloop : Relation.TransGen (fun a b => Step next a b ∧ b ∈ members) start start) :
    ∃ c, shortestCycle? next start members = some c ∧ Loop next start members c := by
  have hstart : Frontier next members [] [start] := ⟨by simp, by simpa using hmem, by simp⟩
  rw [shortestCycle?_eq]
  rcases hc : wayBack? next start members members.length [(start, [])] [start] with _ | c
  · exfalso
    obtain ⟨done, hend, hdone, hsub⟩ := frontier_of_wayBack?_eq_none members.length [] [(start, [])] hstart
      (by simp) (by simp) hc
    -- Everything on the way back is done, the node before the return included.
    have reached : ∀ x, Relation.ReflTransGen (fun a b => Step next a b ∧ b ∈ members) start x → x ∈ done := by
      intro x hx
      induction hx with
      | refl => exact hsub (by simp)
      | tail _ hbc ih => simpa using hend.closed _ ih _ hbc.1 hbc.2
    obtain ⟨x, hx, hback⟩ := Relation.TransGen.tail'_iff.mp hloop
    exact hdone x (reached x hx) hback.1
  · refine ⟨c, rfl, loop_of_wayBack? members.length [(start, [])] [start] (fun e he => ?_) (by simpa using hmem) hc⟩
    obtain rfl := List.mem_singleton.mp he
    exact ⟨rfl, by simp, by simp, by simp⟩

end ModuleAudit.Reach
