import ModuleAudit.Proofs.Graph.Order
import ModuleAudit.Proofs.Graph.Queue

/-! The reported cycles are the first of the shortest ones. Of the closed walks through the earliest module of a component
    a search finds the shortest, and of those as long the one that takes the edge added earlier where they part. A search
    among all modules would find the same one. -/

namespace ModuleAudit.Graph

variable {g : Graph} {a b m : String} {c d part : List String} {parts : List (List String)}

/-! ### Closed walks -/

/-- A closed walk: each module depends on the next and the last on the first. A module may stand in it more than
    once. -/
structure ClosedWalk (g : Graph) (w : List String) : Prop where
  ne_nil : w ≠ []
  edge : ∀ e ∈ w.zip (w.rotate 1), g.Edge e.1 e.2

/-- At each step of a closed walk, which of the edges that leave the module it takes, in the order in which these were
    added. -/
def choices (g : Graph) (w : List String) : List Nat :=
  (w.zip (w.rotate 1)).map fun e => (g.successors e.1).idxOf e.2

/-- The cycle from `m` on is no longer than any closed walk through `m`, and of the closed walks from `m` on that are as
    long, it is the one that takes the earlier edge at the first step where they part. -/
structure First (g : Graph) (m : String) (c : Cycle) : Prop where
  cycle : g.IsCycle c
  head : c.head? = some m
  shortest : ∀ d, g.ClosedWalk d → m ∈ d → c.length ≤ d.length
  first : ∀ d, g.ClosedWalk d → d.head? = some m → d.length = c.length → d = c ∨ g.choices c < g.choices d

theorem IsCycle.closedWalk (h : g.IsCycle c) : g.ClosedWalk c := ⟨h.ne_nil, h.edge⟩

theorem ClosedWalk.isChain (h : g.ClosedWalk (m :: d)) : (m :: d ++ [m]).IsChain (Reach.Step g.successors) := by
  rw [List.isChain_cons_append_singleton_iff_forall₂, List.forall₂_iff_zip]
  refine ⟨by simp, fun {x y} hxy => mem_successors.mpr (h.edge (x, y) ?_)⟩
  rwa [List.rotate_cons_succ, List.rotate_zero]

/-- Every module on a closed walk belongs together with the first. -/
theorem ClosedWalk.mutual (h : g.ClosedWalk (m :: d)) (ha : a ∈ m :: d) : g.Mutual m a := by
  have hstep : Reach.Step g.successors = g.Edge := funext fun x => funext fun y => propext mem_successors
  have hchain : (m :: d ++ [m]).IsChain g.DependsOn := (hstep ▸ h.isChain).imp fun _ _ => .single
  have : Trans g.DependsOn g.DependsOn g.DependsOn := ⟨Relation.TransGen.trans⟩
  have hpairwise := List.isChain_iff_pairwise.mp hchain
  have hback : g.DependsOn a m := (List.pairwise_append.mp hpairwise).2.2 a ha m List.mem_cons_self
  rcases List.mem_cons.mp ha with rfl | ha
  · exact .refl a
  · have hforth : g.DependsOn m a := (List.pairwise_cons.mp hpairwise).1 a (List.mem_append_left _ ha)
    exact ⟨hforth.to_reflTransGen, hback.to_reflTransGen⟩

theorem ClosedWalk.rotate (h : g.ClosedWalk d) (n : Nat) : g.ClosedWalk (d.rotate n) where
  ne_nil := fun hnil => h.ne_nil (List.rotate_eq_nil_iff.mp hnil)
  edge e he := by
    rw [List.rotate_rotate, Nat.add_comm, ← List.rotate_rotate, List.zip, ← List.zipWith_rotate_distrib _ _ _ _ (by simp),
      List.mem_rotate] at he
    exact h.edge e he

/-- A closed walk can be told from any of its modules on. -/
theorem ClosedWalk.exists_rotate (h : g.ClosedWalk d) (hm : m ∈ d) :
    ∃ w, g.ClosedWalk (m :: w) ∧ (m :: w).length = d.length := by
  obtain ⟨n, hn, rfl⟩ := List.mem_iff_getElem.mp hm
  obtain ⟨w, hw⟩ : ∃ w, d.rotate n = d[n] :: w := by
    rw [← List.head?_eq_some_iff, List.head?_rotate hn, List.getElem?_eq_getElem hn]
  exact ⟨w, hw ▸ h.rotate n, by rw [← hw, List.length_rotate]⟩

theorem ClosedWalk.round (h : g.ClosedWalk (m :: d)) {members : List String} (hmembers : m :: d ⊆ members) :
    Reach.Round g.successors m members (m :: d) := ⟨rfl, hmembers, h.isChain⟩

theorem choices_eq (g : Graph) (m : String) (d : List String) :
    g.choices (m :: d) = Reach.places g.successors (m :: d ++ [m]) := by
  rw [choices, List.rotate_cons_succ, List.rotate_zero, Reach.map_zip_eq_places]

/-- What a search among the modules of a component, or among more, finds is the first of the closed walks. -/
theorem first_of_shortestCycle? (hm : m ∈ part) (hpart : ∀ b, g.Mutual m b → b ∈ part)
    (hc : Reach.shortestCycle? g.successors m part = some c) (hloop : Reach.Loop g.successors m part c) :
    g.First m c where
  cycle := .of_loop hloop
  head := hloop.head
  shortest d hd hmd := by
    obtain ⟨w, hw, hlen⟩ := hd.exists_rotate hmd
    have hround := hw.round fun b hb => hpart b (hw.mutual hb)
    rw [← hlen]
    simpa using (Reach.upTo_of_shortestCycle? g.successors_nodup hm hc hround).length_le
  first d hd hhead hlen := by
    obtain ⟨w, rfl⟩ := List.head?_eq_some_iff.mp hhead
    obtain ⟨v, rfl⟩ := List.head?_eq_some_iff.mp hloop.head
    have hround := hd.round fun b hb => hpart b (hd.mutual hb)
    rcases Reach.upTo_of_shortestCycle? g.successors_nodup hm hc hround with heq | hlt | hlt
    · exact .inl (List.reverse_injective heq).symm
    · rw [List.length_reverse, List.length_reverse] at hlt
      exact absurd hlen hlt.ne'
    · right
      rw [choices_eq, choices_eq]
      have hclosed : Reach.Precedes g.successors (m :: (m :: v).reverse) (m :: (m :: w).reverse) := .inl hlt
      simpa using hclosed.places_lt

theorem First.unique (hc : g.First m c) (hd : g.First m d) : c = d := by
  have hlen := Nat.le_antisymm (hc.shortest d hd.cycle.closedWalk (List.mem_of_head? hd.head))
    (hd.shortest c hc.cycle.closedWalk (List.mem_of_head? hc.head))
  rcases hc.first d hd.cycle.closedWalk hd.head hlen.symm with h | h
  · exact h.symm
  · rcases hd.first c hc.cycle.closedWalk hc.head hlen with h' | h'
    · exact h'
    · exact absurd (h.trans h') (List.lt_irrefl _)

/-- A module that depends on itself is a cycle by itself, and none is shorter. -/
theorem First.eq_singleton (h : g.First m c) (hmm : g.Edge m m) : c = [m] := by
  obtain ⟨d, rfl⟩ := List.head?_eq_some_iff.mp h.head
  have hwalk : g.ClosedWalk [m] := ⟨by simp, by simpa using hmm⟩
  have hlen := h.shortest [m] hwalk List.mem_cons_self
  rw [List.eq_nil_of_length_eq_zero (Nat.le_zero.mp (Nat.le_of_succ_le_succ hlen))]

/-! ### The reported cycles -/

theorem Mutual.mem_modules (h : g.Mutual a b) (ha : a ∈ g.modules) : b ∈ g.modules := by
  rcases mutual_iff.mp h with rfl | ⟨-, hba⟩
  · exact ha
  · exact hba.mem_modules

/-- A search among all modules finds a cycle through each module that depends on itself. -/
theorem exists_first (hmm : g.DependsOn m m) :
    ∃ c, Reach.shortestCycle? g.successors m g.modules = some c ∧ g.First m c := by
  have hm := hmm.mem_modules
  have hback : Relation.TransGen (fun a b => Reach.Step g.successors a b ∧ b ∈ g.modules) m m :=
    Relation.TransGen.mono (fun _ _ hab => ⟨mem_successors.mpr hab, (Edge.mem_modules hab).2⟩) m m hmm
  obtain ⟨c, hc, hloop⟩ := Reach.exists_shortestCycle? hm hback
  exact ⟨c, hc, first_of_shortestCycle? hm (fun b hb => hb.mem_modules hm) hc hloop⟩

theorem SplitsInto.first_of_mem (h : g.SplitsInto parts) (hc : c ∈ g.cyclesAmong parts) :
    ∃ m, g.First m c ∧ Reach.shortestCycle? g.successors m g.modules = some c := by
  obtain ⟨s, hs, hf⟩ := List.mem_filterMap.mp hc
  obtain ⟨m, hm, -, -, x, hx, hloop⟩ := h.exists_cycle hs
  simp only [hm, Option.bind_eq_bind, Option.bind_some, hx, Option.some.injEq] at hf
  subst hf
  have hms := hloop.subset (List.mem_of_head? hloop.head)
  have hmodules := h.mem_modules (h.mem_parts hs) hms
  have hpart : ∀ b, g.Mutual m b → b ∈ s.2 := fun b hb =>
    (h.mem_iff _ (h.mem_parts hs) m hms b (hb.mem_modules hmodules)).mpr hb
  have hfirst := first_of_shortestCycle? hms hpart hx hloop
  obtain ⟨c, hc, hfirst'⟩ := exists_first (h.dependsOn_self hs hms)
  exact ⟨m, hfirst, hfirst.unique hfirst' ▸ hc⟩

/-- Each reported cycle is the first of the shortest closed walks from its module on, as a search among all modules finds
    it too. Every component that holds a cycle is reported by the one of its earliest module; if that module depends on
    itself, by it alone. The order in which the components come makes no difference. -/
theorem cycles_first (g : Graph) :
    (∀ c ∈ g.cycles, ∃ m, g.First m c ∧ Reach.shortestCycle? g.successors m g.modules = some c) ∧
      (∀ m ∈ g.modules, g.Entwined m →
        (∀ b ∈ g.modules, g.Mutual m b → g.modules.idxOf m ≤ g.modules.idxOf b) →
          ∃ c ∈ g.cycles, g.First m c ∧ (g.Edge m m → c = [m])) ∧
      ∀ parts, g.SplitsInto parts → g.cyclesAmong parts = g.cycles := by
  have hparts := g.components_splitsInto
  refine ⟨fun c hc => hparts.first_of_mem hc, fun m hm hent hleast => ?_, fun parts h => cyclesAmong_eq_cycles h⟩
  have hrep := hparts.represents
  obtain ⟨c, ⟨hc, a, ha, hma⟩, -⟩ := hrep.unique m hm hent
  obtain ⟨n, hfirst, -⟩ := hparts.first_of_mem hc
  have hmn : g.Mutual m n := hma.trans (hrep.together c hc a ha n (List.mem_of_head? hfirst.head))
  have hle := hleast n (hmn.mem_modules hm) hmn
  have hge := hrep.earliest c hc n hfirst.head m hm hmn.symm
  obtain rfl : m = n := (List.idxOf_inj hm).mp (Nat.le_antisymm hle hge)
  exact ⟨c, hc, hfirst, hfirst.eq_singleton⟩

/-- Two cycles of two modules lead from the earliest module on; the edge to `c` was added first. -/
def forked : Graph :=
  .ofListing ⟨["a", "b", "c"], [("a", "c"), ("a", "b"), ("b", "a"), ("c", "b"), ("c", "a"), ("b", "b")]⟩ fun _ => none

theorem forked_first : forked.cycles = [["a", "c"]] ∧ forked.First "a" ["a", "c"] := by
  have hcycles : forked.cycles = [["a", "c"]] := by decide +kernel
  obtain ⟨m, hfirst, -⟩ := forked.cycles_first.1 ["a", "c"] (by rw [hcycles]; exact List.mem_cons_self)
  obtain rfl : "a" = m := Option.some.inj hfirst.head
  exact ⟨hcycles, hfirst⟩

end ModuleAudit.Graph
