import Mathlib.Data.List.Rotate
import ModuleAudit.Proofs.Graph.Components

/-! The reported cycles. Whatever order the strongly connected components come in, each of them that holds a cycle
    is represented by exactly one simple cycle, which starts at its earliest module. -/

namespace ModuleAudit.Graph

variable {g : Graph} {a b m : String} {c : List String} {parts : List (List String)} {s : Nat × List String}

/-! ### Cycles and what represents them -/

/-- A simple cycle: distinct modules, of which each depends on the next and the last on the first. -/
structure IsCycle (g : Graph) (c : Cycle) : Prop where
  ne_nil : c ≠ []
  nodup : c.Nodup
  edge : ∀ e ∈ c.zip (c.rotate 1), g.Edge e.1 e.2

/-- The module depends on itself, or another module belongs together with it. -/
def Entwined (g : Graph) (m : String) : Prop := g.Edge m m ∨ ∃ b ∈ g.modules, b ≠ m ∧ g.Mutual m b

/-- The cycles represent the components of a graph that hold a cycle. Places are places in the order of
    insertion. -/
structure Represents (g : Graph) (cycles : List Cycle) : Prop where
  cycle : ∀ c ∈ cycles, g.IsCycle c
  together : ∀ c ∈ cycles, ∀ a ∈ c, ∀ b ∈ c, g.Mutual a b
  disjoint : cycles.Pairwise List.Disjoint
  earliest : ∀ c ∈ cycles, ∀ a ∈ c.head?, ∀ b ∈ g.modules, g.Mutual a b → g.modules.idxOf a ≤ g.modules.idxOf b
  ordered : cycles.Pairwise fun c d => ∀ a ∈ c.head?, ∀ b ∈ d.head?, g.modules.idxOf a < g.modules.idxOf b
  entwined : ∀ c ∈ cycles, ∀ a ∈ c, g.Entwined a
  unique : ∀ m ∈ g.modules, g.Entwined m → ∃! c, c ∈ cycles ∧ ∃ a ∈ c, g.Mutual m a
  nil_iff : cycles = [] ↔ ∀ m, ¬g.DependsOn m m

theorem entwined_iff : g.Entwined m ↔ g.DependsOn m m := by
  constructor
  · rintro (hmm | ⟨b, -, hne, hmb⟩)
    · exact .single hmm
    · rcases mutual_iff.mp hmb with rfl | ⟨h₁, h₂⟩
      · exact absurd rfl hne
      · exact h₁.trans h₂
  · intro hmm
    obtain ⟨b, hmb, hbm⟩ := Relation.TransGen.head'_iff.mp hmm
    by_cases hb : b = m
    · exact Or.inl (hb ▸ hmb)
    · exact Or.inr ⟨b, hmb.mem_modules.2, hb, .single hmb, hbm⟩

theorem DependsOn.mem_modules (h : g.DependsOn a b) : a ∈ g.modules := by
  obtain ⟨_, hab, -⟩ := Relation.TransGen.head'_iff.mp h
  exact hab.mem_modules.1

theorem IsCycle.of_loop {members : List String} (h : Reach.Loop g.successors m members c) : g.IsCycle c where
  ne_nil := by
    rintro rfl
    cases h.head
  nodup := h.nodup
  edge := by
    obtain ⟨rest, rfl⟩ : ∃ rest, c = m :: rest := by
      cases c with
      | nil => cases h.head
      | cons x rest => exact ⟨rest, by rw [Option.some.inj h.head]⟩
    have hchain := h.chain
    rw [List.isChain_cons_append_singleton_iff_forall₂] at hchain
    intro e he
    rw [List.rotate_cons_succ, List.rotate_zero] at he
    exact mem_successors.mp ((List.forall₂_iff_zip.mp hchain).2 he)

/-- On a cycle of several modules each of them has a neighbour on both sides. -/
theorem IsCycle.exists_neighbours {x : Cycle} (h : g.IsCycle x) (hlen : 2 ≤ x.length) (hm : m ∈ x) :
    (∃ b, g.Edge m b) ∧ ∃ a, a ≠ m ∧ g.Edge a m := by
  have hnext (i : Nat) : (i + 1) % x.length < x.length := Nat.mod_lt _ (by omega)
  have hedge (i : Nat) (hi : i < x.length) (hnext : (i + 1) % x.length < x.length) :
      g.Edge x[i] x[(i + 1) % x.length] := by
    have hzip : i < (x.zip (x.rotate 1)).length := by simpa using hi
    have := h.edge _ (List.getElem_mem hzip)
    rwa [List.getElem_zip, List.getElem_rotate] at this
  refine ⟨?_, ?_⟩
  · obtain ⟨i, hi, rfl⟩ := List.mem_iff_getElem.mp hm
    exact ⟨_, hedge i hi (hnext i)⟩
  · -- The module comes up again when the cycle is rotated, in the place of the one before it.
    obtain ⟨i, hi, rfl⟩ := List.mem_iff_getElem.mp (List.mem_rotate.mpr hm : m ∈ x.rotate 1)
    rw [List.length_rotate] at hi
    rw [List.getElem_rotate]
    refine ⟨x[i], fun heq => ?_, hedge i hi (hnext i)⟩
    have hplace := h.nodup.getElem_inj_iff.mp heq
    rcases Nat.lt_or_ge (i + 1) x.length with hlt | hge
    · rw [Nat.mod_eq_of_lt hlt] at hplace
      omega
    · rw [show i + 1 = x.length by omega, Nat.mod_self] at hplace
      omega

/-! ### Where the cycles start -/

theorem filterMap_slot? (h : c ⊆ g.modules) : c.filterMap g.slot? = c.map g.modules.idxOf := by
  rw [← List.filterMap_eq_map]
  exact List.filterMap_congr fun m hm => slot?_eq_idxOf (h hm)

namespace SplitsInto

theorem mem_starts (h : g.SplitsInto parts) : s ∈ g.starts parts ↔
    s.2 ∈ parts ∧ g.circular s.2 = true ∧ (s.2.map g.modules.idxOf).min? = some s.1 := by
  have hmap : ∀ c ∈ parts, c.filterMap g.slot? = c.map g.modules.idxOf := fun c hc =>
    filterMap_slot? fun _ ha => h.mem_modules hc ha
  rw [starts, List.mem_mergeSort, List.mem_filterMap]
  constructor
  · rintro ⟨c, hc, hs⟩
    obtain ⟨hc, hcirc⟩ := List.mem_filter.mp hc
    obtain ⟨i, hi, rfl⟩ := Option.map_eq_some_iff.mp hs
    exact ⟨hc, hcirc, hmap c hc ▸ hi⟩
  · rintro ⟨hc, hcirc, hi⟩
    exact ⟨s.2, List.mem_filter.mpr ⟨hc, hcirc⟩, by rw [hmap _ hc, hi, Option.map_some]⟩

theorem mem_parts (h : g.SplitsInto parts) (hs : s ∈ g.starts parts) : s.2 ∈ parts := (h.mem_starts.mp hs).1

theorem pairwise_starts (h : g.SplitsInto parts) :
    (g.starts parts).Pairwise fun s t => s.1 ≤ t.1 ∧ s.2.Disjoint t.2 := by
  have hsorted : (g.starts parts).Pairwise fun s t => s.1 ≤ t.1 := by
    have sorted (xs : List (Nat × List String)) :
        (xs.mergeSort fun s t => decide (s.1 ≤ t.1)).Pairwise fun s t => decide (s.1 ≤ t.1) = true :=
      List.pairwise_mergeSort (fun a b c hab hbc => by simp at *; omega) (fun a b => by simp; omega) xs
    exact (sorted _).imp fun hst => of_decide_eq_true hst
  have hdisjoint : (g.starts parts).Pairwise fun s t => s.2.Disjoint t.2 := by
    refine ((List.mergeSort_perm _ _).pairwise_iff fun hst => List.disjoint_symm hst).mpr ?_
    refine List.Pairwise.filterMap _ ?_ ((List.nodup_flatten.mp h.nodup).2.filter _)
    rintro c d hcd s hs t ht
    obtain ⟨i, -, rfl⟩ := Option.map_eq_some_iff.mp hs
    obtain ⟨j, -, rfl⟩ := Option.map_eq_some_iff.mp ht
    exact hcd
  exact hsorted.and hdisjoint

/-- Within a component, what leads from a module back to it stays in the component. -/
theorem transGen_members (h : g.SplitsInto parts) (hc : c ∈ parts) (hm : m ∈ c) (hmm : g.DependsOn m m) :
    Relation.TransGen (fun a b => Reach.Step g.successors a b ∧ b ∈ c) m m := by
  have inside : ∀ b, g.DependsOn m b → g.Reaches b m →
      Relation.TransGen (fun a b => Reach.Step g.successors a b ∧ b ∈ c) m b := by
    intro b hb
    have mem {b : String} (hmb : g.DependsOn m b) (he : b ∈ g.modules) (hbm : g.Reaches b m) : b ∈ c :=
      (h.mem_iff c hc m hm b he).mpr ⟨hmb.to_reflTransGen, hbm⟩
    induction hb with
    | single hmb => exact fun hbm => .single ⟨mem_successors.mpr hmb, mem (.single hmb) hmb.mem_modules.2 hbm⟩
    | tail hmb hbd ih =>
      exact fun hdm => .tail (ih (.head hbd hdm))
        ⟨mem_successors.mpr hbd, mem (.tail hmb hbd) hbd.mem_modules.2 hdm⟩
  exact inside m hmm .refl

/-- Each start has its earliest module, from which the search finds a cycle. -/
theorem exists_cycle (h : g.SplitsInto parts) (hs : s ∈ g.starts parts) :
    ∃ m, g.modules[s.1]? = some m ∧ g.modules.idxOf m = s.1 ∧ (∀ b ∈ s.2, s.1 ≤ g.modules.idxOf b) ∧
      ∃ x, Reach.shortestCycle? g.successors m s.2 = some x ∧ Reach.Loop g.successors m s.2 x := by
  obtain ⟨hc, hcirc, hmin⟩ := h.mem_starts.mp hs
  obtain ⟨hmem, hleast⟩ := List.min?_eq_some_iff.mp hmin
  obtain ⟨m, hm, hidx⟩ := List.mem_map.mp hmem
  have hmods := h.mem_modules hc hm
  refine ⟨m, ?_, hidx, fun b hb => hleast _ (List.mem_map_of_mem hb), ?_⟩
  · rw [← slot?_eq_some_iff, slot?_eq_idxOf hmods, hidx]
  · exact Reach.exists_shortestCycle? hm (h.transGen_members hc hm ((h.circular_iff hc hm).mp hcirc))

/-- The reported cycle of a start: a search from its earliest module found it. -/
theorem mem_cyclesAmong (h : g.SplitsInto parts) (hc : c ∈ g.cyclesAmong parts) :
    ∃ s ∈ g.starts parts, ∃ m, g.modules.idxOf m = s.1 ∧ Reach.Loop g.successors m s.2 c := by
  obtain ⟨s, hs, hf⟩ := List.mem_filterMap.mp hc
  obtain ⟨m, hm, hidx, -, x, hx, hloop⟩ := h.exists_cycle hs
  simp only [hm, Option.bind_eq_bind, Option.bind_some, hx, Option.some.injEq] at hf
  exact ⟨s, hs, m, hidx, hf ▸ hloop⟩

theorem exists_mem_cyclesAmong (h : g.SplitsInto parts) (hs : s ∈ g.starts parts) :
    ∃ c ∈ g.cyclesAmong parts, c ≠ [] ∧ c ⊆ s.2 := by
  obtain ⟨m, hm, -, -, x, hx, hloop⟩ := h.exists_cycle hs
  refine ⟨x, List.mem_filterMap.mpr ⟨s, hs, ?_⟩, (IsCycle.of_loop hloop).ne_nil, hloop.subset⟩
  simp only [hm, Option.bind_eq_bind, Option.bind_some, hx]

/-- Earlier starts have cycles that begin at an earlier module, and belong to another component than those of later
    ones. -/
theorem pairwise_cyclesAmong (h : g.SplitsInto parts) : (g.cyclesAmong parts).Pairwise fun c d =>
    (∀ a ∈ c, ∀ b ∈ d, ¬g.Mutual a b) ∧ ∀ a ∈ c.head?, ∀ b ∈ d.head?, g.modules.idxOf a < g.modules.idxOf b := by
  refine List.pairwise_filterMap.mpr (h.pairwise_starts.imp_of_mem ?_)
  rintro s t hs ht ⟨hle, hdisj⟩ c hc d hd
  obtain ⟨m, hm, hmi, -, x, hx, hx'⟩ := h.exists_cycle hs
  obtain ⟨n, hn, hni, -, y, hy, hy'⟩ := h.exists_cycle ht
  simp only [hm, hn, Option.bind_eq_bind, Option.bind_some, hx, hy, Option.some.injEq] at hc hd
  subst hc hd
  refine ⟨fun a ha b hb hab => ?_, fun a ha b hb => ?_⟩
  · have hbt := hy'.subset hb
    exact hdisj ((h.mem_iff _ (h.mem_parts hs) a (hx'.subset ha) b (h.mem_modules (h.mem_parts ht) hbt)).mpr hab) hbt
  · rw [hx'.head] at ha
    rw [hy'.head] at hb
    obtain rfl := Option.some.inj ha
    obtain rfl := Option.some.inj hb
    rw [hmi, hni]
    refine lt_of_le_of_ne hle fun heq => ?_
    rw [heq, hn] at hm
    obtain rfl := Option.some.inj hm
    exact hdisj (hx'.subset (List.mem_of_head? hx'.head)) (hy'.subset (List.mem_of_head? hy'.head))

theorem eq_of_mutual (h : g.SplitsInto parts) {d : List String} (hc : c ∈ g.cyclesAmong parts)
    (hd : d ∈ g.cyclesAmong parts) (ha : a ∈ c) (hb : b ∈ d) (hab : g.Mutual a b) : c = d := by
  by_contra hne
  have : Std.Symm fun c d : Cycle => ∀ a ∈ c, ∀ b ∈ d, ¬g.Mutual a b :=
    ⟨fun _ _ hcd a ha b hb hab => hcd b hb a ha hab.symm⟩
  exact (h.pairwise_cyclesAmong.imp fun hcd => hcd.1).forall hc hd hne a ha b hb hab

theorem exists_start (h : g.SplitsInto parts) (hmm : g.DependsOn m m) : ∃ s ∈ g.starts parts, m ∈ s.2 := by
  obtain ⟨c, hc, hm⟩ := h.exists_mem hmm.mem_modules
  obtain ⟨i, hi⟩ := Option.isSome_iff_exists.mp
    (List.isSome_min?_of_mem (List.mem_map_of_mem (f := g.modules.idxOf) hm))
  exact ⟨(i, c), h.mem_starts.mpr ⟨hc, (h.circular_iff hc hm).mpr hmm, hi⟩, hm⟩

theorem dependsOn_self (h : g.SplitsInto parts) (hs : s ∈ g.starts parts) (ha : a ∈ s.2) : g.DependsOn a a :=
  (h.circular_iff (h.mem_parts hs) ha).mp (h.mem_starts.mp hs).2.1

/-- Components in any order give cycles that represent them. -/
theorem represents (h : g.SplitsInto parts) : g.Represents (g.cyclesAmong parts) where
  cycle c hc := by
    obtain ⟨_, -, _, -, hloop⟩ := h.mem_cyclesAmong hc
    exact .of_loop hloop
  together c hc a ha b hb := by
    obtain ⟨s, hs, _, -, hloop⟩ := h.mem_cyclesAmong hc
    exact h.mutual_of_mem (h.mem_parts hs) (hloop.subset ha) (hloop.subset hb)
  disjoint := h.pairwise_cyclesAmong.imp fun hcd a ha hb => hcd.1 a ha a hb (.refl a)
  earliest c hc a ha b hb hab := by
    obtain ⟨s, hs, m, hm, hloop⟩ := h.mem_cyclesAmong hc
    obtain rfl : m = a := Option.some.inj (hloop.head.symm.trans ha)
    have hmc := hloop.subset (List.mem_of_head? hloop.head)
    obtain ⟨_, -, -, hleast, -⟩ := h.exists_cycle hs
    rw [hm]
    exact hleast b ((h.mem_iff _ (h.mem_parts hs) m hmc b hb).mpr hab)
  ordered := h.pairwise_cyclesAmong.imp fun hcd => hcd.2
  entwined c hc a ha := by
    obtain ⟨s, hs, _, -, hloop⟩ := h.mem_cyclesAmong hc
    exact entwined_iff.mpr (h.dependsOn_self hs (hloop.subset ha))
  unique m hm hent := by
    obtain ⟨s, hs, hms⟩ := h.exists_start (entwined_iff.mp hent)
    obtain ⟨c, hc, hne, hsub⟩ := h.exists_mem_cyclesAmong hs
    obtain ⟨a, ha⟩ := List.exists_mem_of_ne_nil c hne
    refine ⟨c, ⟨hc, a, ha, h.mutual_of_mem (h.mem_parts hs) hms (hsub ha)⟩, ?_⟩
    rintro d ⟨hd, b, hb, hmb⟩
    have hma := h.mutual_of_mem (h.mem_parts hs) hms (hsub ha)
    exact h.eq_of_mutual hd hc hb ha (hmb.symm.trans hma)
  nil_iff := by
    constructor
    · intro hnil m hmm
      obtain ⟨s, hs, -⟩ := h.exists_start hmm
      obtain ⟨c, hc, -⟩ := h.exists_mem_cyclesAmong hs
      rw [hnil] at hc
      cases hc
    · intro hno
      refine List.eq_nil_iff_forall_not_mem.mpr fun c hc => ?_
      obtain ⟨s, hs, m, -, hloop⟩ := h.mem_cyclesAmong hc
      exact hno m (h.dependsOn_self hs (hloop.subset (List.mem_of_head? hloop.head)))

end SplitsInto

/-- Each strongly connected component with several modules or with a loop is represented by exactly one simple
    cycle, from its earliest module on, and there are no other cycles; this holds in whatever order the components
    and the modules in them come. -/
theorem cycles_represent (g : Graph) :
    g.Represents g.cycles ∧ ∀ parts, g.SplitsInto parts → g.Represents (g.cyclesAmong parts) :=
  ⟨g.components_splitsInto.represents, fun _ h => h.represents⟩

end ModuleAudit.Graph
