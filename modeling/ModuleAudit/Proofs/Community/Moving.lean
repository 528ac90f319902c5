import Mathlib.Data.List.GetD
import ModuleAudit.Community.Moving
import ModuleAudit.Proofs.Community.Tally

/-! What a visit does to the labels, in whatever arithmetic the gains are computed. The visited node takes its own
    label or that of a neighbour; so a label that no node has is never used again, and after the first move there
    is such a label. -/

namespace ModuleAudit.Community

variable {α : Type} {l : Level α} {i j c : Nat}

namespace Level

/-- The links join nodes of the level. -/
def Closed (l : Level α) : Prop := ∀ k ∈ l.links, k.source < l.size ∧ k.target < l.size

/-- A link joins the two nodes, in one direction or the other. -/
def Adjacent (l : Level α) (i j : Nat) : Prop :=
  ∃ k ∈ l.links, (k.source = i ∧ k.target = j) ∨ (k.source = j ∧ k.target = i)

theorem mem_neighbours {p : Nat × α} : p ∈ l.neighbours i ↔
    p.1 ≠ i ∧ ∃ k ∈ l.links, k.weight = p.2 ∧ ((k.source = i ∧ k.target = p.1) ∨ (k.source = p.1 ∧ k.target = i)) := by
  obtain ⟨j, w⟩ := p
  simp only [neighbours, outgoing, incoming, List.mem_filter, List.mem_append, List.mem_map, bne_iff_ne, beq_iff_eq,
    Prod.mk.injEq]
  constructor
  · rintro ⟨⟨k, ⟨hk, rfl⟩, rfl, rfl⟩ | ⟨k, ⟨hk, rfl⟩, rfl, rfl⟩, hne⟩
    · exact ⟨hne, k, hk, rfl, Or.inl ⟨rfl, rfl⟩⟩
    · exact ⟨hne, k, hk, rfl, Or.inr ⟨rfl, rfl⟩⟩
  · rintro ⟨hne, k, hk, rfl, ⟨rfl, rfl⟩ | ⟨rfl, rfl⟩⟩
    · exact ⟨Or.inl ⟨k, ⟨hk, rfl⟩, rfl, rfl⟩, hne⟩
    · exact ⟨Or.inr ⟨k, ⟨hk, rfl⟩, rfl, rfl⟩, hne⟩

theorem adjacent_of_mem_neighbours {p : Nat × α} (h : p ∈ l.neighbours i) : l.Adjacent i p.1 := by
  obtain ⟨-, k, hk, -, hends⟩ := mem_neighbours.mp h
  exact ⟨k, hk, hends⟩

theorem Closed.lt_of_adjacent (h : l.Closed) (hij : l.Adjacent i j) : i < l.size ∧ j < l.size := by
  obtain ⟨k, hk, ⟨rfl, rfl⟩ | ⟨rfl, rfl⟩⟩ := hij
  · exact h k hk
  · exact (h k hk).symm

end Level

namespace Moving

variable [Weight α] {s : Moving α} {t : Tuning α}

/-! ### One visit -/

theorem best_cons (gain : Nat → α → α) (p : Nat × α) (candidates : Tally α) (start : Nat × α) :
    best gain (p :: candidates) start = best gain candidates
      (if Weight.less (start.2 + Weight.tolerance) (gain p.1 p.2) then (p.1, gain p.1 p.2) else start) := rfl

/-- The best is what the search starts with, or one of the candidates. -/
theorem best_cases (gain : Nat → α → α) (candidates : Tally α) : ∀ start : Nat × α,
    (best gain candidates start = start ∧
        ∀ p ∈ candidates, Weight.less (start.2 + Weight.tolerance) (gain p.1 p.2) = false) ∨
      ∃ p ∈ candidates, best gain candidates start = (p.1, gain p.1 p.2) := by
  induction candidates with
  | nil => exact fun start => Or.inl ⟨rfl, by simp⟩
  | cons p candidates ih =>
    intro start
    rw [best_cons]
    split
    · rcases ih (p.1, gain p.1 p.2) with ⟨hbest, -⟩ | ⟨q, hq, hbest⟩
      · exact Or.inr ⟨p, List.mem_cons_self, hbest⟩
      · exact Or.inr ⟨q, List.mem_cons_of_mem _ hq, hbest⟩
    · rename_i hless
      rcases ih start with ⟨hbest, hrest⟩ | ⟨q, hq, hbest⟩
      · refine Or.inl ⟨hbest, fun q hq => ?_⟩
        rcases List.mem_cons.mp hq with rfl | hq
        · simpa using hless
        · exact hrest q hq
      · exact Or.inr ⟨q, List.mem_cons_of_mem _ hq, hbest⟩

theorem mem_keys_links : c ∈ (s.links l i).map Prod.fst ↔ ∃ p ∈ l.neighbours i, s.label p.1 = c := by
  rw [links, Tally.mem_keys_ofList]
  simp

/-- A node stays, or goes to the community of a neighbour. -/
theorem choose_cases (s : Moving α) (t : Tuning α) (l : Level α) (i : Nat) :
    (s.choose t l i).1 = s.label i ∨
      ((s.choose t l i).1 ≠ s.label i ∧ ∃ j, j ≠ i ∧ l.Adjacent i j ∧ s.label j = (s.choose t l i).1) := by
  rw [choose]
  rcases best_cases ((s.leave l i (s.label i)).gain t l i) ((s.links l i).filter (·.1 != s.label i))
      (s.label i, (s.leave l i (s.label i)).gain t l i (s.label i) ((s.links l i).get (s.label i)))
    with ⟨hbest, -⟩ | ⟨p, hp, hbest⟩
  · exact Or.inl (by rw [hbest])
  · obtain ⟨hp, hne⟩ := List.mem_filter.mp hp
    obtain ⟨q, hq, hlabel⟩ := mem_keys_links.mp (List.mem_map_of_mem hp)
    rw [hbest]
    exact Or.inr ⟨by simpa using hne, q.1, (Level.mem_neighbours.mp hq).1, Level.adjacent_of_mem_neighbours hq, hlabel⟩

theorem visit_snd : (s.visit t l i).2 = true ↔ (s.choose t l i).1 ≠ s.label i := by
  simp [visit]

@[simp]
theorem labels_visit : (s.visit t l i).1.labels = s.labels.setIfInBounds i (s.choose t l i).1 := rfl

@[simp]
theorem size_labels_visit : (s.visit t l i).1.labels.size = s.labels.size := by simp

theorem label_visit (hi : i < s.labels.size) :
    (s.visit t l i).1.label j = if j = i then (s.choose t l i).1 else s.label j := by
  by_cases hj : j = i
  · subst hj
    simp [label, Array.getD_eq_getD_getElem?, hi]
  · simp [label, Array.getD_eq_getD_getElem?, Ne.symm hj, hj]

theorem label_visit_of_not_moved (hi : i < s.labels.size) (h : (s.visit t l i).2 = false) :
    (s.visit t l i).1.label j = s.label j := by
  rw [label_visit hi]
  split
  · rename_i hj
    subst hj
    by_contra hne
    simp [visit_snd.mpr hne] at h
  · rfl

/-! ### Runs -/

/-- The states that can be reached by visits, each of any node; those that a run goes through are among them. -/
inductive Reachable (t : Tuning α) (l : Level α) : Moving α → Prop
  | start : Reachable t l (start l)
  | visit {s : Moving α} {i : Nat} (hi : i < l.size) (hs : Reachable t l s) : Reachable t l (s.visit t l i).1

/-- What every visit keeps of a state, together with the mark that a node moved, a pass keeps. -/
theorem foldl_visit {P : Moving α → Bool → Prop}
    (hP : ∀ s b i, i < l.size → P s b → P (s.visit t l i).1 (b || (s.visit t l i).2)) :
    ∀ (is : List Nat), (∀ i ∈ is, i < l.size) → ∀ (s : Moving α) (b : Bool), P s b →
      let r := is.foldl (fun (r : Moving α × Bool) i => ((r.1.visit t l i).1, r.2 || (r.1.visit t l i).2)) (s, b)
      P r.1 r.2
  | [], _, _, _, h => h
  | i :: is, hlt, s, b, h =>
    foldl_visit hP is (fun j hj => hlt j (List.mem_cons_of_mem _ hj)) _ _ (hP s b i (hlt i List.mem_cons_self) h)

theorem pass_keeps {P : Moving α → Bool → Prop}
    (hP : ∀ s b i, i < l.size → P s b → P (s.visit t l i).1 (b || (s.visit t l i).2)) (h : P s false) :
    P (s.pass t l).1 (s.pass t l).2 :=
  foldl_visit hP (List.range l.size) (fun _ hi => List.mem_range.mp hi) s false h

theorem settle_keeps {P : Moving α → Prop} (hP : ∀ s i, i < l.size → P s → P (s.visit t l i).1) :
    ∀ (passes : Nat) (s : Moving α), P s → P (settle t l passes s).1
  | 0, _, h => h
  | passes + 1, s, h => by
    have hpass : P (s.pass t l).1 := pass_keeps (P := fun s _ => P s) (fun s _ i hi h => hP s i hi h) h
    rw [settle]
    dsimp only
    split
    · exact settle_keeps hP passes _ hpass
    · exact hpass

theorem run_keeps {P : Moving α → Prop} (hP : ∀ s i, i < l.size → P s → P (s.visit t l i).1) (h : P (start l)) :
    P (run t l).1 := settle_keeps hP _ _ h

theorem run_reachable (t : Tuning α) (l : Level α) : Reachable t l (run t l).1 :=
  run_keeps (fun _ _ hi hs => .visit hi hs) .start

theorem run_eq (t : Tuning α) (l : Level α) : ∃ passes, run t l = settle t l (passes + 1) (start l) :=
  ⟨max 1 t.maxPasses - 1, by rw [run]; congr 1; omega⟩

theorem run_snd (t : Tuning α) (l : Level α) : (run t l).2 = ((start l).pass t l).2 := by
  obtain ⟨passes, h⟩ := run_eq t l
  rw [h, settle]
  dsimp only
  split
  · rename_i hmoved
    rw [hmoved]
  · rename_i hmoved
    simpa using hmoved

/-! ### Labels -/

theorem label_start (hi : i < l.size) : (start l).label i = i := by
  simp [start, label, Array.getD_eq_getD_getElem?, hi]

theorem Reachable.size_labels (h : Reachable t l s) : s.labels.size = l.size := by
  induction h with
  | start => simp [Moving.start]
  | visit _ _ ih => rw [size_labels_visit, ih]

theorem Reachable.label_lt (hl : l.Closed) (h : Reachable t l s) (hi : i < l.size) : s.label i < l.size := by
  induction h generalizing i with
  | start => rwa [label_start hi]
  | @visit s j hj hs ih =>
    rw [label_visit (hs.size_labels ▸ hj)]
    split
    · rcases choose_cases s t l j with hstay | ⟨-, k, -, hjk, hlabel⟩
      · exact hstay ▸ ih hj
      · exact hlabel ▸ ih (hl.lt_of_adjacent hjk).2
    · exact ih hi

/-- The labels that a node chooses from are labels of nodes. -/
theorem lt_of_mem_links (hl : l.Closed) (h : Reachable t l s) {p : Nat × α} (hp : p ∈ s.links l i) : p.1 < l.size := by
  obtain ⟨q, hq, hlabel⟩ := mem_keys_links.mp (List.mem_map_of_mem hp)
  exact hlabel ▸ h.label_lt hl (hl.lt_of_adjacent (Level.adjacent_of_mem_neighbours hq)).2

/-- No node has the label. -/
def Vacant (l : Level α) (s : Moving α) (c : Nat) : Prop := c < l.size ∧ ∀ i < l.size, s.label i ≠ c

/-- A vacant label stays vacant: a node takes its own label or that of another node. -/
theorem Vacant.visit (hl : l.Closed) (hs : s.labels.size = l.size) (h : Vacant l s c) (hi : i < l.size) :
    Vacant l (s.visit t l i).1 c := by
  refine ⟨h.1, fun j hj => ?_⟩
  rw [label_visit (hs ▸ hi)]
  split
  · rcases choose_cases s t l i with hstay | ⟨-, k, -, hik, hlabel⟩
    · exact hstay ▸ h.2 i hi
    · exact hlabel ▸ h.2 k (hl.lt_of_adjacent hik).2
  · exact h.2 j hj

/-- The first move vacates the label of the node that moves. -/
theorem vacant_of_moved (hs : s.labels.size = l.size) (hown : ∀ j < l.size, s.label j = j) (hi : i < l.size)
    (h : (s.visit t l i).2 = true) : Vacant l (s.visit t l i).1 i := by
  refine ⟨hi, fun j hj => ?_⟩
  rw [label_visit (hs ▸ hi)]
  split
  · exact fun heq => visit_snd.mp h (heq.trans (hown i hi).symm)
  · rename_i hne
    exact fun heq => hne ((hown j hj).symm.trans heq)

theorem exists_vacant_pass (hl : l.Closed) (h : ((start l).pass t l).2 = true) :
    ∃ c, Vacant l ((start l).pass t l).1 c := by
  have key := pass_keeps (t := t) (l := l) (s := start l) (P := fun s b => s.labels.size = l.size ∧
    (b = false → ∀ j < l.size, s.label j = j) ∧ (b = true → ∃ c, Vacant l s c)) ?_
    ⟨Reachable.size_labels (t := t) .start, fun _ _ hj => label_start hj, by simp⟩
  · exact key.2.2 h
  rintro s b i hi ⟨hs, hown, hvac⟩
  refine ⟨by rwa [size_labels_visit], fun hb j hj => ?_, fun hb => ?_⟩
  · obtain ⟨hb, hstill⟩ := Bool.or_eq_false_iff.mp hb
    rw [label_visit_of_not_moved (hs ▸ hi) hstill]
    exact hown hb j hj
  · cases b with
    | true =>
      obtain ⟨c, hc⟩ := hvac rfl
      exact ⟨c, hc.visit hl hs hi⟩
    | false => exact ⟨i, vacant_of_moved hs (hown rfl) hi (by simpa using hb)⟩

/-- After a run in which a node moved some label is vacant. -/
theorem exists_vacant_run (hl : l.Closed) (h : (run t l).2 = true) : ∃ c, Vacant l (run t l).1 c := by
  rw [run_snd] at h
  obtain ⟨c, hc⟩ := exists_vacant_pass hl h
  refine ⟨c, ?_⟩
  have hpass : Reachable t l ((start l).pass t l).1 :=
    pass_keeps (P := fun s _ => Reachable t l s) (fun _ _ _ hi hs => .visit hi hs) .start
  obtain ⟨passes, hrun⟩ := run_eq t l
  rw [hrun, settle]
  dsimp only
  rw [if_pos h]
  exact (settle_keeps (P := fun s => s.labels.size = l.size ∧ Vacant l s c)
    (fun s i hi hs => ⟨by rw [size_labels_visit]; exact hs.1, hs.2.visit hl hs.1 hi⟩) passes _
    ⟨hpass.size_labels, hc⟩).2

/-- Where a fold of visits ends without a move, each node was visited in a state where all were by themselves, and
    stayed. -/
theorem foldl_still : ∀ (is : List Nat), (∀ i ∈ is, i < l.size) → ∀ (s : Moving α) (b : Bool), Reachable t l s →
    (b = false → ∀ j < l.size, s.label j = j) →
      (is.foldl (fun (r : Moving α × Bool) i => ((r.1.visit t l i).1, r.2 || (r.1.visit t l i).2)) (s, b)).2 = false →
        b = false ∧ ∀ i ∈ is, ∃ s, Reachable t l s ∧ (∀ j < l.size, s.label j = j) ∧ (s.visit t l i).2 = false
  | [], _, _, _, _, _, h => ⟨h, by simp⟩
  | i :: is, hlt, s, b, hs, hown, h => by
    have hi := hlt i List.mem_cons_self
    have hown' : (b || (s.visit t l i).2) = false → ∀ j < l.size, (s.visit t l i).1.label j = j := by
      intro hb j hj
      obtain ⟨hb, hstill⟩ := Bool.or_eq_false_iff.mp hb
      rw [label_visit_of_not_moved (hs.size_labels ▸ hi) hstill]
      exact hown hb j hj
    obtain ⟨hmark, hrest⟩ := foldl_still is (fun j hj => hlt j (List.mem_cons_of_mem _ hj)) _ _ (.visit hi hs) hown' h
    obtain ⟨hb, hstill⟩ := Bool.or_eq_false_iff.mp hmark
    refine ⟨hb, fun j hj => ?_⟩
    rcases List.mem_cons.mp hj with rfl | hj
    · exact ⟨s, hs, hown hb, hstill⟩
    · exact hrest j hj

/-- When no node moves in a run, each node is visited in a state where all are by themselves, and stays. -/
theorem exists_still (h : (run t l).2 = false) (hi : i < l.size) :
    ∃ s, Reachable t l s ∧ (∀ j < l.size, s.label j = j) ∧ (s.visit t l i).2 = false := by
  rw [run_snd] at h
  exact (foldl_still (List.range l.size) (fun _ hi => List.mem_range.mp hi) (start l) false .start
    (fun _ _ hj => label_start hj) h).2 i (List.mem_range.mpr hi)

/-- Where no node would move while all are by themselves, none moves in a run. -/
theorem run_still (h : ∀ s, Reachable t l s → (∀ j < l.size, s.label j = j) → ∀ i < l.size, (s.visit t l i).2 = false) :
    (run t l).2 = false := by
  rw [run_snd]
  have key := pass_keeps (t := t) (l := l) (s := start l)
    (P := fun s b => Reachable t l s ∧ (∀ j < l.size, s.label j = j) ∧ b = false) ?_
    ⟨.start, fun _ hj => label_start hj, rfl⟩
  · exact key.2.2
  rintro s b i hi ⟨hs, hown, rfl⟩
  have hstill := h s hs hown i hi
  refine ⟨.visit hi hs, fun j hj => ?_, by rw [hstill]; rfl⟩
  rw [label_visit_of_not_moved (hs.size_labels ▸ hi) hstill, hown j hj]

end Moving
end ModuleAudit.Community
