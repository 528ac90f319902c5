import ModuleAudit.Proofs.Community.Reached

/-! The labels in use while nodes are moved, in whatever arithmetic the gains are computed. A node that moves takes a
    label that another node has; so a label that was given up does not come back, and the labels in use become no more.
    After a run they are fewer than the nodes exactly when a node moved. -/

namespace ModuleAudit.Community.Moving

variable {α : Type} {l : Level α} {s : Moving α} {i c : Nat}

/-- The number of communities that have a node. -/
def inUse (s : Moving α) : Nat := (renumber s.labels.toList).2

theorem mem_labels : c ∈ s.labels.toList ↔ ∃ j < s.labels.size, s.label j = c := by
  rw [List.mem_iff_getElem?]
  refine exists_congr fun j => ?_
  rw [Array.getElem?_toList, Array.getElem?_eq_some_iff]
  constructor
  · rintro ⟨hj, rfl⟩
    exact ⟨hj, by simp [label, Array.getD_eq_getD_getElem?, hj]⟩
  · rintro ⟨hj, rfl⟩
    exact ⟨hj, by simp [label, Array.getD_eq_getD_getElem?, hj]⟩

variable [Weight α] {t : Tuning α}

/-! ### One visit -/

/-- A node that moves joins another one. -/
theorem exists_joined (hl : l.Closed) (hi : i < s.labels.size) (h : (s.visit t l i).2 = true) :
    ∃ j < l.size, j ≠ i ∧ s.label j = (s.visit t l i).1.label i := by
  rcases choose_cases s t l i with hstay | ⟨-, j, hne, hij, hlabel⟩
  · exact absurd hstay (visit_snd.mp h)
  · refine ⟨j, (hl.lt_of_adjacent hij).2, hne, ?_⟩
    rw [label_visit hi, if_pos rfl, hlabel]

/-- A visit brings no label into use. -/
theorem labels_visit_subset (hl : l.Closed) (h : Reachable t l s) (hi : i < l.size) :
    (s.visit t l i).1.labels.toList ⊆ s.labels.toList := by
  intro c hc
  have hsize := (h.visit hi).size_labels
  obtain ⟨j, hj, rfl⟩ := mem_labels.mp hc
  by_contra hnone
  -- A label that no node had would still be vacant.
  have hvacant : Vacant l s ((s.visit t l i).1.label j) :=
    ⟨(h.visit hi).label_lt hl (hsize ▸ hj), fun k hk heq => hnone (mem_labels.mpr ⟨k, h.size_labels ▸ hk, heq⟩)⟩
  exact (hvacant.visit hl h.size_labels hi).2 j (hsize ▸ hj) rfl

theorem inUse_visit_le (hl : l.Closed) (h : Reachable t l s) (hi : i < l.size) :
    (s.visit t l i).1.inUse ≤ s.inUse := by
  have hsub : (s.visit t l i).1.labels.toList.eraseDups ⊆ s.labels.toList.eraseDups := fun c hc =>
    List.mem_eraseDups.mpr (labels_visit_subset hl h hi (List.mem_eraseDups.mp hc))
  exact (List.subperm_of_subset (Lists.nodup_eraseDups _) hsub).length_le

/-! ### A run -/

/-- Where no node moves each keeps the label that it starts with. -/
theorem label_run_of_still (h : (run t l).2 = false) (hi : i < l.size) : (run t l).1.label i = i := by
  have hpass : ((start l).pass t l).2 = false := by rwa [← run_snd]
  have hrun : (run t l).1 = ((start l).pass t l).1 := by
    obtain ⟨passes, heq⟩ := run_eq t l
    rw [heq, settle]
    dsimp only
    rw [hpass, if_neg Bool.false_ne_true]
  have key := pass_keeps (t := t) (l := l) (s := start l)
    (P := fun s b => s.labels.size = l.size ∧ (b = false → ∀ j < l.size, s.label j = j)) ?_
    ⟨Reachable.size_labels (t := t) .start, fun _ _ hj => label_start hj⟩
  · rw [hrun]
    exact key.2 hpass i hi
  rintro s b i hi ⟨hs, hown⟩
  refine ⟨by rwa [size_labels_visit], fun hb j hj => ?_⟩
  obtain ⟨hb, hstill⟩ := Bool.or_eq_false_iff.mp hb
  rw [label_visit_of_not_moved (hs ▸ hi) hstill, hown hb j hj]

/-- A node moved exactly when there are fewer communities than nodes in the end. -/
theorem moved_iff (hl : l.Closed) : (run t l).2 = true ↔ (run t l).1.inUse < l.size := by
  refine ⟨Level.size_contract_lt hl, fun hlt => ?_⟩
  by_contra hmoved
  -- Every node has kept its own label, so all of them are in use.
  have hstill : (run t l).2 = false := by simpa using hmoved
  have hsub : List.range l.size ⊆ (run t l).1.labels.toList.eraseDups := by
    intro i hi
    rw [List.mem_range] at hi
    refine List.mem_eraseDups.mpr (mem_labels.mpr ⟨i, ?_, label_run_of_still hstill hi⟩)
    rwa [(run_reachable t l).size_labels]
  have hle := (List.subperm_of_subset List.nodup_range hsub).length_le
  rw [List.length_range] at hle
  exact absurd hlt (not_lt.mpr hle)

end ModuleAudit.Community.Moving
