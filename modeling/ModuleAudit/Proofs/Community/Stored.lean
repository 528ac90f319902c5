import ModuleAudit.Community.Level

/-! The tables of a level. Entering the links one after the other changes the entry of a node at its own links alone, in
    their order; so the tables hold, node by node, what the level says of its links, whatever the arithmetic. -/

namespace ModuleAudit.Community.Level

variable {α β : Type}

/-- What a pass over the links makes of an entry, when each link changes the entry of the node that it is near. -/
theorem getElem?_foldl_modify (near : Link α → Nat) (f : β → Link α → β) (i : Nat) (ks : List (Link α)) :
    ∀ xs : Array β, (ks.foldl (fun xs k => xs.modify (near k) (f · k)) xs)[i]? =
      xs[i]?.map fun x => (ks.filter (near · == i)).foldl f x := by
  induction ks with
  | nil => simp
  | cons k ks ih =>
    intro xs
    rw [List.foldl_cons, ih, Array.getElem?_modify, List.filter_cons]
    by_cases hk : near k = i
    · rw [if_pos hk, if_pos (beq_iff_eq.mpr hk), Option.map_map]
      rfl
    · rw [if_neg hk, if_neg (mt beq_iff_eq.mp hk)]

variable [Weight α]

/-- A table that starts with the same entry for each node, and in which a link changes that of the node that it is
    near. -/
theorem table_eq (l : Level α) (table : Stored α → Array β) (near : Link α → Nat) (f : β → Link α → β) {x : β}
    (hempty : table (.empty l.size) = .replicate l.size x)
    (hadd : ∀ s k, table (s.add k) = (table s).modify (near k) (f · k)) :
    table l.stored = (Array.range l.size).map fun i => (l.links.filter (near · == i)).foldl f x := by
  have hpass : table l.stored = l.links.foldl (fun xs k => xs.modify (near k) (f · k)) (table (.empty l.size)) :=
    (List.foldl_hom table fun s k => (hadd s k).symm).symm
  refine Array.ext_getElem? fun i => ?_
  rw [hpass, hempty, getElem?_foldl_modify, Array.getElem?_replicate, Array.getElem?_map, Array.getElem?_range]
  split <;> rfl

theorem foldl_add_weight (ks : List (Link α)) :
    ks.foldl (fun w k => w + k.weight) 0 = Weight.sum (ks.map (·.weight)) := by
  rw [Weight.sum, List.foldl_map]

/-- The tables hold the links at each node, the sums of their weights and the sum of all weights. -/
theorem stored_eq (l : Level α) : l.stored =
    { outEdges := (Array.range l.size).map fun i => (l.outgoing i).map fun k => (k.target, k.weight)
      inEdges := (Array.range l.size).map fun i => (l.incoming i).map fun k => (k.source, k.weight)
      outWeight := (Array.range l.size).map l.outWeight
      inWeight := (Array.range l.size).map l.inWeight
      total := l.total } := by
  have houtEdges := l.table_eq Stored.outEdges (·.source) (fun es k => es ++ [(k.target, k.weight)]) rfl fun _ _ => rfl
  have hinEdges := l.table_eq Stored.inEdges (·.target) (fun es k => es ++ [(k.source, k.weight)]) rfl fun _ _ => rfl
  have houtWeight := l.table_eq Stored.outWeight (·.source) (fun w k => w + k.weight) rfl fun _ _ => rfl
  have hinWeight := l.table_eq Stored.inWeight (·.target) (fun w k => w + k.weight) rfl fun _ _ => rfl
  have htotal : l.stored.total = l.links.foldl (fun w k => w + k.weight) 0 :=
    (List.foldl_hom Stored.total fun _ _ => rfl).symm
  simp only [List.foldl_append_eq_append, List.nil_append, ← List.flatMap_def, ← List.map_eq_flatMap]
    at houtEdges hinEdges
  simp only [foldl_add_weight] at houtWeight hinWeight htotal
  calc l.stored
      = ⟨l.stored.outEdges, l.stored.inEdges, l.stored.outWeight, l.stored.inWeight, l.stored.total⟩ := rfl
    _ = _ := by
      rw [houtEdges, hinEdges, houtWeight, hinWeight, htotal]
      rfl

end ModuleAudit.Community.Level
