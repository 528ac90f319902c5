import ModuleAudit.ModuleMap
import ModuleAudit.Proofs.Lists

/-! Maps by module name read through their list of entries. A name has one entry, its slot is its place among the
    keys, and a new name goes to the end. Everything else that is said of maps goes back to these facts. -/

namespace ModuleAudit.ModuleMap

variable {α β : Type} {t : ModuleMap α} {m : String} {v : α} {i : Nat}

theorem slot?_eq_some_iff_entry : t.slot? m = some i ↔ ∃ v, t.toList[i]? = some (m, v) := by
  simp only [slot?, toList, Array.getElem?_toList]
  exact t.slots_eq m i

theorem slot?_eq_some_iff : t.slot? m = some i ↔ t.keys[i]? = some m := by
  rw [slot?_eq_some_iff_entry, keys, List.getElem?_map, Option.map_eq_some_iff]
  constructor
  · rintro ⟨v, hv⟩
    exact ⟨(m, v), hv, rfl⟩
  · rintro ⟨⟨_, v⟩, hv, rfl⟩
    exact ⟨v, hv⟩

/-- No name has two entries: both would have its one slot. -/
theorem keys_nodup (t : ModuleMap α) : t.keys.Nodup := by
  rw [List.nodup_iff_injective_get]
  intro i j hij
  have hi : t.slot? (t.keys.get i) = some i.1 := slot?_eq_some_iff.mpr (List.getElem?_eq_getElem i.2)
  have hj : t.slot? (t.keys.get j) = some j.1 := slot?_eq_some_iff.mpr (List.getElem?_eq_getElem j.2)
  rw [hij, hj] at hi
  exact Fin.ext (Option.some.inj hi).symm

theorem keys_of_toList {ms : List String} {f : String → α} (h : t.toList = ms.map fun m => (m, f m)) :
    t.keys = ms := by
  rw [keys, h, List.map_map]
  exact List.map_id _

theorem isEmpty_iff : t.isEmpty = true ↔ t.keys = [] := by
  simp [isEmpty, keys, toList]

theorem isEmpty_eq_false_iff : t.isEmpty = false ↔ t.keys ≠ [] := by
  rw [ne_eq, ← isEmpty_iff, Bool.not_eq_true]

theorem contains_iff : t.contains m = true ↔ m ∈ t.keys := by
  rw [contains, Option.isSome_iff_exists, List.mem_iff_getElem?]
  exact exists_congr fun i => slot?_eq_some_iff

theorem mem_iff_mem_keys : m ∈ t ↔ m ∈ t.keys := contains_iff

theorem get?_eq_some_iff : t.get? m = some v ↔ (m, v) ∈ t.toList := by
  have entry (i : Nat) : t.entries[i]? = t.toList[i]? := Array.getElem?_toList.symm
  simp only [get?, Option.bind_eq_some_iff, Option.map_eq_some_iff, entry]
  constructor
  · rintro ⟨i, hi, ⟨m', _⟩, he, rfl⟩
    obtain ⟨w, hw⟩ := slot?_eq_some_iff_entry.mp hi
    obtain ⟨rfl, -⟩ : m' = m ∧ _ := by simpa using he.symm.trans hw
    exact List.mem_of_getElem? he
  · intro h
    obtain ⟨i, hi⟩ := List.mem_iff_getElem?.mp h
    exact ⟨i, slot?_eq_some_iff_entry.mpr ⟨v, hi⟩, _, hi, rfl⟩

/-- The slot of a name is its place among the keys. -/
theorem slot?_eq_idxOf? (t : ModuleMap α) (m : String) : t.slot? m = t.keys.idxOf? m := by
  by_cases hm : m ∈ t.keys
  · rw [Lists.idxOf?_of_mem hm, slot?_eq_some_iff]
    exact List.getElem?_idxOf hm
  · rw [List.idxOf?_eq_none_iff.mpr hm, ← Option.not_isSome_iff_eq_none]
    exact fun h => hm (contains_iff.mp h)

theorem get?_eq_lookup (t : ModuleMap α) (m : String) : t.get? m = t.toList.lookup m := by
  ext v
  rw [get?_eq_some_iff, Lists.lookup_eq_some_iff t.keys_nodup]

theorem mem_keys_iff : m ∈ t.keys ↔ ∃ v, t.get? m = some v := by
  simp only [get?_eq_some_iff, keys, List.mem_map]
  constructor
  · rintro ⟨⟨_, v⟩, hv, rfl⟩
    exact ⟨v, hv⟩
  · rintro ⟨v, hv⟩
    exact ⟨_, hv, rfl⟩

theorem mem_keys_of_get? (h : t.get? m = some v) : m ∈ t.keys := mem_keys_iff.mpr ⟨v, h⟩

theorem get?_eq_none_iff : t.get? m = none ↔ m ∉ t.keys := by
  rw [mem_keys_iff, ← Option.ne_none_iff_exists', not_not]

theorem get?_empty (m : String) : (∅ : ModuleMap α).get? m = none := get?_eq_none_iff.mpr List.not_mem_nil

theorem isSome_get? (t : ModuleMap α) (m : String) : (t.get? m).isSome = t.contains m := by
  rw [Bool.eq_iff_iff, contains_iff, Option.isSome_iff_ne_none, ne_eq, get?_eq_none_iff, not_not]

@[simp]
theorem toList_mapValues (f : String → α → β) (t : ModuleMap α) :
    (t.mapValues f).toList = t.toList.map fun e => (e.1, f e.1 e.2) := by
  simp [toList, mapValues]

theorem get?_mapValues (f : String → α → β) (t : ModuleMap α) (m : String) :
    (t.mapValues f).get? m = (t.get? m).map (f m) := by
  ext w
  simp only [get?_eq_some_iff, toList_mapValues, List.mem_map, Option.map_eq_some_iff, Prod.exists, Prod.mk.injEq]
  constructor
  · rintro ⟨_, v, hv, rfl, rfl⟩
    exact ⟨v, hv, rfl⟩
  · rintro ⟨v, hv, rfl⟩
    exact ⟨m, v, hv, rfl, rfl⟩

theorem mapValues_empty (f : String → α → β) : (∅ : ModuleMap α).mapValues f = ∅ := by
  change mapValues f empty = empty
  simp [mapValues, empty]

theorem mapValues_mapValues {γ : Type} (f : String → α → β) (f' : String → β → γ) (t : ModuleMap α) :
    (t.mapValues f).mapValues f' = t.mapValues fun m v => f' m (f m v) := by
  rw [mapValues, mapValues, mapValues, ModuleMap.mk.injEq]
  exact ⟨by simp, rfl⟩

@[simp]
theorem keys_mapValues (f : String → α → β) (t : ModuleMap α) : (t.mapValues f).keys = t.keys := by
  simp [keys]

@[simp]
theorem toList_empty : (∅ : ModuleMap α).toList = [] := rfl

theorem entries_insert (t : ModuleMap α) (m : String) (v : α) : (t.insert m v).entries =
    match t.slots[m]? with
    | some i => t.entries.modify i fun e => (e.1, v)
    | none => t.entries.push (m, v) := by
  unfold insert
  split <;> simp [*]

theorem slots_insert (t : ModuleMap α) (m : String) (v : α) : (t.insert m v).slots =
    match t.slots[m]? with
    | some _ => t.slots
    | none => t.slots.insert m t.entries.size := by
  unfold insert
  split <;> simp [*]

/-- A value that is changed after it was entered could have been changed before. -/
theorem mapValues_insert (f : String → α → β) (t : ModuleMap α) (m : String) (v : α) :
    (t.insert m v).mapValues f = (t.mapValues f).insert m (f m v) := by
  have hslots : (t.mapValues f).slots = t.slots := rfl
  rw [mapValues, ModuleMap.mk.injEq, entries_insert, entries_insert, slots_insert, slots_insert, hslots]
  cases hslot : t.slots[m]? with
  | none => simp [mapValues]
  | some i =>
    obtain ⟨w, hw⟩ := (t.slots_eq m i).mp hslot
    refine ⟨Array.ext_getElem? fun j => ?_, rfl⟩
    simp only [mapValues, Array.getElem?_map, Array.getElem?_modify]
    by_cases hij : i = j
    · subst hij
      simp [hw]
    · simp [hij]

theorem toList_insert_of_notMem (h : m ∉ t.keys) : (t.insert m v).toList = t.toList ++ [(m, v)] := by
  have hfree : t.slots[m]? = none := by
    rw [← contains_iff, contains, slot?] at h
    simpa using h
  rw [toList, entries_insert, hfree]
  simp [toList]

theorem keys_insert_of_notMem (h : m ∉ t.keys) : (t.insert m v).keys = t.keys ++ [m] := by
  simp [keys, toList_insert_of_notMem h]

/-- A known name keeps its place, and the others keep their entries. -/
theorem toList_insert_of_mem (h : m ∈ t.keys) :
    (t.insert m v).toList = t.toList.map fun e => if e.1 = m then (m, v) else e := by
  obtain ⟨i, hi⟩ := Option.isSome_iff_exists.mp (contains_iff.mpr h)
  rw [slot?] at hi
  obtain ⟨w, hw⟩ := (t.slots_eq m i).mp hi
  rw [toList, entries_insert, hi]
  refine List.ext_getElem? fun j => ?_
  simp only [toList, List.getElem?_map, Array.getElem?_toList, Array.getElem?_modify]
  by_cases hij : i = j
  · subst hij
    simp [hw]
  · rw [if_neg hij]
    cases hj : t.entries[j]? with
    | none => rfl
    | some e =>
      have hne : e.1 ≠ m := fun he => by
        have hslot := (t.slots_eq m j).mpr ⟨e.2, by rw [hj, ← he]⟩
        exact hij (Option.some.inj (hi.symm.trans hslot))
      rw [Option.map_some, if_neg hne]

theorem keys_insert_of_mem (h : m ∈ t.keys) : (t.insert m v).keys = t.keys := by
  rw [keys, toList_insert_of_mem h, List.map_map, keys]
  refine List.map_congr_left fun e _ => ?_
  rw [Function.comp_apply]
  split_ifs with he
  · exact he.symm
  · rfl

theorem keys_insert (t : ModuleMap α) (m : String) (v : α) :
    (t.insert m v).keys = if m ∈ t.keys then t.keys else t.keys ++ [m] := by
  split_ifs with h
  · exact keys_insert_of_mem h
  · exact keys_insert_of_notMem h

theorem get?_insert (t : ModuleMap α) (m : String) (v : α) (m' : String) :
    (t.insert m v).get? m' = if m' = m then some v else t.get? m' := by
  ext w
  by_cases h : m ∈ t.keys
  · rw [get?_eq_some_iff, toList_insert_of_mem h, List.mem_map]
    split_ifs with hm
    · subst hm
      obtain ⟨⟨_, w'⟩, he, rfl⟩ := List.mem_map.mp h
      rw [Option.some.injEq]
      constructor
      · rintro ⟨e, -, heq⟩
        split_ifs at heq with hkey
        · exact congrArg Prod.snd heq
        · exact absurd (congrArg Prod.fst heq) hkey
      · rintro rfl
        exact ⟨_, he, if_pos rfl⟩
    · rw [get?_eq_some_iff]
      constructor
      · rintro ⟨e, he, heq⟩
        split_ifs at heq with hkey
        · exact absurd (congrArg Prod.fst heq).symm hm
        · exact heq ▸ he
      · exact fun he => ⟨_, he, if_neg hm⟩
  · have hfree : t.get? m = none := get?_eq_none_iff.mpr h
    rw [get?_eq_some_iff, toList_insert_of_notMem h, List.mem_append, List.mem_singleton, ← get?_eq_some_iff]
    split_ifs with hm
    · simp [hm, hfree, eq_comm]
    · simp [hm]

/-- The entry of a known name is changed where it stands. -/
theorem toList_modify (t : ModuleMap α) (m : String) (f : α → α) :
    (t.modify m f).toList = t.toList.map fun e => if e.1 = m then (m, f e.2) else e := by
  have own {e : String × α} (he : e ∈ t.toList) (hm : e.1 = m) : t.get? m = some e.2 :=
    get?_eq_some_iff.mpr (hm ▸ he)
  rw [modify]
  cases hget : t.get? m with
  | none =>
    refine (Lists.map_eq_self_iff.mpr fun e he => if_neg fun hm => ?_).symm
    rw [own he hm] at hget
    cases hget
  | some v =>
    rw [toList_insert_of_mem (mem_keys_of_get? hget)]
    refine List.map_congr_left fun e he => ?_
    split_ifs with hm
    · rw [Option.some.inj (hget.symm.trans (own he hm))]
    · rfl

/-- A map is the list of its names, each with its value. -/
theorem toList_eq_map_keys (t : ModuleMap α) (v : α) : t.toList = t.keys.map fun m => (m, (t.get? m).getD v) := by
  rw [keys, List.map_map]
  refine (List.map_id _).symm.trans (List.map_congr_left fun e he => ?_)
  rw [Function.comp_apply, get?_eq_some_iff.mpr he]
  rfl

theorem toList_foldl_insert (pairs : List (String × α)) :
    ∀ t : ModuleMap α, (t.keys ++ pairs.map Prod.fst).Nodup →
      (pairs.foldl (fun t p => t.insert p.1 p.2) t).toList = t.toList ++ pairs := by
  induction pairs with
  | nil => simp
  | cons p pairs ih =>
    intro t h
    have hp : p.1 ∉ t.keys := fun hmem =>
      List.disjoint_of_nodup_append h hmem (List.mem_cons_self)
    have hkeys : ((t.insert p.1 p.2).keys ++ pairs.map Prod.fst).Nodup := by
      rw [keys_insert_of_notMem hp]
      simpa using h
    rw [List.foldl_cons, ih _ hkeys, toList_insert_of_notMem hp]
    simp

/-- Pairs with distinct names are entered as they stand. -/
theorem toList_ofList {pairs : List (String × α)} (h : (pairs.map Prod.fst).Nodup) :
    (ofList pairs).toList = pairs := by
  rw [ofList, toList_foldl_insert]
  · rfl
  · simpa [keys] using h

@[simp]
theorem toList_rebuild (f : String → α → β) (t : ModuleMap α) :
    (t.rebuild f).toList = t.toList.map fun e => (e.1, f e.1 e.2) := by
  refine toList_ofList ?_
  rw [List.map_map]
  exact t.keys_nodup

@[simp]
theorem keys_rebuild (f : String → α → β) (t : ModuleMap α) : (t.rebuild f).keys = t.keys := by
  simp [keys]

theorem get?_rebuild (f : String → α → β) (t : ModuleMap α) (m : String) :
    (t.rebuild f).get? m = (t.get? m).map (f m) := by
  rw [get?_eq_lookup, toList_rebuild, ← toList_mapValues, ← get?_eq_lookup, get?_mapValues]

theorem rebuild_mapValues {γ : Type} (f : String → α → β) (f' : String → β → γ) (t : ModuleMap α) :
    (t.mapValues f).rebuild f' = t.rebuild fun m v => f' m (f m v) := by
  rw [rebuild, toList_mapValues, List.map_map]
  rfl

/-- When each step enters a name, the names stand in the order in which they were first entered. -/
theorem keys_foldl {f : ModuleMap α → β → ModuleMap α} {name : β → String}
    (hf : ∀ t e, (f t e).keys = if name e ∈ t.keys then t.keys else t.keys ++ [name e]) (es : List β) :
    ∀ t : ModuleMap α, (es.foldl f t).keys = (t.keys ++ es.map name).eraseDups := by
  induction es with
  | nil =>
    intro t
    simp [Lists.eraseDups_of_nodup t.keys_nodup]
  | cons e es ih =>
    intro t
    rw [List.foldl_cons, ih, hf, List.map_cons]
    split_ifs with h
    · rw [Lists.eraseDups_append_cons_of_mem h]
    · rw [List.append_assoc, List.singleton_append]

theorem keys_ofList (pairs : List (String × α)) : (ofList pairs).keys = (pairs.map Prod.fst).eraseDups :=
  keys_foldl (fun t p => keys_insert t p.1 p.2) pairs ∅

/-- Of several values that are entered under a name, the last one stays. -/
theorem get?_ofList (pairs : List (String × α)) (m : String) : (ofList pairs).get? m = pairs.reverse.lookup m := by
  induction pairs using List.reverseRecOn with
  | nil => exact get?_empty m
  | append_singleton pairs p ih =>
    have hinsert : ofList (pairs ++ [p]) = (ofList pairs).insert p.1 p.2 := by
      rw [ofList, List.foldl_append]
      rfl
    rw [hinsert, get?_insert, ih, List.reverse_append, List.reverse_singleton, List.singleton_append, List.lookup_cons]
    split_ifs with h
    · rw [beq_iff_eq.mpr h]
    · rw [beq_eq_false_iff_ne.mpr h]

end ModuleAudit.ModuleMap
