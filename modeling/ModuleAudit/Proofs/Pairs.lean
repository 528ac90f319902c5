import ModuleAudit.Proofs.ModuleMap

/-! A map by module name is a list of entries, however it came about. Beside each operation stands what it does to the
    list; after any of them the slots are the places of the names in the list, and every question about the map has
    the answer that can be read off the list. So two maps are the same exactly when their lists are. -/

namespace ModuleAudit

/-- Names with their values. -/
abbrev Pairs (α : Type) := List (String × α)

namespace Pairs

variable {α β : Type}

def names (l : Pairs α) : List String := l.map Prod.fst

/-- Each name where it stands first, with the value that stands under it last. -/
def collect (pairs : List (String × α)) : Pairs α :=
  (pairs.map Prod.fst).eraseDups.filterMap fun m => (pairs.reverse.lookup m).map fun v => (m, v)

/-- The entry of a name is changed where it stands. -/
def change (l : Pairs α) (m : String) (f : α → α) : Pairs α := l.map fun e => if e.1 = m then (m, f e.2) else e

/-- A new name goes to the end. -/
def enter (l : Pairs α) (m : String) (v : α) : Pairs α :=
  if m ∈ l.names then l.change m fun _ => v else l ++ [(m, v)]

def mapValues (l : Pairs α) (f : String → α → β) : Pairs β := l.map fun e => (e.1, f e.1 e.2)

/-- A name that stands once has its value replaced, and nothing else. -/
theorem enter_middle {before after : Pairs α} {m : String} {old v : α}
    (h : (names (before ++ (m, old) :: after)).Nodup) :
    enter (before ++ (m, old) :: after) m v = before ++ (m, v) :: after := by
  have hnames : names (before ++ (m, old) :: after) = before.names ++ m :: after.names := by simp [names]
  have hmem : m ∈ names (before ++ (m, old) :: after) := by simp [hnames]
  rw [hnames, List.nodup_middle, List.nodup_cons, List.mem_append, not_or] at h
  have other {l : Pairs α} (hm : m ∉ l.names) : (l.map fun e => if e.1 = m then (m, v) else e) = l :=
    Lists.map_eq_self_iff.mpr fun e he => if_neg fun hem : e.1 = m => hm (hem ▸ List.mem_map_of_mem he)
  rw [enter, if_pos hmem, change, List.map_append, List.map_cons, other h.1.1, other h.1.2, if_pos rfl]

end Pairs

namespace ModuleMap

variable {α β : Type} {t : ModuleMap α} {l : Pairs α} {m : String} {v : α}

/-! ### What each operation does to the list -/

theorem names_toList (t : ModuleMap α) : Pairs.names t.toList = t.keys := rfl

theorem toList_insert (t : ModuleMap α) (m : String) (v : α) :
    (t.insert m v).toList = Pairs.enter t.toList m v := by
  rw [Pairs.enter, names_toList]
  split_ifs with h
  · exact toList_insert_of_mem h
  · exact toList_insert_of_notMem h

theorem toList_collect (pairs : List (String × α)) : (ofList pairs).toList = Pairs.collect pairs := by
  have hentry {e : String × α} (he : e ∈ (ofList pairs).toList) :
      (pairs.reverse.lookup e.1).map (fun v => (e.1, v)) = some e := by
    rw [← get?_ofList, get?_eq_some_iff.mpr he, Option.map_some]
  rw [Pairs.collect, ← keys_ofList, keys, List.filterMap_map]
  refine (List.filterMap_some.symm.trans (List.filterMap_congr fun e he => ?_))
  exact (hentry he).symm

/-! ### Maps that come about -/

/-- What was done to get a map. -/
inductive History : Type → Type 1
  | nothing {α : Type} : History α
  | collect {α : Type} (pairs : List (String × α)) : History α
  | insert {α : Type} (h : History α) (m : String) (v : α) : History α
  | modify {α : Type} (h : History α) (m : String) (f : α → α) : History α
  | mapValues {α β : Type} (h : History α) (f : String → α → β) : History β

namespace History

/-- The map that it leads to. -/
def map : {α : Type} → History α → ModuleMap α
  | _, .nothing => ∅
  | _, .collect pairs => .ofList pairs
  | _, .insert h m v => (h.map.replace m v).1
  | _, .modify h m f => h.map.modify m f
  | _, .mapValues h f => h.map.mapValues f

/-- The list that it leads to. -/
def entries : {α : Type} → History α → Pairs α
  | _, .nothing => []
  | _, .collect pairs => .collect pairs
  | _, .insert h m v => h.entries.enter m v
  | _, .modify h m f => h.entries.change m f
  | _, .mapValues h f => h.entries.mapValues f

/-- Each operation on the map is the one on the list. -/
theorem toList_map (h : History α) : h.map.toList = h.entries := by
  induction h with
  | nothing => rfl
  | collect pairs => exact toList_collect pairs
  | insert h m v ih =>
    rw [entries, ← ih]
    exact toList_insert h.map m v
  | modify h m f ih =>
    rw [entries, ← ih]
    exact toList_modify h.map m f
  | mapValues h f ih =>
    rw [entries, ← ih]
    exact toList_mapValues f h.map

end History

/-! ### Maps read as lists -/

/-- The map holds the entries of the list: no name stands twice, the slots give the place of each name and know no other
    one, and all that can be asked is answered from the list. -/
structure Represents (t : ModuleMap α) (l : Pairs α) : Prop where
  entries : t.entries.toList = l
  distinct : l.names.Nodup
  slots : ∀ m, t.slots[m]? = l.names.idxOf? m
  get? : ∀ m, t.get? m = l.lookup m
  contains : ∀ m, t.contains m = decide (m ∈ l.names)
  size : t.size = l.length
  isEmpty : t.isEmpty = l.isEmpty
  keys : t.keys = l.names
  values : t.values = l.map Prod.snd
  toList : t.toList = l

theorem represents_toList (t : ModuleMap α) : Represents t t.toList where
  entries := rfl
  distinct := t.keys_nodup
  slots := t.slot?_eq_idxOf?
  get? := t.get?_eq_lookup
  contains _ := Bool.eq_iff_iff.mpr (contains_iff.trans decide_eq_true_iff.symm)
  size := Array.length_toList.symm
  isEmpty := Array.isEmpty_toList.symm
  keys := rfl
  values := rfl
  toList := rfl

/-- Inserting replaces the value of a known name, which is given back, and leaves all else as it stands; a new name goes
    to the end. -/
structure Replaces (t : ModuleMap α) (m : String) (v : α) : Prop where
  known : ∀ before old after, t.toList = before ++ (m, old) :: after →
    (t.replace m v).2 = some old ∧ (t.replace m v).1.toList = before ++ (m, v) :: after
  new : m ∉ t.keys → (t.replace m v).2 = none ∧ (t.replace m v).1.toList = t.toList ++ [(m, v)]

theorem replaces (t : ModuleMap α) (m : String) (v : α) : Replaces t m v where
  known _ old _ h := by
    have hmem : (m, old) ∈ t.toList := by simp [h]
    refine ⟨get?_eq_some_iff.mpr hmem, (toList_insert t m v).trans ?_⟩
    rw [h]
    exact Pairs.enter_middle (h ▸ t.keys_nodup)
  new h := ⟨get?_eq_none_iff.mpr h, toList_insert_of_notMem h⟩

/-- Both fields of the maps are the same, the slots as a table from names to places. -/
def same [BEq α] (s t : ModuleMap α) : Bool := s.entries == t.entries && s.slots == t.slots

/-- Lists that are equal entry by entry have the same names, in the same order. -/
theorem names_eq_of_beq [BEq α] : ∀ {l l' : Pairs α}, (l == l') = true → l.names = l'.names
  | [], [], _ => rfl
  | [], _ :: _, h => by cases h
  | _ :: _, [], h => by cases h
  | (m, v) :: l, (m', v') :: l', h => by
    rw [List.cons_beq_cons, Bool.and_eq_true] at h
    have hname : (m == m' && v == v') = true := h.1
    obtain rfl : m = m' := beq_iff_eq.mp (Bool.and_eq_true_iff.mp hname).1
    exact congrArg (m :: ·) (names_eq_of_beq h.2)

/-- Equal entries leave nothing to be compared: the slots are given by the names. -/
theorem same_eq [BEq α] (s t : ModuleMap α) : s.same t = (s.toList == t.toList) := by
  have hentries : (s.entries == t.entries) = (s.toList == t.toList) := (Array.beq_toList _ _).symm
  rw [same, hentries, Bool.and_eq_left_iff_imp]
  intro h
  refine Std.TreeMap.beq_iff_equiv.mpr (Std.TreeMap.Equiv.of_forall_constGet?_eq fun m => ?_)
  exact ((represents_toList s).slots m).trans
    ((congrArg (List.idxOf? m) (names_eq_of_beq h)).trans ((represents_toList t).slots m).symm)

/-- However a map came about, it represents the list that the same operations lead to; what is inserted next replaces at
    most the value of its own name; and two maps are the same, field by field, exactly when their lists are, with the
    names in the same order. -/
theorem represents_map (h : History α) :
    Represents h.map h.entries ∧ (∀ m v, Replaces h.map m v) ∧
      ∀ [BEq α] (h' : History α), h.map.same h'.map = (h.entries == h'.entries) ∧
        (h.map == h'.map) = (h.entries == h'.entries) ∧ (h.map.same h'.map = true → h.map.keys = h'.map.keys) := by
  refine ⟨h.toList_map ▸ h.map.represents_toList, h.map.replaces, fun h' => ⟨?_, ?_, fun hsame => ?_⟩⟩
  · rw [same_eq, h.toList_map, h'.toList_map]
  · rw [← h.toList_map, ← h'.toList_map]
    exact (Array.beq_toList _ _).symm
  · rw [same_eq] at hsame
    exact names_eq_of_beq hsame

/-- The same entries in another order are another map. -/
example : same (ofList [("a", 1), ("b", 2)]) (ofList [("b", 2), ("a", 1)]) = false := by decide +kernel

end ModuleMap
end ModuleAudit
