import Std.Data.TreeMap

/-! Maps from module names to values that remember the order in which the modules were first seen. Reports
    list modules in that order, so every record keyed by module is one of these. The entries stand in an
    array; `slots` finds the entry of a name. The field `slots_eq` ties the two: a name has slot `i` exactly
    when entry `i` is its entry, hence no name has two entries. -/

namespace ModuleAudit

/-- A map keyed by module name, in order of first insertion. -/
structure ModuleMap (α : Type u) where
  entries : Array (String × α)
  slots : Std.TreeMap String Nat
  slots_eq : ∀ (m : String) (i : Nat), slots[m]? = some i ↔ ∃ v, entries[i]? = some (m, v)

namespace ModuleMap

variable {α : Type u} {β : Type v}

def empty : ModuleMap α where
  entries := #[]
  slots := ∅
  slots_eq m i := by simp

instance : EmptyCollection (ModuleMap α) := ⟨empty⟩
instance : Inhabited (ModuleMap α) := ⟨empty⟩

def size (t : ModuleMap α) : Nat := t.entries.size

def isEmpty (t : ModuleMap α) : Bool := t.entries.isEmpty

/-- The entries, first inserted first. -/
def toList (t : ModuleMap α) : List (String × α) := t.entries.toList

def keys (t : ModuleMap α) : List String := t.toList.map Prod.fst

def values (t : ModuleMap α) : List α := t.toList.map Prod.snd

/-- The position of a module among the keys. -/
def slot? (t : ModuleMap α) (m : String) : Option Nat := t.slots[m]?

def get? (t : ModuleMap α) (m : String) : Option α :=
  (t.slot? m).bind fun i => t.entries[i]?.map Prod.snd

def contains (t : ModuleMap α) (m : String) : Bool := (t.slot? m).isSome

instance : Membership String (ModuleMap α) := ⟨fun t m => t.contains m = true⟩

instance (m : String) (t : ModuleMap α) : Decidable (m ∈ t) := inferInstanceAs (Decidable (_ = true))

/-- Two maps are equal when they hold the same entries in the same order. -/
instance [BEq α] : BEq (ModuleMap α) := ⟨fun s t => s.entries == t.entries⟩

/-- A new module goes to the end, a known one keeps its place and takes the new value. -/
def insert (t : ModuleMap α) (m : String) (v : α) : ModuleMap α :=
  match h : t.slots[m]? with
  | some i =>
    { entries := t.entries.modify i fun e => (e.1, v)
      slots := t.slots
      slots_eq := by
        intro m' j
        rw [t.slots_eq, Array.getElem?_modify]
        by_cases hij : i = j
        · subst hij
          obtain ⟨w, hw⟩ := (t.slots_eq m i).1 h
          simp only [hw, if_true, Option.map_some, Option.some.injEq, Prod.mk.injEq]
          exact ⟨fun ⟨_, hm, _⟩ => ⟨v, hm, rfl⟩, fun ⟨_, hm, _⟩ => ⟨w, hm, rfl⟩⟩
        · simp [hij] }
  | none =>
    { entries := t.entries.push (m, v)
      slots := t.slots.insert m t.entries.size
      slots_eq := by
        intro m' j
        rw [Std.TreeMap.getElem?_insert, Array.getElem?_push]
        by_cases hm : m = m'
        · subst hm
          have hfree : ∀ k w, t.entries[k]? ≠ some (m, w) := fun k w hk => by
            have := (t.slots_eq m k).2 ⟨w, hk⟩
            simp [h] at this
          simp only [Std.ReflCmp.compare_self, if_true, Option.some.injEq]
          by_cases hj : j = t.entries.size
          · simp [hj]
          · simp [hj, hfree, Ne.symm hj]
        · have hc : compare m m' ≠ .eq := by simpa using hm
          simp only [hc, if_false]
          by_cases hj : j = t.entries.size
          · simp only [hj, if_true, Option.some.injEq, Prod.mk.injEq]
            constructor
            · intro hs
              obtain ⟨w, hw⟩ := (t.slots_eq m' _).1 hs
              simp at hw
            · rintro ⟨w, h1, _⟩
              exact absurd h1 hm
          · simp only [hj, if_false]
            exact t.slots_eq m' j }

theorem mem_iff {t : ModuleMap α} {m : String} : m ∈ t ↔ (t.slots[m]?).isSome = true := Iff.rfl

/-- The position of every module that was there stays. -/
theorem slot?_insert_of_mem {t : ModuleMap α} {m m' : String} {v : α} (h : m' ∈ t) :
    (t.insert m v).slot? m' = t.slot? m' := by
  unfold insert slot?
  split
  · rfl
  · rename_i hm
    rw [mem_iff] at h
    have hne : compare m m' ≠ .eq := fun hc => by
      have : m = m' := by simpa using hc
      subst this
      simp [hm] at h
    simp [Std.TreeMap.getElem?_insert, hne]

theorem mem_insert_of_mem {t : ModuleMap α} {m m' : String} {v : α} (h : m' ∈ t) : m' ∈ t.insert m v := by
  have := slot?_insert_of_mem (m := m) (v := v) h
  rw [mem_iff] at h ⊢
  simp only [slot?] at this
  rw [this, h]

/-- Inserts, and gives the value that the module had before. -/
def replace (t : ModuleMap α) (m : String) (v : α) : ModuleMap α × Option α := (t.insert m v, t.get? m)

/-- Changes the value of a known module, and nothing else. -/
def modify (t : ModuleMap α) (m : String) (f : α → α) : ModuleMap α :=
  match t.get? m with
  | some v => t.insert m (f v)
  | none => t

/-- Applies `f` to each entry; names and places stay. -/
def mapValues (f : String → α → β) (t : ModuleMap α) : ModuleMap β where
  entries := t.entries.map fun e => (e.1, f e.1 e.2)
  slots := t.slots
  slots_eq m i := by
    rw [t.slots_eq, Array.getElem?_map]
    constructor
    · rintro ⟨v, hv⟩
      exact ⟨f m v, by simp [hv]⟩
    · rintro ⟨w, hw⟩
      obtain ⟨e, he, heq⟩ := Option.map_eq_some_iff.1 hw
      simp only [Prod.mk.injEq] at heq
      exact ⟨e.2, by rw [he, ← heq.1]⟩

/-- Inserts the pairs one after the other. -/
def ofList (pairs : List (String × α)) : ModuleMap α :=
  pairs.foldl (fun t p => t.insert p.1 p.2) ∅

/-- Inserts what `f` makes of each entry into a new map. -/
def rebuild (f : String → α → β) (t : ModuleMap α) : ModuleMap β := ofList (t.toList.map fun e => (e.1, f e.1 e.2))

end ModuleMap
end ModuleAudit
