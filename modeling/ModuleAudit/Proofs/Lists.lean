import Mathlib.Data.List.Nodup
import Mathlib.Data.List.Chain
import Mathlib.Data.List.Perm.Subperm

/-! Lists without repetitions, and lists read as closed walks. -/

namespace ModuleAudit.Lists

variable {α : Type}

theorem map_eq_self_iff {f : α → α} {l : List α} : l.map f = l ↔ ∀ a ∈ l, f a = a := by
  simpa using List.map_inj_left (f := f) (g := id) (l := l)

theorem contains_map {β : Type} [BEq α] [LawfulBEq α] [BEq β] [LawfulBEq β] {f : α → β} (hf : f.Injective)
    (l : List α) (a : α) : (l.map f).contains (f a) = l.contains a := by
  rw [Bool.eq_iff_iff, List.contains_iff_mem, List.contains_iff_mem, List.mem_map_of_injective hf]

theorem flatMap_ite {β : Type} (p : α → Bool) (f : α → List β) (l : List α) :
    (l.flatMap fun a => if p a = true then f a else []) = (l.filter p).flatMap f := by
  induction l with
  | nil => rfl
  | cons a l ih =>
    rw [List.flatMap_cons, ih]
    by_cases ha : p a = true
    · rw [if_pos ha, List.filter_cons_of_pos ha, List.flatMap_cons]
    · rw [if_neg ha, List.filter_cons_of_neg ha, List.nil_append]

/-- A map that has a result for each of the list. -/
theorem mapM_eq_some {β : Type} {f : α → Option β} {g : α → β} {l : List α} (h : ∀ a ∈ l, f a = some (g a)) :
    l.mapM f = some (l.map g) := by
  induction l with
  | nil => rfl
  | cons a l ih =>
    rw [List.mapM_cons, h a List.mem_cons_self, ih fun b hb => h b (List.mem_cons_of_mem _ hb)]
    rfl

/-- Steps that have a result as long as an invariant holds, and keep it. -/
theorem foldlM_eq_some {β : Type} {f : β → α → Option β} {g : β → α → β} {P : β → Prop} {l : List α}
    (h : ∀ b, ∀ a ∈ l, P b → f b a = some (g b a) ∧ P (g b a)) {b : β} (hb : P b) :
    l.foldlM f b = some (l.foldl g b) := by
  induction l generalizing b with
  | nil => rfl
  | cons a l ih =>
    obtain ⟨hstep, hkeep⟩ := h b a List.mem_cons_self hb
    rw [List.foldlM_cons, hstep, List.foldl_cons]
    exact ih (fun b a ha => h b a (List.mem_cons_of_mem _ ha)) hkeep

/-- Of what stands under distinct keys, a key finds one. -/
theorem filter_fst_eq [DecidableEq α] {β : Type} : ∀ {l : List (α × β)} {e : α × β}, (l.map Prod.fst).Nodup → e ∈ l →
    l.filter (·.1 == e.1) = [e]
  | a :: l, e, h, he => by
    rw [List.map_cons, List.nodup_cons] at h
    rcases List.mem_cons.mp he with rfl | he
    · have hnone : l.filter (·.1 == e.1) = [] := List.filter_eq_nil_iff.mpr fun b hb hbe =>
        h.1 (List.mem_map.mpr ⟨b, hb, beq_iff_eq.mp hbe⟩)
      rw [List.filter_cons_of_pos (by simp), hnone]
    · have hne : a.1 ≠ e.1 := fun hae => h.1 (hae ▸ List.mem_map_of_mem he)
      rw [List.filter_cons_of_neg (by simpa using hne), filter_fst_eq h.2 he]

theorem nodup_eraseDups [BEq α] [LawfulBEq α] : ∀ l : List α, l.eraseDups.Nodup
  | [] => by simp
  | a :: l => by
    rw [List.eraseDups_cons, List.nodup_cons]
    refine ⟨fun h => ?_, nodup_eraseDups _⟩
    simp [List.mem_eraseDups] at h
termination_by l => l.length
decreasing_by exact Nat.lt_succ_of_le (List.length_filter_le _ _)

theorem eraseDupsBy_sublist (r : α → α → Bool) : ∀ l : List α, (l.eraseDupsBy r).Sublist l
  | [] => by simp
  | a :: l => by
    rw [List.eraseDupsBy_cons]
    exact .cons_cons a ((eraseDupsBy_sublist r _).trans List.filter_sublist)
termination_by l => l.length
decreasing_by exact Nat.lt_succ_of_le (List.length_filter_le _ _)

theorem eraseDups_sublist [BEq α] (l : List α) : l.eraseDups.Sublist l := eraseDupsBy_sublist _ l

theorem eraseDups_of_nodup [BEq α] [LawfulBEq α] : ∀ {l : List α}, l.Nodup → l.eraseDups = l
  | [], _ => by simp
  | a :: l, h => by
    obtain ⟨ha, hl⟩ := List.nodup_cons.mp h
    have hfilter : l.filter (fun b => !b == a) = l := List.filter_eq_self.mpr fun b hb => by
      simpa using fun hba : b = a => ha (hba ▸ hb)
    rw [List.eraseDups_cons, hfilter, eraseDups_of_nodup hl]

theorem eraseDups_map {β : Type} [BEq α] [LawfulBEq α] [BEq β] [LawfulBEq β] {f : α → β} :
    ∀ l : List α, (∀ a ∈ l, ∀ b ∈ l, f a = f b → a = b) → (l.map f).eraseDups = l.eraseDups.map f
  | [], _ => by simp
  | a :: l, hf => by
    have hfilter : (l.map f).filter (fun b => !b == f a) = (l.filter fun b => !b == a).map f := by
      rw [List.filter_map]
      refine congrArg _ (List.filter_congr fun b hb => ?_)
      have hiff : f b = f a ↔ b = a :=
        ⟨hf b (List.mem_cons_of_mem _ hb) a List.mem_cons_self, fun h => congrArg f h⟩
      rw [Function.comp_apply, Bool.eq_iff_iff]
      simp [hiff]
    rw [List.map_cons, List.eraseDups_cons, List.eraseDups_cons, List.map_cons, hfilter,
      eraseDups_map (l.filter fun b => !b == a) fun x hx y hy => hf x
        (List.mem_cons_of_mem _ (List.mem_of_mem_filter hx)) y (List.mem_cons_of_mem _ (List.mem_of_mem_filter hy))]
termination_by l => l.length
decreasing_by exact Nat.lt_succ_of_le (List.length_filter_le _ _)

/-- Where the first for each key is kept, each key is kept where it stands first. -/
theorem map_eraseDupsBy {κ : Type} [BEq κ] [LawfulBEq κ] (key : α → κ) :
    ∀ l : List α, (l.eraseDupsBy fun a b => key a == key b).map key = (l.map key).eraseDups
  | [] => by simp
  | a :: l => by
    have hfilter : (l.map key).filter (fun k => !k == key a) =
        (l.filter fun b => decide ((key b == key a) = false)).map key := by
      rw [List.filter_map]
      refine congrArg _ (List.filter_congr fun b _ => ?_)
      cases hb : key b == key a <;> simp [hb]
    rw [List.eraseDupsBy_cons, List.map_cons, List.map_cons, List.eraseDups_cons, hfilter, map_eraseDupsBy]
termination_by l => l.length
decreasing_by exact Nat.lt_succ_of_le (List.length_filter_le _ _)

theorem find?_of_mem_eraseDupsBy {κ : Type} [BEq κ] [LawfulBEq κ] {key : α → κ} {d : α} :
    ∀ {l : List α}, d ∈ l.eraseDupsBy (fun a b => key a == key b) → l.find? (fun e => key e == key d) = some d
  | [], h => by simp at h
  | a :: l, h => by
    rw [List.eraseDupsBy_cons, List.mem_cons] at h
    rcases h with rfl | h
    · exact List.find?_cons_of_pos (beq_self_eq_true _)
    · have hne : key d ≠ key a := by
        simpa using (List.mem_filter.mp ((eraseDupsBy_sublist _ _).subset h)).2
      have hfind := find?_of_mem_eraseDupsBy h
      rw [List.find?_filter] at hfind
      rw [List.find?_cons_of_neg (by simpa using hne.symm), ← hfind]
      -- What has the key of `d` has not that of `a`, so that nothing looked for was left out.
      refine congrArg (l.find? ·) (funext fun e => ?_)
      by_cases he : key e = key d
      · simp [he, hne]
      · simp [he]
termination_by l => l.length
decreasing_by exact Nat.lt_succ_of_le (List.length_filter_le _ _)

/-- What stands in front already is not kept again. -/
theorem eraseDups_append_cons_of_mem [BEq α] [LawfulBEq α] {l : List α} {a : α} (h : a ∈ l) (r : List α) :
    (l ++ a :: r).eraseDups = (l ++ r).eraseDups := by
  have hremove : (a :: r).removeAll l = r.removeAll l := by
    rw [List.removeAll, List.removeAll, List.filter_cons_of_neg (by simpa using h)]
  rw [List.eraseDups_append, List.eraseDups_append, hremove]

theorem eraseDups_concat_of_notMem [BEq α] [LawfulBEq α] {l : List α} {a : α} (h : a ∉ l) :
    (l ++ [a]).eraseDups = l.eraseDups ++ [a] := by
  have hkept : [a].removeAll l = [a] := by
    rw [List.removeAll, List.filter_cons_of_pos (by simpa using h), List.filter_nil]
  rw [List.eraseDups_append, hkept, eraseDups_of_nodup (List.nodup_singleton a)]

theorem filter_eraseDups [BEq α] [LawfulBEq α] (p : α → Bool) (l : List α) :
    l.eraseDups.filter p = (l.filter p).eraseDups := by
  induction l using List.reverseRecOn with
  | nil => simp
  | append_singleton l a ih =>
    rw [List.filter_append]
    by_cases ha : a ∈ l
    · rw [eraseDups_append_cons_of_mem ha, List.append_nil, ih]
      by_cases hp : p a = true
      · rw [List.filter_cons_of_pos hp, List.filter_nil, eraseDups_append_cons_of_mem (List.mem_filter.mpr ⟨ha, hp⟩),
          List.append_nil]
      · rw [List.filter_cons_of_neg hp, List.filter_nil, List.append_nil]
    · rw [eraseDups_concat_of_notMem ha, List.filter_append, ih]
      by_cases hp : p a = true
      · rw [List.filter_cons_of_pos hp, List.filter_nil,
          eraseDups_concat_of_notMem fun h => ha (List.mem_of_mem_filter h)]
      · rw [List.filter_cons_of_neg hp, List.filter_nil, List.append_nil, List.append_nil]

/-- A list without repetitions that is as long as one that contains it has the same members. -/
theorem subset_of_length_le [DecidableEq α] {l u : List α} (hl : l.Nodup) (hlu : l ⊆ u)
    (h : u.length ≤ l.length) : u ⊆ l :=
  ((List.subperm_of_subset hl hlu).perm_of_length_le h).symm.subset

/-- A list without repetitions has at most one member exactly when it is as long as that. -/
theorem subset_singleton_iff [DecidableEq α] {l : List α} {a : α} (hl : l.Nodup) :
    l ⊆ [a] ↔ l.length = if a ∈ l then 1 else 0 := by
  constructor
  · intro h
    split_ifs with ha
    · have hle := (List.subperm_of_subset hl h).length_le
      have hpos := List.length_pos_of_mem ha
      rw [List.length_singleton] at hle
      omega
    · rw [List.length_eq_zero_iff, List.eq_nil_iff_forall_not_mem]
      exact fun b hb => ha (List.mem_singleton.mp (h hb) ▸ hb)
  · intro h
    split_ifs at h with ha
    · obtain ⟨b, rfl⟩ := List.length_eq_one_iff.mp h
      rw [List.mem_singleton.mp ha]
      exact List.Subset.refl _
    · rw [List.length_eq_zero_iff.mp h]
      exact List.nil_subset _

/-- Under distinct keys, what is found under a key is what stands under it. -/
theorem find?_fst_eq_some_iff [DecidableEq α] {β : Type} {l : List (α × β)} {a : α} {e : α × β}
    (h : (l.map Prod.fst).Nodup) : l.find? (·.1 == a) = some e ↔ e ∈ l ∧ e.1 = a := by
  constructor
  · intro hfind
    exact ⟨List.mem_of_find?_eq_some hfind, by simpa using List.find?_some hfind⟩
  · rintro ⟨he, rfl⟩
    rw [← List.head?_filter, filter_fst_eq h he, List.head?_cons]

theorem lookup_eq_some_iff [DecidableEq α] {β : Type} {l : List (α × β)} {a : α} {b : β} (h : (l.map Prod.fst).Nodup) :
    l.lookup a = some b ↔ (a, b) ∈ l := by
  rw [List.lookup_eq_some_iff]
  constructor
  · rintro ⟨l₁, l₂, rfl, -⟩
    exact List.mem_append_right _ List.mem_cons_self
  · intro hmem
    obtain ⟨l₁, l₂, rfl⟩ := List.append_of_mem hmem
    refine ⟨l₁, l₂, rfl, fun p hp => ?_⟩
    rw [List.map_append, List.map_cons] at h
    have hne := List.disjoint_of_nodup_append h (List.mem_map_of_mem hp)
    simpa using fun hap : a = p.1 => hne (hap ▸ List.mem_cons_self)

/-- Where lists of one length differ, what is put behind them does not count. -/
theorem append_lt_append [LT α] {l l' : List α} (hlen : l.length = l'.length) (h : l < l') (r r' : List α) :
    l ++ r < l' ++ r' := by
  induction h with
  | nil => cases hlen
  | rel hlt => exact .rel hlt
  | cons _ ih => exact .cons (ih (Nat.succ.inj hlen))

/-! ### Places -/

theorem idxOf?_of_mem [DecidableEq α] {l : List α} {a : α} (h : a ∈ l) : l.idxOf? a = some (l.idxOf a) :=
  List.findIdx?_eq_some_iff_findIdx_eq.mpr ⟨List.idxOf_lt_length_of_mem h, rfl⟩

theorem idxOf?_concat [DecidableEq α] {l : List α} {b : α} (h : b ∉ l) (a : α) :
    (l ++ [b]).idxOf? a = if b = a then some l.length else l.idxOf? a := by
  by_cases ha : a ∈ l
  · rw [if_neg (ne_of_mem_of_not_mem ha h).symm, idxOf?_of_mem ha, idxOf?_of_mem (List.mem_append_left _ ha),
      List.idxOf_append_of_mem ha]
  · split_ifs with hba
    · subst hba
      rw [idxOf?_of_mem (by simp), List.idxOf_append_of_notMem ha, List.idxOf_cons_self, Nat.add_zero]
    · rw [List.idxOf?_eq_none_iff.mpr ha, List.idxOf?_eq_none_iff.mpr]
      simpa [ha] using Ne.symm hba

theorem pairwise_idxOf_lt [DecidableEq α] {l : List α} (h : l.Nodup) :
    l.Pairwise fun a b => l.idxOf a < l.idxOf b := by
  rw [List.pairwise_iff_getElem]
  intro i j hi hj hij
  rwa [h.idxOf_getElem i hi, h.idxOf_getElem j hj]

/-- The first of a part of a list has the first place among its members. -/
theorem idxOf_head_le [DecidableEq α] {l part : List α} (h : l.Nodup) (hpart : part.Sublist l) {a b : α}
    (ha : part.head? = some a) (hb : b ∈ part) : l.idxOf a ≤ l.idxOf b := by
  cases part with
  | nil => cases ha
  | cons x part =>
    obtain rfl := Option.some.inj ha
    rcases List.mem_cons.mp hb with rfl | hb
    · exact Nat.le_refl _
    · exact ((List.pairwise_cons.mp ((pairwise_idxOf_lt h).sublist hpart)).1 b hb).le

end ModuleAudit.Lists
