import ModuleAudit.Proofs.Audit.Completed
import ModuleAudit.Proofs.Community.Assigned

/-! The members of the communities. Because the communities of a report are numbered by first appearance, their lists
    of members part the modules: no list is empty, every module stands in one of them, and the lists come in the order
    of their earliest modules. -/

namespace ModuleAudit.Report

variable {r : Report} {m : String} {c d : Nat}

/-- The members of one community. -/
def membersOf (r : Report) (c : Nat) : List String := (r.communities.toList.filter (·.2 == c)).map Prod.fst

/-- The lists of members part the modules of the report, in the order of their earliest modules. Every community that
    is assigned is a place in the list of these lists. -/
structure Parted (r : Report) : Prop where
  inBounds : ∀ e ∈ r.communities.toList, e.2 < r.communityMembers.length
  members : ∀ c < r.communityMembers.length, ∀ m,
    (∃ ms, r.communityMembers[c]? = some ms ∧ m ∈ ms) ↔ (m, c) ∈ r.communities.toList
  nonempty : ∀ ms ∈ r.communityMembers, ms ≠ []
  listed : r.communityMembers.flatten.Perm r.tree.keys
  inOrder : ∀ ms ∈ r.communityMembers, ms.Sublist r.tree.keys
  ordered : r.communityMembers.Pairwise fun ms ns =>
    ∀ a ∈ ms.head?, ∀ b ∈ ns, r.tree.keys.idxOf a < r.tree.keys.idxOf b

theorem communityMembers_eq (r : Report) :
    r.communityMembers = (List.range r.communityCount).map r.membersOf := rfl

theorem mem_membersOf : m ∈ r.membersOf c ↔ (m, c) ∈ r.communities.toList := by
  simp [membersOf]

theorem membersOf_sublist (r : Report) (c : Nat) : (r.membersOf c).Sublist r.communities.keys :=
  List.filter_sublist.map Prod.fst

theorem membersOf_disjoint (h : c ≠ d) : (r.membersOf c).Disjoint (r.membersOf d) := by
  intro m hc hd
  have hc' := ModuleMap.get?_eq_some_iff.mpr (mem_membersOf.mp hc)
  rw [ModuleMap.get?_eq_some_iff.mpr (mem_membersOf.mp hd)] at hc'
  exact h (Option.some.inj hc').symm

section
variable (h : Community.Numbered r.communities.values r.communityCount)
include h

theorem exists_mem_membersOf (hc : c < r.communityCount) : ∃ m, m ∈ r.membersOf c := by
  obtain ⟨e, he, rfl⟩ := List.mem_map.mp (h.mem_iff.mpr hc)
  exact ⟨e.1, mem_membersOf.mpr he⟩

theorem lt_communityCount {e : String × Nat} (he : e ∈ r.communities.toList) : e.2 < r.communityCount :=
  h.mem_iff.mp (List.mem_map_of_mem he)

theorem flatten_communityMembers_perm : r.communityMembers.flatten.Perm r.communities.keys := by
  refine (List.perm_ext_iff_of_nodup ?_ r.communities.keys_nodup).mpr fun m => ?_
  · rw [List.nodup_flatten, communityMembers_eq]
    refine ⟨fun ms hms => ?_, List.pairwise_map.mpr (List.nodup_range.imp fun hcd => membersOf_disjoint hcd)⟩
    obtain ⟨c, -, rfl⟩ := List.mem_map.mp hms
    exact r.communities.keys_nodup.sublist (r.membersOf_sublist c)
  · rw [List.mem_flatten, communityMembers_eq, ModuleMap.keys, List.mem_map]
    constructor
    · rintro ⟨ms, hms, hm⟩
      obtain ⟨c, -, rfl⟩ := List.mem_map.mp hms
      exact ⟨(m, c), mem_membersOf.mp hm, rfl⟩
    · rintro ⟨⟨_, c⟩, he, rfl⟩
      exact ⟨_, List.mem_map_of_mem (List.mem_range.mpr (lt_communityCount h he)), mem_membersOf.mpr he⟩

/-- Before any member of a community stands a member of each community with a smaller number. -/
theorem idxOf_head_lt {a b : String} (hcd : c < d) (ha : (r.membersOf c).head? = some a) (hb : b ∈ r.membersOf d) :
    r.communities.keys.idxOf a < r.communities.keys.idxOf b := by
  obtain ⟨j, hj⟩ := List.mem_iff_getElem?.mp (mem_membersOf.mp hb)
  obtain ⟨i, hij, hi⟩ := h.exists_earlier hcd (j := j) (by simp [ModuleMap.values, hj])
  obtain ⟨e, he, rfl⟩ : ∃ e, r.communities.toList[i]? = some e ∧ e.2 = c := by
    simpa [ModuleMap.values] using hi
  have place {k : Nat} {e : String × Nat} (hk : r.communities.toList[k]? = some e) :
      r.communities.keys.idxOf e.1 = k := by
    have hkey : r.communities.keys[k]? = some e.1 := by simp [ModuleMap.keys, hk]
    obtain ⟨hlen, heq⟩ := List.getElem?_eq_some_iff.mp hkey
    rw [← heq]
    exact r.communities.keys_nodup.idxOf_getElem k hlen
  have hmem : e.1 ∈ r.membersOf e.2 := mem_membersOf.mpr (List.mem_of_getElem? he)
  calc r.communities.keys.idxOf a
      ≤ r.communities.keys.idxOf e.1 :=
        Lists.idxOf_head_le r.communities.keys_nodup (r.membersOf_sublist e.2) ha hmem
    _ = i := place he
    _ < j := hij
    _ = r.communities.keys.idxOf b := (place hj).symm

theorem parted_of_numbered (hkeys : r.communities.keys = r.tree.keys) : r.Parted where
  inBounds e he := by
    rw [communityMembers_eq, List.length_map, List.length_range]
    exact lt_communityCount h he
  members c hc m := by
    rw [communityMembers_eq, List.length_map, List.length_range] at hc
    simp [communityMembers_eq, hc, mem_membersOf]
  nonempty ms hms := by
    obtain ⟨c, hc, rfl⟩ := List.mem_map.mp hms
    obtain ⟨m, hm⟩ := exists_mem_membersOf h (List.mem_range.mp hc)
    exact List.ne_nil_of_mem hm
  listed := hkeys ▸ flatten_communityMembers_perm h
  inOrder ms hms := by
    obtain ⟨c, -, rfl⟩ := List.mem_map.mp hms
    exact hkeys ▸ r.membersOf_sublist c
  ordered := by
    rw [communityMembers_eq, List.pairwise_map, ← hkeys]
    exact List.pairwise_lt_range.imp fun hcd a ha b hb => idxOf_head_lt h hcd ha hb

end

end ModuleAudit.Report

namespace ModuleAudit.Community

/-- Whatever the arithmetic of the weights, the communities of a graph are assigned to its modules by first appearance
    and within connected modules; so the lists of members in the report of any run part the modules. -/
theorem detect_assigned_and_parted :
    (∀ {α : Type} [Weight α] (t : Tuning α) (g : Graph), Assigned g (detect t g).communities) ∧
      ∀ (s : Settings) (source : LayoutSource) (extraction : Attempt Extracted) (r : Report),
        (Audit.run s source extraction).report = some r → r.Parted := by
  refine ⟨fun t g => detect_assigned t g, fun s source extraction r h => ?_⟩
  have hmods := Audit.modules_eq_of_report h
  obtain ⟨x, positions, -, rfl⟩ := Audit.exists_of_report h
  have hassigned := detect_assigned s.community (Graph.ofListing x.tree.listing positions)
  exact Report.parted_of_numbered hassigned.numbered (hassigned.keys.trans hmods)

end ModuleAudit.Community
