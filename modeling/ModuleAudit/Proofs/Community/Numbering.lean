import Mathlib.Data.List.GetD
import Mathlib.Data.List.Range
import ModuleAudit.Community.Partition
import ModuleAudit.Proofs.Lists

/-! Numbering by first appearance. New numbers come in ascending order and without gaps, which is the same as to say
    that the distinct numbers, in the order in which they appear, are `0, …, count - 1`; and two labels get the same
    number exactly when they are equal. -/

namespace ModuleAudit.Community

variable {labels : List Nat} {i j count : Nat}

/-- The numbers used are `0, …, count - 1`, and each appears for the first time after all smaller ones did. -/
def Numbered (labels : List Nat) (count : Nat) : Prop := labels.eraseDups = List.range count

/-! ### First appearances -/

theorem map_idxOf_self {l : List Nat} (h : l.Nodup) : l.map l.idxOf = List.range l.length := by
  refine List.ext_getElem (by simp) fun i h₁ h₂ => ?_
  rw [List.getElem_map, List.getElem_range]
  exact h.idxOf_getElem i (by simpa using h₁)

theorem eraseDups_range (n : Nat) : (List.range n).eraseDups = List.range n :=
  Lists.eraseDups_of_nodup List.nodup_range

/-! ### Numbered labels -/

theorem getD_lt_max? (hi : i < labels.length) : labels.getD i 0 < (labels.max?.map (· + 1)).getD 0 := by
  rw [List.getD_eq_getElem _ _ hi]
  have hmem := List.getElem_mem hi
  obtain ⟨top, htop⟩ := Option.isSome_iff_exists.mp (List.isSome_max?_of_mem hmem)
  rw [htop]
  exact Nat.lt_succ_of_le ((List.max?_eq_some_iff.mp htop).2 _ hmem)

theorem numbered_range (n : Nat) : Numbered (List.range n) n := eraseDups_range n

theorem Numbered.mem_iff (h : Numbered labels count) : i ∈ labels ↔ i < count := by
  rw [← List.mem_eraseDups, h, List.mem_range]

theorem Numbered.getD_lt (h : Numbered labels count) (hi : i < labels.length) : labels.getD i 0 < count := by
  rw [List.getD_eq_getElem _ _ hi]
  exact h.mem_iff.mp (List.getElem_mem hi)

theorem Numbered.exists_getD_eq (h : Numbered labels count) (hi : i < count) :
    ∃ j < labels.length, labels.getD j 0 = i := by
  obtain ⟨j, hj, heq⟩ := List.mem_iff_getElem.mp (h.mem_iff.mpr hi)
  exact ⟨j, hj, by rwa [List.getD_eq_getElem _ _ hj]⟩

theorem Numbered.max?_eq (h : Numbered labels count) : (labels.max?.map (· + 1)).getD 0 = count := by
  rcases hmax : labels.max? with _ | top
  · rw [List.max?_eq_none_iff] at hmax
    rw [Numbered, hmax, List.eraseDups_nil, eq_comm, List.range_eq_nil] at h
    exact h.symm
  · obtain ⟨hmem, hle⟩ := List.max?_eq_some_iff.mp hmax
    have htop := h.mem_iff.mp hmem
    have hlast := hle (count - 1) (h.mem_iff.mpr (by omega))
    simp
    omega

theorem Numbered.take (h : Numbered labels count) (j : Nat) :
    Numbered (labels.take j) (labels.take j).eraseDups.length := by
  have hpre : (labels.take j).eraseDups <+: List.range count := by
    rw [← h, ← List.take_append_drop j labels, List.eraseDups_append, List.take_append_drop]
    exact List.prefix_append _ _
  have heq := List.prefix_iff_eq_take.mp hpre
  rw [List.take_range, Nat.min_eq_left (by simpa using hpre.length_le)] at heq
  exact heq

/-- A number appears only after all smaller ones. -/
theorem Numbered.exists_earlier (h : Numbered labels count) {c d : Nat} (hcd : c < d) (hd : labels[j]? = some d) :
    ∃ i < j, labels[i]? = some c := by
  obtain ⟨hj, hjd⟩ := List.getElem?_eq_some_iff.mp hd
  have hnext : labels.take (j + 1) = labels.take j ++ [d] := by rw [List.take_add_one, hd, Option.toList_some]
  -- One more label adds at most one number.
  have hgrow : (labels.take (j + 1)).eraseDups.length ≤ (labels.take j).eraseDups.length + 1 := by
    rw [hnext, List.eraseDups_append, List.length_append]
    refine Nat.add_le_add_left ?_ _
    exact (List.Sublist.length_le (Lists.eraseDups_sublist _)).trans (List.length_filter_le _ _)
  have hlt : d < (labels.take (j + 1)).eraseDups.length := (h.take (j + 1)).mem_iff.mp (by simp [hnext])
  have hc : c ∈ labels.take j := (h.take j).mem_iff.mpr (by omega)
  obtain ⟨i, hi⟩ := List.mem_iff_getElem?.mp hc
  obtain ⟨hlen, -⟩ := List.getElem?_eq_some_iff.mp hi
  have hij : i < j := by
    rw [List.length_take] at hlen
    omega
  exact ⟨i, hij, by rwa [List.getElem?_take_of_lt hij] at hi⟩

theorem length_renumber (labels : List Nat) : (renumber labels).1.length = labels.length := by
  simp [renumber]

theorem renumber_numbered (labels : List Nat) : Numbered (renumber labels).1 (renumber labels).2 := by
  have hinj : ∀ a ∈ labels, ∀ b ∈ labels, labels.eraseDups.idxOf a = labels.eraseDups.idxOf b → a = b :=
    fun a ha b _ hab => (List.idxOf_inj (List.mem_eraseDups.mpr ha)).mp hab
  rw [Numbered, renumber, Lists.eraseDups_map labels hinj]
  exact map_idxOf_self (Lists.nodup_eraseDups labels)

/-- Equal labels, and only they, get the same number. -/
theorem renumber_getD_eq_iff (hi : i < labels.length) (hj : j < labels.length) :
    (renumber labels).1.getD i 0 = (renumber labels).1.getD j 0 ↔ labels.getD i 0 = labels.getD j 0 := by
  simp only [renumber, List.getD_eq_getElem?_getD, List.getElem?_map, List.getElem?_eq_getElem hi,
    List.getElem?_eq_getElem hj, Option.map_some, Option.getD_some]
  exact List.idxOf_inj (List.mem_eraseDups.mpr (List.getElem_mem hi))

theorem renumber_getD_lt (hi : i < labels.length) : (renumber labels).1.getD i 0 < (renumber labels).2 :=
  (renumber_numbered labels).getD_lt (by rwa [length_renumber])

theorem exists_renumber_getD_eq (hi : i < (renumber labels).2) :
    ∃ j < labels.length, (renumber labels).1.getD j 0 = i := by
  obtain ⟨j, hj, heq⟩ := (renumber_numbered labels).exists_getD_eq hi
  exact ⟨j, by rwa [length_renumber] at hj, heq⟩

end ModuleAudit.Community
