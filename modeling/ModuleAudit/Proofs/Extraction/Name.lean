import Mathlib.Data.List.DropRight
import ModuleAudit.Extraction.Clean
import ModuleAudit.Proofs.Lists

/-! The spelling of module names. A spelled name has no backslash, no `./` at the front and no blank at the end. It may
    begin with a blank, which stood behind a `./` when the blanks were cut, and such a name is spelled differently the
    next time. -/

namespace ModuleAudit

namespace Text

variable {cs : List Char} {c : Char}

theorem trim_eq (cs : List Char) : trim cs = (cs.dropWhile isBlank).rdropWhile isBlank := rfl

theorem trim_length_le (cs : List Char) : (trim cs).length ≤ cs.length := by
  rw [trim_eq]
  exact (List.rdropWhile_prefix isBlank _).length_le.trans (List.dropWhile_sublist isBlank).length_le

theorem isBlank_of_getLast?_trim (h : (trim cs).getLast? = some c) : isBlank c = false := by
  rw [trim_eq] at h
  have hne : (cs.dropWhile isBlank).rdropWhile isBlank ≠ [] := fun hnil => by simp [hnil] at h
  rw [List.getLast?_eq_some_getLast hne, Option.some.injEq] at h
  simpa [h] using List.rdropWhile_last_not isBlank _ hne

/-- A text is shorter without the blanks in front of it. -/
theorem trim_length_lt (h : cs.head? = some c) (hc : isBlank c = true) : (trim cs).length < cs.length := by
  obtain ⟨rest, rfl⟩ := List.head?_eq_some_iff.mp h
  have hcut : trim (c :: rest) = trim rest := by rw [trim_eq, List.dropWhile_cons_of_pos hc, trim_eq]
  rw [hcut, List.length_cons]
  exact Nat.lt_succ_of_le (trim_length_le rest)

theorem trim_eq_self (hhead : ∀ c, cs.head? = some c → isBlank c = false)
    (hlast : ∀ c, cs.getLast? = some c → isBlank c = false) : trim cs = cs := by
  have hfront : cs.dropWhile isBlank = cs := by
    cases cs with
    | nil => rfl
    | cons c rest => rw [List.dropWhile_cons_of_neg (by simp [hhead c rfl])]
  rw [trim_eq, hfront, List.rdropWhile_eq_self_iff]
  intro hne
  simp [hlast _ (List.getLast?_eq_some_getLast hne)]

end Text

namespace ModuleName

open Text

variable {cs : List Char} {s : String} {c : Char}

theorem normalize_eq (s : String) :
    normalize s = String.ofList (stripHere ((trim s.toList).map fun c => if c == '\\' then '/' else c)) := rfl

theorem stripHere_suffix (cs : List Char) : stripHere cs <:+ cs := by
  fun_induction stripHere cs with
  | case1 cs ih => exact ih.trans ⟨['.', '/'], rfl⟩
  | case2 cs => exact List.suffix_rfl

theorem stripHere_stripHere (cs : List Char) : stripHere (stripHere cs) = stripHere cs := by
  fun_induction stripHere cs with
  | case1 cs ih => exact ih
  | case2 cs h => rw [stripHere]; exact h

theorem getLast?_of_suffix {l l' : List Char} (h : l <:+ l') (hl : l.getLast? = some c) : l'.getLast? = some c := by
  obtain ⟨before, rfl⟩ := h
  rw [List.getLast?_append, hl, Option.some_or]

/-- What the characters of every spelled name have in common. -/
structure Spelled (cs : List Char) : Prop where
  slashes : '\\' ∉ cs
  here : stripHere cs = cs
  last : ∀ c, cs.getLast? = some c → isBlank c = false

theorem spelled_normalize (s : String) : Spelled (normalize s).toList := by
  rw [normalize_eq, String.toList_ofList]
  have hsuffix := stripHere_suffix ((trim s.toList).map fun c => if c == '\\' then '/' else c)
  refine ⟨fun h => ?_, stripHere_stripHere _, fun c h => ?_⟩
  · obtain ⟨c, -, hc⟩ := List.mem_map.mp (hsuffix.subset h)
    split at hc
    · cases hc
    · rename_i hne
      exact hne (beq_iff_eq.mpr hc)
  · replace h := getLast?_of_suffix hsuffix h
    rw [List.getLast?_map, Option.map_eq_some_iff] at h
    obtain ⟨b, hb, rfl⟩ := h
    split
    · decide
    · exact isBlank_of_getLast?_trim hb

/-- A name begins with a blank. -/
def BeginsBlank (s : String) : Prop := ∃ c, s.toList.head? = some c ∧ isBlank c = true

instance : Decidable (BeginsBlank s) :=
  decidable_of_iff (s.toList.head?.any isBlank = true) (Option.any_eq_true ..)

theorem not_beginsBlank_iff : ¬BeginsBlank s ↔ ∀ c, s.toList.head? = some c → isBlank c = false := by
  simp [BeginsBlank]

theorem normalize_length_le (s : String) : (normalize s).toList.length ≤ (trim s.toList).length := by
  rw [normalize_eq, String.toList_ofList]
  exact (stripHere_suffix _).length_le.trans (List.length_map _).le

/-- A name is in its spelling when it could be the spelling of some name and does not begin with a blank. -/
theorem normalize_eq_self_iff : normalize s = s ↔ Spelled s.toList ∧ ¬BeginsBlank s := by
  constructor
  · intro h
    refine ⟨h ▸ spelled_normalize s, fun ⟨c, hc, hblank⟩ => ?_⟩
    have hlt := (normalize_length_le s).trans_lt (trim_length_lt hc hblank)
    rw [h] at hlt
    exact lt_irrefl _ hlt
  · rintro ⟨hspelled, hblank⟩
    have hslashes : s.toList.map (fun c => if c == '\\' then '/' else c) = s.toList := by
      refine Lists.map_eq_self_iff.mpr fun c hc => if_neg fun h => ?_
      exact hspelled.slashes (beq_iff_eq.mp h ▸ hc)
    rw [normalize_eq, trim_eq_self (not_beginsBlank_iff.mp hblank) hspelled.last, hslashes, hspelled.here,
      String.ofList_toList]

/-- Spelling a name again changes nothing exactly when the first spelling does not begin with a blank. -/
theorem normalize_normalize_iff (s : String) : normalize (normalize s) = normalize s ↔ ¬BeginsBlank (normalize s) :=
  normalize_eq_self_iff.trans (and_iff_right (spelled_normalize s))

end ModuleName
end ModuleAudit
