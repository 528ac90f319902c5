import ModuleAudit.Proofs.Extraction.Clean
import ModuleAudit.Proofs.Extraction.Name

/-! Cleaning a tree that was cleaned before. A second cleaning leaves the tree as it is exactly when no name in it
    begins with a blank. Such names do come out of a first cleaning, so that two spellings of one path can stand side by
    side in a cleaned tree. -/

namespace ModuleAudit

open ModuleName

namespace Tree

variable {t raw : Tree} {m : String} {names : List String} {excluded : String → Bool}

theorem mem_dependencies_of_mem {e : String × List String} (he : e ∈ t.toList) (hm : m ∈ e.2) :
    (e.1, m) ∈ t.dependencies :=
  mem_dependencies.mpr ⟨e.2, ModuleMap.get?_eq_some_iff.mpr he, hm⟩

/-- Names that are kept already come through another time as they are when each of them is in its spelling. -/
theorem eraseDups_keptNames_eq_iff (hnodup : names.Nodup) (hkeeps : ∀ m ∈ names, keeps excluded m = true) :
    (keptNames excluded names).eraseDups = names ↔ ∀ m ∈ names, ModuleName.normalize m = m := by
  constructor
  · intro h
    have hsub : ((keptNames excluded names).eraseDups).Sublist (names.map ModuleName.normalize) :=
      (Lists.eraseDups_sublist _).trans List.filter_sublist
    have hlength : ((keptNames excluded names).eraseDups).length = (names.map ModuleName.normalize).length := by
      rw [h, List.length_map]
    have hmap : names.map ModuleName.normalize = names := (hsub.eq_of_length hlength).symm.trans h
    exact Lists.map_eq_self_iff.mp hmap
  · intro h
    rw [keptNames_eq, Lists.map_eq_self_iff.mpr h, List.filter_eq_self.mpr hkeeps, Lists.eraseDups_of_nodup hnodup]

/-- When every module is in its spelling, the entries for a module are its own. -/
theorem joined_eq {e : String × List String} (he : e ∈ t.toList) (h : ∀ m ∈ t.keys, ModuleName.normalize m = m) :
    joined excluded t e.1 = keptNames excluded e.2 := by
  have hkey : t.toList.filter (fun e' => ModuleName.normalize e'.1 == e.1) = t.toList.filter (·.1 == e.1) :=
    List.filter_congr fun e' he' => by rw [h e'.1 (List.mem_map_of_mem he')]
  rw [joined, hkey, Lists.filter_fst_eq t.keys_nodup he, List.flatMap_singleton]

theorem get?_clean_clean {e : String × List String} (he : e ∈ t.toList) (h : ∀ m ∈ t.keys, ModuleName.normalize m = m)
    (hkeys : (t.clean excluded).keys = t.keys) :
    (t.clean excluded).get? e.1 = some (keptNames excluded e.2).eraseDups := by
  rw [get?_clean (hkeys ▸ List.mem_map_of_mem he), joined_eq he h]

/-- A second cleaning changes nothing exactly when every name is in its spelling. -/
theorem clean_clean_eq_iff (excluded : String → Bool) (raw : Tree) :
    ((raw.clean excluded).clean excluded).toList = (raw.clean excluded).toList ↔
      ∀ m, (raw.clean excluded).Mentions m → ModuleName.normalize m = m := by
  set t := raw.clean excluded with ht
  have hkeys : (t.clean excluded).keys = t.keys ↔ ∀ m ∈ t.keys, ModuleName.normalize m = m := by
    rw [keys_clean]
    exact eraseDups_keptNames_eq_iff t.keys_nodup fun m hm => keeps_of_mentions (Or.inl (ht ▸ hm))
  have hdeps : ∀ e ∈ t.toList, (keptNames excluded e.2).eraseDups = e.2 ↔
      ∀ m ∈ e.2, ModuleName.normalize m = m := fun e he =>
    eraseDups_keptNames_eq_iff (nodup_of_mem_clean (ht ▸ he)) fun m hm =>
      keeps_of_mentions (Or.inr ⟨_, ht ▸ mem_dependencies_of_mem he hm, rfl⟩)
  constructor
  · intro h
    have hsame : (t.clean excluded).keys = t.keys := by rw [ModuleMap.keys, h, ModuleMap.keys]
    have hfixed := hkeys.mp hsame
    rintro m (hm | ⟨d, hd, rfl⟩)
    · exact hfixed m hm
    · obtain ⟨deps, hget, hmem⟩ := mem_dependencies.mp hd
      have he := ModuleMap.get?_eq_some_iff.mp hget
      have hagain := get?_clean_clean he hfixed hsame
      rw [ModuleMap.get?_eq_some_iff.mpr (h ▸ he), Option.some.injEq] at hagain
      exact (hdeps _ he).mp hagain.symm _ hmem
  · intro h
    have hfixed : ∀ m ∈ t.keys, ModuleName.normalize m = m := fun m hm => h m (Or.inl hm)
    have hsame := hkeys.mpr hfixed
    rw [ModuleMap.toList_eq_map_keys _ [], hsame, ModuleMap.toList_eq_map_keys t []]
    refine List.map_congr_left fun m hm => ?_
    obtain ⟨e, he, rfl⟩ := List.mem_map.mp hm
    have hdep := (hdeps e he).mpr fun m hm => h m (Or.inr ⟨_, mem_dependencies_of_mem he hm, rfl⟩)
    rw [get?_clean_clean he hfixed hsame, hdep, ModuleMap.get?_eq_some_iff.mpr he]

/-- A second cleaning changes nothing exactly when no name begins with a blank: in everything else the names are in
    their spelling. -/
theorem clean_clean_iff (excluded : String → Bool) (raw : Tree) :
    ((raw.clean excluded).clean excluded).toList = (raw.clean excluded).toList ↔
      ∀ m, (raw.clean excluded).Mentions m → ¬BeginsBlank m := by
  refine (clean_clean_eq_iff excluded raw).trans (forall₂_congr fun m hm => ?_)
  obtain ⟨names, hkept⟩ := exists_mem_keptNames hm
  obtain ⟨s, rfl⟩ := exists_normalize_of_mem_keptNames hkept
  exact normalize_normalize_iff s

end Tree

/-- Bringing a name to its spelling a second time changes nothing exactly when the first spelling does not begin with a
    blank. A cleaned tree that is written down and extracted again comes out the same exactly when no name in it begins
    with a blank, whichever names are excluded. -/
theorem cleaned_again (excluded : String → Bool) (raw : Tree) :
    (∀ s, ModuleName.normalize (ModuleName.normalize s) = ModuleName.normalize s ↔
      ¬BeginsBlank (ModuleName.normalize s)) ∧
    (((raw.clean excluded).clean excluded).toList = (raw.clean excluded).toList ↔
      ∀ m, (raw.clean excluded).Mentions m → ¬BeginsBlank m) ∧
    ∀ (x : Extraction) (fs written : FileSystem) (t doc : Tree) (bytes : List UInt8), x.readTree fs = .ok t →
      written.read x.treePath = .ok bytes → Tree.ofJson bytes = .ok doc → doc.toList = t.toList →
      ∃ t', x.readTree written = .ok t' ∧ (t'.toList = t.toList ↔ ∀ m, t.Mentions m → ¬BeginsBlank m) := by
  refine ⟨normalize_normalize_iff, Tree.clean_clean_iff excluded raw, ?_⟩
  intro x fs written t doc bytes htree hread hdoc hsame
  obtain ⟨_, raw, -, -, rfl⟩ := Extraction.readTree_eq_ok_iff.mp htree
  refine ⟨_, Extraction.readTree_eq_ok_iff.mpr ⟨bytes, doc, hread, hdoc, rfl⟩, ?_⟩
  rw [Tree.clean_congr hsame]
  exact Tree.clean_clean_iff x.isExcluded raw

/-! ### A tree that comes out again, and one that does not -/

namespace Extraction

/-- What is left of the document `scatteredText`. -/
def tidiedText : String := "\x7b\"a\": [\"b\", \"y\"], \"b\": []\x7d"

theorem scattered_again : ∃ t t', scattered.readTree scatteredFiles = .ok t ∧
    scattered.readTree (single tidiedText.toUTF8.toList) = .ok t' ∧
    t.toList = [("a", ["b", "y"]), ("b", [])] ∧ t'.toList = t.toList := by
  obtain ⟨raw, hraw, hclean⟩ := clean_scattered
  have hread : scatteredFiles.read scattered.treePath = .ok scatteredText.toUTF8.toList := read_single _
  have htree := readTree_eq_ok_iff.mpr ⟨_, raw, hread, hraw, rfl⟩
  have htidied : (Tree.ofJson tidiedText.toUTF8.toList).toOption.map ModuleMap.toList =
      some [("a", ["b", "y"]), ("b", [])] := by
    decide +kernel
  obtain ⟨doc, hdoc, hlist⟩ := exists_ofJson htidied
  obtain ⟨t', ht', hsame⟩ := (cleaned_again scattered.isExcluded raw).2.2 scattered scatteredFiles
    (single tidiedText.toUTF8.toList) _ doc _ htree (read_single _) hdoc (hlist.trans hclean.symm)
  refine ⟨_, t', htree, ht', hclean, hsame.mpr fun m hm => ?_⟩
  rw [Tree.Mentions, ModuleMap.keys, Tree.dependencies, hclean] at hm
  have hnames : (m = "a" ∨ m = "b") ∨ "b" = m ∨ "y" = m := by simpa using hm
  rcases hnames with (rfl | rfl) | rfl | rfl <;> decide +kernel

end Extraction

/-- Two spellings of the path `a`, the second of which is what the first one is brought to. -/
def twoSpellings : Tree := .ofList [("./ a", []), (" a", [])]

/-- Bringing a name to its spelling is not done with once, and two spellings of one path stay two modules. -/
theorem twoSpellings_survive :
    ModuleName.normalize (ModuleName.normalize "./ a") ≠ ModuleName.normalize "./ a" ∧
    (twoSpellings.clean fun _ => false).keys = [" a", "a"] ∧
    ((twoSpellings.clean fun _ => false).clean fun _ => false).keys = ["a"] := by
  decide +kernel

end ModuleAudit
