import ModuleAudit.Extraction.File
import ModuleAudit.Proofs.Files.System
import ModuleAudit.Proofs.Graph.Cycles
import ModuleAudit.Proofs.Graph.Listing

/-! Cleaning a tree, told entry by entry: which modules a cleaned tree lists, in which order, and on what each of them
    depends. Whatever is seen in a cleaned tree, or said of it, is about names that are kept. -/

namespace ModuleAudit

namespace Tree

variable {t raw : Tree} {m k : String} {deps : List String} {excluded : String → Bool}

/-! ### Joining entries -/

theorem keys_extend (t : Tree) (m : String) (deps : List String) :
    (t.extend m deps).keys = if m ∈ t.keys then t.keys else t.keys ++ [m] :=
  ModuleMap.keys_insert t m _

theorem getD_extend (t : Tree) (m : String) (deps : List String) (k : String) :
    ((t.extend m deps).get? k).getD [] = (t.get? k).getD [] ++ if m == k then deps else [] := by
  rw [extend, ModuleMap.get?_insert]
  by_cases h : k = m
  · simp [h]
  · simp [h, Ne.symm h]

/-- Joined entries stand in the order of their first parts. -/
theorem keys_foldl_extend (es : List (String × List String)) :
    ∀ t : Tree, (es.foldl (fun t e => t.extend e.1 e.2) t).keys = (t.keys ++ es.map Prod.fst).eraseDups :=
  ModuleMap.keys_foldl (fun t e => keys_extend t e.1 e.2) es

theorem getD_foldl_extend (es : List (String × List String)) (k : String) : ∀ t : Tree,
    ((es.foldl (fun t e => t.extend e.1 e.2) t).get? k).getD [] =
      (t.get? k).getD [] ++ (es.filter (·.1 == k)).flatMap Prod.snd := by
  induction es with
  | nil => simp
  | cons e es ih =>
    intro t
    rw [List.foldl_cons, ih, getD_extend, List.filter_cons]
    split_ifs with h <;> simp

/-! ### What is kept -/

/-- A name is kept unless it is empty or excluded. -/
def keeps (excluded : String → Bool) (m : String) : Bool := m != "" && !excluded m

theorem keptNames_eq (excluded : String → Bool) (names : List String) :
    keptNames excluded names = (names.map ModuleName.normalize).filter (keeps excluded) := rfl

theorem keeps_of_mem_keptNames {names : List String} (h : m ∈ keptNames excluded names) : keeps excluded m = true :=
  (List.mem_filter.mp h).2

theorem exists_normalize_of_mem_keptNames {names : List String} (h : m ∈ keptNames excluded names) :
    ∃ s, ModuleName.normalize s = m := by
  obtain ⟨s, -, hs⟩ := List.mem_map.mp (List.mem_filter.mp h).1
  exact ⟨s, hs⟩

/-- What an entry of a tree adds to the cleaned one. -/
def kept? (excluded : String → Bool) (e : String × List String) : Option (String × List String) :=
  if keeps excluded (ModuleName.normalize e.1) then some (ModuleName.normalize e.1, keptNames excluded e.2) else none

/-- The entries of a tree that are kept, joined. -/
def merged (excluded : String → Bool) (raw : Tree) : Tree :=
  (raw.toList.filterMap (kept? excluded)).foldl (fun t e => t.extend e.1 e.2) ∅

theorem clean_eq (excluded : String → Bool) (raw : Tree) :
    raw.clean excluded = (merged excluded raw).mapValues fun _ deps => deps.eraseDups := by
  rw [clean, merged, List.foldl_filterMap]
  refine congrArg (ModuleMap.mapValues fun _ (deps : List String) => deps.eraseDups) ?_
  refine List.foldl_ext _ _ _ fun t e _ => ?_
  rw [keptNames, List.map_singleton, List.filter_singleton, ← keeps, kept?]
  cases keeps excluded (ModuleName.normalize e.1) <;> rfl

theorem clean_congr (h : raw.toList = t.toList) : raw.clean excluded = t.clean excluded := by
  rw [clean, clean, h]

theorem map_fst_kept (excluded : String → Bool) (es : List (String × List String)) :
    (es.filterMap (kept? excluded)).map Prod.fst = keptNames excluded (es.map Prod.fst) := by
  induction es with
  | nil => rfl
  | cons e es ih =>
    rw [keptNames_eq, List.map_cons, List.map_cons, List.filter_cons, List.filterMap_cons, ← keptNames_eq, ← ih,
      kept?]
    cases keeps excluded (ModuleName.normalize e.1) <;> rfl

/-- The dependencies of the entries for a module, one entry after the other. -/
def joined (excluded : String → Bool) (raw : Tree) (m : String) : List String :=
  (raw.toList.filter fun e => ModuleName.normalize e.1 == m).flatMap fun e => keptNames excluded e.2

theorem flatMap_kept (hk : keeps excluded k = true) (es : List (String × List String)) :
    ((es.filterMap (kept? excluded)).filter (·.1 == k)).flatMap Prod.snd =
      (es.filter fun e => ModuleName.normalize e.1 == k).flatMap fun e => keptNames excluded e.2 := by
  induction es with
  | nil => rfl
  | cons e es ih =>
    rw [List.filterMap_cons, List.filter_cons, kept?]
    by_cases hkey : ModuleName.normalize e.1 = k
    · rw [hkey, if_pos hk, if_pos (beq_self_eq_true k), List.flatMap_cons, ← ih]
      dsimp only
      rw [List.filter_cons_of_pos (by exact beq_self_eq_true k), List.flatMap_cons]
    · rw [if_neg (c := (ModuleName.normalize e.1 == k) = true) (by simpa using hkey), ← ih]
      split
      · rfl
      · rename_i heq
        split_ifs at heq
        obtain rfl := Option.some.inj heq
        rw [List.filter_cons_of_neg (by simpa using hkey)]

theorem keys_clean (excluded : String → Bool) (raw : Tree) :
    (raw.clean excluded).keys = (keptNames excluded raw.keys).eraseDups := by
  rw [clean_eq, ModuleMap.keys, ModuleMap.toList_mapValues, List.map_map]
  change (merged excluded raw).keys = _
  rw [merged, keys_foldl_extend, map_fst_kept]
  rfl

theorem mem_keptNames_of_mem_keys (h : m ∈ (raw.clean excluded).keys) : m ∈ keptNames excluded raw.keys := by
  rwa [keys_clean, List.mem_eraseDups] at h

theorem get?_clean (h : k ∈ (raw.clean excluded).keys) :
    (raw.clean excluded).get? k = some (joined excluded raw k).eraseDups := by
  have hk := keeps_of_mem_keptNames (mem_keptNames_of_mem_keys h)
  have hget : ((merged excluded raw).get? k).getD [] = joined excluded raw k := by
    rw [merged, getD_foldl_extend, flatMap_kept hk]
    rfl
  obtain ⟨deps, hdeps⟩ := ModuleMap.mem_keys_iff.mp h
  rw [clean_eq, ModuleMap.get?_mapValues] at hdeps ⊢
  obtain ⟨all, hall, -⟩ := Option.map_eq_some_iff.mp hdeps
  rw [← hget, hall, Option.map_some, Option.getD_some]

/-- The name is that of a listed module or of a dependency. -/
def Mentions (t : Tree) (m : String) : Prop := m ∈ t.keys ∨ ∃ d ∈ t.dependencies, d.2 = m

theorem exists_mem_keptNames (h : (raw.clean excluded).Mentions m) : ∃ names, m ∈ keptNames excluded names := by
  rcases h with h | ⟨d, hd, rfl⟩
  · exact ⟨_, mem_keptNames_of_mem_keys h⟩
  · obtain ⟨deps, hget, hmem⟩ := mem_dependencies.mp hd
    rw [get?_clean (fst_mem_keys hd), Option.some.injEq] at hget
    rw [← hget, List.mem_eraseDups, joined, List.mem_flatMap] at hmem
    obtain ⟨e, -, he⟩ := hmem
    exact ⟨_, he⟩

theorem keeps_of_mentions (h : (raw.clean excluded).Mentions m) : keeps excluded m = true := by
  obtain ⟨names, hm⟩ := exists_mem_keptNames h
  exact keeps_of_mem_keptNames hm

theorem nodup_of_mem_clean {e : String × List String} (h : e ∈ (raw.clean excluded).toList) : e.2.Nodup := by
  have hget := get?_clean (List.mem_map_of_mem h)
  rw [ModuleMap.get?_eq_some_iff.mpr h, Option.some.injEq] at hget
  rw [hget]
  exact Lists.nodup_eraseDups _

/-- The cleaned tree, told entry by entry. -/
structure Cleaned (excluded : String → Bool) (raw t : Tree) : Prop where
  /-- The names that are kept, in their spelling, each where it stands first. -/
  modules : t.keys = ((raw.keys.map ModuleName.normalize).filter (keeps excluded)).eraseDups
  /-- The dependencies of all entries for a module, one entry after the other, each where it stands first. -/
  dependencies : ∀ m ∈ t.keys, t.get? m = some ((raw.toList.filter fun e => ModuleName.normalize e.1 == m).flatMap
    fun e => (e.2.map ModuleName.normalize).filter (keeps excluded)).eraseDups

theorem cleaned (excluded : String → Bool) (raw : Tree) : Cleaned excluded raw (raw.clean excluded) :=
  ⟨keys_clean excluded raw, fun _ => get?_clean⟩

/-! ### What is seen in a tree -/

theorem mem_keys_of_mem_cycles {c : Cycle} (hc : c ∈ t.graph.cycles) (hm : m ∈ c) : m ∈ t.keys := by
  have hloop := t.graph.components_splitsInto.represents.entwined c hc m hm
  rw [← Graph.modules_listing t fun _ => none]
  exact (Graph.entwined_iff.mp hloop).mem_modules

theorem orphans_subset (t : Tree) : t.orphans ⊆ t.keys := List.filter_sublist.subset

theorem leaves_subset (t : Tree) : t.leaves ⊆ t.keys := List.map_subset _ List.filter_sublist.subset

theorem firstUnlisted_subset (t : Tree) : t.firstUnlisted ⊆ t.dependencies :=
  ((Lists.eraseDupsBy_sublist _ _).trans List.filter_sublist).subset

end Tree

/-- Only kept names occur in what was extracted, and no dependency twice. -/
structure Extracted.Tidy (excluded : String → Bool) (x : Extracted) : Prop where
  modules : ∀ m ∈ x.tree.keys, Tree.keeps excluded m = true
  dependencies : ∀ d ∈ x.tree.dependencies, Tree.keeps excluded d.2 = true
  nodup : ∀ e ∈ x.tree.toList, e.2.Nodup
  cycles : ∀ c ∈ x.cycles, ∀ m ∈ c, Tree.keeps excluded m = true
  orphans : ∀ m ∈ x.orphans, Tree.keeps excluded m = true
  leaves : ∀ m ∈ x.leaves, Tree.keeps excluded m = true
  /-- The remarks on modules that were skipped name kept modules and kept dependencies of them. -/
  skipped : ∃ ds : List Dependency, (∀ d ∈ ds, Tree.keeps excluded d.1 = true ∧ Tree.keeps excluded d.2 = true) ∧
    x.tree.skippedWarnings = ds.map fun d => "Skipped " ++ d.2 ++ " (imported by " ++ d.1 ++ ", not in analyzed set)"

namespace Extraction

variable {x : Extraction} {fs : FileSystem} {e : Extracted} {excluded : String → Bool}

/-- What is extracted from a tree as it was written down. -/
def ofRaw (x : Extraction) (fs : FileSystem) (raw : Tree) : Extracted :=
  let tree := raw.clean x.isExcluded
  { Extracted.ofTree tree with
    diagram := (x.readDiagram fs).1
    warnings := tree.skippedWarnings ++ (x.readDiagram fs).2 }

/-- A tree comes from a document that can be read. -/
theorem readTree_eq_ok_iff {t : Tree} : x.readTree fs = .ok t ↔
    ∃ bytes raw, fs.read x.treePath = .ok bytes ∧ Tree.ofJson bytes = .ok raw ∧ t = raw.clean x.isExcluded := by
  rw [readTree]
  constructor
  · intro h
    split at h
    · cases h
    · rename_i bytes hread
      split at h
      · cases h
      · rename_i raw hraw
        exact ⟨bytes, raw, hread, hraw, (Except.ok.inj h).symm⟩
  · rintro ⟨bytes, raw, hread, hraw, rfl⟩
    rw [hread]
    dsimp only
    rw [hraw]

theorem extract_eq_ok_iff : x.extract fs = .ok e ↔
    ∃ bytes raw, fs.read x.treePath = .ok bytes ∧ Tree.ofJson bytes = .ok raw ∧ e = x.ofRaw fs raw := by
  constructor
  · intro h
    cases htree : x.readTree fs with
    | error f =>
      rw [extract, htree] at h
      cases h
    | ok t =>
      obtain ⟨bytes, raw, hread, hraw, rfl⟩ := readTree_eq_ok_iff.mp htree
      rw [extract, htree] at h
      exact ⟨bytes, raw, hread, hraw, (Except.ok.inj h).symm⟩
  · rintro ⟨bytes, raw, hread, hraw, rfl⟩
    rw [extract, readTree_eq_ok_iff.mpr ⟨bytes, raw, hread, hraw, rfl⟩]
    rfl

theorem tidy_ofRaw (x : Extraction) (fs : FileSystem) (raw : Tree) : (x.ofRaw fs raw).Tidy x.isExcluded where
  modules _ hm := Tree.keeps_of_mentions (Or.inl hm)
  dependencies d hd := Tree.keeps_of_mentions (Or.inr ⟨d, hd, rfl⟩)
  nodup _ := Tree.nodup_of_mem_clean
  cycles _ hc _ hm := Tree.keeps_of_mentions (Or.inl (Tree.mem_keys_of_mem_cycles hc hm))
  orphans _ hm := Tree.keeps_of_mentions (Or.inl (Tree.orphans_subset _ hm))
  leaves _ hm := Tree.keeps_of_mentions (Or.inl (Tree.leaves_subset _ hm))
  skipped := by
    refine ⟨(raw.clean x.isExcluded).firstUnlisted, fun d hd => ?_, rfl⟩
    have hdep := Tree.firstUnlisted_subset _ hd
    exact ⟨Tree.keeps_of_mentions (Or.inl (Tree.fst_mem_keys hdep)), Tree.keeps_of_mentions (Or.inr ⟨d, hdep, rfl⟩)⟩

/-- Cleaning a tree keeps the names that are neither empty nor excluded in their spelling, joins the entries that get
    one name and keeps the first of each dependency. Nothing else is left of a document in what is extracted from it. -/
theorem extract_cleaned (x : Extraction) (fs : FileSystem) :
    (∀ excluded raw, Tree.Cleaned excluded raw (raw.clean excluded)) ∧
      ∀ e, x.extract fs = .ok e → e.Tidy x.isExcluded ∧ e.warnings = e.tree.skippedWarnings ++ (x.readDiagram fs).2 ∧
        ∃ bytes raw, fs.read x.treePath = .ok bytes ∧ Tree.ofJson bytes = .ok raw ∧
          Tree.Cleaned x.isExcluded raw e.tree := by
  refine ⟨Tree.cleaned, fun e h => ?_⟩
  obtain ⟨bytes, raw, hread, hraw, rfl⟩ := extract_eq_ok_iff.mp h
  exact ⟨tidy_ofRaw x fs raw, rfl, bytes, raw, hread, hraw, Tree.cleaned x.isExcluded raw⟩

/-! ### An extraction -/

/-- A directory that holds nothing but a document. -/
def single (bytes : List UInt8) : FileSystem := ⟨[(["deps.json"], .file bytes)], []⟩

theorem read_single (bytes : List UInt8) : (single bytes).read "deps.json" = .ok bytes := by
  have hcheck : FileSystem.checkPath "deps.json" = .ok () :=
    FileSystem.checkPath_eq_ok (by decide +kernel) (by decide +kernel) (by decide +kernel)
  have horigin : (single bytes).origin "deps.json" = [] := ite_self _
  have hsteps : FileSystem.steps "deps.json" = ["deps.json"] := by decide +kernel
  exact FileSystem.read_of_walk hcheck horigin hsteps rfl rfl

theorem exists_ofJson {bytes : List UInt8} {l : List (String × List String)}
    (h : (Tree.ofJson bytes).toOption.map ModuleMap.toList = some l) :
    ∃ t, Tree.ofJson bytes = .ok t ∧ t.toList = l := by
  cases hread : Tree.ofJson bytes with
  | error f =>
    rw [hread] at h
    cases h
  | ok t =>
    rw [hread] at h
    exact ⟨t, rfl, Option.some.inj h⟩

/-- A document in which two entries become one, and one is excluded. -/
def scatteredText : String :=
  "\x7b\"./a\": [\"b\", \"x.test\", \"y\"], \"x.test\": [\"a\"], \"b\": [], \"a\": [\" y\", \".\\\\b\", \"\"]\x7d"

def scatteredFiles : FileSystem := single scatteredText.toUTF8.toList

def scattered : Extraction := { treePath := "deps.json", exclude := [⟨[.anyRun, .literal '.', .literal 't', .anyRun]⟩] }

theorem clean_scattered : ∃ raw, Tree.ofJson scatteredText.toUTF8.toList = .ok raw ∧
    (raw.clean scattered.isExcluded).toList = [("a", ["b", "y"]), ("b", [])] := by
  have hread : (Tree.ofJson scatteredText.toUTF8.toList).toOption.map ModuleMap.toList =
      some [("./a", ["b", "x.test", "y"]), ("x.test", ["a"]), ("b", []), ("a", [" y", ".\\b", ""])] := by
    decide +kernel
  obtain ⟨raw, hraw, hlist⟩ := exists_ofJson hread
  have hclean : raw.clean scattered.isExcluded = Tree.clean scattered.isExcluded
      (.ofList [("./a", ["b", "x.test", "y"]), ("x.test", ["a"]), ("b", []), ("a", [" y", ".\\b", ""])]) :=
    Tree.clean_congr (hlist.trans (by decide +kernel))
  refine ⟨raw, hraw, ?_⟩
  rw [hclean]
  decide +kernel

theorem scattered_cleaned : ∃ e, scattered.extract scatteredFiles = .ok e ∧ e.Tidy scattered.isExcluded ∧
    e.tree.toList = [("a", ["b", "y"]), ("b", [])] := by
  obtain ⟨raw, hraw, hclean⟩ := clean_scattered
  have hread : scatteredFiles.read scattered.treePath = .ok scatteredText.toUTF8.toList := read_single _
  have hextract := extract_eq_ok_iff.mpr ⟨_, raw, hread, hraw, rfl⟩
  exact ⟨_, hextract, ((extract_cleaned scattered scatteredFiles).2 _ hextract).1, hclean⟩

end Extraction
end ModuleAudit
