import ModuleAudit.Proofs.Audit.Course
import ModuleAudit.Proofs.Extraction.Clean

/-! What is remarked of an extraction and what an audit of it tells are about the same modules. The extraction names each
    unlisted module once, with the first module that imports it; the audit tells of every dependency on one. -/

namespace ModuleAudit

namespace Tree

variable {t : Tree} {d : Dependency}

/-- The dependencies on unlisted modules are those that a graph of the tree drops. -/
theorem firstUnlisted_eq (t : Tree) : t.firstUnlisted =
    (t.dependencies.filter fun d => !t.keys.contains d.2).eraseDupsBy fun a b => a.2 == b.2 := by
  have hlisted (m : String) : t.contains m = t.keys.contains m := by
    rw [Bool.eq_iff_iff, ModuleMap.contains_iff, List.contains_iff_mem]
  simp only [firstUnlisted, hlisted]

theorem mem_targets_firstUnlisted (hd : d ∈ t.dependencies) : d.2 ∈ t.firstUnlisted.map Prod.snd ↔ d.2 ∉ t.keys := by
  rw [firstUnlisted_eq, Lists.map_eraseDupsBy, List.mem_eraseDups, List.mem_map]
  constructor
  · rintro ⟨e, he, heq⟩
    simpa [heq] using (List.mem_filter.mp he).2
  · intro hout
    exact ⟨d, List.mem_filter.mpr ⟨hd, by simpa using hout⟩, rfl⟩

end Tree

namespace Extraction

variable {x : Extraction} {fs : FileSystem}

/-- At most one remark is made on the diagram. -/
theorem readDiagram_remarks (x : Extraction) (fs : FileSystem) : (x.readDiagram fs).2 = [] ∨
    ∃ path reason, (x.readDiagram fs).2 = ["Could not read diagram " ++ path ++ ": " ++ reason] := by
  rw [readDiagram]
  split
  · exact .inl rfl
  · split
    · exact .inl rfl
    · exact .inr ⟨_, _, rfl⟩

theorem warnings_of_extract {e : Extracted} (h : x.extract fs = .ok e) :
    e.warnings = e.tree.skippedWarnings ++ (x.readDiagram fs).2 := by
  obtain ⟨_, raw, -, -, rfl⟩ := extract_eq_ok_iff.mp h
  rfl

end Extraction

namespace Audit

variable {s : Settings} {source : LayoutSource} {extraction : Attempt Extracted} {x : Extracted} {o : Outcome}
variable {firsts : List Dependency}

/-- The dependencies that a run tells to be dropped, each as often as it occurs. -/
def told (o : Outcome) : List Dependency := o.events.filterMap dependency?

/-- The remarks of an extraction and the events of a run accord: `firsts` holds, for each module that a dropped dependency
    leads to, the first such dependency; the extraction remarks on these, and besides on the diagram at most. Nothing
    that is remarked on stands in the graph, and of the listed dependencies the others are its edges. -/
structure Accords (x : Extracted) (o : Outcome) (firsts : List Dependency) : Prop where
  targets : firsts.map Prod.snd = ((told o).map Prod.snd).eraseDups
  first : ∀ d ∈ firsts, (told o).find? (·.2 == d.2) = some d
  warnings : ∃ remarks, (remarks = [] ∨ ∃ path reason, remarks = ["Could not read diagram " ++ path ++ ": " ++ reason]) ∧
    x.warnings = firsts.map (fun d => "Skipped " ++ d.2 ++ " (imported by " ++ d.1 ++ ", not in analyzed set)") ++ remarks
  report : ∀ r, o.report = some r → r.tree = x.tree ∧ r.warnings = x.warnings
  unlisted : ∀ r, o.report = some r → ∀ d ∈ firsts, d.2 ∉ r.graph.modules
  listed : ∀ r, o.report = some r → ∀ d ∈ r.tree.dependencies, r.graph.Edge d.1 d.2 ↔ d.2 ∉ firsts.map Prod.snd

theorem Course.told_eq (h : Course s source (.ok x) o) (hmem : .stageEntered .graphBuilt ∈ o.events) :
    told o = x.tree.dependencies.filter fun d => !x.tree.keys.contains d.2 := by
  obtain ⟨x', hx, htold⟩ := h.dropped hmem
  rw [told, htold, ← Attempt.ok.inj hx]

/-- A run that comes to the metrics accords with the remarks of the extraction from files that it audits. -/
theorem run_accords {files : Extraction} {fs : FileSystem}
    (h : .stageEntered .graphBuilt ∈ (run s source (.ofExcept (files.extract fs))).events) :
    ∃ x firsts, files.extract fs = .ok x ∧ Accords x (run s source (.ofExcept (files.extract fs))) firsts := by
  have hcourse := run_course s source (.ofExcept (files.extract fs))
  obtain ⟨x, hx, -⟩ := hcourse.dropped h
  have hextract : files.extract fs = .ok x := by
    cases he : files.extract fs with
    | error e => simp [he, Attempt.ofExcept] at hx
    | ok e => simpa [he, Attempt.ofExcept] using hx
  rw [hextract, Attempt.ofExcept] at h hcourse ⊢
  have htold := hcourse.told_eq h
  refine ⟨x, x.tree.firstUnlisted, rfl, ?_, fun d hd => ?_, ?_, fun r hr => ?_, fun r hr d hd => ?_, fun r hr d hd => ?_⟩
  · rw [htold, Tree.firstUnlisted_eq, Lists.map_eraseDupsBy]
  · rw [Tree.firstUnlisted_eq] at hd
    rw [htold]
    exact Lists.find?_of_mem_eraseDupsBy hd
  · exact ⟨_, files.readDiagram_remarks fs, Extraction.warnings_of_extract hextract⟩
  all_goals
    obtain ⟨x', position, hx', rfl⟩ := exists_of_report hr
    obtain rfl := Attempt.ok.inj hx'
  · exact ⟨rfl, rfl⟩
  · rw [assemble, Graph.modules_listing]
    exact (Tree.mem_targets_firstUnlisted (Tree.firstUnlisted_subset _ hd)).mp (List.mem_map_of_mem hd)
  · have hlisted := not_congr (Tree.mem_targets_firstUnlisted (t := x.tree) hd)
    rw [not_not] at hlisted
    exact (Graph.mem_edges_listing.trans (and_iff_right hd)).trans hlisted.symm

/-- A run comes to the metrics when there is a tree and no layout is required. -/
theorem Course.built (h : Course s source (.ok x) o) (listed : x.tree.isEmpty = false)
    (hrequired : s.layoutRequired = false) (hsource : ∀ d, x.diagram = some d → ∃ layout, source d = .ok layout) :
    .stageEntered .graphBuilt ∈ o.events := by
  obtain ⟨p, hp⟩ := exists_positions hrequired hsource
  cases h with
  | unextracted extracted => cases extracted
  | bare empty => simp [empty] at listed
  | unplaced _ placed => simp [hp, Attempt.settle] at placed
  | unmeasured => simp
  | completed => simp

/-- A document in which both modules import what is not listed, and one of them is given in two spellings. -/
def importingText : String :=
  "\x7b\"./a\": [\"x\", \"b\"], \"b\": [\"y\", \"x\", \"z.test\"], \"a\": [\"y\"]\x7d"

def importing : Extraction := { treePath := "deps.json", exclude := [⟨[.anyRun, .literal '.', .literal 't', .anyRun]⟩] }

def importingFiles : FileSystem := Extraction.single importingText.toUTF8.toList

theorem exists_importing : ∃ x, importing.extract importingFiles = .ok x ∧
    x.tree.toList = [("a", ["x", "b", "y"]), ("b", ["y", "x"])] := by
  have hread : (Tree.ofJson importingText.toUTF8.toList).toOption.map ModuleMap.toList =
      some [("./a", ["x", "b"]), ("b", ["y", "x", "z.test"]), ("a", ["y"])] := by
    decide +kernel
  obtain ⟨raw, hraw, hlist⟩ := Extraction.exists_ofJson hread
  have hclean : raw.clean importing.isExcluded = Tree.clean importing.isExcluded
      (.ofList [("./a", ["x", "b"]), ("b", ["y", "x", "z.test"]), ("a", ["y"])]) :=
    Tree.clean_congr (hlist.trans (by decide +kernel))
  refine ⟨_, Extraction.extract_eq_ok_iff.mpr ⟨_, raw, Extraction.read_single _, hraw, rfl⟩, ?_⟩
  rw [Extraction.ofRaw, hclean]
  decide +kernel

theorem importing_accords : ∃ x firsts,
    .stageEntered .graphBuilt ∈ (run {} (fun _ => .ok none) (.ofExcept (importing.extract importingFiles))).events ∧
    importing.extract importingFiles = .ok x ∧
    Accords x (run {} (fun _ => .ok none) (.ofExcept (importing.extract importingFiles))) firsts ∧
    firsts.map Prod.snd = ["x", "y"] := by
  obtain ⟨x, hx, hlist⟩ := exists_importing
  have hcourse : Course {} (fun _ => .ok none) (.ok x)
      (run {} (fun _ => .ok none) (.ofExcept (importing.extract importingFiles))) := hx ▸ run_course _ _ _
  have hlisted : x.tree.isEmpty = false := by simp [ModuleMap.isEmpty_eq_false_iff, ModuleMap.keys, hlist]
  have hbuilt := hcourse.built hlisted rfl fun _ _ => ⟨none, rfl⟩
  obtain ⟨x', firsts, hx', haccords⟩ := run_accords hbuilt
  obtain rfl := Except.ok.inj (hx.symm.trans hx')
  refine ⟨x, firsts, hbuilt, hx, haccords, ?_⟩
  rw [haccords.targets, hcourse.told_eq hbuilt, Tree.dependencies, ModuleMap.keys, hlist]
  decide +kernel

end Audit
end ModuleAudit
