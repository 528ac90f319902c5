import Mathlib.Data.List.Chain
import ModuleAudit.Proofs.Files.System
import ModuleAudit.Settings.Search

/-! The search for settings. Of the files that are there, the nearest one decides as long as it can be used. One that
    cannot be used does not end the search: it is passed over like one that is not there, so that a file further up
    takes its place. -/

namespace ModuleAudit

/-! ### Directories -/

namespace Files

theorem chain_succ (limit : Nat) (path : List Char) :
    chain (limit + 1) path = path :: ((parent? path).map (chain limit)).getD [] := rfl

theorem length_chain_le : ∀ (limit : Nat) (path : List Char), (chain limit path).length ≤ limit
  | 0, _ => le_rfl
  | limit + 1, path => by
    rw [chain_succ, List.length_cons]
    refine Nat.succ_le_succ ?_
    cases parent? path with
    | none => exact Nat.zero_le limit
    | some directory => exact length_chain_le limit directory

theorem head?_chain {limit : Nat} {path directory : List Char} (h : (chain limit path).head? = some directory) :
    directory = path := by
  cases limit with
  | zero => cases h
  | succ limit => exact (Option.some.inj h).symm

/-- Each directory is followed by its parent. -/
theorem isChain_chain : ∀ (limit : Nat) (path : List Char), (chain limit path).IsChain fun d d' => parent? d = some d'
  | 0, _ => .nil
  | limit + 1, path => by
    rw [chain_succ]
    cases hparent : parent? path with
    | none => exact .singleton path
    | some directory =>
      refine List.isChain_cons.mpr ⟨fun d hd => ?_, isChain_chain limit directory⟩
      rw [head?_chain hd]
      exact hparent

end Files

namespace Settings

variable {fs : FileSystem} {path : String} {paths above : List String} {directory : String} {s : Settings} {e : Error}

/-- The files that may be asked for the settings of a directory, the nearest one first. -/
def candidates (directory : String) : List String :=
  (Files.ancestors maxDirectories directory).map fun d => Files.join d fileName

theorem search_eq (fs : FileSystem) (directory : String) :
    search fs directory = ((candidates directory).findSome? (ofFile? fs)).getD {} := rfl

/-! ### The nearest file -/

/-- There is a text at a path. -/
def hasText (fs : FileSystem) (path : String) : Bool := (fs.readText path).isOk

theorem ofFile?_of_not_hasText (h : hasText fs path = false) : ofFile? fs path = none := by
  rw [ofFile?, ofFile]
  rw [hasText] at h
  cases htext : fs.readText path with
  | error f => rfl
  | ok text =>
    rw [htext] at h
    cases h

/-- Of some paths, the first one with a text, and the paths after it. -/
structure Nearest (fs : FileSystem) (paths : List String) (path : String) (above : List String) : Prop where
  text : hasText fs path = true
  split : ∃ before, paths = before ++ path :: above ∧ ∀ p ∈ before, hasText fs p = false

theorem nearest_cases (fs : FileSystem) (paths : List String) :
    (∀ path ∈ paths, hasText fs path = false) ∨ ∃ path above, Nearest fs paths path above := by
  induction paths with
  | nil => exact Or.inl (by simp)
  | cons p paths ih =>
    cases htext : hasText fs p with
    | true => exact Or.inr ⟨p, paths, htext, [], rfl, by simp⟩
    | false =>
      rcases ih with hnone | ⟨path, above, hpath, before, rfl, hbefore⟩
      · exact Or.inl (List.forall_mem_cons.mpr ⟨htext, hnone⟩)
      · exact Or.inr ⟨path, above, hpath, p :: before, rfl, List.forall_mem_cons.mpr ⟨htext, hbefore⟩⟩

/-- The search starts at the nearest file. -/
theorem Nearest.findSome? (h : Nearest fs paths path above) :
    paths.findSome? (ofFile? fs) = (ofFile? fs path).or (above.findSome? (ofFile? fs)) := by
  obtain ⟨-, before, rfl, hbefore⟩ := h
  have hnone : before.findSome? (ofFile? fs) = none :=
    List.findSome?_eq_none_iff.mpr fun p hp => ofFile?_of_not_hasText (hbefore p hp)
  rw [List.findSome?_append, hnone, Option.none_or, List.findSome?_cons]
  cases ofFile? fs path <;> rfl

theorem Nearest.find? (h : Nearest fs paths path above) : paths.find? (hasText fs) = some path := by
  obtain ⟨htext, before, rfl, hbefore⟩ := h
  have hnone : before.find? (hasText fs) = none := List.find?_eq_none.mpr fun p hp => by simp [hbefore p hp]
  rw [List.find?_append, hnone, Option.none_or, List.find?_cons_of_pos htext]

/-- The settings in the nearest file, and nothing else: the defaults when it cannot be used. -/
def ofNearest (fs : FileSystem) (directory : String) : Settings :=
  (((candidates directory).find? (hasText fs)).bind (ofFile? fs)).getD {}

theorem ofFile?_of_ok (h : ofFile fs path = .ok s) : ofFile? fs path = some s := by
  rw [ofFile?, h]
  rfl

theorem ofFile?_of_error (h : ofFile fs path = .error e) : ofFile? fs path = none := by
  rw [ofFile?, h]
  rfl

theorem Nearest.ofNearest_eq (h : Nearest fs (candidates directory) path above) :
    ofNearest fs directory = (ofFile? fs path).getD {} := by
  rw [ofNearest, h.find?]
  rfl

theorem ofNearest_of_forall (h : ∀ path ∈ candidates directory, hasText fs path = false) :
    ofNearest fs directory = {} := by
  have hnone : (candidates directory).find? (hasText fs) = none := List.find?_eq_none.mpr fun p hp => by simp [h p hp]
  rw [ofNearest, hnone]
  rfl

/-! ### The search -/

theorem search_of_forall (h : ∀ path ∈ candidates directory, hasText fs path = false) : search fs directory = {} := by
  have hnone : (candidates directory).findSome? (ofFile? fs) = none :=
    List.findSome?_eq_none_iff.mpr fun p hp => ofFile?_of_not_hasText (h p hp)
  rw [search_eq, hnone]
  rfl

theorem Nearest.search_of_ok (h : Nearest fs (candidates directory) path above) (hfile : ofFile fs path = .ok s) :
    search fs directory = s := by
  rw [search_eq, h.findSome?, ofFile?_of_ok hfile]
  rfl

theorem Nearest.search_of_error (h : Nearest fs (candidates directory) path above)
    (hfile : ofFile fs path = .error e) : search fs directory = (above.findSome? (ofFile? fs)).getD {} := by
  rw [search_eq, h.findSome?, ofFile?_of_error hfile, Option.none_or]

theorem search_eq_ofNearest_iff (fs : FileSystem) (directory : String) :
    search fs directory = ofNearest fs directory ↔ ∀ path above, Nearest fs (candidates directory) path above →
      ∀ e, ofFile fs path = .error e → (above.findSome? (ofFile? fs)).getD {} = ({} : Settings) := by
  constructor
  · intro heq path above h e hfile
    rw [← h.search_of_error hfile, heq, h.ofNearest_eq, ofFile?_of_error hfile]
    rfl
  · intro halone
    rcases nearest_cases fs (candidates directory) with hnone | ⟨path, above, h⟩
    · rw [search_of_forall hnone, ofNearest_of_forall hnone]
    · cases hfile : ofFile fs path with
      | ok s =>
        rw [h.search_of_ok hfile, h.ofNearest_eq, ofFile?_of_ok hfile]
        rfl
      | error e =>
        rw [h.search_of_error hfile, halone path above h e hfile, h.ofNearest_eq, ofFile?_of_error hfile]
        rfl

/-- The settings that are found for a directory. -/
structure Searched (fs : FileSystem) (directory : String) (s : Settings) : Prop where
  /-- The search goes up from the directory, through at most ten directories. -/
  few : (Files.ancestors maxDirectories directory).length ≤ 10
  first : (Files.ancestors maxDirectories directory).head? = some directory
  upward : (Files.ancestors maxDirectories directory).IsChain fun d d' => Files.parent? d.toList = some d'.toList
  nothing : (∀ path ∈ candidates directory, hasText fs path = false) → s = {}
  usable : ∀ path above, Nearest fs (candidates directory) path above → ∀ s', ofFile fs path = .ok s' → s = s'
  /-- After a file that cannot be used, the search goes on. -/
  unusable : ∀ path above, Nearest fs (candidates directory) path above → ∀ e, ofFile fs path = .error e →
    s = (above.findSome? (ofFile? fs)).getD {}
  /-- The nearest file decides alone, unless it cannot be used and other settings are found further up. -/
  alone : s = ofNearest fs directory ↔ ∀ path above, Nearest fs (candidates directory) path above →
    ∀ e, ofFile fs path = .error e → (above.findSome? (ofFile? fs)).getD {} = ({} : Settings)

/-- The settings for a directory are those of the first file on the way up that can be used. -/
theorem search_searched (fs : FileSystem) (directory : String) : Searched fs directory (search fs directory) where
  few := by
    rw [Files.ancestors, List.length_map]
    exact Files.length_chain_le maxDirectories directory.toList
  first := by simp [Files.ancestors, maxDirectories, Files.chain_succ]
  upward := by
    rw [Files.ancestors, List.isChain_map]
    simpa using Files.isChain_chain maxDirectories directory.toList
  nothing := search_of_forall
  usable := fun _ _ h _ hfile => h.search_of_ok hfile
  unusable := fun _ _ h _ hfile => h.search_of_error hfile
  alone := search_eq_ofNearest_iff fs directory

/-! ### A search that goes on -/

/-- A directory whose file cannot be used, below a file that can. -/
def nested : FileSystem where
  entries :=
    [([".modmap.toml"], .file "[community]\nmax_passes = 7\n".toUTF8.toList), (["a"], .directory),
      (["a", ".modmap.toml"], .file "[community]\nmax_passes = 0\n".toUTF8.toList)]
  workDir := []

theorem candidates_nested : candidates "a" = ["a/.modmap.toml", ".modmap.toml"] := by decide +kernel

theorem readText_nested : nested.readText "a/.modmap.toml" = .ok "[community]\nmax_passes = 0\n" := by
  have hcheck : FileSystem.checkPath "a/.modmap.toml" = .ok () :=
    FileSystem.checkPath_eq_ok (by decide +kernel) (by decide +kernel) (by decide +kernel)
  have horigin : nested.origin "a/.modmap.toml" = [] := by decide +kernel
  have hsteps : FileSystem.steps "a/.modmap.toml" = ["a", ".modmap.toml"] := by decide +kernel
  refine FileSystem.readText_of_walk hcheck horigin hsteps rfl rfl ?_
  decide +kernel

theorem readText_above_nested : nested.readText ".modmap.toml" = .ok "[community]\nmax_passes = 7\n" := by
  have hcheck : FileSystem.checkPath ".modmap.toml" = .ok () :=
    FileSystem.checkPath_eq_ok (by decide +kernel) (by decide +kernel) (by decide +kernel)
  have horigin : nested.origin ".modmap.toml" = [] := by decide +kernel
  have hsteps : FileSystem.steps ".modmap.toml" = [".modmap.toml"] := by decide +kernel
  refine FileSystem.readText_of_walk hcheck horigin hsteps rfl rfl ?_
  decide +kernel

/-- The settings of a directory further up are used although there is a nearer file, even when every file can be
    read. -/
theorem nested_not_alone : ¬∀ (fs : FileSystem) (directory : String),
    (∀ path ∈ candidates directory, hasText fs path = true ∨ fs.readText path = .error .notFound) →
      search fs directory = ofNearest fs directory := by
  intro h
  have htext : hasText nested "a/.modmap.toml" = true := by
    rw [hasText, readText_nested]
    rfl
  have habove : hasText nested ".modmap.toml" = true := by
    rw [hasText, readText_above_nested]
    rfl
  have hunusable : ofFile? nested "a/.modmap.toml" = none := by
    have hnone : (ofText "[community]\nmax_passes = 0\n").toOption.map (·.community.maxPasses) = none := by
      decide +kernel
    simpa [ofFile?, ofFile, readText_nested] using hnone
  have husable : (ofFile? nested ".modmap.toml").map (·.community.maxPasses) = some 7 := by
    have hsome : (ofText "[community]\nmax_passes = 7\n").toOption.map (·.community.maxPasses) = some 7 := by
      decide +kernel
    simpa [ofFile?, ofFile, readText_above_nested] using hsome
  obtain ⟨s, hs, hpasses⟩ := Option.map_eq_some_iff.mp husable
  have heq := h nested "a" (by simp [candidates_nested, htext, habove])
  rw [search_eq, ofNearest, candidates_nested, List.find?_cons_of_pos htext] at heq
  simp only [List.findSome?_cons, hunusable, hs, Option.getD_some, Option.bind_some, Option.getD_none] at heq
  rw [heq] at hpasses
  cases hpasses

end Settings
end ModuleAudit
