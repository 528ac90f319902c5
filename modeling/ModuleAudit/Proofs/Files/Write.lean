import Mathlib.Data.List.Basic
import ModuleAudit.Files.System

/-! Writing a file. It changes the entry at one location, which no directory has, so every way through the directories
    stays what it was, and what was written is read back at the path it was written to. -/

namespace ModuleAudit.FileSystem

open Files

variable {fs after : FileSystem} {path name : String} {start l l' parent : Location} {names : List String} {e : Entry}
variable {bytes : List UInt8}

/-! ### Entries -/

theorem lookup_filter_ne {es : List (Location × Entry)} (h : l' ≠ l) :
    (es.filter (·.1 != l)).lookup l' = es.lookup l' := by
  induction es with
  | nil => rfl
  | cons entry es ih =>
    obtain ⟨at_, e⟩ := entry
    by_cases hat : at_ = l
    · subst hat
      have hne : (l' == at_) = false := beq_eq_false_iff_ne.mpr h
      rw [List.filter_cons_of_neg (by simp), ih, List.lookup_cons, hne]
    · rw [List.filter_cons_of_pos (by simpa using hat), List.lookup_cons, List.lookup_cons, ih]

theorem entry?_put_self (hl : l ≠ []) (fs : FileSystem) (e : Entry) : FileSystem.entry? (fs.put l e) l = some e := by
  rw [FileSystem.entry?, if_neg (by simpa using hl), put, List.lookup_cons_self]

/-- All other entries stay. -/
theorem entry?_put_of_ne (h : l' ≠ l) (fs : FileSystem) (e : Entry) :
    FileSystem.entry? (fs.put l e) l' = fs.entry? l' := by
  have hne : (l' == l) = false := beq_eq_false_iff_ne.mpr h
  rw [FileSystem.entry?, FileSystem.entry?, put, List.lookup_cons, hne]
  dsimp only
  rw [lookup_filter_ne h]

/-! ### Ways -/

theorem walk_append (fs : FileSystem) (names names' : List String) : ∀ start : Location,
    fs.walk start (names ++ names') = (fs.walk start names).bind fun l => fs.walk l names' := by
  induction names with
  | nil => exact fun _ => rfl
  | cons name names ih =>
    intro start
    rw [List.cons_append, walk, walk]
    split
    · rfl
    · rfl
    · dsimp only
      split
      · rfl
      · split
        · rfl
        · exact ih _

/-- A step leads from a directory to something that is there, and its name is not too long. -/
theorem walk_cons_eq_ok_iff : fs.walk start (name :: names) = .ok l ↔ fs.entry? start = some .directory ∧
    name.utf8ByteSize ≤ 255 ∧ (fs.entry? (step start name)).isSome ∧ fs.walk (step start name) names = .ok l := by
  rw [walk]
  cases hentry : fs.entry? start with
  | none => simp
  | some e =>
    cases e with
    | file bytes => simp
    | directory =>
      dsimp only
      by_cases hsize : 255 < name.utf8ByteSize
      · simp [hsize, Nat.not_le.mpr hsize]
      · rw [if_neg hsize]
        cases hthere : fs.entry? (step start name) with
        | none => simp
        | some e => simp [Nat.le_of_not_lt hsize]

/-- Ways lead through directories, so they stay when something else is replaced. -/
theorem walk_put (hl : fs.entry? l ≠ some .directory) (hroot : l ≠ []) (h : fs.walk start names = .ok l') :
    (fs.put l e).walk start names = .ok l' := by
  induction names generalizing start with
  | nil => exact h
  | cons name names ih =>
    obtain ⟨hstart, hsize, hthere, hwalk⟩ := walk_cons_eq_ok_iff.mp h
    refine walk_cons_eq_ok_iff.mpr ⟨?_, hsize, ?_, ih hwalk⟩
    · have hne : start ≠ l := fun heq => hl (heq ▸ hstart)
      rwa [entry?_put_of_ne hne]
    · by_cases heq : step start name = l
      · rw [heq, entry?_put_self hroot]
        rfl
      · rwa [entry?_put_of_ne heq]

/-! ### Writing -/

/-- A file can be written where the last name of a path leads from a directory to no directory. -/
structure Place (fs : FileSystem) (path : String) (parent : Location) (name : String) : Prop where
  check : checkPath path = .ok ()
  slash : path.endsWith "/" = false
  names : ∃ before, FileSystem.names path = before ++ [name] ∧ fs.walk (fs.origin path) before = .ok parent
  directory : fs.entry? parent = some .directory
  step : step parent name = parent ++ [name]
  size : name.utf8ByteSize ≤ 255
  free : fs.entry? (parent ++ [name]) ≠ some .directory

theorem locateNew_eq_ok (h : fs.locateNew path = .ok l) :
    ∃ parent name, l = parent ++ [name] ∧ Place fs path parent name := by
  rw [locateNew] at h
  cases hcheck : checkPath path with
  | error f => simp [hcheck, bind, Except.bind] at h
  | ok u =>
    cases hwalk : fs.walk (fs.origin path) (FileSystem.names path).dropLast with
    | error f => simp [hcheck, hwalk, bind, Except.bind] at h
    | ok parent =>
      simp only [hcheck, hwalk, bind, Except.bind] at h
      split at h
      · rename_i hdirectory
        split_ifs at h with hname hsize hfree
        simp only [Bool.or_eq_true, beq_iff_eq, not_or, Bool.not_eq_true] at hname hfree
        obtain ⟨⟨hdot, hdots⟩, hslash⟩ := hname
        cases hlast : (FileSystem.names path).getLast? with
        | none => simp [hlast] at hdot
        | some name =>
          rw [hlast, Option.getD_some] at hdot hdots hsize hfree h
          obtain ⟨before, hbefore⟩ := List.getLast?_eq_some_iff.mp hlast
          have hstep : step parent name = parent ++ [name] := by
            rw [FileSystem.step, if_neg (by simpa using hdot), if_neg (by simpa using hdots)]
          rw [hbefore, List.dropLast_concat] at hwalk
          rw [hstep] at hfree h
          exact ⟨parent, name, (Except.ok.inj h).symm, hcheck, hslash, ⟨before, hbefore, hwalk⟩, hdirectory, hstep,
            Nat.le_of_not_lt hsize, hfree⟩
      · cases h

/-- What was written stands where its path leads, and nothing else has changed. -/
structure Written (fs : FileSystem) (path : String) (bytes : List UInt8) (after : FileSystem) : Prop where
  read : after.read path = .ok bytes
  changed : ∀ l, after.entry? l ≠ fs.entry? l → after.locate path = .ok l
  workDir : after.workDir = fs.workDir
  /-- Every way to something stays, so that all other files are read as they were. -/
  kept : ∀ p l, fs.locate p = .ok l → after.locate p = .ok l

theorem locate_put (hl : fs.entry? l ≠ some .directory) (hroot : l ≠ []) (h : fs.locate path = .ok l') :
    (fs.put l e).locate path = .ok l' := by
  rw [locate] at h ⊢
  cases hcheck : checkPath path with
  | error f => simp [hcheck, bind, Except.bind] at h
  | ok u =>
    simp only [hcheck, bind, Except.bind] at h ⊢
    exact walk_put hl hroot h

theorem Place.locate (h : Place fs path parent name) (e : Entry) :
    (fs.put (parent ++ [name]) e).locate path = .ok (parent ++ [name]) := by
  obtain ⟨before, hnames, hwalk⟩ := h.names
  have hroot : parent ++ [name] ≠ [] := by simp
  have hne : parent ≠ parent ++ [name] := fun heq => h.free (heq ▸ h.directory)
  have hbefore : (fs.put (parent ++ [name]) e).walk (fs.origin path) before = .ok parent := walk_put h.free hroot hwalk
  have hlast : (fs.put (parent ++ [name]) e).walk parent [name] = .ok (parent ++ [name]) := by
    refine walk_cons_eq_ok_iff.mpr ⟨?_, h.size, ?_, ?_⟩
    · rw [entry?_put_of_ne hne]
      exact h.directory
    · rw [h.step, entry?_put_self hroot]
      rfl
    · rw [h.step]
      rfl
  rw [FileSystem.locate, h.check, steps, h.slash, if_neg (by decide), hnames]
  simp only [bind, Except.bind]
  change (fs.put (parent ++ [name]) e).walk (fs.origin path) (before ++ [name]) = _
  rw [walk_append, hbefore]
  exact hlast

theorem write_eq_error_iff {fault : Fault} : fs.write path bytes = .error fault ↔ fs.locateNew path = .error fault := by
  rw [write]
  cases fs.locateNew path <;> simp [bind, Except.bind]

theorem written_of_write (h : fs.write path bytes = .ok after) : Written fs path bytes after := by
  rw [write] at h
  cases hplace : fs.locateNew path with
  | error f => simp [hplace, bind, Except.bind] at h
  | ok l =>
    obtain ⟨parent, name, rfl, place⟩ := locateNew_eq_ok hplace
    simp only [hplace, bind, Except.bind, Except.ok.injEq] at h
    subst h
    have hroot : parent ++ [name] ≠ [] := by simp
    refine ⟨?_, fun l hl => ?_, rfl, fun p l hp => locate_put place.free hroot hp⟩
    · rw [read, place.locate]
      simp only [bind, Except.bind, entry?_put_self hroot]
    · have heq : l = parent ++ [name] := by
        by_contra hne
        exact hl (entry?_put_of_ne hne fs _)
      rw [heq]
      exact place.locate _

end ModuleAudit.FileSystem
