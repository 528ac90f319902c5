import ModuleAudit.Command.Run
import ModuleAudit.Proofs.Audit.Resolution
import ModuleAudit.Proofs.Files.Write
import ModuleAudit.Proofs.Settings.Search

/-! What an analysis does to files. Settings come valid from wherever they come, so that only a resolution given on the
    command line can spoil them; once they are in force nothing but the file of the report can fail. That file is written
    last, after everything was read. -/

namespace ModuleAudit

/-! ### Valid settings -/

namespace Settings

variable {fs : FileSystem} {s : Settings} {path text : String}

theorem validate_of_ofText (h : ofText text = .ok s) : s.validate = .ok () := by
  rw [ofText] at h
  split at h
  · cases h
  · rename_i read hread
    cases hvalid : read.validate with
    | error e =>
      rw [hvalid] at h
      cases h
    | ok u =>
      rw [hvalid] at h
      obtain rfl := Except.ok.inj h
      exact hvalid

theorem validate_of_ofFile (h : ofFile fs path = .ok s) : s.validate = .ok () := by
  rw [ofFile] at h
  split at h
  · cases h
  · exact validate_of_ofText h

theorem validate_default : ({} : Settings).validate = .ok () := rfl

theorem validate_search (fs : FileSystem) (directory : String) : (search fs directory).validate = .ok () := by
  rw [search_eq]
  cases hfound : (candidates directory).findSome? (ofFile? fs) with
  | none => exact validate_default
  | some s =>
    obtain ⟨path, -, hpath⟩ := List.exists_of_findSome?_eq_some hfound
    cases hfile : ofFile fs path with
    | error e => simp [ofFile?_of_error hfile] at hpath
    | ok s' =>
      rw [ofFile?_of_ok hfile, Option.some.injEq] at hpath
      exact hpath ▸ validate_of_ofFile hfile

/-- Settings are valid when their tuning is and their patterns are well formed. -/
theorem validate_eq_ok_iff : s.validate = .ok () ↔
    checkTuning s.community = .ok () ∧ ∃ exclude, s.patterns = .ok exclude := by
  rw [validate]
  cases checkTuning s.community with
  | error e => simp [bind, Except.bind]
  | ok u => cases s.patterns <;> simp [bind, Except.bind, pure, Except.pure]

end Settings

open Command (Failure Effect)

namespace Analysis

variable {a : Analysis} {fs : FileSystem} {s : Settings} {f : Failure} {o : Audit.Outcome}

/-! ### The settings in force -/

/-- Settings with what the command line says in front. -/
def override (a : Analysis) (s : Settings) : Settings :=
  { s with
    community := { s.community with resolution := a.resolution.getD s.community.resolution }
    parallel := s.parallel && !a.sequential
    layoutRequired := s.layoutRequired || a.layoutRequired }

/-- The settings of the file that is named, or else those that are found. -/
def loaded (a : Analysis) (fs : FileSystem) : Except Failure Settings :=
  match a.config with
  | some path => (Settings.ofFile fs path).mapError (.settingsFile path)
  | none => .ok (Settings.searchHere fs)

theorem settings_eq (a : Analysis) (fs : FileSystem) : a.settings fs =
    (a.loaded fs).bind fun s => ((a.override s).validate.mapError .settings).bind fun _ => .ok (a.override s) := by
  rw [settings, loaded]
  cases a.config <;> rfl

theorem validate_of_loaded (h : a.loaded fs = .ok s) : s.validate = .ok () := by
  rw [loaded] at h
  cases hconfig : a.config with
  | none =>
    rw [hconfig] at h
    exact Except.ok.inj h ▸ Settings.validate_search fs _
  | some path =>
    rw [hconfig] at h
    dsimp only at h
    cases hfile : Settings.ofFile fs path with
    | error e => simp [hfile, Except.mapError] at h
    | ok s' =>
      rw [hfile] at h
      exact Except.ok.inj h ▸ Settings.validate_of_ofFile hfile

/-- A resolution that communities can be found with. -/
def Fit (r : Float) : Prop := r.isFinite = true ∧ 0 < r

theorem checkTuning_cases (t : Community.Tuning Float) (h : t.maxPasses ≠ 0) :
    Fit t.resolution ∧ Settings.checkTuning t = .ok () ∨
      ¬Fit t.resolution ∧ Settings.checkTuning t = .error (.configuration
        ("community.resolution must be a positive number, got " ++ Decimal.plain t.resolution)) := by
  rw [Settings.checkTuning, Community.Tuning.fault?]
  by_cases hfit : Fit t.resolution
  · have hgood : (Weight.isFinite t.resolution && Weight.less 0 t.resolution) = true := by
      rw [Bool.and_eq_true]
      exact ⟨hfit.1, decide_eq_true hfit.2⟩
    rw [hgood, Bool.not_true, if_neg (by decide), if_neg (by simpa using h)]
    exact .inl ⟨hfit, rfl⟩
  · have hbad : (Weight.isFinite t.resolution && Weight.less 0 t.resolution) = false := by
      rw [← Bool.not_eq_true, Bool.and_eq_true]
      exact fun hgood => hfit ⟨hgood.1, of_decide_eq_true hgood.2⟩
    rw [hbad, Bool.not_false, if_pos rfl]
    exact .inr ⟨hfit, rfl⟩

theorem fault?_eq_none (h : s.validate = .ok ()) : s.community.fault? = none := by
  have hcheck := (Settings.validate_eq_ok_iff.mp h).1
  rw [Settings.checkTuning] at hcheck
  split at hcheck
  · cases hcheck
  · assumption

/-- Valid settings allow at least one pass. -/
theorem maxPasses_ne_zero (h : s.validate = .ok ()) : s.community.maxPasses ≠ 0 := by
  intro hzero
  have hfault := fault?_eq_none h
  rw [Community.Tuning.fault?, hzero] at hfault
  split_ifs at hfault
  exact absurd rfl ‹¬(0 == 0) = true›

/-- Only a resolution on the command line spoils settings that were valid. -/
theorem validate_override (h : s.validate = .ok ()) : (a.override s).validate = .ok () ∨
    ∃ r, a.resolution = some r ∧ ¬Fit r ∧ (a.override s).validate =
      .error (.configuration ("community.resolution must be a positive number, got " ++ Decimal.plain r)) := by
  obtain ⟨hcheck, hpatterns⟩ := Settings.validate_eq_ok_iff.mp h
  have hpasses := maxPasses_ne_zero h
  rcases checkTuning_cases (a.override s).community hpasses with ⟨-, hok⟩ | ⟨hunfit, herror⟩
  · exact .inl (Settings.validate_eq_ok_iff.mpr ⟨hok, hpatterns⟩)
  · have hresolution : (a.override s).community.resolution = a.resolution.getD s.community.resolution := rfl
    cases hgiven : a.resolution with
    | none =>
      rw [hresolution, hgiven, Option.getD_none] at hunfit
      rcases checkTuning_cases s.community hpasses with ⟨hfit, -⟩ | ⟨-, hbad⟩
      · exact absurd hfit hunfit
      · rw [hbad] at hcheck
        cases hcheck
    | some r =>
      rw [hresolution, hgiven, Option.getD_some] at hunfit herror
      refine .inr ⟨r, rfl, hunfit, ?_⟩
      rw [Settings.validate, herror]
      rfl

theorem fit_of_validate (h : (a.override s).validate = .ok ()) {r : Float} (hgiven : a.resolution = some r) : Fit r := by
  have hresolution : (a.override s).community.resolution = r := by
    rw [override, hgiven]
    rfl
  rcases checkTuning_cases (a.override s).community (maxPasses_ne_zero h) with ⟨hfit, -⟩ | ⟨-, hbad⟩
  · exact hresolution ▸ hfit
  · have hcheck := (Settings.validate_eq_ok_iff.mp h).1
    rw [hbad] at hcheck
    cases hcheck

theorem settings_eq_ok_iff : a.settings fs = .ok s ↔
    ∃ s₀, a.loaded fs = .ok s₀ ∧ (a.override s₀).validate = .ok () ∧ s = a.override s₀ := by
  rw [settings_eq]
  cases a.loaded fs with
  | error f => simp [Except.bind]
  | ok s₀ => cases hvalid : (a.override s₀).validate <;> simp [Except.bind, Except.mapError, hvalid, eq_comm]

theorem settings_eq_error_iff : a.settings fs = .error f ↔ a.loaded fs = .error f ∨
    ∃ s₀ e, a.loaded fs = .ok s₀ ∧ (a.override s₀).validate = .error e ∧ f = .settings e := by
  rw [settings_eq]
  cases a.loaded fs with
  | error f => simp [Except.bind]
  | ok s₀ => cases hvalid : (a.override s₀).validate <;> simp [Except.bind, Except.mapError, hvalid, eq_comm]

/-- Why settings are refused: the file that is named cannot be used, or the resolution on the command line is no positive
    number. -/
inductive Refused (a : Analysis) (fs : FileSystem) : Failure → Prop where
  | file {path : String} {e : Error} (named : a.config = some path) (unusable : Settings.ofFile fs path = .error e) :
      Refused a fs (.settingsFile path e)
  | resolution {s : Settings} {r : Float} (loaded : a.loaded fs = .ok s) (given : a.resolution = some r)
      (unfit : ¬Fit r) : Refused a fs
        (.settings (.configuration ("community.resolution must be a positive number, got " ++ Decimal.plain r)))

theorem settings_refused_iff : a.settings fs = .error f ↔ Refused a fs f := by
  rw [settings_eq_error_iff]
  constructor
  · rintro (h | ⟨s, e, hloaded, hinvalid, rfl⟩)
    · rw [loaded] at h
      cases hconfig : a.config with
      | none => simp [hconfig] at h
      | some path =>
        cases hfile : Settings.ofFile fs path with
        | ok s => simp [hconfig, hfile, Except.mapError] at h
        | error e =>
          obtain rfl : .settingsFile path e = f := by simpa [hconfig, hfile, Except.mapError] using h
          exact .file hconfig hfile
    · rcases validate_override (a := a) (validate_of_loaded hloaded) with hvalid | ⟨r, hgiven, hunfit, herror⟩
      · rw [hinvalid] at hvalid
        cases hvalid
      · rw [hinvalid] at herror
        obtain rfl := Except.error.inj herror
        exact .resolution hloaded hgiven hunfit
  · rintro (⟨hconfig, hfile⟩ | ⟨hloaded, hgiven, hunfit⟩)
    · left
      rw [loaded, hconfig]
      simp [hfile, Except.mapError]
    · right
      rcases validate_override (a := a) (validate_of_loaded hloaded) with hvalid | ⟨r, hgiven', -, herror⟩
      · exact absurd (fit_of_validate hvalid hgiven) hunfit
      · obtain rfl := Option.some.inj (hgiven.symm.trans hgiven')
        exact ⟨_, _, hloaded, herror, rfl⟩

/-! ### The audit -/

/-- Settings with which an audit goes through: neither their tuning nor their patterns are refused once more. -/
structure Usable (a : Analysis) (fs : FileSystem) (s : Settings) : Prop where
  valid : s.validate = .ok ()
  tuning : Settings.checkTuning s.community = .ok ()
  audited : ∃ exclude, s.patterns = .ok exclude ∧ a.audit fs = .ok
    (Audit.run s (fun bytes => .ok (Drawing.layout? bytes))
      (.ofExcept (Extraction.extract ⟨a.tree, a.diagram, exclude⟩ fs)))

theorem audit_eq (a : Analysis) (fs : FileSystem) : a.audit fs = (a.settings fs).bind fun s =>
    (s.patterns.mapError .exclude).bind fun exclude => .ok (Audit.run s (fun bytes => .ok (Drawing.layout? bytes))
      (.ofExcept (Extraction.extract ⟨a.tree, a.diagram, exclude⟩ fs))) := rfl

theorem usable_of_settings (h : a.settings fs = .ok s) : Usable a fs s := by
  obtain ⟨s₀, -, hvalid, rfl⟩ := settings_eq_ok_iff.mp h
  obtain ⟨htuning, exclude, hexclude⟩ := Settings.validate_eq_ok_iff.mp hvalid
  refine ⟨hvalid, htuning, exclude, hexclude, ?_⟩
  rw [audit_eq, h]
  change ((a.override s₀).patterns.mapError Failure.exclude).bind _ = _
  rw [hexclude]
  rfl

theorem audit_of_refused (h : Refused a fs f) : a.audit fs = .error f := by
  rw [audit_eq, settings_refused_iff.mpr h]
  rfl

/-! ### The files -/

/-- What an analysis does: why it fails, and what becomes of the files. -/
structure Effected (a : Analysis) (fs : FileSystem) (e : Effect) : Prop where
  failure_iff : ∀ f, e.failure = some f ↔ Refused a fs f ∨ ∃ path fault, (∃ s, a.settings fs = .ok s) ∧
    a.output = some path ∧ fs.locateNew path = .error fault ∧ f = .outputFile path fault
  failed : e.failure ≠ none → e.files = fs
  printed : a.output = none → e.files = fs
  written : e.failure = none → ∀ path, a.output = some path →
    ∃ o, a.audit fs = .ok o ∧ FileSystem.Written fs path (a.render o.report).toUTF8.toList e.files

theorem files_run (h : (a.run fs).failure ≠ none ∨ a.output = none) : (a.run fs).files = fs := by
  rw [run] at h ⊢
  split at h
  · rfl
  · dsimp only at h ⊢
    split at h
    · rfl
    · rename_i houtput
      rw [houtput] at h
      split at h
      · rfl
      · simp at h

/-- Once the audit has gone through, only the file of the report can fail. -/
theorem failure_run_iff (h : a.audit fs = .ok o) : (a.run fs).failure = some f ↔
    ∃ path fault, a.output = some path ∧ fs.locateNew path = .error fault ∧ f = .outputFile path fault := by
  rw [run, h]
  dsimp only
  cases a.output with
  | none => simp
  | some path =>
    cases hwrite : fs.write path (a.render o.report).toUTF8.toList with
    | error fault =>
      have hplace := FileSystem.write_eq_error_iff.mp hwrite
      dsimp only
      rw [hwrite]
      simp [hplace, eq_comm]
    | ok after =>
      have hplace (fault : Files.Fault) : fs.locateNew path ≠ .error fault := fun hfault => by
        rw [FileSystem.write_eq_error_iff.mpr hfault] at hwrite
        cases hwrite
      dsimp only
      rw [hwrite]
      simp [hplace]

theorem written_run {path : String} (h : a.audit fs = .ok o) (houtput : a.output = some path)
    (hfailure : (a.run fs).failure = none) :
    FileSystem.Written fs path (a.render o.report).toUTF8.toList (a.run fs).files := by
  rw [run, h] at hfailure ⊢
  dsimp only at hfailure ⊢
  rw [houtput] at hfailure ⊢
  dsimp only at hfailure ⊢
  cases hwrite : fs.write path (a.render o.report).toUTF8.toList with
  | error fault =>
    rw [hwrite] at hfailure
    cases hfailure
  | ok after => exact FileSystem.written_of_write hwrite

theorem effected_of_refused (h : Refused a fs f) : Effected a fs (a.run fs) := by
  have hsettings := settings_refused_iff.mpr h
  have hfailure : (a.run fs).failure = some f := by
    rw [run, audit_of_refused h]
  refine ⟨fun f' => ?_, fun hfailed => files_run (.inl hfailed), fun houtput => files_run (.inr houtput), fun hnone => ?_⟩
  · rw [hfailure, Option.some.injEq]
    constructor
    · exact fun heq => .inl (heq ▸ h)
    · rintro (h' | ⟨_, _, ⟨s, hs⟩, -⟩)
      · exact Except.error.inj (hsettings.symm.trans (settings_refused_iff.mpr h'))
      · rw [hs] at hsettings
        cases hsettings
  · rw [hfailure] at hnone
    cases hnone

theorem effected_of_settings (h : a.settings fs = .ok s) : Effected a fs (a.run fs) := by
  obtain ⟨exclude, -, haudit⟩ := (usable_of_settings h).audited
  refine ⟨fun f => ?_, fun hfailed => files_run (.inl hfailed), fun houtput => files_run (.inr houtput),
    fun hfailure path houtput => ⟨_, haudit, written_run haudit houtput hfailure⟩⟩
  rw [failure_run_iff haudit]
  constructor
  · rintro ⟨path, fault, houtput, hplace, hf⟩
    exact .inr ⟨path, fault, ⟨s, h⟩, houtput, hplace, hf⟩
  · rintro (hrefused | ⟨path, fault, -, houtput, hplace, hf⟩)
    · rw [settings_refused_iff.mpr hrefused] at h
      cases h
    · exact ⟨path, fault, houtput, hplace, hf⟩

theorem run_effected (a : Analysis) (fs : FileSystem) :
    Effected a fs (a.run fs) ∧ ∀ s, a.settings fs = .ok s → Usable a fs s := by
  refine ⟨?_, fun s => usable_of_settings⟩
  cases h : a.settings fs with
  | error f => exact effected_of_refused (settings_refused_iff.mp h)
  | ok s => exact effected_of_settings h

end Analysis
end ModuleAudit
