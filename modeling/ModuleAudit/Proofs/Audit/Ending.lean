import ModuleAudit.Proofs.Audit.Course
import ModuleAudit.Proofs.Graph.Unplaced
import ModuleAudit.Proofs.Metric.Density

/-! How a run ends. Each ending has a cause in what the run is given, and leaves its own trace in the outcome: the first
    stage that fails tells its failure, the run stops there, and without a failure there is a report. Of the causes
    exactly one is there in every run, and so is exactly one of the traces. -/

namespace ModuleAudit

/-- Work that does not yield anything: it fails or breaks off. -/
def Attempt.Fails {α : Type} (a : Attempt α) : Prop := ∀ x, a ≠ .ok x

/-- An event tells that something failed, or that a run has nothing to report. -/
def Event.isFailure : Event → Bool
  | .stageFailed .. => true
  | .runEmpty .. => true
  | _ => false

namespace Audit

variable {s : Settings} {source source' : LayoutSource} {e : Attempt Extracted} {x : Extracted} {o : Outcome} {g : Graph}
variable {stage stage' : Stage} {events : List Event}

/-! ### Causes and traces -/

/-- The source of layouts is asked and does not return, or a layout is required and there is no diagram, or none that
    can be used. -/
def LayoutFails (s : Settings) (source : LayoutSource) (x : Extracted) : Prop :=
  (∃ d, x.diagram = some d ∧ (source d).Fails) ∨
    (s.layoutRequired = true ∧ (x.diagram = none ∨ ∃ d, x.diagram = some d ∧ source d = .ok none))

/-- Communities cannot be sought with the settings, or modularity is not finite. -/
def MetricsFail (s : Settings) (t : Tree) : Prop :=
  (∃ error, Settings.checkTuning s.community = .error error) ∨
    (Community.detect s.community t.graph).modularity.isFinite = false

/-- The ways in which a run can end. -/
inductive Ending where
  | unextracted
  | bare
  | unplaced
  | unmeasured
  | completed
deriving DecidableEq

/-- What makes a run end in this way. -/
def Ending.Due (s : Settings) (source : LayoutSource) (e : Attempt Extracted) : Ending → Prop
  | .unextracted => e.Fails
  | .bare => ∃ x, e = .ok x ∧ x.tree.keys = []
  | .unplaced => ∃ x, e = .ok x ∧ x.tree.keys ≠ [] ∧ LayoutFails s source x
  | .unmeasured => ∃ x, e = .ok x ∧ x.tree.keys ≠ [] ∧ ¬LayoutFails s source x ∧ MetricsFail s x.tree
  | .completed => ∃ x, e = .ok x ∧ x.tree.keys ≠ [] ∧ ¬LayoutFails s source x ∧ ¬MetricsFail s x.tree

/-- The events end with a failure of the stage and the end of the run there, and tell no failure before. -/
def StopsAt (stage : Stage) (events : List Event) : Prop :=
  ∃ told message reason, (∀ event ∈ told, event.isFailure = false) ∧
    events = told ++ [.stageFailed stage message, .runEmpty stage .empty reason]

/-- What is seen of a run that ends in this way. -/
def Ending.Seen (o : Outcome) : Ending → Prop
  | .unextracted => o.report = none ∧ StopsAt .start o.events
  | .bare => o.report = none ∧ ∃ reason, o.events = [.stageEntered .start, .runEmpty .start .empty reason]
  | .unplaced => o.report = none ∧ StopsAt .treeBuilt o.events
  | .unmeasured => o.report = none ∧ StopsAt .graphBuilt o.events
  | .completed => o.report.isSome ∧ ∀ event ∈ o.events, event.isFailure = false

theorem Ending.Due.unique {k k' : Ending} (h : k.Due s source e) (h' : k'.Due s source e) : k = k' := by
  cases e with
  | ok x => cases k <;> cases k' <;> simp_all [Due, Attempt.Fails]
  | error error => cases k <;> cases k' <;> simp_all [Due]
  | panic p => cases k <;> cases k' <;> simp_all [Due]

/-- The stage whose failure is told in a run that ends in this way. -/
def Ending.failed? : Ending → Option Stage
  | .unextracted => some .start
  | .unplaced => some .treeBuilt
  | .unmeasured => some .graphBuilt
  | .bare | .completed => none

theorem StopsAt.failed_iff (h : StopsAt stage events) :
    (∃ message, .stageFailed stage' message ∈ events) ↔ stage = stage' := by
  obtain ⟨told, message, reason, htold, rfl⟩ := h
  constructor
  · rintro ⟨message', hmem⟩
    rcases List.mem_append.mp hmem with hmem | hmem
    · cases htold _ hmem
    · simp only [List.mem_cons, List.not_mem_nil, Event.stageFailed.injEq, reduceCtorEq, or_false] at hmem
      exact hmem.1.symm
  · rintro rfl
    exact ⟨message, by simp⟩

theorem Ending.Seen.failed_iff {k : Ending} (h : k.Seen o) :
    (∃ message, .stageFailed stage message ∈ o.events) ↔ k.failed? = some stage := by
  cases k with
  | unextracted => rw [h.2.failed_iff, failed?, Option.some.injEq]
  | unplaced => rw [h.2.failed_iff, failed?, Option.some.injEq]
  | unmeasured => rw [h.2.failed_iff, failed?, Option.some.injEq]
  | bare =>
    obtain ⟨-, reason, hevents⟩ := h
    simp [hevents, failed?]
  | completed =>
    refine iff_of_false ?_ (by simp [failed?])
    rintro ⟨message, hmem⟩
    cases h.2 _ hmem

theorem Ending.Seen.report_iff {k : Ending} (h : k.Seen o) : o.report = none ↔ k ≠ .completed := by
  cases k with
  | completed => simpa [Option.isSome_iff_ne_none] using h.1
  | _ => simpa using h.1

theorem Ending.Seen.unique {k k' : Ending} (h : k.Seen o) (h' : k'.Seen o) : k = k' := by
  have hfailed : k.failed? = k'.failed? := by
    ext stage
    rw [← h.failed_iff, ← h'.failed_iff]
  have hreport : k = .completed ↔ k' = .completed := by
    rw [← not_iff_not, ← ne_eq, ← ne_eq, ← h.report_iff, ← h'.report_iff]
  cases k <;> cases k' <;> simp [failed?] at hfailed hreport ⊢

/-! ### What the stages come to -/

theorem not_fails_iff {α : Type} {body : Attempt α} : ¬body.Fails ↔ ∃ a, body = .ok a := by
  simp [Attempt.Fails]

theorem fails_of_settle {α : Type} {body : Attempt α} {error : Error} (h : body.settle stage = .error error) :
    body.Fails := by
  rintro a rfl
  cases h

theorem resolvePositions_fails_iff : (resolvePositions s source x).Fails ↔ LayoutFails s source x := by
  have hmissing (reason : String) : (if s.layoutRequired then Attempt.error (.layout reason)
      else .ok ((∅ : ModuleMap Position), [Event.layoutUnavailable reason])).Fails ↔ s.layoutRequired = true := by
    cases s.layoutRequired <;> simp [Attempt.Fails]
  rw [resolvePositions, LayoutFails]
  cases hdiagram : x.diagram with
  | none => simpa using hmissing _
  | some d =>
    cases hlayout : source d with
    | error error => simp [hlayout, Attempt.Fails]
    | panic p => simp [hlayout, Attempt.Fails]
    | ok layout =>
      cases layout with
      | none => simpa [hlayout, Attempt.Fails] using hmissing _
      | some layout => simp [hlayout, Attempt.Fails]

theorem computeMetrics_fails_iff (t : Tree) (position : String → Option Position) :
    (computeMetrics s (.ofListing t.listing position)).Fails ↔ MetricsFail s t := by
  rw [computeMetrics_eq, MetricsFail, Graph.detect_listing]
  cases Settings.checkTuning s.community with
  | error error => simp [Attempt.Fails]
  | ok u => cases hfinite : (Community.detect s.community t.graph).modularity.isFinite <;> simp [Attempt.Fails, hfinite]

theorem computeMetrics_ne_density (s : Settings) (g : Graph) (text : String) :
    computeMetrics s g ≠ .error (.metric "density" text) := by
  rw [computeMetrics_eq]
  cases hcheck : Settings.checkTuning s.community with
  | error error =>
    rw [Settings.checkTuning] at hcheck
    split at hcheck
    · cases hcheck
      simp
    · cases hcheck
  | ok u => cases hfinite : (Community.detect s.community g).modularity.isFinite <;> simp [hfinite]

theorem not_failure_built {positions : ModuleMap Position} {told w : List Event}
    (placed : resolvePositions s source x = .ok (positions, told)) (hw : ∀ event ∈ w, event.isFailure = false) :
    ∀ event ∈ [.stageEntered .start, .stageEntered .treeBuilt] ++ told ++ drops x.tree ++ w,
      event.isFailure = false := by
  intro event hmem
  rcases mem_built placed hmem with rfl | rfl | ⟨_, rfl⟩ | ⟨_, _, rfl⟩ | hmem
  · rfl
  · rfl
  · rfl
  · rfl
  · exact hw event hmem

/-- Each course of a run has a cause, and leaves the trace of the same ending. -/
theorem Course.exists_ending (h : Course s source e o) : ∃ k : Ending, k.Due s source e ∧ k.Seen o := by
  cases h with
  | @unextracted _ error extracted =>
    exact ⟨.unextracted, fails_of_settle extracted, rfl, [.stageEntered .start], _, _, by simp [Event.isFailure], rfl⟩
  | @bare x empty => exact ⟨.bare, ⟨x, rfl, ModuleMap.isEmpty_iff.mp empty⟩, rfl, _, rfl⟩
  | @unplaced x error listed placed =>
    have hfails := resolvePositions_fails_iff.mp (fails_of_settle placed)
    exact ⟨.unplaced, ⟨x, rfl, ModuleMap.isEmpty_eq_false_iff.mp listed, hfails⟩, rfl,
      [.stageEntered .start, .stageEntered .treeBuilt], _, _, by simp [Event.isFailure], rfl⟩
  | @unmeasured x positions told error listed placed measured =>
    have hplaced := mt resolvePositions_fails_iff.mpr (not_fails_iff.mpr ⟨_, placed⟩)
    have hmeasured := (computeMetrics_fails_iff x.tree positions.get?).mp (fails_of_settle measured)
    have hquiet := not_failure_built placed (w := [.stageEntered .graphBuilt]) (by simp [Event.isFailure])
    refine ⟨.unmeasured, ⟨x, rfl, ModuleMap.isEmpty_eq_false_iff.mp listed, hplaced, hmeasured⟩, rfl, _, error.message,
      "metric computation failed", hquiet, ?_⟩
    rw [List.append_assoc _ [_]]
    rfl
  | @completed x positions told m r listed placed measured =>
    have hplaced := mt resolvePositions_fails_iff.mpr (not_fails_iff.mpr ⟨_, placed⟩)
    have hmeasured := mt (computeMetrics_fails_iff x.tree positions.get?).mpr (not_fails_iff.mpr ⟨_, measured⟩)
    exact ⟨.completed, ⟨x, rfl, ModuleMap.isEmpty_eq_false_iff.mp listed, hplaced, hmeasured⟩, rfl,
      not_failure_built placed (by simp [Event.isFailure])⟩

/-! ### The source of layouts -/

/-- The diagram that the source of layouts is asked for: that of an extraction with modules. -/
def asked? : Attempt Extracted → Option (List UInt8)
  | .ok x => if x.tree.isEmpty then none else x.diagram
  | _ => none

theorem resolvePositions_congr (h : ∀ d, x.diagram = some d → source' d = source d) :
    resolvePositions s source' x = resolvePositions s source x := by
  rw [resolvePositions, resolvePositions]
  cases hdiagram : x.diagram with
  | none => rfl
  | some d => simp only [h d hdiagram]

theorem settle_resolvePositions {d : List UInt8} {error : Error} (hdiagram : x.diagram = some d)
    (h : (source d).settle stage = .error error) : (resolvePositions s source x).settle stage = .error error := by
  rw [resolvePositions, hdiagram]
  cases hsource : source d <;> rw [hsource] at h <;> cases h <;> simp only [hsource] <;> rfl

theorem asked?_eq_some_iff {d : List UInt8} :
    asked? e = some d ↔ ∃ x, e = .ok x ∧ x.tree.isEmpty = false ∧ x.diagram = some d := by
  cases e with
  | ok x => cases hempty : x.tree.isEmpty <;> simp [asked?, hempty]
  | error error => simp [asked?]
  | panic p => simp [asked?]

/-- A source makes a difference only through what it answers for the diagram that is asked for. -/
theorem run_congr (h : ∀ d, asked? e = some d → source' d = source d) : run s source' e = run s source e := by
  cases e with
  | error error => rfl
  | panic p => rfl
  | ok x =>
    have hlisting (hlisted : x.tree.isEmpty = false) : runListing s source' x = runListing s source x := by
      funext stage
      rw [runListing, runListing,
        resolvePositions_congr fun d hd => h d (asked?_eq_some_iff.mpr ⟨x, rfl, hlisted, hd⟩)]
    rw [run, run]
    refine congrArg _ (funext fun stage => ?_)
    rw [guarded_of_ok, guarded_of_ok]
    cases hempty : x.tree.isEmpty with
    | true => rfl
    | false => rw [hlisting hempty]

/-! ### The ending of a run -/

/-- How a run ends, and what decides it. -/
structure Ended (s : Settings) (source : LayoutSource) (e : Attempt Extracted) (o : Outcome) : Prop where
  /-- A run is seen to end in a way exactly when there is cause for it. -/
  due_iff : ∀ k : Ending, k.Due s source e ↔ k.Seen o
  one : ∃! k : Ending, k.Due s source e
  empty_iff : o.report = none ↔ Ending.unextracted.Due s source e ∨ Ending.bare.Due s source e ∨
    Ending.unplaced.Due s source e ∨ Ending.unmeasured.Due s source e
  /-- A failed extraction is told with its message, and one that broke off with what it left behind. -/
  extraction : ∀ error, e.settle .start = .error error → .stageFailed .start error.message ∈ o.events
  /-- The same holds of a source of layouts that is asked and does not return. -/
  layout : ∀ d error, asked? e = some d → (source d).settle .treeBuilt = .error error →
    .stageFailed .treeBuilt error.message ∈ o.events
  /-- The source is asked for nothing but the diagram of an extraction with modules: whatever it would answer or do
      otherwise, the run is the same. -/
  asked : ∀ source', (∀ d, asked? e = some d → source' d = source d) → run s source' e = o
  density : ∀ g : Graph, (g.density : Float).isFinite = true ∧ ∀ text, computeMetrics s g ≠ .error (.metric "density" text)

theorem Course.extraction_told {error : Error} (h : Course s source e o) (herror : e.settle .start = .error error) :
    .stageFailed .start error.message ∈ o.events := by
  cases h with
  | unextracted extracted =>
    rw [extracted] at herror
    cases herror
    simp
  | _ => cases herror

theorem Course.layout_told {d : List UInt8} {error : Error} (h : Course s source e o) (hasked : asked? e = some d)
    (herror : (source d).settle .treeBuilt = .error error) : .stageFailed .treeBuilt error.message ∈ o.events := by
  obtain ⟨x, rfl, hlisted, hdiagram⟩ := asked?_eq_some_iff.mp hasked
  have hfailed := settle_resolvePositions (s := s) hdiagram herror
  cases h with
  | unextracted extracted => cases extracted
  | bare empty => simp [hlisted] at empty
  | unplaced _ placed =>
    rw [placed] at hfailed
    cases hfailed
    simp
  | unmeasured _ placed =>
    rw [placed] at hfailed
    cases hfailed
  | completed _ placed =>
    rw [placed] at hfailed
    cases hfailed

/-- Nothing that goes wrong in the extraction or in the source of layouts escapes a run. A run has no report exactly when
    the extraction fails or breaks off, no module is listed, a layout fails, or the metrics fail; the first of these
    decides where the run stops, and all but a listing without modules are told as a failure of that stage. -/
theorem run_ended (s : Settings) (source : LayoutSource) (e : Attempt Extracted) :
    Ended s source e (run s source e) := by
  have hcourse := run_course s source e
  obtain ⟨k, hdue, hseen⟩ := hcourse.exists_ending
  have hiff (k' : Ending) : k'.Due s source e ↔ k'.Seen (run s source e) := by
    constructor
    · intro h
      rwa [h.unique hdue]
    · intro h
      rwa [h.unique hseen]
  refine ⟨hiff, ⟨k, hdue, fun k' h => h.unique hdue⟩, ?_, fun _ => hcourse.extraction_told,
    fun _ _ => hcourse.layout_told, fun _ => run_congr, fun g => ⟨g.isFinite_density, computeMetrics_ne_density s g⟩⟩
  rw [hseen.report_iff]
  constructor
  · intro hk
    cases k with
    | unextracted => exact Or.inl hdue
    | bare => exact Or.inr (Or.inl hdue)
    | unplaced => exact Or.inr (Or.inr (Or.inl hdue))
    | unmeasured => exact Or.inr (Or.inr (Or.inr hdue))
    | completed => exact absurd rfl hk
  · rintro (h | h | h | h) rfl <;> cases h.unique hdue

end Audit
end ModuleAudit
