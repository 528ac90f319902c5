import Mathlib.Computability.Language
import ModuleAudit.Proofs.Audit.Completed
import ModuleAudit.Proofs.Graph.Listing

/-! The course of a run. A run can go five ways, each of which fixes the report and every event. What can be said of
    the events of all runs is read off these ways: the words that they form, how the last of them agrees with the
    report, and which dependencies are told to be dropped. -/

namespace ModuleAudit.Audit

open Computability

variable {s : Settings} {source : LayoutSource} {extraction : Attempt Extracted} {x : Extracted} {o : Outcome}
variable {stage : Stage} {reason : String} {e : Error}

/-! ### The ways of a run -/

theorem guarded_of_ok {α : Type} {a : α} {go : α → Outcome} : guarded stage reason (.ok a) go = go a := rfl

theorem guarded_of_error {α : Type} {body : Attempt α} {go : α → Outcome} (h : body.settle stage = .error e) :
    guarded stage reason body go = (Outcome.nothing stage reason).after [.stageFailed stage e.message] := by
  rw [guarded, h]

theorem settle_cases {α : Type} (stage : Stage) (body : Attempt α) :
    (∃ a, body = .ok a) ∨ ∃ e, body.settle stage = .error e := by
  cases body with
  | ok a => exact Or.inl ⟨a, rfl⟩
  | error e => exact Or.inr ⟨e, rfl⟩
  | panic p => exact Or.inr ⟨_, rfl⟩

/-- The graph of a tree has a node for each of its modules, so it can always be built: no name is listed twice. -/
theorem buildGraph_listing (t : Tree) (positions : ModuleMap Position) :
    buildGraph t.listing positions = .ok (.ofListing t.listing positions.get?) := by
  have hcount : (Graph.ofListing t.listing positions.get?).nodeCount = t.listing.modules.length := by
    rw [Graph.nodeCount_eq, Graph.modules_listing]
    rfl
  rw [buildGraph]
  simp [hcount]

/-- The layout that a run goes by. -/
def layoutOf (source : LayoutSource) (x : Extracted) : Layout :=
  match x.diagram.map source with
  | some (.ok (some layout)) => layout
  | _ => []

/-- The positions are those of the layout, and at most one remark is made, on a diagram that cannot be used. -/
theorem resolved {positions : ModuleMap Position} {told : List Event}
    (h : resolvePositions s source x = .ok (positions, told)) :
    positions = (layoutOf source x).positions ∧ (told = [] ∨ ∃ reason, told = [.layoutUnavailable reason]) := by
  have hmissing {reason : String} (h : (if s.layoutRequired then Attempt.error (.layout reason)
      else .ok (∅, [.layoutUnavailable reason])) = .ok (positions, told)) :
      positions = Layout.positions [] ∧ (told = [] ∨ ∃ reason, told = [.layoutUnavailable reason]) := by
    split at h
    · cases h
    · obtain ⟨rfl, rfl⟩ := Prod.mk.inj (Attempt.ok.inj h)
      exact ⟨rfl, Or.inr ⟨reason, rfl⟩⟩
  rw [resolvePositions] at h
  rw [layoutOf]
  cases hdiagram : x.diagram with
  | none =>
    rw [hdiagram] at h
    exact hmissing h
  | some d =>
    rw [hdiagram] at h
    rw [Option.map_some]
    cases hlayout : source d with
    | error e => simp [hlayout] at h
    | panic p => simp [hlayout] at h
    | ok layout =>
      simp only [hlayout] at h
      cases layout with
      | none => exact hmissing h
      | some l =>
        obtain ⟨rfl, rfl⟩ := Prod.mk.inj (Attempt.ok.inj h)
        exact ⟨rfl, Or.inl rfl⟩

theorem told_cases {positions : ModuleMap Position} {told : List Event}
    (h : resolvePositions s source x = .ok (positions, told)) :
    told = [] ∨ ∃ reason, told = [.layoutUnavailable reason] := (resolved h).2

/-- A layout that is not required costs nothing, as long as its source returns. -/
theorem exists_positions (hrequired : s.layoutRequired = false)
    (hsource : ∀ d, x.diagram = some d → ∃ layout, source d = .ok layout) :
    ∃ p, resolvePositions s source x = .ok p := by
  rw [resolvePositions, hrequired]
  dsimp only
  split
  · exact ⟨_, rfl⟩
  next diagram hdiagram =>
    obtain ⟨layout, hlayout⟩ := hsource diagram hdiagram
    rw [hlayout]
    cases layout with
    | none => exact ⟨_, rfl⟩
    | some l => exact ⟨_, rfl⟩

/-- The dependencies of a tree that are told to be dropped. -/
def drops (t : Tree) : List Event := (Graph.unknown t.listing).map fun d => .edgeDropped d.1 d.2

/-- The ways that a run can go: it ends at the start, without a tree or without modules; it ends without a layout; it
    ends without metrics; or it is completed. -/
inductive Course (s : Settings) (source : LayoutSource) : Attempt Extracted → Outcome → Prop where
  | unextracted {extraction : Attempt Extracted} {e : Error} (extracted : extraction.settle .start = .error e) :
      Course s source extraction ⟨none, [.stageEntered .start, .stageFailed .start e.message,
        .runEmpty .start .empty "dependency extraction failed"]⟩
  | bare {x : Extracted} (empty : x.tree.isEmpty = true) :
      Course s source (.ok x) ⟨none, [.stageEntered .start, .runEmpty .start .empty "no modules discovered"]⟩
  | unplaced {x : Extracted} {e : Error} (listed : x.tree.isEmpty = false)
      (placed : (resolvePositions s source x).settle .treeBuilt = .error e) :
      Course s source (.ok x) ⟨none, [.stageEntered .start, .stageEntered .treeBuilt, .stageFailed .treeBuilt e.message,
        .runEmpty .treeBuilt .empty "layout diagram required but unavailable"]⟩
  | unmeasured {x : Extracted} {positions : ModuleMap Position} {told : List Event} {e : Error}
      (listed : x.tree.isEmpty = false) (placed : resolvePositions s source x = .ok (positions, told))
      (measured : (computeMetrics s (.ofListing x.tree.listing positions.get?)).settle .graphBuilt = .error e) :
      Course s source (.ok x) ⟨none, [.stageEntered .start, .stageEntered .treeBuilt] ++ told ++ drops x.tree ++
        [.stageEntered .graphBuilt, .stageFailed .graphBuilt e.message,
          .runEmpty .graphBuilt .empty "metric computation failed"]⟩
  | completed {x : Extracted} {positions : ModuleMap Position} {told : List Event} {m : Metrics} {r : Report}
      (listed : x.tree.isEmpty = false) (placed : resolvePositions s source x = .ok (positions, told))
      (measured : computeMetrics s (.ofListing x.tree.listing positions.get?) = .ok m)
      (assembled : r = assemble x (.ofListing x.tree.listing positions.get?) m) :
      Course s source (.ok x) ⟨some r, [.stageEntered .start, .stageEntered .treeBuilt] ++ told ++ drops x.tree ++
        [.stageEntered .graphBuilt, .stageEntered .metricsComputed,
          .runCompleted r.graph.nodeCount r.graph.edgeCount r.communityCount]⟩

theorem run_course (s : Settings) (source : LayoutSource) (extraction : Attempt Extracted) :
    Course s source extraction (run s source extraction) := by
  rcases settle_cases .start extraction with ⟨x, rfl⟩ | ⟨e, he⟩
  · rw [run, entering, guarded_of_ok]
    cases hempty : x.tree.isEmpty with
    | true => exact .bare hempty
    | false =>
      rw [if_neg (by decide), entering, runListing]
      rcases settle_cases .treeBuilt (resolvePositions s source x) with ⟨⟨positions, told⟩, hplaced⟩ | ⟨e, he⟩
      · rw [hplaced]
        dsimp only
        rw [guarded_of_ok, buildGraph_listing, guarded_of_ok, entering, runGraph]
        rcases settle_cases .graphBuilt (computeMetrics s (.ofListing x.tree.listing positions.get?)) with
          ⟨m, hm⟩ | ⟨e, he⟩
        · rw [hm]
          simpa [Outcome.after, guarded_of_ok, entering, complete, drops, Stage.next] using
            Course.completed hempty hplaced hm rfl
        · simp only [Stage.next]
          rw [guarded_of_error he]
          simpa [Outcome.after, Outcome.nothing, Stage.fail, drops] using Course.unmeasured hempty hplaced he
      · rw [Stage.next, guarded_of_error he]
        exact .unplaced hempty he
  · rw [run, entering, guarded_of_error he]
    exact .unextracted he

/-! ### The words of a run

Words over events, as regular expressions. A letter is one event of a kind. -/

/-- The events of a kind. -/
def letter {α : Type} (kind : α → Event) : Language Event := Set.range fun a => [kind a]

def entered (stage : Stage) : Language Event := {[.stageEntered stage]}

def failed (stage : Stage) : Language Event := letter (.stageFailed stage)

def emptied (stage : Stage) : Language Event := letter (.runEmpty stage .empty)

def unavailable : Language Event := letter .layoutUnavailable

def dropped : Language Event := letter fun d : Dependency => .edgeDropped d.1 d.2

def completed : Language Event := letter fun c : Nat × Nat × Nat => .runCompleted c.1 c.2.1 c.2.2

/-- What is told after a layout was settled on. -/
def measuring : Language Event :=
  entered .graphBuilt * (failed .graphBuilt * emptied .graphBuilt + entered .metricsComputed * completed)

/-- What is told after a tree was built. -/
def placing : Language Event :=
  entered .treeBuilt * (failed .treeBuilt * emptied .treeBuilt + (1 + unavailable) * dropped∗ * measuring)

/-- What is told in a run. -/
def words : Language Event := entered .start * ((1 + failed .start) * emptied .start + placing)

theorem letter_mem {α : Type} (kind : α → Event) (a : α) : [kind a] ∈ letter kind := ⟨a, rfl⟩

theorem nil_mem_optional (l : Language Event) : [] ∈ 1 + l := Or.inl Language.nil_mem_one

theorem mem_optional {l : Language Event} {w : List Event} (h : w ∈ l) : w ∈ 1 + l := Or.inr h

theorem mem_entered_mul {l : Language Event} {w : List Event} (h : w ∈ l) :
    .stageEntered stage :: w ∈ entered stage * l :=
  Language.append_mem_mul (show [Event.stageEntered stage] ∈ entered stage from rfl) h

/-- A failed stage ends the run. -/
theorem failed_emptied (stage : Stage) (message reason : String) :
    [.stageFailed stage message, .runEmpty stage .empty reason] ∈ failed stage * emptied stage :=
  Language.append_mem_mul (letter_mem _ message) (letter_mem _ reason)

theorem told_mem {positions : ModuleMap Position} {told : List Event}
    (h : resolvePositions s source x = .ok (positions, told)) : told ∈ 1 + unavailable := by
  rcases told_cases h with rfl | ⟨reason, rfl⟩
  · exact nil_mem_optional unavailable
  · exact mem_optional (letter_mem _ reason)

theorem drops_mem (t : Tree) : drops t ∈ dropped∗ := by
  rw [drops, List.map_eq_flatMap, List.flatMap_def]
  refine Language.join_mem_kstar fun w hw => ?_
  obtain ⟨d, -, rfl⟩ := List.mem_map.mp hw
  exact ⟨d, rfl⟩

/-- What is told of a run that has a graph, from what is told after its graph was built. -/
theorem measuring_mem {positions : ModuleMap Position} {told w : List Event}
    (placed : resolvePositions s source x = .ok (positions, told)) (hw : w ∈ measuring) :
    [.stageEntered .start, .stageEntered .treeBuilt] ++ told ++ drops x.tree ++ w ∈ words := by
  have hplaced : told ++ drops x.tree ++ w ∈ (1 + unavailable) * dropped∗ * measuring :=
    Language.append_mem_mul (Language.append_mem_mul (told_mem placed) (drops_mem x.tree)) hw
  have htree : .stageEntered .treeBuilt :: (told ++ drops x.tree ++ w) ∈ placing := mem_entered_mul (Or.inr hplaced)
  have hwords : .stageEntered .start :: .stageEntered .treeBuilt :: (told ++ drops x.tree ++ w) ∈ words :=
    mem_entered_mul (Or.inr htree)
  simpa using hwords

theorem Course.events_mem (h : Course s source extraction o) : o.events ∈ words := by
  cases h with
  | unextracted =>
    refine mem_entered_mul (Or.inl ?_)
    exact Language.append_mem_mul (mem_optional (letter_mem _ _)) (letter_mem _ _)
  | bare =>
    refine mem_entered_mul (Or.inl ?_)
    exact Language.append_mem_mul (nil_mem_optional _) (letter_mem _ _)
  | unplaced =>
    refine mem_entered_mul (Or.inr (mem_entered_mul (Or.inl ?_)))
    exact failed_emptied .treeBuilt _ _
  | unmeasured _ placed =>
    refine measuring_mem placed (mem_entered_mul (Or.inl ?_))
    exact failed_emptied .graphBuilt _ _
  | completed _ placed =>
    refine measuring_mem placed (mem_entered_mul (Or.inr (mem_entered_mul ?_)))
    exact letter_mem _ (_, _, _)

/-! ### What the events say of a run -/

/-- The dependency that an event tells to be dropped. -/
def dependency? : Event → Option Dependency
  | .edgeDropped a b => some (a, b)
  | _ => none

/-- The events of a run that has a graph. -/
theorem mem_built {positions : ModuleMap Position} {told w : List Event} {event : Event}
    (placed : resolvePositions s source x = .ok (positions, told))
    (h : event ∈ [.stageEntered .start, .stageEntered .treeBuilt] ++ told ++ drops x.tree ++ w) :
    event = .stageEntered .start ∨ event = .stageEntered .treeBuilt ∨ (∃ reason, event = .layoutUnavailable reason) ∨
      (∃ a b, event = .edgeDropped a b) ∨ event ∈ w := by
  simp only [List.mem_append, List.mem_cons, List.not_mem_nil, or_false] at h
  rcases h with (((h | h) | h) | h) | h
  · exact Or.inl h
  · exact Or.inr (Or.inl h)
  · rcases told_cases placed with rfl | ⟨reason, rfl⟩
    · cases h
    · exact Or.inr (Or.inr (Or.inl ⟨reason, List.mem_singleton.mp h⟩))
  · obtain ⟨d, -, rfl⟩ := List.mem_map.mp h
    exact Or.inr (Or.inr (Or.inr (Or.inl ⟨d.1, d.2, rfl⟩)))
  · exact Or.inr (Or.inr (Or.inr (Or.inr h)))

/-- Where there is a graph, a failed stage is told of after the graph was built. -/
theorem failed_of_mem_built {positions : ModuleMap Position} {told w : List Event} {message : String}
    (placed : resolvePositions s source x = .ok (positions, told))
    (h : .stageFailed stage message ∈ [.stageEntered .start, .stageEntered .treeBuilt] ++ told ++ drops x.tree ++ w) :
    .stageFailed stage message ∈ w := by
  simpa using mem_built placed h

/-- Where there is a graph, the end of the run is told of after the graph was built. -/
theorem emptied_of_mem_built {positions : ModuleMap Position} {told w : List Event} {outcome : Stage}
    (placed : resolvePositions s source x = .ok (positions, told))
    (h : .runEmpty stage outcome reason ∈
      [.stageEntered .start, .stageEntered .treeBuilt] ++ told ++ drops x.tree ++ w) :
    .runEmpty stage outcome reason ∈ w := by
  simpa using mem_built placed h

theorem dependencies_drops (t : Tree) : (drops t).filterMap dependency? = Graph.unknown t.listing := by
  rw [drops, List.filterMap_map]
  exact List.filterMap_some

theorem dependencies_told {positions : ModuleMap Position} {told : List Event}
    (placed : resolvePositions s source x = .ok (positions, told)) : told.filterMap dependency? = [] := by
  rcases told_cases placed with rfl | ⟨reason, rfl⟩ <;> rfl

theorem dependencies_built {positions : ModuleMap Position} {told : List Event} (w : List Event)
    (placed : resolvePositions s source x = .ok (positions, told)) :
    ([.stageEntered .start, .stageEntered .treeBuilt] ++ told ++ drops x.tree ++ w : List Event).filterMap
        dependency? =
      (x.tree.dependencies.filter fun d => !x.tree.keys.contains d.2) ++ w.filterMap dependency? := by
  rw [List.filterMap_append, List.filterMap_append, List.filterMap_append, dependencies_told placed,
    dependencies_drops, Graph.unknown_listing]
  rfl

/-- A run that has no report says so last. -/
theorem Course.last_of_none (h : Course s source extraction o) (hnone : o.report = none) :
    ∃ stage outcome reason, o.events.getLast? = some (.runEmpty stage outcome reason) := by
  cases h with
  | unextracted => exact ⟨_, _, _, rfl⟩
  | bare => exact ⟨_, _, _, rfl⟩
  | unplaced => exact ⟨_, _, _, rfl⟩
  | unmeasured => exact ⟨_, _, _, by rw [List.getLast?_append]; rfl⟩
  | completed => cases hnone

/-- A run that has a report tells its size last. -/
theorem Course.last_of_some {r : Report} (h : Course s source extraction o) (hsome : o.report = some r) :
    o.events.getLast? = some (.runCompleted r.graph.nodeCount r.graph.edgeCount r.communityCount) := by
  cases h with
  | completed =>
    obtain rfl := Option.some.inj hsome
    rw [List.getLast?_append]
    rfl
  | _ => cases hsome

/-- Where a run can stop, and for which reason. -/
theorem Course.stopped {stage outcome : Stage} {reason : String} (h : Course s source extraction o)
    (hmem : .runEmpty stage outcome reason ∈ o.events) :
    outcome = .empty ∧ reason ≠ "graph construction failed" := by
  cases h with
  | unmeasured _ placed =>
    replace hmem := emptied_of_mem_built placed hmem
    simp only [List.mem_cons, List.not_mem_nil, Event.runEmpty.injEq, reduceCtorEq, or_false, false_or] at hmem
    simp [hmem]
  | completed _ placed =>
    replace hmem := emptied_of_mem_built placed hmem
    simp at hmem
  | _ =>
    simp only [List.mem_cons, List.not_mem_nil, Event.runEmpty.injEq, reduceCtorEq, or_false, false_or] at hmem
    simp [hmem]

/-- When the layout is what failed, no missing layout was made do with. -/
theorem Course.not_unavailable {message reason : String} (h : Course s source extraction o)
    (hmem : .stageFailed .treeBuilt message ∈ o.events) : .layoutUnavailable reason ∉ o.events := by
  cases h with
  | unmeasured _ placed =>
    replace hmem := failed_of_mem_built placed hmem
    simp at hmem
  | completed _ placed =>
    replace hmem := failed_of_mem_built placed hmem
    simp at hmem
  | unplaced => simp
  | _ => simp at hmem

/-- A run that comes to the metrics told every dependency on a module that is not listed, once for each time that it
    occurs. -/
theorem Course.dropped (h : Course s source extraction o) (hmem : .stageEntered .graphBuilt ∈ o.events) :
    ∃ x, extraction = .ok x ∧
      o.events.filterMap dependency? = x.tree.dependencies.filter fun d => !x.tree.keys.contains d.2 := by
  cases h with
  | unmeasured _ placed => exact ⟨_, rfl, (dependencies_built _ placed).trans (List.append_nil _)⟩
  | completed _ placed => exact ⟨_, rfl, (dependencies_built _ placed).trans (List.append_nil _)⟩
  | _ => simp at hmem

/-- What a run tells, and how it agrees with the outcome. -/
structure Telling (extraction : Attempt Extracted) (o : Outcome) : Prop where
  words : o.events ∈ words
  empty : ∀ stage outcome reason, .runEmpty stage outcome reason ∈ o.events → outcome = .empty
  last_none : o.report = none ↔
    ∃ stage outcome reason, o.events.getLast? = some (.runEmpty stage outcome reason)
  last_some : o.report.isSome ↔
    ∃ modules edges communities, o.events.getLast? = some (.runCompleted modules edges communities)
  sizes : ∀ r, o.report = some r →
    o.events.getLast? = some (.runCompleted r.graph.nodeCount r.graph.edgeCount r.communityCount)
  /-- A failed layout is not preceded by one that is made do without. -/
  layout : ∀ message reason, .stageFailed .treeBuilt message ∈ o.events → .layoutUnavailable reason ∉ o.events
  /-- The graph is always built. -/
  built : ∀ x positions, extraction = .ok x →
    buildGraph x.tree.listing positions = .ok (.ofListing x.tree.listing positions.get?)
  construction : ∀ stage outcome, .runEmpty stage outcome "graph construction failed" ∉ o.events
  /-- The dropped dependencies are those on modules that are not listed, each as often as it occurs. -/
  dropped : .stageEntered .graphBuilt ∈ o.events → ∃ x, extraction = .ok x ∧
    o.events.filterMap dependency? = x.tree.dependencies.filter fun d => !x.tree.keys.contains d.2

/-- The events of every run form one of the words, and they agree with its outcome. -/
theorem run_telling (s : Settings) (source : LayoutSource) (extraction : Attempt Extracted) :
    Telling extraction (run s source extraction) := by
  have h := run_course s source extraction
  refine ⟨h.events_mem, fun _ _ _ hmem => (h.stopped hmem).1, ⟨h.last_of_none, ?_⟩, ⟨?_, ?_⟩,
    fun _ => h.last_of_some, fun _ _ => h.not_unavailable, fun x positions _ => buildGraph_listing x.tree positions,
    fun _ _ hmem => (h.stopped hmem).2 rfl, h.dropped⟩
  · rintro ⟨stage, outcome, reason, hlast⟩
    refine Option.eq_none_iff_forall_ne_some.mpr fun r hr => ?_
    rw [h.last_of_some hr] at hlast
    cases hlast
  · intro hsome
    obtain ⟨r, hr⟩ := Option.isSome_iff_exists.mp hsome
    exact ⟨_, _, _, h.last_of_some hr⟩
  · rintro ⟨modules, edges, communities, hlast⟩
    refine Option.isSome_iff_ne_none.mpr fun hnone => ?_
    obtain ⟨stage, outcome, reason, hempty⟩ := h.last_of_none hnone
    rw [hempty] at hlast
    cases hlast

end ModuleAudit.Audit
