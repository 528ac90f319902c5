import ModuleAudit.Proofs.Audit.Course
import ModuleAudit.Proofs.Graph.Unplaced

/-! What a run owes to a layout: the positions in the graph of its report, and the remark that there is none. Everything
    else is the same whatever the diagram is and whatever its source makes of it. -/

namespace ModuleAudit

/-- What was extracted, without the diagram. -/
def Extracted.undrawn (x : Extracted) : Extracted := { x with diagram := none }

/-- The report without the positions of the modules. -/
def Report.unplaced (r : Report) : Report := { r with graph := r.graph.unplaced }

/-- The remark that there are no positions. -/
def Event.isUnavailable : Event → Bool
  | .layoutUnavailable _ => true
  | _ => false

namespace Audit

variable {s : Settings} {source : LayoutSource} {e : Attempt Extracted} {x : Extracted} {o : Outcome} {g : Graph}
variable {stage : Stage} {reason : String}

/-- The outcome without what it owes to a layout. -/
def Outcome.unplaced (o : Outcome) : Outcome := ⟨o.report.map Report.unplaced, o.events.filter (!·.isUnavailable)⟩

/-! ### Taking the positions away along a run -/

theorem unplaced_after (events : List Event) (o : Outcome) :
    (o.after events).unplaced = o.unplaced.after (events.filter (!·.isUnavailable)) := by
  rw [Outcome.unplaced, Outcome.after, List.filter_append]
  rfl

theorem unplaced_entering (go : Stage → Outcome) :
    (entering stage go).unplaced = entering stage fun stage => (go stage).unplaced :=
  unplaced_after [.stageEntered stage] (go stage)

theorem unplaced_guarded {α : Type} (body : Attempt α) (go : α → Outcome) :
    (guarded stage reason body go).unplaced = guarded stage reason body fun a => (go a).unplaced := by
  rw [guarded, guarded]
  cases body.settle stage with
  | ok a => rfl
  | error e => rfl

theorem computeMetrics_unplaced (s : Settings) (g : Graph) : computeMetrics s g.unplaced = computeMetrics s g := by
  rw [computeMetrics, computeMetrics, Graph.detect_unplaced, Graph.density_unplaced, Graph.centrality_unplaced]

theorem unplaced_complete (x : Extracted) (g : Graph) (m : Metrics) :
    (complete (assemble x g m)).unplaced = (complete (assemble x.undrawn g.unplaced m)).unplaced := by
  have hreport : (assemble x.undrawn g.unplaced m).unplaced = (assemble x g m).unplaced := by
    rw [Report.unplaced, assemble, Graph.unplaced_unplaced]
    rfl
  rw [Outcome.unplaced, Outcome.unplaced, complete, complete, Option.map_some, Option.map_some, hreport]
  simp [assemble, Graph.edgeCount, Report.communityCount]

theorem unplaced_runGraph (s : Settings) (x : Extracted) (g : Graph) (stage : Stage) :
    (runGraph s x g stage).unplaced = (runGraph s x.undrawn g.unplaced stage).unplaced := by
  rw [runGraph, runGraph, computeMetrics_unplaced, unplaced_guarded, unplaced_guarded]
  refine congrArg _ (funext fun m => ?_)
  rw [unplaced_entering, unplaced_entering]
  exact congrArg _ (funext fun _ => unplaced_complete x g m)

theorem filter_drops (t : Tree) : (drops t).filter (!·.isUnavailable) = drops t :=
  List.filter_eq_self.mpr fun event h => by
    obtain ⟨d, -, rfl⟩ := List.mem_map.mp h
    rfl

theorem filter_told {positions : ModuleMap Position} {told : List Event}
    (h : resolvePositions s source x = .ok (positions, told)) : told.filter (!·.isUnavailable) = [] := by
  rcases told_cases h with rfl | ⟨reason, rfl⟩ <;> rfl

/-- The course of a run from the tree on, as it is without a layout. -/
def unplacedListing (s : Settings) (x : Extracted) (stage : Stage) : Outcome :=
  Outcome.after (drops x.tree) <| entering stage.next fun stage => (runGraph s x x.tree.graph stage).unplaced

theorem unplaced_runListing (hrequired : s.layoutRequired = false)
    (hsource : ∀ d, x.diagram = some d → ∃ layout, source d = .ok layout) :
    (runListing s source x stage).unplaced = unplacedListing s x.undrawn stage := by
  obtain ⟨⟨positions, told⟩, hplaced⟩ := exists_positions hrequired hsource
  rw [runListing, hplaced]
  dsimp only
  rw [guarded_of_ok, buildGraph_listing, guarded_of_ok, unplaced_after, filter_told hplaced, unplaced_after,
    unplaced_entering]
  change Outcome.after [] (Outcome.after ((drops x.tree).filter (!·.isUnavailable)) _) = _
  rw [filter_drops]
  refine congrArg (Outcome.after (drops x.tree)) (congrArg _ (funext fun stage => ?_))
  rw [unplaced_runGraph, Graph.unplaced_ofListing]
  rfl

/-- The sources of layouts that a run asks return. -/
def Returns (source : LayoutSource) (e : Attempt Extracted) : Prop :=
  ∀ x, e = .ok x → ∀ d, x.diagram = some d → ∃ layout, source d = .ok layout

/-- The course of a run as it is without a layout. -/
def unplacedRun (s : Settings) (e : Attempt Extracted) : Outcome :=
  entering .start fun stage =>
    guarded stage "dependency extraction failed" e fun x =>
      if x.tree.isEmpty then .nothing stage "no modules discovered" else entering stage.next (unplacedListing s x)

theorem unplaced_run (hrequired : s.layoutRequired = false) (hsource : Returns source e) :
    (run s source e).unplaced = unplacedRun s (e.map Extracted.undrawn) := by
  rw [run, unplaced_entering, unplacedRun]
  refine congrArg _ (funext fun stage => ?_)
  rw [unplaced_guarded]
  cases e with
  | error e => rfl
  | panic p => rfl
  | ok x =>
    rw [Attempt.map, guarded_of_ok, guarded_of_ok]
    change Outcome.unplaced (if x.tree.isEmpty then _ else _) = if x.tree.isEmpty then _ else _
    split
    · rfl
    · rw [unplaced_entering]
      exact congrArg _ (funext fun _ => unplaced_runListing hrequired (hsource x rfl))

/-! ### Where the modules of a report stand -/

/-- In the report of a run each module stands where the first node with its name as title stands, and nowhere when there
    is no such node. -/
def Placed (source : LayoutSource) (e : Attempt Extracted) (o : Outcome) : Prop :=
  ∀ r, o.report = some r → ∃ x, e = .ok x ∧ ∀ m ∈ r.graph.modules,
    r.graph.node? m = some (((layoutOf source x).find? (·.title == m)).map fun n => ⟨n.x, n.y⟩)

theorem Course.placed (h : Course s source e o) : Placed source e o := by
  intro r hr
  cases h with
  | completed _ placed _ assembled =>
    cases hr
    cases assembled
    refine ⟨_, rfl, fun m hm => ?_⟩
    rw [assemble, Graph.modules_listing] at hm
    rw [assemble, Graph.node?_ofListing hm, (resolved placed).1, Layout.get?_positions]
  | _ => cases hr

/-! ### Two runs -/

/-- Two runs that differ in nothing but where the modules of their reports stand, and in the remark that nothing tells
    where. -/
structure Unswayed (o o' : Outcome) : Prop where
  complete : o.report.isSome = o'.report.isSome
  reports : o.report.map Report.unplaced = o'.report.map Report.unplaced
  events : o.events.filter (!·.isUnavailable) = o'.events.filter (!·.isUnavailable)

theorem unswayed_of_unplaced {o' : Outcome} (h : o.unplaced = o'.unplaced) : Unswayed o o' := by
  have hreports : o.report.map Report.unplaced = o'.report.map Report.unplaced := congrArg Outcome.report h
  refine ⟨?_, hreports, congrArg Outcome.events h⟩
  rw [← Option.isSome_map, hreports, Option.isSome_map]

/-- No diagram sways an audit that does not require one, whatever is made of it: two runs over one extraction, each with
    a diagram of its own, both have a report or neither has, and agree in everything but where the modules stand. Where
    they stand is what the layout of the run says. -/
theorem run_unswayed {s : Settings} {source source' : LayoutSource} {e e' : Attempt Extracted}
    (hrequired : s.layoutRequired = false) (hsource : Returns source e) (hsource' : Returns source' e')
    (hsame : e.map Extracted.undrawn = e'.map Extracted.undrawn) :
    Unswayed (run s source e) (run s source' e') ∧ Placed source e (run s source e) ∧
      Placed source' e' (run s source' e') := by
  refine ⟨unswayed_of_unplaced ?_, (run_course s source e).placed, (run_course s source' e').placed⟩
  rw [unplaced_run hrequired hsource, hsame, unplaced_run hrequired hsource']

/-- Two modules that import each other, with a diagram or without. -/
def pair (diagram : Option (List UInt8)) : Extracted :=
  { Extracted.ofTree (.ofList [("a", ["b"]), ("b", ["a"])]) with diagram := diagram }

/-- A layout with a title twice, a title that is no module's, and a place that is no number. -/
def crowded : Layout := [⟨"b", 1, 2⟩, ⟨"c", 3, 4⟩, ⟨"a", 0 / 0, 5⟩, ⟨"b", 6, 7⟩]

theorem pair_unswayed : ({} : Settings).layoutRequired = false ∧
    (run {} (fun _ => .ok (some crowded)) (.ok (pair (some [])))).report.isSome = true ∧
    Unswayed (run {} (fun _ => .ok (some crowded)) (.ok (pair (some []))))
      (run {} (fun _ => .ok none) (.ok (pair none))) ∧
    Placed (fun _ => .ok (some crowded)) (.ok (pair (some [])))
      (run {} (fun _ => .ok (some crowded)) (.ok (pair (some [])))) ∧
    Placed (fun _ => .ok none) (.ok (pair none)) (run {} (fun _ => .ok none) (.ok (pair none))) := by
  refine ⟨rfl, by decide +kernel, ?_⟩
  exact run_unswayed rfl (fun _ _ _ _ => ⟨some crowded, rfl⟩) (fun _ _ _ _ => ⟨none, rfl⟩) rfl

end Audit
end ModuleAudit
