import ModuleAudit.Audit.Attempt
import ModuleAudit.Audit.Event
import ModuleAudit.Audit.Report
import ModuleAudit.Diagram.Layout
import ModuleAudit.Extraction.Basic
import ModuleAudit.Metric.Density
import ModuleAudit.Settings.Basic

/-! The run of an audit: extract, list, build the graph, compute the metrics, put the report together. Nothing that
    goes wrong escapes: a failure is told as an event, and the run ends without a report. -/

namespace ModuleAudit

/-- Finds the layout of a diagram; `none` when the diagram cannot be used. -/
abbrev LayoutSource := List UInt8 → Attempt (Option Layout)

namespace Audit

/-- How a run ended: its report, if there is something to report, and the events on the way. -/
structure Outcome where
  report : Option Report
  events : List Event

namespace Outcome

/-- The outcome with events in front. -/
def after (events : List Event) (o : Outcome) : Outcome := ⟨o.report, events ++ o.events⟩

/-- A run that ends at a stage with nothing to report. -/
def nothing (stage : Stage) (reason : String) : Outcome := ⟨none, [.runEmpty stage stage.fail reason]⟩

end Outcome

/-- Goes on with what a stage yields. When the stage fails, that is told, and the run ends for `reason`. -/
def guarded {α : Type} (stage : Stage) (reason : String) (body : Attempt α) (go : α → Outcome) : Outcome :=
  match body.settle stage with
  | .ok a => go a
  | .error e => (Outcome.nothing stage reason).after [.stageFailed stage e.message]

/-- Goes on to the next stage and tells so. -/
def entering (stage : Stage) (go : Stage → Outcome) : Outcome := (go stage).after [.stageEntered stage]

/-- The positions of the modules, and what is to be told about them. An unusable diagram costs the positions,
    unless a layout is required. -/
def resolvePositions (s : Settings) (source : LayoutSource) (x : Extracted) :
    Attempt (ModuleMap Position × List Event) :=
  let missing (reason : String) : Attempt (ModuleMap Position × List Event) :=
    if s.layoutRequired then .error (.layout reason) else .ok (∅, [.layoutUnavailable reason])
  match x.diagram with
  | none => missing "no layout diagram supplied"
  | some diagram =>
    match source diagram with
    | .ok (some layout) => .ok (layout.positions, [])
    | .ok none => missing "layout diagram could not be parsed"
    | .error e => .error e
    | .panic p => .panic p

/-- The graph with one node for each listed module. -/
def buildGraph (l : Listing) (positions : ModuleMap Position) : Attempt Graph :=
  let g := Graph.ofListing l positions.get?
  if g.nodeCount != l.modules.length then
    .error (.graph ("expected " ++ toString l.modules.length ++ " modules, graph holds " ++ toString g.nodeCount))
  else .ok g

structure Metrics where
  partition : Community.Partition Float
  centrality : Centrality Float
  density : Float

/-- The metrics of a graph, all of which have to be finite. -/
def computeMetrics (s : Settings) (g : Graph) : Attempt Metrics :=
  match Settings.checkTuning s.community with
  | .error e => .error e
  | .ok () =>
    let partition := Community.detect s.community g
    let density := g.density
    if !partition.modularity.isFinite then
      .error (.metric "modularity" ("non-finite score " ++ Decimal.plain partition.modularity))
    else if !density.isFinite then
      .error (.metric "density" ("non-finite value " ++ Decimal.plain density))
    else .ok ⟨partition, g.centrality, density⟩

def assemble (x : Extracted) (g : Graph) (m : Metrics) : Report where
  tree := x.tree
  graph := g
  modularity := m.partition.modularity
  communities := m.partition.communities
  density := m.density
  centrality := m.centrality
  couplings := x.tree.couplings
  cycles := x.cycles
  warnings := x.warnings
  orphans := x.orphans
  leaves := x.leaves

def complete (r : Report) : Outcome :=
  ⟨some r, [.runCompleted r.graph.nodeCount r.graph.edgeCount r.communityCount]⟩

def runGraph (s : Settings) (x : Extracted) (g : Graph) (stage : Stage) : Outcome :=
  guarded stage "metric computation failed" (computeMetrics s g) fun m =>
    entering stage.next fun _ => complete (assemble x g m)

def runListing (s : Settings) (source : LayoutSource) (x : Extracted) (stage : Stage) : Outcome :=
  let l := x.tree.listing
  guarded stage "layout diagram required but unavailable" (resolvePositions s source x) fun (positions, told) =>
    Outcome.after told <|
      guarded stage "graph construction failed" (buildGraph l positions) fun g =>
        Outcome.after ((Graph.unknown l).map fun d => .edgeDropped d.1 d.2) <|
          entering stage.next (runGraph s x g)

def run (s : Settings) (source : LayoutSource) (extraction : Attempt Extracted) : Outcome :=
  entering .start fun stage =>
    guarded stage "dependency extraction failed" extraction fun x =>
      if x.tree.isEmpty then .nothing stage "no modules discovered"
      else entering stage.next (runListing s source x)

end Audit
end ModuleAudit
