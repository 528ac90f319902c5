import ModuleAudit.Proofs.Audit.Course
import ModuleAudit.Proofs.Community.Assigned
import ModuleAudit.Proofs.Extraction.Clean
import ModuleAudit.Proofs.Graph.Order
import ModuleAudit.Proofs.Graph.Unplaced

/-! Reports are faithful to what was extracted. Every record of a report that is kept by module lists the modules of the
    extracted tree, in their order; what the extraction saw in the tree is handed on as it is; and where the extraction
    saw cycles in a graph of its own, they are the cycles of the graph in the report. -/

namespace ModuleAudit

/-- What was extracted is a tree with what is seen in it; diagram and remarks may be any. -/
def Extracted.Derived (x : Extracted) : Prop :=
  ∃ diagram warnings, x = { Extracted.ofTree x.tree with diagram := diagram, warnings := warnings }

theorem Extracted.derived_ofTree (t : Tree) : (Extracted.ofTree t).Derived := ⟨none, [], rfl⟩

theorem Extraction.derived_of_extract {extraction : Extraction} {fs : FileSystem} {x : Extracted}
    (h : extraction.extract fs = .ok x) : x.Derived := by
  obtain ⟨_, raw, -, -, rfl⟩ := extract_eq_ok_iff.mp h
  exact ⟨_, _, rfl⟩

/-- The report lists the modules of the extracted tree, each once and in the order of the tree, wherever it lists
    modules, and hands on what was extracted. -/
structure Report.Faithful (x : Extracted) (r : Report) : Prop where
  nodup : x.tree.keys.Nodup
  tree : r.tree = x.tree
  graph : r.graph.modules = x.tree.keys
  communities : r.communities.keys = x.tree.keys
  couplings : r.couplings.keys = x.tree.keys
  degree : r.centrality.degree.keys = x.tree.keys
  incoming : r.centrality.incoming.keys = x.tree.keys
  outgoing : r.centrality.outgoing.keys = x.tree.keys
  cycles : r.cycles = x.cycles
  warnings : r.warnings = x.warnings
  orphans : r.orphans = x.orphans
  leaves : r.leaves = x.leaves

namespace Report

variable {x : Extracted} {r : Report} {c : Nat}

theorem faithful_assemble (x : Extracted) (t : Community.Tuning Float) (position : String → Option Position) :
    let g := Graph.ofListing x.tree.listing position
    (Audit.assemble x g ⟨Community.detect t g, g.centrality, g.density⟩).Faithful x := by
  intro g
  have hmodules : g.modules = x.tree.keys := Graph.modules_listing x.tree position
  obtain ⟨hdegree, hincoming, houtgoing⟩ := g.keys_centrality (α := Float)
  exact {
    nodup := x.tree.keys_nodup
    tree := rfl
    graph := hmodules
    communities := (Community.detect_assigned t g).keys.trans hmodules
    couplings := ModuleMap.keys_rebuild _ _
    degree := hdegree.trans hmodules
    incoming := hincoming.trans hmodules
    outgoing := houtgoing.trans hmodules
    cycles := rfl
    warnings := rfl
    orphans := rfl
    leaves := rfl }

/-- The number of communities is that of the different numbers that modules have. -/
theorem communityCount_eq (h : Community.Numbered r.communities.values r.communityCount) :
    r.communityCount = r.communities.values.eraseDups.length := by
  rw [h, List.length_range]

end Report

namespace Audit

variable {s : Settings} {source : LayoutSource} {e : Attempt Extracted} {x : Extracted} {r : Report}

/-- A report and the run that it comes from: it is faithful to the extraction, the run tells its sizes last, and derived
    cycles are those of its graph, in whatever order the components of the graph are taken. -/
structure Reported (x : Extracted) (o : Outcome) (r : Report) : Prop where
  faithful : r.Faithful x
  told : o.events.getLast? =
    some (.runCompleted r.graph.modules.length r.graph.edges.length r.communities.values.eraseDups.length)
  derived : x.Derived → r.cycles = r.graph.cycles ∧
    ∀ parts, r.graph.SplitsInto parts → r.cycles = r.graph.cyclesAmong parts

theorem cycles_eq_of_derived (h : x.Derived) (position : String → Option Position) :
    x.cycles = (Graph.ofListing x.tree.listing position).cycles := by
  obtain ⟨diagram, warnings, hx⟩ := h
  rw [Graph.cycles_listing, hx]
  rfl

/-- Every report is faithful to what was extracted: the modules are the same wherever they are listed, what was seen in
    the tree is handed on, and the run tells the sizes. What is extracted from a tree or from files is derived from a
    tree, so that there the cycles of the report are those of its graph. -/
theorem run_reported (h : (run s source e).report = some r) :
    (∃ x, e = .ok x ∧ Reported x (run s source e) r) ∧
      (∀ t, (Extracted.ofTree t).Derived) ∧
      ∀ (extraction : Extraction) fs x, extraction.extract fs = .ok x → x.Derived := by
  refine ⟨?_, Extracted.derived_ofTree, fun _ _ _ => Extraction.derived_of_extract⟩
  have hlast := (run_course s source e).last_of_some h
  obtain ⟨x, position, rfl, hr⟩ := exists_of_report h
  have hnumbered := (Community.detect_assigned s.community (Graph.ofListing x.tree.listing position)).numbered
  refine ⟨x, rfl, ?_, ?_, fun hderived => ?_⟩
  · rw [hr]
    exact Report.faithful_assemble x s.community position
  · rw [hlast, Graph.nodeCount_eq, Graph.edgeCount, Report.communityCount_eq]
    rw [hr]
    exact hnumbered
  · have hcycles : r.cycles = r.graph.cycles := by
      rw [hr]
      exact cycles_eq_of_derived hderived position
    exact ⟨hcycles, fun parts hparts => hcycles.trans (Graph.cyclesAmong_eq_cycles hparts).symm⟩

/-- A module that lists an unlisted one, and another one twice; one that lists it back, and itself; and one that stands
    by itself. -/
def knotted : Tree := .ofList [("b", ["x", "a", "a"]), ("a", ["a", "b"]), ("c", [])]

theorem knotted_reported : ∃ r, (run {} (fun _ => .ok none) (.ok (.ofTree knotted))).report = some r ∧
    Reported (.ofTree knotted) (run {} (fun _ => .ok none) (.ok (.ofTree knotted))) r ∧
    r.graph.cycles = [["b", "a"]] := by
  have hsome : (run {} (fun _ => .ok none) (.ok (.ofTree knotted))).report.isSome = true := by decide +kernel
  have hcycles : (Extracted.ofTree knotted).cycles = [["b", "a"]] := by decide +kernel
  obtain ⟨r, hr⟩ := Option.isSome_iff_exists.mp hsome
  obtain ⟨⟨x, hx, hreported⟩, hderived, -⟩ := run_reported hr
  obtain rfl := Attempt.ok.inj hx
  refine ⟨r, hr, hreported, ?_⟩
  rw [← (hreported.derived (hderived knotted)).1, hreported.faithful.cycles, hcycles]

end Audit
end ModuleAudit
