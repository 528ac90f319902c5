import Mathlib.Data.Option.Defs
import ModuleAudit.Proofs.Audit.Course
import ModuleAudit.Proofs.Graph.Order
import ModuleAudit.Proofs.Renaming.Tree

/-! Runs over trees with other names. Module names carry no meaning: a run over a renamed tree goes the same way stage by
    stage, and its report and its events are the same under the new names. What tells two runs apart is the order in
    which modules are declared, and nothing else about them. -/

namespace ModuleAudit

variable {r r' : String → String}

/-! ### Reports -/

namespace Report

variable {p p' : Report}

/-- The second report says of the renamed modules what the first one says of the modules. -/
structure Renamed (r : String → String) (p p' : Report) : Prop where
  tree : p.tree.Renamed r p'.tree
  graph : p.graph.Renamed r p'.graph
  modularity : p'.modularity = p.modularity
  communities : p.communities.Renamed r id p'.communities
  density : p'.density = p.density
  degree : p.centrality.degree.Renamed r id p'.centrality.degree
  incoming : p.centrality.incoming.Renamed r id p'.centrality.incoming
  outgoing : p.centrality.outgoing.Renamed r id p'.centrality.outgoing
  couplings : p.couplings.Renamed r id p'.couplings
  cycles : p'.cycles = p.cycles.map (List.map r)
  warnings : p'.warnings = p.warnings
  orphans : p'.orphans = p.orphans.map r
  leaves : p'.leaves = p.leaves.map r

/-- Every name in a report. -/
def names (p : Report) : List String :=
  p.tree.names ++ p.graph.modules ++ p.communities.keys ++ p.centrality.degree.keys ++ p.centrality.incoming.keys ++
    p.centrality.outgoing.keys ++ p.couplings.keys ++ p.cycles.flatten ++ p.orphans ++ p.leaves

namespace Renamed

theorem names (h : Renamed r p p') : p'.names = p.names.map r := by
  simp only [Report.names, h.tree.names, h.graph.modules, h.communities.keys, h.degree.keys, h.incoming.keys,
    h.outgoing.keys, h.couplings.keys, h.cycles, h.orphans, h.leaves, List.map_append, List.map_flatten]

theorem congr (h : Renamed r p p') (hr : ∀ m ∈ p.names, r m = r' m) : Renamed r' p p' := by
  simp only [Report.names, List.mem_append, or_imp, forall_and] at hr
  obtain ⟨⟨⟨⟨⟨⟨⟨⟨⟨htree, hgraph⟩, hcommunities⟩, hdegree⟩, hincoming⟩, houtgoing⟩, hcouplings⟩, hcycles⟩, horphans⟩,
    hleaves⟩ := hr
  constructor
  case tree => exact h.tree.congr htree
  case graph => exact h.graph.congr hgraph
  case modularity => exact h.modularity
  case communities => exact h.communities.congr hcommunities
  case density => exact h.density
  case degree => exact h.degree.congr hdegree
  case incoming => exact h.incoming.congr hincoming
  case outgoing => exact h.outgoing.congr houtgoing
  case couplings => exact h.couplings.congr hcouplings
  case cycles =>
    rw [h.cycles]
    refine List.map_congr_left fun c hc => List.map_congr_left fun m hm => hcycles m ?_
    exact List.mem_flatten_of_mem hc hm
  case warnings => exact h.warnings
  case orphans => rw [h.orphans, List.map_congr_left horphans]
  case leaves => rw [h.leaves, List.map_congr_left hleaves]

end Renamed
end Report

/-! ### Events -/

namespace Event

def rename (r : String → String) : Event → Event
  | .edgeDropped source target => .edgeDropped (r source) (r target)
  | event => event

def names : Event → List String
  | .edgeDropped source target => [source, target]
  | _ => []

theorem names_rename (r : String → String) (event : Event) : (event.rename r).names = event.names.map r := by
  cases event <;> rfl

theorem rename_congr {event : Event} (h : ∀ m ∈ event.names, r m = r' m) : event.rename r = event.rename r' := by
  cases event with
  | edgeDropped source target => exact congrArg₂ Event.edgeDropped (h _ (by simp [names])) (h _ (by simp [names]))
  | _ => rfl

end Event

namespace Audit

variable {s : Settings} {source : LayoutSource} {t t' : Tree} {g g' : Graph} {stage : Stage} {reason : String}

namespace Outcome

variable {o o' : Outcome}

/-- The second run ended like the first one, under new names. -/
structure Renamed (r : String → String) (o o' : Outcome) : Prop where
  report : Option.Rel (Report.Renamed r) o.report o'.report
  events : o'.events = o.events.map (Event.rename r)

/-- Every name that is told of. -/
def names (o : Outcome) : List String := (o.report.map Report.names).getD [] ++ o.events.flatMap Event.names

namespace Renamed

theorem names (h : Renamed r o o') : o'.names = o.names.map r := by
  obtain ⟨p, events⟩ := o
  obtain ⟨p', events'⟩ := o'
  obtain ⟨hreport, rfl⟩ := h
  rw [Outcome.names, Outcome.names, List.flatMap_map, List.map_append, List.map_flatMap]
  refine congrArg₂ (· ++ ·) ?_ (congrArg (List.flatMap · events) (funext (Event.names_rename r)))
  cases hreport with
  | none => rfl
  | some hp => exact hp.names

theorem congr (h : Renamed r o o') (hr : ∀ m ∈ o.names, r m = r' m) : Renamed r' o o' := by
  obtain ⟨p, events⟩ := o
  obtain ⟨p', events'⟩ := o'
  obtain ⟨hreport, rfl⟩ := h
  constructor
  · cases hreport with
    | none => exact .none
    | some hp => exact .some (hp.congr fun m hm => hr m (List.mem_append_left _ hm))
  · refine List.map_congr_left fun event hevent => Event.rename_congr fun m hm => hr m ?_
    exact List.mem_append_right _ (List.mem_flatMap.mpr ⟨event, hevent, hm⟩)

/-! ### Along a run -/

theorem after (h : Renamed r o o') (events : List Event) :
    Renamed r (o.after events) (o'.after (events.map (Event.rename r))) :=
  ⟨h.report, by rw [Outcome.after, h.events, Outcome.after, List.map_append]⟩

theorem entering {go go' : Stage → Outcome} (h : Renamed r (go stage) (go' stage)) :
    Renamed r (Audit.entering stage go) (Audit.entering stage go') := h.after [.stageEntered stage]

theorem nothing : Renamed r (Outcome.nothing stage reason) (Outcome.nothing stage reason) := ⟨.none, rfl⟩

theorem failed (error : Error) : Renamed r ((Outcome.nothing stage reason).after [.stageFailed stage error.message])
    ((Outcome.nothing stage reason).after [.stageFailed stage error.message]) := nothing.after _

end Renamed
end Outcome

theorem renamed_complete (hr : r.Injective) (ht : t.Renamed r t') (hg : g.Renamed r g') :
    (complete (assemble (.ofTree t) g ⟨Community.detect s.community g, g.centrality, g.density⟩)).Renamed r
      (complete (assemble (.ofTree t') g' ⟨Community.detect s.community g', g'.centrality, g'.density⟩)) := by
  have hcommunities := hg.communities_detect hr s.community
  obtain ⟨hdegree, hincoming, houtgoing⟩ := hg.centrality (α := Float) hr
  constructor
  case report =>
    refine .some ⟨ht, hg, hg.modularity_detect hr s.community, hcommunities, hg.density, hdegree, hincoming, houtgoing,
      ht.couplings hr, ?_, rfl, ht.orphans hr, ht.leaves⟩
    exact (ht.graph hr).cycles hr
  case events =>
    have hcount : Community.Partition.countOf (Community.detect s.community g').communities =
        Community.Partition.countOf (Community.detect s.community g).communities := by
      rw [Community.Partition.countOf, hcommunities.values, List.map_id, Community.Partition.countOf]
    simp only [complete, assemble, Report.communityCount, hg.nodeCount, hg.edgeCount, hcount, List.map_cons, List.map_nil,
      Event.rename]

/-- The metrics of a renamed graph are those of the graph, or cannot be had for the same reason. -/
theorem computeMetrics_cases_renamed (hr : r.Injective) (hg : g.Renamed r g') :
    (∃ error, computeMetrics s g = .error error ∧ computeMetrics s g' = .error error) ∨
      (computeMetrics s g = .ok ⟨Community.detect s.community g, g.centrality, g.density⟩ ∧
        computeMetrics s g' = .ok ⟨Community.detect s.community g', g'.centrality, g'.density⟩) := by
  rw [computeMetrics_eq, computeMetrics_eq]
  cases Settings.checkTuning s.community with
  | error error => exact Or.inl ⟨error, rfl, rfl⟩
  | ok _ =>
    dsimp only
    rw [hg.modularity_detect hr]
    split_ifs
    · exact Or.inr ⟨rfl, rfl⟩
    · exact Or.inl ⟨_, rfl, rfl⟩

theorem renamed_runGraph (hr : r.Injective) (ht : t.Renamed r t') (hg : g.Renamed r g') :
    (runGraph s (.ofTree t) g stage).Renamed r (runGraph s (.ofTree t') g' stage) := by
  rw [runGraph, runGraph]
  rcases computeMetrics_cases_renamed (s := s) hr hg with ⟨error, hm, hm'⟩ | ⟨hm, hm'⟩
  · rw [hm, hm']
    exact .failed error
  · rw [hm, hm', guarded_of_ok, guarded_of_ok]
    exact .entering (renamed_complete hr ht hg)

theorem resolvePositions_ofTree (s : Settings) (source : LayoutSource) (t : Tree) :
    resolvePositions s source (.ofTree t) =
      if s.layoutRequired then .error (.layout "no layout diagram supplied")
      else .ok (∅, [.layoutUnavailable "no layout diagram supplied"]) := rfl

theorem drops_renamed (hr : r.Injective) (ht : t.Renamed r t') : drops t' = (drops t).map (Event.rename r) := by
  rw [drops, ht.listing, Graph.unknown_rename hr, List.map_map, drops, List.map_map]
  rfl

theorem renamed_runListing (hr : r.Injective) (ht : t.Renamed r t') :
    (runListing s source (.ofTree t) stage).Renamed r (runListing s source (.ofTree t') stage) := by
  rw [runListing, runListing, resolvePositions_ofTree, resolvePositions_ofTree]
  cases s.layoutRequired with
  | true => exact .failed _
  | false =>
    have hbuilt (t : Tree) : buildGraph t.listing ∅ = .ok t.graph := by
      rw [buildGraph_listing, funext ModuleMap.get?_empty, Tree.graph]
    change Outcome.Renamed r (Outcome.after _ (guarded stage _ (buildGraph t.listing ∅) _))
      (Outcome.after _ (guarded stage _ (buildGraph t'.listing ∅) _))
    rw [hbuilt, hbuilt, guarded_of_ok, guarded_of_ok]
    refine Outcome.Renamed.after ?_ [.layoutUnavailable _]
    change Outcome.Renamed r (Outcome.after (drops t) _) (Outcome.after (drops t') _)
    rw [drops_renamed hr ht]
    exact .after (.entering (renamed_runGraph hr ht (ht.graph hr))) _

theorem renamed_run (s : Settings) (source : LayoutSource) (hr : r.Injective) (ht : t.Renamed r t') :
    (run s source (.ok (.ofTree t))).Renamed r (run s source (.ok (.ofTree t'))) := by
  rw [run, run]
  refine .entering ?_
  rw [guarded_of_ok, guarded_of_ok]
  change Outcome.Renamed r (if t.isEmpty then _ else _) (if t'.isEmpty then _ else _)
  rw [ht.isEmpty]
  split
  · exact .nothing
  · exact .entering (renamed_runListing hr ht)

/-- Only names of the tree are told of: a renaming of all others leaves the tree as it is, and so the run. -/
theorem names_run_subset (s : Settings) (source : LayoutSource) (t : Tree) :
    (run s source (.ok (.ofTree t))).names ⊆ t.names := by
  obtain ⟨r, hr, hkept, honly⟩ := exists_injective (Set.injOn_id {m | m ∈ t.names})
  have hsame := (renamed_run s source hr (Tree.renamed_self hkept)).names
  exact fun m hm => honly m (Lists.map_eq_self_iff.mp hsame.symm m hm)

/-- Nothing depends on the order in which the names of a list are gone through, once they are taken together, nor on the
    order in which components are found, and the modules in them. -/
structure Unordered (t : Tree) : Prop where
  couplings : ∀ imports : List String, imports.Perm (t.toList.flatMap (·.2.eraseDups)) →
    t.couplingsOver imports = t.couplings
  cycles : ∀ parts, t.graph.SplitsInto parts → t.graph.cyclesAmong parts = t.graph.cycles

/-- A run over a tree with new names has the report and the events of the run over the tree, under the new names; all
    that matters besides is the order of declaration. -/
theorem run_rename (s : Settings) (source : LayoutSource) (h : Set.InjOn r {m | m ∈ t.names}) :
    (run s source (.ok (.ofTree t))).Renamed r (run s source (.ok (.ofTree (t.rename r)))) ∧ Unordered t := by
  refine ⟨?_, fun imports h => Tree.couplingsOver_eq h, fun parts h => Graph.cyclesAmong_eq_cycles h⟩
  obtain ⟨r', hr', hnew, -⟩ := exists_injective h
  have hrun := renamed_run s source hr' (Tree.renamed_rename hr' t)
  rw [Tree.rename_congr hnew] at hrun
  exact hrun.congr fun m hm => hnew m (names_run_subset s source t hm)

/-- Two modules that depend on each other, with a loop, a repetition and an unlisted name, and one by itself. -/
def looped : Tree := .ofList [("b", ["a", "a", "x"]), ("a", ["b", "a"]), ("c", [])]

/-- New names that sort the other way round. -/
def reversed : String → String
  | "a" => "d"
  | "b" => "c"
  | "c" => "b"
  | _ => "a"

theorem looped_run_reversed : Set.InjOn reversed {m | m ∈ looped.names} ∧
    (run {} (fun _ => .ok none) (.ok (.ofTree looped))).report.isSome ∧
    (Extracted.ofTree (looped.rename reversed)).cycles = [["c", "d"]] ∧
    (run {} (fun _ => .ok none) (.ok (.ofTree looped))).Renamed reversed
      (run {} (fun _ => .ok none) (.ok (.ofTree (looped.rename reversed)))) := by
  have hapart : ∀ a ∈ looped.names, ∀ b ∈ looped.names, reversed a = reversed b → a = b := by decide +kernel
  have hinj : Set.InjOn reversed {m | m ∈ looped.names} := fun a ha b hb => hapart a ha b hb
  exact ⟨hinj, by decide +kernel, by decide +kernel, (run_rename {} (fun _ => .ok none) hinj).1⟩

end Audit
end ModuleAudit
