import ModuleAudit.Audit.Run
import ModuleAudit.Proofs.Graph.Basic
import ModuleAudit.Proofs.Metric.Density

/-! The runs that end with a report. Such a run extracted a tree, built the graph of its listing, and put the report
    together from the extraction, the graph and the metrics of the graph. -/

namespace ModuleAudit.Audit

variable {s : Settings} {source : LayoutSource} {x : Extracted} {r : Report} {stage : Stage} {reason : String}

@[simp]
theorem report_after (events : List Event) (o : Outcome) : (o.after events).report = o.report := rfl

@[simp]
theorem report_nothing : (Outcome.nothing stage reason).report = none := rfl

@[simp]
theorem report_entering (go : Stage → Outcome) : (entering stage go).report = (go stage).report := rfl

/-- A guarded stage leads to a report only through what it yields. -/
theorem report_guarded {α : Type} {body : Attempt α} {go : α → Outcome} :
    (guarded stage reason body go).report = some r ↔ ∃ a, body = .ok a ∧ (go a).report = some r := by
  cases body with
  | ok a => simp [guarded, Attempt.settle]
  | error e => simp [guarded, Attempt.settle]
  | panic p => simp [guarded, Attempt.settle]

theorem buildGraph_eq_ok {l : Listing} {positions : ModuleMap Position} {g : Graph}
    (h : buildGraph l positions = .ok g) : g = Graph.ofListing l positions.get? := by
  rw [buildGraph] at h
  split at h
  · cases h
  · exact (Attempt.ok.inj h).symm

/-- The check of the density never fails, so that only the settings and the modularity can cost the metrics. -/
theorem computeMetrics_eq (s : Settings) (g : Graph) : computeMetrics s g =
    match Settings.checkTuning s.community with
    | .error error => .error error
    | .ok () =>
      let partition := Community.detect s.community g
      if partition.modularity.isFinite then .ok ⟨partition, g.centrality, g.density⟩
      else .error (.metric "modularity" ("non-finite score " ++ Decimal.plain partition.modularity)) := by
  rw [computeMetrics]
  dsimp only
  rw [Graph.isFinite_density]
  cases (Community.detect s.community g).modularity.isFinite <;> rfl

theorem computeMetrics_eq_ok {g : Graph} {m : Metrics} (h : computeMetrics s g = .ok m) :
    m = ⟨Community.detect s.community g, g.centrality, g.density⟩ := by
  rw [computeMetrics_eq] at h
  split at h
  · cases h
  · dsimp only at h
    split at h
    · exact (Attempt.ok.inj h).symm
    · cases h

/-- What a report is put together from. -/
theorem exists_of_report {extraction : Attempt Extracted} (h : (run s source extraction).report = some r) :
    ∃ x positions, extraction = .ok x ∧
      r = assemble x (Graph.ofListing x.tree.listing positions)
        ⟨Community.detect s.community (Graph.ofListing x.tree.listing positions),
          (Graph.ofListing x.tree.listing positions).centrality,
          (Graph.ofListing x.tree.listing positions).density⟩ := by
  rw [run, report_entering, report_guarded] at h
  obtain ⟨x, rfl, h⟩ := h
  split at h
  · cases h
  · rw [report_entering, runListing] at h
    dsimp only at h
    rw [report_guarded] at h
    obtain ⟨⟨positions, told⟩, -, h⟩ := h
    dsimp only at h
    rw [report_after, report_guarded] at h
    obtain ⟨g, hg, h⟩ := h
    rw [report_after, report_entering, runGraph, report_guarded] at h
    obtain ⟨m, hm, h⟩ := h
    rw [buildGraph_eq_ok hg] at h hm
    rw [computeMetrics_eq_ok hm] at h
    exact ⟨x, positions.get?, rfl, (Option.some.inj h).symm⟩

theorem modules_eq_of_report {extraction : Attempt Extracted} (h : (run s source extraction).report = some r) :
    r.graph.modules = r.tree.keys := by
  obtain ⟨x, positions, -, rfl⟩ := exists_of_report h
  exact Graph.modules_listing x.tree positions

end ModuleAudit.Audit
