import ModuleAudit.Proofs.Audit.Course
import ModuleAudit.Proofs.Community.Finite
import ModuleAudit.Proofs.Graph.Unplaced
import ModuleAudit.Proofs.Metric.Density

/-! What a resolution costs. Settings are accepted with every resolution that is finite and positive, and a run with
    accepted settings can lack its report for one reason only: the modularity is not finite. That does not happen when
    the resolution is enough for the number of edges, and it always happens when the resolution is too small to be
    divided by and there is an edge. -/

namespace ModuleAudit

open Floating

namespace Audit

variable {s : Settings} {source : LayoutSource} {x : Extracted} {g : Graph}

/-! ### Settings that are accepted -/

theorem checkTuning_of_validate (h : s.validate = .ok ()) : Settings.checkTuning s.community = .ok () := by
  rw [Settings.validate] at h
  cases hcheck : Settings.checkTuning s.community with
  | ok u => rfl
  | error e =>
    rw [hcheck] at h
    cases h

/-- An accepted resolution is finite and positive. -/
theorem resolution_of_validate (h : s.validate = .ok ()) :
    s.community.resolution.isFinite = true ∧ 0 < value s.community.resolution := by
  have hcheck := checkTuning_of_validate h
  rw [Settings.checkTuning, Community.Tuning.fault?] at hcheck
  split at hcheck
  · cases hcheck
  next hnone =>
    split at hnone
    · cases hnone
    next hgood =>
      rw [Bool.not_eq_true', Bool.not_eq_false, Bool.and_eq_true] at hgood
      exact ⟨hgood.1, (less_zero_iff hgood.1).mp hgood.2⟩

/-! ### Runs with accepted settings -/

/-- Metrics are computed exactly when modularity is finite. -/
theorem computeMetrics_cases (h : s.validate = .ok ()) (g : Graph) :
    ((Community.detect s.community g).modularity.isFinite = true ∧ ∃ m, computeMetrics s g = .ok m) ∨
      (Community.detect s.community g).modularity.isFinite = false ∧ ∃ e, computeMetrics s g = .error e := by
  rw [computeMetrics_eq, checkTuning_of_validate h]
  dsimp only
  cases hfinite : (Community.detect s.community g).modularity.isFinite with
  | false => exact Or.inr ⟨rfl, _, rfl⟩
  | true => exact Or.inl ⟨rfl, _, rfl⟩

/-- What a resolution decides about a run over a tree. -/
structure Decided (s : Settings) (tree : Tree) (o : Outcome) : Prop where
  finite : o.report.isSome ↔ (Community.detect s.community tree.graph).modularity.isFinite = true
  /-- A run without a report failed to compute the metrics, and no other stage fails. -/
  failed : o.report = none ↔ ∃ message, .stageFailed .graphBuilt message ∈ o.events
  stage : ∀ stage message, .stageFailed stage message ∈ o.events → stage = .graphBuilt
  enough : tree.graph.edgeCount ≤ 2 ^ 53 →
    16 * (tree.graph.edgeCount : ℚ) ^ 2 ≤ limit * value s.community.resolution → o.report.isSome
  tooSmall : 0 < tree.graph.edgeCount → tree.graph.edgeCount ≤ 2 ^ 53 →
    limit * value s.community.resolution ≤ 1 → o.report = none

/-- A run with accepted settings is completed, or its metrics are not computed; modularity tells which. -/
theorem Course.accepted_cases {o : Outcome} (h : Course s source (.ok x) o) (hvalid : s.validate = .ok ())
    (hrequired : s.layoutRequired = false) (hlisted : x.tree.isEmpty = false)
    (hsource : ∀ d, x.diagram = some d → ∃ layout, source d = .ok layout) :
    ((Community.detect s.community x.tree.graph).modularity.isFinite = true ∧ o.report.isSome ∧
        ∀ stage message, .stageFailed stage message ∉ o.events) ∨
      ((Community.detect s.community x.tree.graph).modularity.isFinite = false ∧ o.report = none ∧
        (∃ message, .stageFailed .graphBuilt message ∈ o.events) ∧
        ∀ stage message, .stageFailed stage message ∈ o.events → stage = .graphBuilt) := by
  cases h with
  | unextracted extracted => cases extracted
  | bare empty =>
    rw [hlisted] at empty
    cases empty
  | unplaced _ placed =>
    obtain ⟨p, hp⟩ := exists_positions hrequired hsource
    rw [hp] at placed
    cases placed
  | @unmeasured _ positions _ _ _ placed measured =>
    rcases computeMetrics_cases hvalid (.ofListing x.tree.listing positions.get?) with ⟨-, m, hm⟩ | ⟨hfinite, -⟩
    · rw [hm] at measured
      cases measured
    · rw [Graph.detect_listing] at hfinite
      refine Or.inr ⟨hfinite, rfl, ⟨_, List.mem_append_right _ (List.mem_cons_of_mem _ List.mem_cons_self)⟩, ?_⟩
      intro stage message hmem
      replace hmem := failed_of_mem_built placed hmem
      simp only [List.mem_cons, List.not_mem_nil, Event.stageFailed.injEq, reduceCtorEq, or_false, false_or] at hmem
      exact hmem.1
  | @completed _ positions _ _ _ _ placed measured =>
    rcases computeMetrics_cases hvalid (.ofListing x.tree.listing positions.get?) with ⟨hfinite, -⟩ | ⟨-, e, he⟩
    · rw [Graph.detect_listing] at hfinite
      refine Or.inl ⟨hfinite, rfl, fun stage message hmem => ?_⟩
      replace hmem := failed_of_mem_built placed hmem
      simp at hmem
    · rw [he] at measured
      cases measured

/-- With accepted settings, and without a layout that is required, a run over a listed tree has a report exactly when
    modularity is finite. For any number of edges that a float can count, a resolution that is large enough ensures
    that, and one that is too small rules it out as soon as there is an edge. -/
theorem run_decided (hvalid : s.validate = .ok ()) (hrequired : s.layoutRequired = false)
    (hlisted : x.tree.isEmpty = false) (hsource : ∀ d, x.diagram = some d → ∃ layout, source d = .ok layout) :
    Decided s x.tree (run s source (.ok x)) := by
  obtain ⟨hfinite, hres⟩ := resolution_of_validate hvalid
  have henough := Community.isFinite_detect (g := x.tree.graph) hfinite hres
  have hsmall := Community.not_isFinite_detect (g := x.tree.graph) hfinite hres
  rcases (run_course s source (.ok x)).accepted_cases hvalid hrequired hlisted hsource with
    ⟨hmodularity, hreport, hstage⟩ | ⟨hmodularity, hreport, hfailed, hstage⟩
  · refine ⟨iff_of_true hreport hmodularity, iff_of_false ?_ ?_, ?_, fun _ _ => hreport, ?_⟩
    · exact Option.isSome_iff_ne_none.mp hreport
    · exact fun ⟨message, hmem⟩ => hstage _ message hmem
    · exact fun stage message hmem => absurd hmem (hstage stage message)
    · intro hpos hle h
      rw [hsmall hle hpos h] at hmodularity
      cases hmodularity
  · refine ⟨iff_of_false ?_ ?_, iff_of_true hreport hfailed, hstage, ?_, fun _ _ _ => hreport⟩
    · simp [hreport]
    · simp [hmodularity]
    · intro hle h
      rw [henough hle h] at hmodularity
      cases hmodularity

/-! ### A run without a report -/

/-- Two modules, one of which imports the other. -/
def tiny : Extracted := .ofTree (.ofList [("a", ["b"]), ("b", [])])

theorem tiny_decided : Settings.validate {} = .ok () ∧ ({} : Settings).layoutRequired = false ∧
    tiny.tree.isEmpty = false ∧ Decided {} tiny.tree (run {} (fun _ => .ok none) (.ok tiny)) := by
  have hvalid : Settings.validate {} = .ok () := by rfl
  have hlisted : tiny.tree.isEmpty = false := by decide +kernel
  exact ⟨hvalid, rfl, hlisted, run_decided hvalid rfl hlisted fun _ _ => ⟨none, rfl⟩⟩

/-- The smallest positive resolution. -/
def smallest : Settings := { community := ⟨5e-324, 100⟩ }

theorem validate_smallest : smallest.validate = .ok () := by
  have hok : smallest.validate.isOk = true := by decide +kernel
  cases h : smallest.validate with
  | ok u => rfl
  | error e =>
    rw [h] at hok
    cases hok

/-- The smallest positive resolution is accepted, and costs the report. -/
theorem smallest_without_report : ¬∀ (s : Settings) (source : LayoutSource) (x : Extracted),
    s.validate = .ok () → s.layoutRequired = false → x.tree.isEmpty = false →
      (∀ d, x.diagram = some d → ∃ layout, source d = .ok layout) → (run s source (.ok x)).report.isSome = true := by
  intro h
  have hlisted : tiny.tree.isEmpty = false := by decide +kernel
  have hsome := h smallest (fun _ => .ok none) tiny validate_smallest rfl hlisted fun _ _ => ⟨none, rfl⟩
  have hnone : (run smallest (fun _ => .ok none) (.ok tiny)).report.isSome = false := by decide +kernel
  rw [hnone] at hsome
  cases hsome

end Audit
end ModuleAudit
