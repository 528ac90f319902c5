import ModuleAudit.Proofs.Graph.Basic
import ModuleAudit.Proofs.Lists

/-! The graph of a listing. Its edges are the dependencies between listed modules, each once and in the order in which
    they first stand in the listing. All others lead to a module that is not listed and are the unknown ones. -/

namespace ModuleAudit

namespace Tree

variable {t : Tree} {a b : String} {d : Dependency}

theorem mem_dependencies : (a, b) ∈ t.dependencies ↔ ∃ deps, t.get? a = some deps ∧ b ∈ deps := by
  simp only [dependencies, List.mem_flatMap, List.mem_map, Prod.mk.injEq, ModuleMap.get?_eq_some_iff]
  constructor
  · rintro ⟨⟨_, deps⟩, he, _, hb, rfl, rfl⟩
    exact ⟨deps, he, hb⟩
  · rintro ⟨deps, he, hb⟩
    exact ⟨(a, deps), he, b, hb, rfl, rfl⟩

theorem fst_mem_keys (h : d ∈ t.dependencies) : d.1 ∈ t.keys := by
  obtain ⟨deps, hget, -⟩ := mem_dependencies.mp h
  exact ModuleMap.mem_keys_of_get? hget

end Tree

namespace Graph

variable {g : Graph} {l : Listing} {a b m : String} {position : String → Option Position}

theorem edges_addNode (g : Graph) (m : String) (p : Option Position) : (g.addNode m p).edges = g.edges := by
  unfold addNode
  split <;> rfl

theorem edges_foldl_addNode (ms : List String) :
    ∀ g : Graph, (ms.foldl (fun g m => g.addNode m (position m)) g).edges = g.edges := by
  induction ms with
  | nil => exact fun _ => rfl
  | cons m ms ih =>
    intro g
    rw [List.foldl_cons, ih, edges_addNode]

theorem admits_iff : g.admits a b = true ↔ (a ∈ g.modules ∧ b ∈ g.modules) ∧ ¬g.Edge a b := by
  rw [admits, Bool.and_eq_true, Bool.and_eq_true, Bool.not_eq_true', ← Bool.not_eq_true, hasEdge_iff, hasNode_iff,
    hasNode_iff]

theorem edges_addEdge (g : Graph) (a b : String) :
    (g.addEdge a b).edges = if g.admits a b = true then g.edges ++ [(a, b)] else g.edges := by
  unfold addEdge
  split <;> rfl

/-- Whether a listing lists both ends of a dependency. -/
def known (modules : List String) (d : Dependency) : Bool := modules.contains d.1 && modules.contains d.2

theorem known_iff {modules : List String} {d : Dependency} :
    known modules d = true ↔ d.1 ∈ modules ∧ d.2 ∈ modules := by
  simp [known]

/-- Adding dependencies one by one appends the known ones that are new. -/
theorem edges_foldl_addEdge (ds : List Dependency) : ∀ g : Graph,
    (ds.foldl (fun g d => g.addEdge d.1 d.2) g).edges = (g.edges ++ ds.filter (known g.modules)).eraseDups := by
  induction ds with
  | nil =>
    intro g
    simp [Lists.eraseDups_of_nodup g.edges_nodup]
  | cons d ds ih =>
    intro g
    rw [List.foldl_cons, ih, modules_addEdge, edges_addEdge]
    by_cases hknown : known g.modules d = true
    · rw [List.filter_cons_of_pos hknown]
      by_cases hedge : g.Edge d.1 d.2
      · -- The edge is there already, so that the list loses `d` anyway.
        rw [if_neg fun h => (admits_iff.mp h).2 hedge, Lists.eraseDups_append_cons_of_mem hedge]
      · rw [if_pos (admits_iff.mpr ⟨known_iff.mp hknown, hedge⟩), List.append_assoc, List.singleton_append]
    · rw [List.filter_cons_of_neg hknown, if_neg fun h => hknown (known_iff.mpr (admits_iff.mp h).1)]

theorem edges_ofListing (l : Listing) (position : String → Option Position) :
    (ofListing l position).edges = (l.dependencies.filter (known l.modules)).eraseDups := by
  have hknown : known (ofListing l position).modules = known l.modules := by
    funext d
    rw [Bool.eq_iff_iff, known_iff, known_iff, mem_modules_ofListing, mem_modules_ofListing]
  rw [ofListing, modules_foldl_addEdge] at hknown
  rw [ofListing, edges_foldl_addEdge, edges_foldl_addNode, hknown]
  rfl

theorem unknown_eq (l : Listing) : unknown l = l.dependencies.filter fun d => !known l.modules d := rfl

section Tree
variable {t : Tree} {d : Dependency}

theorem known_of_mem (h : d ∈ t.dependencies) : known t.keys d = true ↔ d.2 ∈ t.keys := by
  rw [known_iff]
  exact and_iff_right (Tree.fst_mem_keys h)

/-- The edges of a tree's graph are the dependencies on listed modules. -/
theorem mem_edges_listing : d ∈ (ofListing t.listing position).edges ↔ d ∈ t.dependencies ∧ d.2 ∈ t.keys := by
  rw [edges_ofListing, List.mem_eraseDups, List.mem_filter]
  exact and_congr_right fun h => known_of_mem h

/-- The unknown dependencies of a tree are those on modules that are not listed. -/
theorem unknown_listing (t : Tree) : unknown t.listing = t.dependencies.filter fun d => !t.keys.contains d.2 := by
  rw [unknown_eq]
  refine List.filter_congr fun d hd => ?_
  have h := known_of_mem (t := t) hd
  rw [← List.contains_iff_mem] at h
  exact congrArg _ (Bool.eq_iff_iff.mpr h)

end Tree
end Graph
end ModuleAudit
