import Mathlib.Data.Prod.Basic
import ModuleAudit.Proofs.Graph.Listing

/-! Nothing of a listing is lost. Every dependency that stands in it is reported as unknown or is an edge, and not both,
    although the unknown ones are told from the others in a pass of their own, with repetitions. The graph itself sees
    neither repetitions nor what leads to unlisted modules. -/

namespace ModuleAudit

/-- The dependencies of one module, in their order. -/
theorem Tree.filter_dependencies (t : Tree) (m : String) :
    t.dependencies.filter (·.1 == m) = ((t.get? m).getD []).map (Prod.mk m) := by
  have hrow (e : String × List String) :
      (e.2.map fun d => (e.1, d)).filter (·.1 == m) = if (e.1 == m) = true then e.2.map (Prod.mk m) else [] := by
    rw [List.filter_map]
    split_ifs with he
    · obtain rfl := beq_iff_eq.mp he
      rw [List.filter_eq_self.mpr fun d _ => by simp]
    · rw [List.filter_eq_nil_iff.mpr fun d _ => by simpa using he, List.map_nil]
  rw [dependencies, List.filter_flatMap]
  simp only [hrow]
  rw [Lists.flatMap_ite (fun e : String × List String => e.1 == m)]
  cases hget : t.get? m with
  | none =>
    have hm := ModuleMap.get?_eq_none_iff.mp hget
    rw [List.filter_eq_nil_iff.mpr]
    · rfl
    · intro e he hem
      exact hm (beq_iff_eq.mp hem ▸ List.mem_map_of_mem he)
  | some deps =>
    rw [Lists.filter_fst_eq t.keys_nodup (ModuleMap.get?_eq_some_iff.mp hget), List.flatMap_singleton]
    rfl

namespace Graph

variable {l : Listing} {position : String → Option Position} {d : Dependency}

/-! ### Known and unknown dependencies -/

theorem known_eq_hasNode (l : Listing) (position : String → Option Position) (d : Dependency) :
    known l.modules d = ((ofListing l position).hasNode d.1 && (ofListing l position).hasNode d.2) := by
  rw [Bool.eq_iff_iff, known_iff, Bool.and_eq_true, hasNode_iff, hasNode_iff, mem_modules_ofListing,
    mem_modules_ofListing]

theorem hasEdge_ofListing :
    (ofListing l position).hasEdge d.1 d.2 = true ↔ d ∈ l.dependencies ∧ known l.modules d = true := by
  rw [hasEdge_iff, Edge, edges_ofListing, List.mem_eraseDups, List.mem_filter]

theorem mem_unknown : d ∈ unknown l ↔ d ∈ l.dependencies ∧ known l.modules d = false := by
  rw [unknown_eq, List.mem_filter, Bool.not_eq_true']

theorem count_unknown (l : Listing) (position : String → Option Position) (d : Dependency) :
    (unknown l).count d = if (ofListing l position).hasEdge d.1 d.2 = true then 0 else l.dependencies.count d := by
  split_ifs with hedge
  · rw [List.count_eq_zero, mem_unknown, (hasEdge_ofListing.mp hedge).2]
    simp
  · by_cases hd : d ∈ l.dependencies
    · have hunknown : known l.modules d = false := by
        simpa using fun hknown => hedge (hasEdge_ofListing.mpr ⟨hd, hknown⟩)
      rw [unknown_eq, List.count_filter (by simp [hunknown])]
    · rw [List.count_eq_zero_of_not_mem hd, List.count_eq_zero_of_not_mem fun h => hd (mem_unknown.mp h).1]

/-! ### What the graph does not see -/

/-- A module that is listed again changes nothing. -/
theorem foldl_addNode_eraseDups (position : String → Option Position) (ms : List String) :
    ms.foldl (fun g m => g.addNode m (position m)) (∅ : Graph) =
      ms.eraseDups.foldl (fun g m => g.addNode m (position m)) (∅ : Graph) := by
  induction ms using List.reverseRecOn with
  | nil => rfl
  | append_singleton ms m ih =>
    rw [List.foldl_append]
    by_cases hm : m ∈ ms
    · have hmem : m ∈ (ms.foldl (fun g m => g.addNode m (position m)) (∅ : Graph)).modules := by
        rw [modules, ModuleMap.keys_of_toList (toList_foldl_addNode position ms), List.mem_eraseDups]
        exact hm
      rw [Lists.eraseDups_append_cons_of_mem hm, List.append_nil, ← ih]
      exact addNode_of_mem hmem (position m)
    · rw [Lists.eraseDups_concat_of_notMem hm, List.foldl_append, ← ih]

/-- Listings give the same graph exactly when they have the same modules and the same known dependencies, repetitions
    apart. -/
theorem ofListing_eq_iff (l l' : Listing) (position : String → Option Position) :
    ofListing l' position = ofListing l position ↔
      l'.modules.eraseDups = l.modules.eraseDups ∧
        (l'.dependencies.filter (known l'.modules)).eraseDups = (l.dependencies.filter (known l.modules)).eraseDups := by
  constructor
  · intro h
    rw [← modules_ofListing l' position, ← modules_ofListing l position, ← edges_ofListing l' position,
      ← edges_ofListing l position, h]
    exact ⟨rfl, rfl⟩
  · rintro ⟨hmodules, hedges⟩
    refine eq_of_parts ?_ ?_
    · rw [ofListing, ofListing, nodes_foldl_addEdge, nodes_foldl_addEdge, foldl_addNode_eraseDups, hmodules,
        ← foldl_addNode_eraseDups]
    · rw [edges_ofListing, edges_ofListing, hedges]

/-- A module of a tree leads to the listed modules in its list, each where it stands first. -/
theorem successors_listing (t : Tree) (position : String → Option Position) (m : String) :
    (ofListing t.listing position).successors m = (((t.get? m).getD []).filter t.contains).eraseDups := by
  have hknown : t.dependencies.filter (known t.keys) = t.dependencies.filter fun d => t.contains d.2 := by
    refine List.filter_congr fun d hd => ?_
    rw [Bool.eq_iff_iff, known_of_mem hd, ModuleMap.contains_iff]
  have hinj : Function.Injective (Prod.mk m : String → Dependency) := Prod.mk_right_injective m
  calc (ofListing t.listing position).successors m
      = ((((t.dependencies.filter fun d => t.contains d.2).eraseDups).filter (·.1 == m)).map Prod.snd) := by
        rw [successors, edges_ofListing, ← hknown]
        rfl
    _ = ((((t.dependencies.filter (·.1 == m)).filter fun d => t.contains d.2).eraseDups).map Prod.snd) := by
        rw [Lists.filter_eraseDups, List.filter_comm]
    _ = (((((t.get? m).getD []).filter t.contains).map (Prod.mk m)).eraseDups.map Prod.snd) := by
        rw [Tree.filter_dependencies, List.filter_map]
        rfl
    _ = (((t.get? m).getD []).filter t.contains).eraseDups := by
        rw [Lists.eraseDups_map _ fun a _ b _ hab => hinj hab, List.map_map]
        exact List.map_id _

/-! ### The account of a listing -/

/-- A graph with the dependencies that were reported as unknown, against the listing that they come from. -/
structure Accounts (l : Listing) (position : String → Option Position) (g : Graph) (reported : List Dependency) :
    Prop where
  nodes : g.nodes.toList = l.modules.eraseDups.map fun m => (m, position m)
  hasNode : ∀ m, g.hasNode m = true ↔ m ∈ l.modules
  edges : g.edges = (l.dependencies.filter fun d => g.hasNode d.1 && g.hasNode d.2).eraseDups
  unknown : reported = l.dependencies.filter fun d => !(g.hasNode d.1 && g.hasNode d.2)
  either : ∀ d ∈ l.dependencies, d ∈ reported ↔ ¬g.Edge d.1 d.2
  count : ∀ d, reported.count d = if g.hasEdge d.1 d.2 = true then 0 else l.dependencies.count d

theorem accounts_ofListing (l : Listing) (position : String → Option Position) :
    Accounts l position (ofListing l position) (unknown l) where
  nodes := toList_nodes_ofListing l position
  hasNode m := hasNode_iff.trans mem_modules_ofListing
  edges := by
    rw [edges_ofListing, funext (known_eq_hasNode l position)]
  unknown := by
    rw [unknown_eq, funext (known_eq_hasNode l position)]
  either d hd := by
    rw [← hasEdge_iff, hasEdge_ofListing, mem_unknown]
    simp [hd]
  count := count_unknown l position

/-- The graph of a listing has its modules, each once and where it is put, and its known dependencies, each once; all
    others are reported as often as they stand there. The graph depends on nothing else, and of a tree each module leads
    to the listed modules in its list. -/
theorem listing_accounted (l : Listing) (position : String → Option Position) :
    Accounts l position (ofListing l position) (unknown l) ∧
      (∀ l' : Listing, ofListing l' position = ofListing l position ↔
        l'.modules.eraseDups = l.modules.eraseDups ∧
          (l'.dependencies.filter (known l'.modules)).eraseDups =
            (l.dependencies.filter (known l.modules)).eraseDups) ∧
      ∀ (t : Tree) (m : String),
        (ofListing t.listing position).successors m = (((t.get? m).getD []).filter t.contains).eraseDups :=
  ⟨accounts_ofListing l position, fun l' => ofListing_eq_iff l l' position,
    fun t m => successors_listing t position m⟩

end Graph
end ModuleAudit
