import ModuleAudit.Metric.Coupling
import ModuleAudit.Proofs.Graph.Degrees

/-! Coupling agrees with the graph. Coupling is counted on the names in the lists of a tree, and the graph is built
    without its unknown dependencies; still both count the same things. Afferent coupling is the number of edges that
    enter a module, and efferent coupling the number of those that leave it and of the unlisted names in its list. -/

namespace ModuleAudit

namespace Tree

variable {t : Tree} {m : String} {deps : List String}

/-! ### Counting importers -/

theorem getD_foldl_countImporter (names : List String) (m : String) : ∀ counts : Std.TreeMap String Nat,
    (names.foldl countImporter counts).getD m 0 = counts.getD m 0 + names.count m := by
  induction names with
  | nil => simp
  | cons n names ih =>
    intro counts
    rw [List.foldl_cons, ih, countImporter, Std.TreeMap.getD_insert, List.count_cons]
    by_cases hn : n = m
    · subst hn
      simp only [Std.ReflCmp.compare_self, if_true, beq_self_eq_true]
      omega
    · simp [hn]

/-- A pass through the entries adds one for each list in which the name stands. -/
theorem getD_foldl_importers (es : List (String × List String)) (m : String) : ∀ counts : Std.TreeMap String Nat,
    (es.foldl (fun counts e => e.2.eraseDups.foldl countImporter counts) counts).getD m 0 =
      counts.getD m 0 + (es.filter fun e => m ∈ e.2).length := by
  induction es with
  | nil => simp
  | cons e es ih =>
    intro counts
    rw [List.foldl_cons, ih, getD_foldl_countImporter, (Lists.nodup_eraseDups e.2).count, List.filter_cons]
    by_cases hm : m ∈ e.2
    · simp only [List.mem_eraseDups, hm, if_true, decide_true, List.length_cons]
      omega
    · simp [hm]

theorem getD_importers (t : Tree) (m : String) : t.importers.getD m 0 = (t.toList.filter fun e => m ∈ e.2).length := by
  rw [importers, getD_foldl_importers]
  simp

/-! ### The coupling of a module -/

theorem get?_couplings (h : t.get? m = some deps) :
    t.couplings.get? m = some (.ofCounts deps.eraseDups.length (t.importers.getD m 0)) := by
  rw [couplings, ModuleMap.get?_rebuild, h]
  rfl

theorem length_eraseDups_eq_card (l : List String) : l.eraseDups.length = l.toFinset.card := by
  rw [← List.toFinset_card_of_nodup (Lists.nodup_eraseDups l)]
  congr 1
  ext a
  simp

/-- The coupling of a module with the dependencies `deps`, counted in the graph `g` and in the tree. -/
structure CountedIn (t : Tree) (g : Graph) (m : String) (deps : List String) (c : Coupling) : Prop where
  afferent_inDegree : c.afferent = g.inDegree m
  afferent_importers : c.afferent = (t.toList.filter fun e => m ∈ e.2).length
  efferent_outDegree : c.efferent = g.outDegree m + {b ∈ deps.toFinset | b ∉ t.keys}.card
  efferent_distinct : c.efferent = deps.toFinset.card

theorem countedIn_graph (h : t.get? m = some deps) (position : String → Option Position) :
    t.CountedIn (.ofListing t.listing position) m deps (.ofCounts deps.eraseDups.length (t.importers.getD m 0)) where
  afferent_inDegree := by
    rw [Graph.inDegree_listing (ModuleMap.mem_keys_of_get? h)]
    exact getD_importers t m
  afferent_importers := getD_importers t m
  efferent_outDegree := by
    rw [Graph.outDegree_listing h, Finset.card_filter_add_card_filter_not]
    exact length_eraseDups_eq_card deps
  efferent_distinct := length_eraseDups_eq_card deps

/-! ### The coupling of all modules -/

theorem values_couplings (t : Tree) :
    t.couplings.values = t.toList.map fun e => Coupling.ofCounts e.2.eraseDups.length (t.importers.getD e.1 0) := by
  rw [couplings, ModuleMap.values, ModuleMap.toList_rebuild, List.map_map]
  rfl

theorem sum_afferent (t : Tree) (position : String → Option Position) :
    (t.couplings.values.map Coupling.afferent).sum = (Graph.ofListing t.listing position).edgeCount := by
  rw [← Graph.sum_map_inDegree, Graph.modules_listing, values_couplings, ModuleMap.keys, List.map_map, List.map_map]
  refine congrArg List.sum (List.map_congr_left fun e he => ?_)
  exact (countedIn_graph (ModuleMap.get?_eq_some_iff.mpr he) position).afferent_inDegree

/-- Every distinct dependency leaves one module of the tree. -/
theorem sum_efferent (t : Tree) :
    (t.couplings.values.map Coupling.efferent).sum = t.dependencies.toFinset.card := by
  have hends : ∀ d ∈ t.dependencies.toFinset, d.1 ∈ t.keys.toFinset := fun d hd =>
    List.mem_toFinset.mpr (fst_mem_keys (List.mem_toFinset.mp hd))
  rw [Finset.card_eq_sum_card_fiberwise hends, List.sum_toFinset _ t.keys_nodup, values_couplings, ModuleMap.keys,
    List.map_map, List.map_map]
  refine congrArg List.sum (List.map_congr_left fun e he => ?_)
  have hcard := card_imported (ModuleMap.get?_eq_some_iff.mpr he) fun _ => True
  simp only [true_and, Finset.filter_true] at hcard
  rw [Function.comp_apply, Function.comp_apply, hcard]
  exact length_eraseDups_eq_card e.2

/-- Every dependency is on a listed module. -/
def Closed (t : Tree) : Prop := ∀ d ∈ t.dependencies, d.2 ∈ t.keys

theorem Closed.unknown_eq_nil (h : t.Closed) : Graph.unknown t.listing = [] := by
  rw [Graph.unknown_listing, List.filter_eq_nil_iff]
  intro d hd
  simpa using h d hd

/-- The couplings of a tree agree with its graph, wherever its modules stand in a diagram: module by module, and in
    all. Their sums differ by the distinct unknown dependencies, of which a closed tree has none. -/
theorem couplings_agree (t : Tree) (position : String → Option Position) :
    let g := Graph.ofListing t.listing position
    let afferent := (t.couplings.values.map Coupling.afferent).sum
    let efferent := (t.couplings.values.map Coupling.efferent).sum
    (∀ m deps, t.get? m = some deps → ∃ c, t.couplings.get? m = some c ∧ t.CountedIn g m deps c) ∧
      t.couplings.keys = t.keys ∧
      afferent = g.edgeCount ∧
      efferent = g.edgeCount + (Graph.unknown t.listing).toFinset.card ∧
      (t.Closed → efferent = g.edgeCount ∧ afferent = g.edgeCount) := by
  intro g afferent efferent
  have hafferent : afferent = g.edgeCount := sum_afferent t position
  have hefferent : efferent = g.edgeCount + (Graph.unknown t.listing).toFinset.card :=
    (sum_efferent t).trans (Graph.card_dependencies t position)
  refine ⟨fun m deps h => ⟨_, get?_couplings h, countedIn_graph h position⟩, ?_, hafferent, hefferent,
    fun hclosed => ?_⟩
  · exact ModuleMap.keys_rebuild _ _
  · rw [hclosed.unknown_eq_nil] at hefferent
    exact ⟨hefferent, hafferent⟩

/-- A module that lists another one twice and itself once, and one that lists the first. -/
def tangled : Tree := .ofList [("a", ["b", "b", "a"]), ("b", ["a"])]

theorem tangled_agrees :
    tangled.get? "a" = some ["b", "b", "a"] ∧ tangled.Closed ∧
      (∃ c, tangled.couplings.get? "a" = some c ∧
        tangled.CountedIn (.ofListing tangled.listing fun _ => none) "a" ["b", "b", "a"] c) ∧
      (tangled.couplings.values.map Coupling.efferent).sum =
        (Graph.ofListing tangled.listing fun _ => none).edgeCount ∧
      (tangled.couplings.values.map Coupling.afferent).sum =
        (Graph.ofListing tangled.listing fun _ => none).edgeCount := by
  have hget : tangled.get? "a" = some ["b", "b", "a"] := by decide +kernel
  have hclosed : tangled.Closed := by
    unfold Closed
    decide +kernel
  obtain ⟨hcounted, -, -, -, hsums⟩ := couplings_agree tangled fun _ => none
  exact ⟨hget, hclosed, hcounted "a" _ hget, hsums hclosed⟩

end Tree
end ModuleAudit
