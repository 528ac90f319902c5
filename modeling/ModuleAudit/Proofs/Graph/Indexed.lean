import Mathlib.Logic.Function.Basic
import ModuleAudit.Proofs.Graph.Ledger

/-! A graph in an arena is the same graph. Of the arena only this is used: a new node has the next number and no edges, a
    new edge comes last among all edges and first among those of its two ends, and nothing else changes. Beside the
    arena the index holds the place of every name, so that the numbers can be turned into names and back. -/

namespace ModuleAudit

/-- What an arena promises, one operation after the other. -/
class LawfulArena (ν : outParam Type) (G : Type) [Arena ν G] : Prop where
  nodeCount_empty : Arena.nodeCount (Arena.empty : G) = 0
  ends_empty : Arena.ends (Arena.empty : G) = []
  number_addNode (g : G) (v : ν) : (Arena.addNode g v).2 = Arena.nodeCount g
  nodeCount_addNode (g : G) (v : ν) : Arena.nodeCount (Arena.addNode g v).1 = Arena.nodeCount g + 1
  node_addNode (g : G) (v : ν) {i : Nat} : i ≤ Arena.nodeCount g →
    Arena.node (Arena.addNode g v).1 i = if i = Arena.nodeCount g then v else Arena.node g i
  ends_addNode (g : G) (v : ν) : Arena.ends (Arena.addNode g v).1 = Arena.ends g
  outgoing_addNode (g : G) (v : ν) {i : Nat} : i ≤ Arena.nodeCount g →
    Arena.outgoing (Arena.addNode g v).1 i = if i = Arena.nodeCount g then [] else Arena.outgoing g i
  incoming_addNode (g : G) (v : ν) {i : Nat} : i ≤ Arena.nodeCount g →
    Arena.incoming (Arena.addNode g v).1 i = if i = Arena.nodeCount g then [] else Arena.incoming g i
  nodeCount_addEdge (g : G) {i j : Nat} : i < Arena.nodeCount g → j < Arena.nodeCount g →
    Arena.nodeCount (Arena.addEdge g i j) = Arena.nodeCount g
  node_addEdge (g : G) {i j k : Nat} : i < Arena.nodeCount g → j < Arena.nodeCount g → k < Arena.nodeCount g →
    Arena.node (Arena.addEdge g i j) k = Arena.node g k
  ends_addEdge (g : G) {i j : Nat} : i < Arena.nodeCount g → j < Arena.nodeCount g →
    Arena.ends (Arena.addEdge g i j) = Arena.ends g ++ [(i, j)]
  outgoing_addEdge (g : G) {i j k : Nat} : i < Arena.nodeCount g → j < Arena.nodeCount g → k < Arena.nodeCount g →
    Arena.outgoing (Arena.addEdge g i j) k = if k = i then j :: Arena.outgoing g k else Arena.outgoing g k
  incoming_addEdge (g : G) {i j k : Nat} : i < Arena.nodeCount g → j < Arena.nodeCount g → k < Arena.nodeCount g →
    Arena.incoming (Arena.addEdge g i j) k = if k = j then i :: Arena.incoming g k else Arena.incoming g k
  edgeCount_eq (g : G) : Arena.edgeCount g = (Arena.ends g).length
  hasEdge_iff (g : G) {i j : Nat} : i < Arena.nodeCount g → j < Arena.nodeCount g →
    (Arena.hasEdge g i j = true ↔ (i, j) ∈ Arena.ends g)

/-! ### Names and numbers -/

namespace Ledger

variable {l : Ledger} {ds : List Dependency} {m : String} {d : Dependency} {i : Nat} {kept kept' : Nat → List Nat}

/-- The places of the two ends of a dependency. -/
def place (l : Ledger) (d : Dependency) : Nat × Nat := (l.names.idxOf d.1, l.names.idxOf d.2)

/-- The places of what the node at a place depends on. -/
def reached (l : Ledger) (ds : List Dependency) (i : Nat) : List Nat :=
  ((ds.map l.place).filter (·.1 == i)).map Prod.snd

theorem getElem?_names (l : Ledger) (i : Nat) : l.names[i]? = l.nodes[i]?.map Prod.fst := List.getElem?_map

theorem length_names (l : Ledger) : l.names.length = l.nodes.length := List.length_map _

theorem idxOf_lt (h : m ∈ l.names) : l.names.idxOf m < l.nodes.length :=
  l.length_names ▸ List.idxOf_lt_length_of_mem h

theorem idxOf_eq_length (h : m ∉ l.names) : l.names.idxOf m = l.nodes.length := by
  rw [List.idxOf_eq_length h, length_names]

theorem Joins.swap (h : l.Joins ds) : l.Joins (ds.map Prod.swap) := by
  intro d hd
  obtain ⟨e, he, rfl⟩ := List.mem_map.mp hd
  exact (h e he).symm

theorem Joins.mem_map_place_iff (h : l.Joins ds) : l.place d ∈ ds.map l.place ↔ d ∈ ds := by
  refine ⟨fun hmem => ?_, List.mem_map_of_mem⟩
  obtain ⟨e, he, hplace⟩ := List.mem_map.mp hmem
  have h1 : e.1 = d.1 := (List.idxOf_inj (h e he).1).mp (congrArg Prod.fst hplace)
  have h2 : e.2 = d.2 := (List.idxOf_inj (h e he).2).mp (congrArg Prod.snd hplace)
  rwa [← Prod.ext h1 h2]

theorem reached_concat (l : Ledger) (ds : List Dependency) (d : Dependency) (i : Nat) : l.reached (ds ++ [d]) i =
    if i = l.names.idxOf d.1 then l.reached ds i ++ [l.names.idxOf d.2] else l.reached ds i := by
  split_ifs with h
  · simp [reached, place, h]
  · simp [reached, place, Ne.symm h]

theorem reached_eq_nil (h : l.Joins ds) (hi : l.nodes.length ≤ i) : l.reached ds i = [] := by
  have hnone : (ds.map l.place).filter (·.1 == i) = [] := by
    refine List.filter_eq_nil_iff.mpr fun e he hei => ?_
    obtain ⟨d, hd, rfl⟩ := List.mem_map.mp he
    exact absurd (beq_iff_eq.mp hei) (Nat.ne_of_lt (Nat.lt_of_lt_of_le (idxOf_lt (h d hd).1) hi))
  rw [reached, hnone, List.map_nil]

theorem map_place_concat (h : l.Joins ds) (v : Node) :
    ds.map ({ l with nodes := l.nodes ++ [v] } : Ledger).place = ds.map l.place := by
  refine List.map_congr_left fun d hd => ?_
  rw [place, names_append, List.idxOf_append_of_mem (h d hd).1, List.idxOf_append_of_mem (h d hd).2, place]

theorem reached_concat_node (h : l.Joins ds) (v : Node) :
    ({ l with nodes := l.nodes ++ [v] } : Ledger).reached ds = l.reached ds := by
  funext i
  rw [reached, map_place_concat h, reached]

/-- For each node the numbers of its dependencies are kept, the latest first. -/
def Kept (l : Ledger) (ds : List Dependency) (kept : Nat → List Nat) : Prop :=
  ∀ i < l.nodes.length, kept i = (l.reached ds i).reverse

theorem Kept.addNode (h : l.Kept ds kept) (hds : l.Joins ds) (v : Node)
    (hkept : ∀ i ≤ l.nodes.length, kept' i = if i = l.nodes.length then [] else kept i) :
    ({ l with nodes := l.nodes ++ [v] } : Ledger).Kept ds kept' := by
  intro i hi
  have hle : i ≤ l.nodes.length := by
    rw [List.length_append] at hi
    exact Nat.le_of_lt_succ hi
  rw [hkept i hle, reached_concat_node hds]
  split_ifs with heq
  · rw [heq, reached_eq_nil hds Nat.le.refl, List.reverse_nil]
  · exact h i (Nat.lt_of_le_of_ne hle heq)

theorem Kept.concat (h : l.Kept ds kept) (d : Dependency)
    (hkept : ∀ i < l.nodes.length, kept' i = if i = l.names.idxOf d.1 then l.names.idxOf d.2 :: kept i else kept i) :
    l.Kept (ds ++ [d]) kept' := by
  intro i hi
  rw [hkept i hi, h i hi, reached_concat]
  split_ifs
  · rw [List.reverse_concat]
  · rfl

end Ledger

namespace Indexed

variable {G : Type} [Arena Node G] {g : Indexed G} {l : Ledger} {ds : List Dependency} {m a b : String}
  {edgesOf : G → Nat → List Nat}

def call (g : Indexed G) : Call → Indexed G × Bool
  | .node m p => g.addNode m p
  | .edge a b => g.addEdge a b

def answers (g : Indexed G) : Answers where
  nodes := g.nodes
  edges := g.edges
  nodeCount := g.nodeCount
  edgeCount := g.edgeCount
  hasNode := g.hasNode
  hasEdge := g.hasEdge
  node? := g.node?
  slot? := g.slot?
  successors := g.successors
  predecessors := g.predecessors
  outDegree := g.outDegree
  inDegree := g.inDegree

/-- The arena holds the lists by number, and the index their names. -/
structure Holds (g : Indexed G) (l : Ledger) : Prop where
  wellFormed : l.WellFormed
  nodeCount : Arena.nodeCount g.arena = l.nodes.length
  node : ∀ i v, l.nodes[i]? = some v → Arena.node g.arena i = v
  index : ∀ m, g.index[m]? = l.names.idxOf? m
  ends : Arena.ends g.arena = l.edges.map l.place
  outgoing : l.Kept l.edges (Arena.outgoing g.arena)
  incoming : l.Kept (l.edges.map Prod.swap) (Arena.incoming g.arena)

theorem call_refused (g : Indexed G) (c : Call) (h : (g.call c).2 = false) : (g.call c).1 = g := by
  cases c with
  | node m p =>
    rw [call, addNode] at h ⊢
    split_ifs at h ⊢
    rfl
  | edge a b =>
    rw [call, addEdge] at h ⊢
    split at h
    · split_ifs at h ⊢
      rfl
    · rfl

namespace Holds

theorem index_of_mem (h : g.Holds l) (hm : m ∈ l.names) : g.index[m]? = some (l.names.idxOf m) := by
  rw [h.index, Lists.idxOf?_of_mem hm]

theorem index_of_notMem (h : g.Holds l) (hm : m ∉ l.names) : g.index[m]? = none := by
  rw [h.index, List.idxOf?_eq_none_iff.mpr hm]

theorem contains_iff (h : g.Holds l) : g.index.contains m = true ↔ m ∈ l.names := by
  rw [Std.TreeMap.contains_eq_isSome_getElem?, h.index, List.isSome_idxOf?]

/-- The node at the place of a name has this name. -/
theorem node_idxOf (h : g.Holds l) (hm : m ∈ l.names) :
    Arena.node g.arena (l.names.idxOf m) ∈ l.nodes ∧ g.name (l.names.idxOf m) = m := by
  have hlt := Ledger.idxOf_lt hm
  have hnode := h.node _ _ (List.getElem?_eq_getElem hlt)
  refine ⟨hnode ▸ List.getElem_mem hlt, ?_⟩
  have hname : l.names[l.names.idxOf m]? = some m := List.getElem?_idxOf hm
  rw [Ledger.getElem?_names, List.getElem?_eq_getElem hlt] at hname
  rw [name, hnode]
  exact Option.some.inj hname

theorem name_idxOf (h : g.Holds l) (hm : m ∈ l.names) : g.name (l.names.idxOf m) = m := (h.node_idxOf hm).2

/-! ### What is asked -/

theorem nodes_eq (h : g.Holds l) : g.nodes = l.nodes := by
  rw [nodes, h.nodeCount]
  refine List.ext_getElem (by simp) fun i hi hi' => ?_
  rw [List.getElem_map, List.getElem_range]
  exact h.node i _ (List.getElem?_eq_getElem hi')

theorem edges_eq (h : g.Holds l) : g.edges = l.edges := by
  rw [edges, h.ends, List.map_map]
  refine Lists.map_eq_self_iff.mpr fun d hd => ?_
  exact Prod.ext (h.name_idxOf (h.wellFormed.ends d hd).1) (h.name_idxOf (h.wellFormed.ends d hd).2)

theorem node?_eq (h : g.Holds l) (m : String) : g.node? m = l.nodes.find? (·.1 == m) := by
  by_cases hm : m ∈ l.names
  · rw [node?, h.index_of_mem hm, eq_comm]
    exact h.wellFormed.find?_eq_some_iff.mpr (h.node_idxOf hm)
  · rw [node?, h.index_of_notMem hm, eq_comm]
    refine List.find?_eq_none.mpr fun v hv hvm => hm ?_
    exact List.mem_map.mpr ⟨v, hv, beq_iff_eq.mp hvm⟩

/-- What the numbers of a node's edges name is what the dependencies say. -/
theorem map_name_reached (h : g.Holds l) (hds : l.Joins ds) (m : String) :
    (l.reached ds (l.names.idxOf m)).map g.name = (ds.filter (·.1 == m)).map Prod.snd := by
  have hfilter : ds.filter ((·.1 == l.names.idxOf m) ∘ l.place) = ds.filter (·.1 == m) := by
    refine List.filter_congr fun d hd => ?_
    rw [Bool.eq_iff_iff, Function.comp_apply, beq_iff_eq, beq_iff_eq]
    exact List.idxOf_inj (hds d hd).1
  rw [Ledger.reached, List.filter_map, hfilter, List.map_map, List.map_map]
  exact List.map_congr_left fun d hd => h.name_idxOf (hds d (List.mem_of_mem_filter hd)).2

/-- The edges that the arena keeps for a node, the latest first, read from the first on. -/
theorem adjacent_eq (h : g.Holds l) (hds : l.Joins ds) (hkept : l.Kept ds (edgesOf g.arena)) (m : String) :
    g.adjacent edgesOf m = (ds.filter (·.1 == m)).map Prod.snd := by
  rw [← h.map_name_reached hds]
  by_cases hm : m ∈ l.names
  · rw [adjacent, h.index_of_mem hm]
    change ((edgesOf g.arena (l.names.idxOf m)).map g.name).reverse = _
    rw [hkept _ (Ledger.idxOf_lt hm), List.map_reverse, List.reverse_reverse]
  · rw [adjacent, h.index_of_notMem hm, Ledger.reached_eq_nil hds (Ledger.idxOf_eq_length hm).ge, List.map_nil]

theorem degree_eq (h : g.Holds l) (hds : l.Joins ds) (hkept : l.Kept ds (edgesOf g.arena)) (m : String) :
    g.degree edgesOf m = ds.countP (·.1 == m) := by
  have hcount : ds.countP (·.1 == m) = (l.reached ds (l.names.idxOf m)).length := by
    rw [List.countP_eq_length_filter, ← List.length_map (f := Prod.snd), ← h.map_name_reached hds, List.length_map]
  rw [hcount]
  by_cases hm : m ∈ l.names
  · rw [degree, h.index_of_mem hm, Option.map_some, Option.getD_some, hkept _ (Ledger.idxOf_lt hm),
      List.length_reverse]
  · rw [degree, h.index_of_notMem hm, Ledger.reached_eq_nil hds (Ledger.idxOf_eq_length hm).ge]
    rfl

variable [LawfulArena Node G]

theorem hasEdge_at (h : g.Holds l) (ha : a ∈ l.names) (hb : b ∈ l.names) :
    Arena.hasEdge g.arena (l.names.idxOf a) (l.names.idxOf b) = true ↔ (a, b) ∈ l.edges := by
  rw [LawfulArena.hasEdge_iff, h.ends, ← h.wellFormed.ends.mem_map_place_iff]
  · rfl
  · exact h.nodeCount ▸ Ledger.idxOf_lt ha
  · exact h.nodeCount ▸ Ledger.idxOf_lt hb

theorem hasEdge_iff (h : g.Holds l) : g.hasEdge a b = true ↔ (a, b) ∈ l.edges := by
  by_cases ha : a ∈ l.names
  · by_cases hb : b ∈ l.names
    · rw [hasEdge, h.index_of_mem ha, h.index_of_mem hb]
      exact h.hasEdge_at ha hb
    · rw [hasEdge, h.index_of_mem ha, h.index_of_notMem hb]
      exact iff_of_false Bool.false_ne_true fun hab => hb (h.wellFormed.ends _ hab).2
  · rw [hasEdge, h.index_of_notMem ha]
    exact iff_of_false Bool.false_ne_true fun hab => ha (h.wellFormed.ends _ hab).1

theorem answers_eq (h : g.Holds l) : g.answers = l.answers := by
  have hedges : g.edgeCount = l.edges.length := by
    rw [edgeCount, LawfulArena.edgeCount_eq, h.ends, List.length_map]
  rw [answers, Ledger.answers, Answers.mk.injEq]
  refine ⟨h.nodes_eq, h.edges_eq, h.nodeCount, hedges, ?_, ?_, ?_, ?_, ?_, ?_, ?_, ?_⟩
  all_goals funext m
  · exact Bool.eq_iff_iff.mpr (h.contains_iff.trans decide_eq_true_iff.symm)
  · exact funext fun b => Bool.eq_iff_iff.mpr (h.hasEdge_iff.trans decide_eq_true_iff.symm)
  · exact h.node?_eq m
  · exact h.index m
  · exact h.adjacent_eq h.wellFormed.ends h.outgoing m
  · rw [predecessors, h.adjacent_eq h.wellFormed.ends.swap h.incoming, List.filter_map, List.map_map]
    rfl
  · exact h.degree_eq h.wellFormed.ends h.outgoing m
  · rw [inDegree, h.degree_eq h.wellFormed.ends.swap h.incoming, List.countP_map]
    rfl

/-! ### What is done -/

theorem empty : (Indexed.empty : Indexed G).Holds .empty where
  wellFormed := Ledger.wellFormed_empty
  nodeCount := LawfulArena.nodeCount_empty
  node _ _ h := by cases h
  index _ := Std.TreeMap.getElem?_emptyc
  ends := LawfulArena.ends_empty
  outgoing _ h := absurd h (Nat.not_lt_zero _)
  incoming _ h := absurd h (Nat.not_lt_zero _)

theorem addNode (h : g.Holds l) (hm : m ∉ l.names) (p : Option Position) :
    Holds ⟨(Arena.addNode g.arena (m, p)).1, g.index.insert m (Arena.addNode g.arena (m, p)).2⟩
      { l with nodes := l.nodes ++ [(m, p)] } := by
  have hsize : (l.nodes ++ [(m, p)]).length = l.nodes.length + 1 := List.length_append
  have hends := h.wellFormed.ends
  constructor
  case wellFormed => simpa [Ledger.call, hm] using Ledger.wellFormed_call h.wellFormed (.node m p)
  case nodeCount => rw [LawfulArena.nodeCount_addNode, h.nodeCount, hsize]
  case node =>
    intro i v hv
    have hi : i < l.nodes.length + 1 := hsize ▸ (List.getElem?_eq_some_iff.mp hv).1
    rw [LawfulArena.node_addNode _ _ (h.nodeCount ▸ Nat.le_of_lt_succ hi), h.nodeCount]
    split_ifs with heq
    · simpa [heq] using hv
    · rw [List.getElem?_append_left (by omega)] at hv
      exact h.node i v hv
  case index =>
    intro n
    rw [Std.TreeMap.getElem?_insert, Ledger.names_append, Lists.idxOf?_concat hm, LawfulArena.number_addNode,
      h.nodeCount, l.length_names, h.index]
    exact if_congr Std.compare_eq_iff_eq rfl rfl
  case ends => rw [LawfulArena.ends_addNode, h.ends, Ledger.map_place_concat hends]
  case outgoing =>
    refine h.outgoing.addNode hends (m, p) fun i hi => ?_
    rw [LawfulArena.outgoing_addNode _ _ (h.nodeCount ▸ hi), h.nodeCount]
  case incoming =>
    refine h.incoming.addNode hends.swap (m, p) fun i hi => ?_
    rw [LawfulArena.incoming_addNode _ _ (h.nodeCount ▸ hi), h.nodeCount]

theorem addEdge (h : g.Holds l) (ha : a ∈ l.names) (hb : b ∈ l.names) (hab : (a, b) ∉ l.edges) :
    Holds { g with arena := Arena.addEdge g.arena (l.names.idxOf a) (l.names.idxOf b) }
      { l with edges := l.edges ++ [(a, b)] } := by
  have hlt {m : String} (hm : m ∈ l.names) : l.names.idxOf m < Arena.nodeCount g.arena :=
    h.nodeCount ▸ Ledger.idxOf_lt hm
  constructor
  case wellFormed => simpa [Ledger.call, ha, hb, hab] using Ledger.wellFormed_call h.wellFormed (.edge a b)
  case nodeCount => rw [LawfulArena.nodeCount_addEdge _ (hlt ha) (hlt hb), h.nodeCount]
  case node =>
    intro i v hv
    have hi := (List.getElem?_eq_some_iff.mp hv).1
    rw [LawfulArena.node_addEdge _ (hlt ha) (hlt hb) (h.nodeCount ▸ hi), h.node i v hv]
  case index => exact h.index
  case ends =>
    rw [LawfulArena.ends_addEdge _ (hlt ha) (hlt hb), h.ends, List.map_append]
    rfl
  case outgoing =>
    exact h.outgoing.concat (a, b) fun i hi => LawfulArena.outgoing_addEdge _ (hlt ha) (hlt hb) (h.nodeCount ▸ hi)
  case incoming =>
    rw [List.map_append]
    exact h.incoming.concat (b, a) fun i hi => LawfulArena.incoming_addEdge _ (hlt ha) (hlt hb) (h.nodeCount ▸ hi)

theorem call (h : g.Holds l) (c : Call) : (g.call c).2 = (l.call c).2 ∧ (g.call c).1.Holds (l.call c).1 := by
  cases c with
  | node m p =>
    by_cases hm : m ∈ l.names
    · rw [Indexed.call, Ledger.call, if_pos hm, Indexed.addNode, if_pos (h.contains_iff.mpr hm)]
      exact ⟨rfl, h⟩
    · rw [Indexed.call, Ledger.call, if_neg hm, Indexed.addNode, if_neg fun hc => hm (h.contains_iff.mp hc)]
      exact ⟨rfl, h.addNode hm p⟩
  | edge a b =>
    have hcall : l.call (.edge a b) = if a ∈ l.names ∧ b ∈ l.names ∧ (a, b) ∉ l.edges then
        ({ l with edges := l.edges ++ [(a, b)] }, true) else (l, false) := rfl
    by_cases ha : a ∈ l.names
    · by_cases hb : b ∈ l.names
      · rw [Indexed.call, hcall, Indexed.addEdge, h.index_of_mem ha, h.index_of_mem hb]
        by_cases hab : (a, b) ∈ l.edges
        · rw [if_neg fun hnew => hnew.2.2 hab]
          dsimp only
          rw [if_pos ((h.hasEdge_at ha hb).mpr hab)]
          exact ⟨rfl, h⟩
        · rw [if_pos ⟨ha, hb, hab⟩]
          dsimp only
          rw [if_neg fun hedge => hab ((h.hasEdge_at ha hb).mp hedge)]
          exact ⟨rfl, h.addEdge ha hb hab⟩
      · rw [Indexed.call, hcall, if_neg fun hnew => hb hnew.2.1, Indexed.addEdge, h.index_of_mem ha,
          h.index_of_notMem hb]
        exact ⟨rfl, h⟩
    · rw [Indexed.call, hcall, if_neg fun hnew => ha hnew.1, Indexed.addEdge, h.index_of_notMem ha]
      exact ⟨rfl, h⟩

end Holds

theorem refines [LawfulArena Node G] : Refines call answers (empty : Indexed G) :=
  .of_step (R := fun l g => g.Holds l) .empty (fun _ _ c h => h.call c) (fun _ _ h => h.wellFormed)
    (fun _ _ h => h.answers_eq) call_refused

end Indexed

/-! ### An arena -/

/-- Nodes and edges in lists, and the edges of each node apart. -/
structure Adjacency (ν : Type) where
  nodes : List ν
  ends : List (Nat × Nat)
  outgoing : Nat → List Nat
  incoming : Nat → List Nat

namespace Adjacency

variable {ν : Type} [Inhabited ν]

instance : Arena ν (Adjacency ν) where
  empty := ⟨[], [], fun _ => [], fun _ => []⟩
  addNode g v :=
    let i := g.nodes.length
    ({ g with
        nodes := g.nodes ++ [v]
        outgoing := Function.update g.outgoing i []
        incoming := Function.update g.incoming i [] }, i)
  addEdge g i j :=
    { g with
      ends := g.ends ++ [(i, j)]
      outgoing := Function.update g.outgoing i (j :: g.outgoing i)
      incoming := Function.update g.incoming j (i :: g.incoming j) }
  nodeCount g := g.nodes.length
  edgeCount g := g.ends.length
  node g i := g.nodes[i]?.getD default
  hasEdge g i j := g.ends.contains (i, j)
  ends := Adjacency.ends
  outgoing := Adjacency.outgoing
  incoming := Adjacency.incoming

instance : LawfulArena ν (Adjacency ν) where
  nodeCount_empty := rfl
  ends_empty := rfl
  number_addNode _ _ := rfl
  nodeCount_addNode _ _ := List.length_append
  node_addNode g v i hi := by
    change (g.nodes ++ [v])[i]?.getD default = if i = g.nodes.length then v else g.nodes[i]?.getD default
    split_ifs with h
    · simp [h]
    · rw [List.getElem?_append_left (Nat.lt_of_le_of_ne hi h)]
  ends_addNode _ _ := rfl
  outgoing_addNode g _ i _ := Function.update_apply g.outgoing _ _ i
  incoming_addNode g _ i _ := Function.update_apply g.incoming _ _ i
  nodeCount_addEdge _ _ _ _ _ := rfl
  node_addEdge _ _ _ _ _ _ _ := rfl
  ends_addEdge _ _ _ _ _ := rfl
  outgoing_addEdge g i j k _ _ _ := by
    refine (Function.update_apply g.outgoing i (j :: g.outgoing i) k).trans (if_ctx_congr Iff.rfl ?_ fun _ => rfl)
    rintro rfl
    rfl
  incoming_addEdge g i j k _ _ _ := by
    refine (Function.update_apply g.incoming j (i :: g.incoming j) k).trans (if_ctx_congr Iff.rfl ?_ fun _ => rfl)
    rintro rfl
    rfl
  edgeCount_eq _ := rfl
  hasEdge_iff _ _ _ _ _ := List.contains_iff_mem

end Adjacency

/-! ### Both ways to keep a graph -/

/-- A graph is a list of modules and a list of edges between them, however it is kept. -/
theorem refines_ledger (G : Type) [Arena Node G] [LawfulArena Node G] :
    Refines Graph.call Graph.answers ∅ ∧ Refines Indexed.call Indexed.answers (Indexed.empty : Indexed G) :=
  ⟨Graph.refines, Indexed.refines⟩

/-- A loop, edges before and after their ends, and what is added twice. -/
def scribbled : List Call :=
  [.node "a" (some ⟨1, 2⟩), .edge "a" "b", .node "b" none, .edge "a" "b", .edge "a" "a", .node "a" none, .edge "a" "b",
    .node "c" none, .edge "c" "a"]

theorem adjacency_refines_ledger :
    (play Indexed.call (Indexed.empty : Indexed (Adjacency Node)) scribbled).2 =
      [true, false, true, true, true, false, false, true, true] ∧
    (play Indexed.call (Indexed.empty : Indexed (Adjacency Node)) scribbled).1.edges =
      [("a", "b"), ("a", "a"), ("c", "a")] ∧
    (play Indexed.call (Indexed.empty : Indexed (Adjacency Node)) scribbled).1.predecessors "a" = ["a", "c"] ∧
    Refines Graph.call Graph.answers ∅ ∧
    Refines Indexed.call Indexed.answers (Indexed.empty : Indexed (Adjacency Node)) :=
  ⟨by decide +kernel, by decide +kernel, by decide +kernel, refines_ledger (Adjacency Node)⟩

end ModuleAudit
