import ModuleAudit.Graph.Indexed
import ModuleAudit.Proofs.Graph.Listing

/-! A graph is two lists: its modules, none of them twice, and its edges, each of them once. Whatever is added to it one
    after the other, and whatever is refused, every question about the graph has the answer that can be read off the
    two lists. -/

namespace ModuleAudit

inductive Call where
  | node (m : String) (p : Option Position)
  | edge (a b : String)

/-- All that can be asked of a graph. -/
structure Answers where
  nodes : List Node
  edges : List Dependency
  nodeCount : Nat
  edgeCount : Nat
  hasNode : String → Bool
  hasEdge : String → String → Bool
  node? : String → Option Node
  slot? : String → Option Nat
  successors : String → List String
  predecessors : String → List String
  outDegree : String → Nat
  inDegree : String → Nat

/-- The modules with their positions, and the edges. -/
structure Ledger where
  nodes : List Node
  edges : List Dependency

namespace Ledger

variable {l : Ledger} {m a b : String} {p : Option Position} {c : Call}

def empty : Ledger := ⟨[], []⟩

def names (l : Ledger) : List String := l.nodes.map Prod.fst

/-- The dependencies lead from nodes to nodes. -/
def Joins (l : Ledger) (ds : List Dependency) : Prop := ∀ d ∈ ds, d.1 ∈ l.names ∧ d.2 ∈ l.names

/-- Every node stands once, every edge stands once, and the edges join nodes. -/
structure WellFormed (l : Ledger) : Prop where
  nodes : l.names.Nodup
  edges : l.edges.Nodup
  ends : l.Joins l.edges

/-- The lists after a call, and whether it was granted: a node has to be new, and an edge has to be new and to join two
    nodes that are there. -/
def call (l : Ledger) : Call → Ledger × Bool
  | .node m p => if m ∈ l.names then (l, false) else ({ l with nodes := l.nodes ++ [(m, p)] }, true)
  | .edge a b =>
    if a ∈ l.names ∧ b ∈ l.names ∧ (a, b) ∉ l.edges then ({ l with edges := l.edges ++ [(a, b)] }, true) else (l, false)

/-- The answers as they are read off the lists. -/
def answers (l : Ledger) : Answers where
  nodes := l.nodes
  edges := l.edges
  nodeCount := l.nodes.length
  edgeCount := l.edges.length
  hasNode m := decide (m ∈ l.names)
  hasEdge a b := decide ((a, b) ∈ l.edges)
  node? m := l.nodes.find? (·.1 == m)
  slot? m := l.names.idxOf? m
  successors m := (l.edges.filter (·.1 == m)).map Prod.snd
  predecessors m := (l.edges.filter (·.2 == m)).map Prod.fst
  outDegree m := l.edges.countP (·.1 == m)
  inDegree m := l.edges.countP (·.2 == m)

theorem wellFormed_empty : empty.WellFormed := ⟨.nil, .nil, fun _ h => absurd h List.not_mem_nil⟩

theorem WellFormed.find?_eq_some_iff (h : l.WellFormed) {v : Node} :
    l.nodes.find? (·.1 == m) = some v ↔ v ∈ l.nodes ∧ v.1 = m := Lists.find?_fst_eq_some_iff h.nodes

theorem names_append (l : Ledger) (m : String) (p : Option Position) :
    ({ l with nodes := l.nodes ++ [(m, p)] } : Ledger).names = l.names ++ [m] := by
  simp [names]

theorem node_granted_iff : (l.call (.node m p)).2 = true ↔ m ∉ l.names := by
  rw [call]
  split_ifs with h <;> simp [h]

theorem edge_granted_iff : (l.call (.edge a b)).2 = true ↔ a ∈ l.names ∧ b ∈ l.names ∧ (a, b) ∉ l.edges := by
  rw [call]
  split_ifs with h
  · simp [h]
  · simpa using h

theorem wellFormed_call (h : l.WellFormed) (c : Call) : (l.call c).1.WellFormed := by
  cases c with
  | node m p =>
    rw [call]
    split_ifs with hm
    · exact h
    · refine ⟨?_, h.edges, fun e he => ?_⟩
      · rw [names_append]
        exact List.concat_eq_append ▸ h.nodes.concat hm
      · rw [names_append]
        exact ⟨List.mem_append_left _ (h.ends e he).1, List.mem_append_left _ (h.ends e he).2⟩
  | edge a b =>
    rw [call]
    split_ifs with hab
    · refine ⟨h.nodes, List.concat_eq_append ▸ h.edges.concat hab.2.2, fun e he => ?_⟩
      rcases List.mem_append.mp he with he | he
      · exact h.ends e he
      · obtain rfl := List.mem_singleton.mp he
        exact ⟨hab.1, hab.2.1⟩
    · exact h

end Ledger

/-- What is left after calls one after the other, and which of them were granted. -/
def play {σ : Type} (call : σ → Call → σ × Bool) (s : σ) : List Call → σ × List Bool
  | [] => (s, [])
  | c :: calls =>
    let (s', granted) := call s c
    let (s'', replies) := play call s' calls
    (s'', granted :: replies)

/-- A state that takes calls is two lists, for all that can be seen of it from the start on. -/
structure Refines {σ : Type} (call : σ → Call → σ × Bool) (answers : σ → Answers) (start : σ) : Prop where
  /-- After any calls the lists are in order, and every question has the answer that they give. -/
  reads : ∀ calls, (play Ledger.call .empty calls).1.WellFormed ∧
    answers (play call start calls).1 = (play Ledger.call .empty calls).1.answers
  /-- The same calls are granted as on the lists. -/
  replies : ∀ calls, (play call start calls).2 = (play Ledger.call .empty calls).2
  /-- A module is granted exactly when it is new. -/
  node : ∀ calls m p, (call (play call start calls).1 (.node m p)).2 = true ↔
    m ∉ (answers (play call start calls).1).nodes.map Prod.fst
  /-- An edge is granted exactly when both of its ends are there and it is new. -/
  edge : ∀ calls a b, (call (play call start calls).1 (.edge a b)).2 = true ↔
    a ∈ (answers (play call start calls).1).nodes.map Prod.fst ∧
    b ∈ (answers (play call start calls).1).nodes.map Prod.fst ∧
    (a, b) ∉ (answers (play call start calls).1).edges
  /-- What is not granted changes nothing. -/
  refused : ∀ calls c, (call (play call start calls).1 c).2 = false →
    (call (play call start calls).1 c).1 = (play call start calls).1

namespace Refines

variable {σ : Type} {call : σ → Call → σ × Bool} {answers : σ → Answers} {start : σ}

theorem play_related {R : Ledger → σ → Prop}
    (step : ∀ l s c, R l s → (call s c).2 = (l.call c).2 ∧ R (l.call c).1 (call s c).1) (calls : List Call) :
    ∀ l s, R l s → (play call s calls).2 = (play Ledger.call l calls).2 ∧
      R (play Ledger.call l calls).1 (play call s calls).1 := by
  induction calls with
  | nil => exact fun l s h => ⟨rfl, h⟩
  | cons c calls ih =>
    intro l s h
    obtain ⟨hreply, hnext⟩ := step l s c h
    obtain ⟨hreplies, hlast⟩ := ih _ _ hnext
    exact ⟨congrArg₂ List.cons hreply hreplies, hlast⟩

theorem of_step {R : Ledger → σ → Prop} (starts : R .empty start)
    (step : ∀ l s c, R l s → (call s c).2 = (l.call c).2 ∧ R (l.call c).1 (call s c).1)
    (wellFormed : ∀ l s, R l s → l.WellFormed) (reads : ∀ l s, R l s → answers s = l.answers)
    (refused : ∀ s c, (call s c).2 = false → (call s c).1 = s) : Refines call answers start := by
  have related (calls : List Call) := play_related step calls _ _ starts
  have reply (calls : List Call) (c : Call) := (step _ _ c (related calls).2).1
  have read (calls : List Call) := reads _ _ (related calls).2
  constructor
  case reads => exact fun calls => ⟨wellFormed _ _ (related calls).2, read calls⟩
  case replies => exact fun calls => (related calls).1
  case node =>
    intro calls m p
    rw [reply, read, Ledger.node_granted_iff]
    rfl
  case edge =>
    intro calls a b
    rw [reply, read, Ledger.edge_granted_iff]
    rfl
  case refused => exact fun calls c => refused _ c

end Refines

/-! ### Graphs -/

namespace Graph

variable {g : Graph} {m a b : String}

def call (g : Graph) : Call → Graph × Bool
  | .node m p => (g.addNode m p, !g.hasNode m)
  | .edge a b => (g.addEdge a b, g.admits a b)

def answers (g : Graph) : Answers where
  nodes := g.nodes.toList
  edges := g.edges
  nodeCount := g.nodeCount
  edgeCount := g.edgeCount
  hasNode := g.hasNode
  hasEdge := g.hasEdge
  node? m := (g.node? m).map fun p => (m, p)
  slot? := g.slot?
  successors := g.successors
  predecessors := g.predecessors
  outDegree := g.outDegree
  inDegree := g.inDegree

def ledger (g : Graph) : Ledger := ⟨g.nodes.toList, g.edges⟩

theorem wellFormed_ledger (g : Graph) : g.ledger.WellFormed where
  nodes := g.modules_nodup
  edges := g.edges_nodup
  ends _ he := Edge.mem_modules he

theorem call_refused (g : Graph) (c : Call) (h : (g.call c).2 = false) : (g.call c).1 = g := by
  cases c with
  | node m p => exact if_pos ((Bool.not_eq_false' (b := g.hasNode m)).mp h)
  | edge a b => exact dif_neg (Bool.eq_false_iff.mp h)

/-- A call does to the graph what it does to its lists. -/
theorem ledger_call (g : Graph) (c : Call) :
    (g.call c).2 = (g.ledger.call c).2 ∧ (g.call c).1.ledger = (g.ledger.call c).1 := by
  cases c with
  | node m p =>
    have hnames : m ∈ g.ledger.names ↔ g.nodes.contains m = true := hasNode_iff.symm
    by_cases hm : g.nodes.contains m = true
    · rw [call, Ledger.call, if_pos (hnames.mpr hm), addNode, if_pos hm]
      exact ⟨by simp [hasNode, hm], rfl⟩
    · rw [call, Ledger.call, if_neg fun h => hm (hnames.mp h), addNode, if_neg hm]
      refine ⟨by simp [hasNode, hm], ?_⟩
      have hnodes := ModuleMap.toList_insert_of_notMem (t := g.nodes) (v := p) fun h => hm (hnames.mp h)
      exact congrArg (Ledger.mk · g.edges) hnodes
  | edge a b =>
    have hadmits : a ∈ g.ledger.names ∧ b ∈ g.ledger.names ∧ (a, b) ∉ g.ledger.edges ↔ g.admits a b = true :=
      and_assoc.symm.trans admits_iff.symm
    by_cases hab : g.admits a b = true
    · rw [call, Ledger.call, if_pos (hadmits.mpr hab), addEdge, dif_pos hab]
      exact ⟨hab, rfl⟩
    · rw [call, Ledger.call, if_neg fun h => hab (hadmits.mp h), addEdge, dif_neg hab]
      exact ⟨Bool.eq_false_iff.mpr hab, rfl⟩

theorem answers_eq (g : Graph) : g.answers = g.ledger.answers := by
  have hsize : g.nodes.size = g.nodes.toList.length := Array.length_toList.symm
  rw [answers, Ledger.answers, Answers.mk.injEq]
  refine ⟨rfl, rfl, hsize, rfl, ?_, ?_, ?_, ?_, rfl, rfl, ?_, ?_⟩
  all_goals funext m
  · exact Bool.eq_iff_iff.mpr (hasNode_iff.trans decide_eq_true_iff.symm)
  · exact funext fun b => List.contains_eq_mem _ _
  · ext e
    rw [g.wellFormed_ledger.find?_eq_some_iff, node?, Option.map_eq_some_iff]
    simp only [ModuleMap.get?_eq_some_iff]
    constructor
    · rintro ⟨p, hp, rfl⟩
      exact ⟨hp, rfl⟩
    · rintro ⟨he, rfl⟩
      exact ⟨e.2, he, rfl⟩
  · exact g.nodes.slot?_eq_idxOf? m
  · rw [outDegree, successors, List.length_map, List.countP_eq_length_filter]
    rfl
  · rw [inDegree, predecessors, List.length_map, List.countP_eq_length_filter]
    rfl

theorem refines : Refines call answers ∅ :=
  .of_step (R := fun l g => g.ledger = l) rfl (by rintro _ g c rfl; exact ledger_call g c)
    (by rintro _ g rfl; exact wellFormed_ledger g) (by rintro _ g rfl; exact answers_eq g) call_refused

end Graph
end ModuleAudit
