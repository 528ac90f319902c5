import ModuleAudit.Tree

/-! Graphs of modules. The modules stand in the order in which they were added, each with the position that it
    has in a diagram, if any. An edge leads from a module to one that it depends on; it stands once, joins two
    modules of the graph, and may be a loop. Edges too stand in the order in which they were added. -/

namespace ModuleAudit

structure Position where
  x : Float
  y : Float
deriving DecidableEq, Repr

/-- Modules with their positions, and the dependencies between them. -/
structure Graph where
  nodes : ModuleMap (Option Position)
  edges : List Dependency
  edges_nodup : edges.Nodup
  mem_of_edge : ∀ e ∈ edges, e.1 ∈ nodes ∧ e.2 ∈ nodes

namespace Graph

def empty : Graph where
  nodes := ∅
  edges := []
  edges_nodup := .nil
  mem_of_edge := by simp

instance : EmptyCollection Graph := ⟨empty⟩
instance : Inhabited Graph := ⟨empty⟩

def modules (g : Graph) : List String := g.nodes.keys

def nodeCount (g : Graph) : Nat := g.nodes.size

def edgeCount (g : Graph) : Nat := g.edges.length

def isEmpty (g : Graph) : Bool := g.nodes.isEmpty

def hasNode (g : Graph) (m : String) : Bool := g.nodes.contains m

def hasEdge (g : Graph) (s t : String) : Bool := g.edges.contains (s, t)

/-- The entry of a module, which holds its position. -/
def node? (g : Graph) (m : String) : Option (Option Position) := g.nodes.get? m

/-- The place of a module in the order of insertion. -/
def slot? (g : Graph) (m : String) : Option Nat := g.nodes.slot? m

def successors (g : Graph) (m : String) : List String := (g.edges.filter (·.1 == m)).map Prod.snd

def predecessors (g : Graph) (m : String) : List String := (g.edges.filter (·.2 == m)).map Prod.fst

def outDegree (g : Graph) (m : String) : Nat := (g.successors m).length

def inDegree (g : Graph) (m : String) : Nat := (g.predecessors m).length

/-- Adds a module. A module that is there keeps its position. -/
def addNode (g : Graph) (m : String) (p : Option Position) : Graph :=
  if g.nodes.contains m then g
  else
    { g with
      nodes := g.nodes.insert m p
      mem_of_edge := fun e he =>
        ⟨ModuleMap.mem_insert_of_mem (g.mem_of_edge e he).1, ModuleMap.mem_insert_of_mem (g.mem_of_edge e he).2⟩ }

/-- Whether an edge would be new and joins two modules of the graph. -/
def admits (g : Graph) (s t : String) : Bool := g.hasNode s && g.hasNode t && !g.hasEdge s t

def addEdge (g : Graph) (s t : String) : Graph :=
  if h : g.admits s t = true then
    { g with
      edges := g.edges ++ [(s, t)]
      edges_nodup := by
        simp only [admits, hasEdge, Bool.and_eq_true, Bool.not_eq_true', List.contains_eq_mem,
          decide_eq_false_iff_not] at h
        rw [List.nodup_append]
        exact ⟨g.edges_nodup, by simp, fun a ha b hb => by
          rintro rfl
          exact h.2 (List.mem_singleton.1 hb ▸ ha)⟩
      mem_of_edge := fun e he => by
        simp only [admits, hasNode, Bool.and_eq_true] at h
        rcases List.mem_append.1 he with he | he
        · exact g.mem_of_edge e he
        · rw [List.mem_singleton.1 he]
          exact h.1 }
  else g

/-- Adds the modules and then the dependencies between them. -/
def ofListing (l : Listing) (position : String → Option Position) : Graph :=
  let nodes := l.modules.foldl (fun g m => g.addNode m (position m)) ∅
  l.dependencies.foldl (fun g d => g.addEdge d.1 d.2) nodes

/-- The dependencies of a listing that lead from or to a module it does not list. -/
def unknown (l : Listing) : List Dependency :=
  l.dependencies.filter fun d => !(l.modules.contains d.1 && l.modules.contains d.2)

end Graph
end ModuleAudit
