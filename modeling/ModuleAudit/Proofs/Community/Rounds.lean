import ModuleAudit.Proofs.Community.Assigned
import ModuleAudit.Proofs.Community.Labels

/-! The search for communities with care, in whatever arithmetic it computes. Every place of a list or an array is
    looked up before it is used, and the rounds of the search are counted; where there is no such place, or no round is
    left, there is no result. There always is one, the same as without care: what is looked up are nodes of the level and
    labels that nodes have, and each round but the last leaves fewer nodes. -/

namespace ModuleAudit.Community

variable {α : Type} {l base : Level α} {s : Moving α} {membership : List Nat} {labels : Array Nat} {count i c : Nat}

/-! ### The search with care -/

section
variable [Weight α]

namespace Moving

def links? (s : Moving α) (l : Level α) (i : Nat) : Option (Tally α) := do
  return Tally.ofList (← (l.neighbours i).mapM fun p => do return (← s.labels[p.1]?, p.2))

/-- The state, if the community has totals. -/
def holding? (s : Moving α) (c : Nat) : Option (Moving α) :=
  if c < s.outTotals.size ∧ c < s.inTotals.size then some s else none

def gain? (s : Moving α) (t : Tuning α) (l : Level α) (i c : Nat) (link : α) : Option α := do
  let into ← s.inTotals[c]?
  let out ← s.outTotals[c]?
  return link - t.penalty * (l.outWeight i * into + l.inWeight i * out) / l.total

def best? (gain? : Nat → α → Option α) (candidates : Tally α) (start : Nat × α) : Option (Nat × α) :=
  candidates.foldlM (fun top p => do
    let g ← gain? p.1 p.2
    return if Weight.less (top.2 + Weight.tolerance) g then (p.1, g) else top) start

def choose? (s : Moving α) (t : Tuning α) (l : Level α) (i : Nat) : Option (Nat × α) := do
  let current ← s.labels[i]?
  let links ← s.links? l i
  let left := (← s.holding? current).leave l i current
  let own ← left.gain? t l i current (links.get current)
  best? (left.gain? t l i) (links.filter (·.1 != current)) (current, own)

def visit? (t : Tuning α) (l : Level α) (s : Moving α) (i : Nat) : Option (Moving α × Bool) := do
  let current ← s.labels[i]?
  let target := (← s.choose? t l i).1
  let left := (← s.holding? current).leave l i current
  -- The label is set without another test: there was one to look up.
  return ({ (← left.holding? target).join l i target with labels := left.labels.setIfInBounds i target },
    target != current)

def pass? (t : Tuning α) (l : Level α) (s : Moving α) : Option (Moving α × Bool) :=
  (List.range l.size).foldlM (fun r i => do
    let (s', moved) ← r.1.visit? t l i
    return (s', r.2 || moved)) (s, false)

def settle? (t : Tuning α) (l : Level α) : Nat → Moving α → Option (Moving α × Bool)
  | 0, s => some (s, false)
  | passes + 1, s => do
    let (s', moved) ← s.pass? t l
    if moved then return ((← settle? t l passes s').1, true) else return (s', false)

def run? (t : Tuning α) (l : Level α) : Option (Moving α × Bool) := settle? t l (max 1 t.maxPasses) (start l)

end Moving

/-- The community of a node, which has to be one of `0, …, count - 1`. -/
def below? (count : Nat) (labels : Array Nat) (i : Nat) : Option Nat := labels[i]?.filter (· < count)

def Level.aggregate? (l : Level α) (labels : Array Nat) (count : Nat) : Option (Level α) := do
  let links ← l.links.mapM fun k => do
    return (⟨← below? count labels k.source, ← below? count labels k.target, k.weight⟩ : Link α)
  return ⟨count, (List.range count).flatMap fun c =>
    (Tally.ofList ((links.filter (·.source == c)).map fun k => (k.target, k.weight))).map fun p => ⟨c, p.1, p.2⟩⟩

/-- The search in at most so many rounds; none may be missing. -/
def refine? (t : Tuning α) : Nat → Level α → List Nat → Option (List Nat)
  | 0, _, _ => none
  | rounds + 1, l, membership => do
    let (s, moved) ← Moving.run? t l
    let (dense, count) := renumber s.labels.toList
    if !moved || count == l.size then return membership
    else
      let parts ← membership.mapM fun i => dense[i]?
      refine? t rounds (← l.aggregate? dense.toArray count) parts

def optimize? (t : Tuning α) (l : Level α) : Option (List Nat) :=
  let alone := List.range l.size
  if Weight.less 0 l.total then do return (renumber (← refine? t (l.size + 1) l alone)).1 else some alone

end

/-! ### Nothing is missing -/

namespace Moving

theorem getElem?_labels (hi : i < s.labels.size) : s.labels[i]? = some (s.label i) := by
  rw [Array.getElem?_eq_getElem hi, label, Array.getD_eq_getD_getElem?, Array.getElem?_eq_getElem hi, Option.getD_some]

theorem holding?_eq (hout : c < s.outTotals.size) (hin : c < s.inTotals.size) : s.holding? c = some s :=
  if_pos ⟨hout, hin⟩

variable [Weight α] {t : Tuning α}

/-- Every node has totals for its label. -/
theorem Reachable.size_totals (h : Reachable t l s) : s.outTotals.size = l.size ∧ s.inTotals.size = l.size := by
  induction h with
  | start => simp [Moving.start]
  | visit _ _ ih => simpa [Moving.visit, join, leave] using ih

theorem links?_eq (hl : l.Closed) (h : Reachable t l s) (i : Nat) : s.links? l i = some (s.links l i) := by
  have hpair : ∀ p ∈ l.neighbours i,
      (do return (← s.labels[p.1]?, p.2) : Option (Nat × α)) = some (s.label p.1, p.2) := by
    intro p hp
    have hlt := (hl.lt_of_adjacent (Level.adjacent_of_mem_neighbours hp)).2
    rw [getElem?_labels (h.size_labels ▸ hlt)]
    rfl
  rw [links?, Lists.mapM_eq_some hpair]
  rfl

theorem gain?_eq (hout : c < s.outTotals.size) (hin : c < s.inTotals.size) (t : Tuning α) (l : Level α) (i : Nat)
    (link : α) : s.gain? t l i c link = some (s.gain t l i c link) := by
  rw [gain?, gain, Array.getElem?_eq_getElem hout, Array.getElem?_eq_getElem hin, Array.getD_eq_getD_getElem?,
    Array.getD_eq_getD_getElem?, Array.getElem?_eq_getElem hout, Array.getElem?_eq_getElem hin]
  rfl

theorem choose_lt (hl : l.Closed) (h : Reachable t l s) (hi : i < l.size) : (s.choose t l i).1 < l.size := by
  have hlt := (h.visit hi).label_lt hl hi
  rwa [label_visit (h.size_labels ▸ hi), if_pos rfl] at hlt

theorem best?_eq {gain? : Nat → α → Option α} {gain : Nat → α → α} {candidates : Tally α}
    (h : ∀ p ∈ candidates, gain? p.1 p.2 = some (gain p.1 p.2)) (start : Nat × α) :
    best? gain? candidates start = some (best gain candidates start) := by
  refine Lists.foldlM_eq_some (P := fun _ => True) (fun top p hp _ => ⟨?_, trivial⟩) trivial
  rw [h p hp]
  rfl

theorem choose?_eq (hl : l.Closed) (h : Reachable t l s) (hi : i < l.size) :
    s.choose? t l i = some (s.choose t l i) := by
  obtain ⟨hout, hin⟩ := h.size_totals
  have hgain {c : Nat} (hc : c < l.size) (link : α) : (s.leave l i (s.label i)).gain? t l i c link =
      some ((s.leave l i (s.label i)).gain t l i c link) :=
    gain?_eq (by simpa [leave, hout]) (by simpa [leave, hin]) t l i link
  have hown := h.label_lt hl hi
  simp only [choose?, getElem?_labels (h.size_labels ▸ hi), links?_eq hl h, holding?_eq (hout ▸ hown) (hin ▸ hown),
    hgain hown, Option.bind_eq_bind, Option.bind_some]
  exact best?_eq (fun p hp => hgain (lt_of_mem_links hl h (List.mem_of_mem_filter hp)) p.2) _

theorem visit?_eq (hl : l.Closed) (h : Reachable t l s) (hi : i < l.size) :
    s.visit? t l i = some (s.visit t l i) := by
  obtain ⟨hout, hin⟩ := h.size_totals
  have hown := h.label_lt hl hi
  have htarget := choose_lt hl h hi
  -- Leaving changes entries of the totals, not how many there are.
  have hleft : (s.leave l i (s.label i)).holding? (s.choose t l i).1 = some (s.leave l i (s.label i)) :=
    holding?_eq (by simpa [leave, hout]) (by simpa [leave, hin])
  simp only [visit?, getElem?_labels (h.size_labels ▸ hi), choose?_eq hl h hi, holding?_eq (hout ▸ hown) (hin ▸ hown),
    hleft, Option.bind_eq_bind, Option.bind_some]
  rfl

theorem pass?_eq (hl : l.Closed) (h : Reachable t l s) : s.pass? t l = some (s.pass t l) := by
  refine Lists.foldlM_eq_some (P := fun r => Reachable t l r.1) (fun r i hi hr => ?_) h
  rw [List.mem_range] at hi
  refine ⟨?_, .visit hi hr⟩
  rw [visit?_eq hl hr hi]
  rfl

theorem settle?_eq (hl : l.Closed) (passes : Nat) (h : Reachable t l s) :
    settle? t l passes s = some (settle t l passes s) := by
  induction passes generalizing s with
  | zero => rfl
  | succ passes ih =>
    have hpass : Reachable t l (s.pass t l).1 :=
      pass_keeps (P := fun s _ => Reachable t l s) (fun _ _ _ hi hs => .visit hi hs) h
    simp only [settle?, settle, pass?_eq hl h, ih hpass, Option.bind_eq_bind, Option.bind_some, Option.pure_def]
    split <;> rfl

theorem run?_eq (hl : l.Closed) : run? t l = some (run t l) := settle?_eq hl _ .start

end Moving

section
variable [Weight α] {t : Tuning α}

theorem below?_eq (hi : i < labels.size) (hlt : labels.getD i 0 < count) :
    below? count labels i = some (labels.getD i 0) := by
  rw [Array.getD_eq_getD_getElem?, Array.getElem?_eq_getElem hi, Option.getD_some] at hlt ⊢
  rw [below?, Array.getElem?_eq_getElem hi, Option.filter_some, if_pos (by simpa using hlt)]

theorem Level.aggregate?_eq (hl : l.Closed) (hsize : labels.size = l.size)
    (hlt : ∀ a < l.size, labels.getD a 0 < count) : l.aggregate? labels count = some (l.aggregate labels count) := by
  have hlink : ∀ k ∈ l.links,
      (do return ⟨← below? count labels k.source, ← below? count labels k.target, k.weight⟩ : Option (Link α)) =
        some ⟨labels.getD k.source 0, labels.getD k.target 0, k.weight⟩ := by
    intro k hk
    obtain ⟨hs, ht⟩ := hl k hk
    rw [below?_eq (hsize ▸ hs) (hlt _ hs), below?_eq (hsize ▸ ht) (hlt _ ht)]
    rfl
  rw [aggregate?, Lists.mapM_eq_some hlink, Option.bind_eq_bind, Option.bind_some, aggregate]
  simp only [List.filter_map, List.map_map]
  rfl

/-- No index is out of bounds, and the rounds suffice. -/
theorem refine?_eq (rounds : Nat) (h : Lifted base l membership) (hrounds : l.size < rounds) :
    refine? t rounds l membership = some (refine t rounds l membership) := by
  induction rounds generalizing l membership with
  | zero => omega
  | succ rounds ih =>
    have hparts : ∀ i ∈ membership, (renumber (Moving.run t l).1.labels.toList).1[i]? = some (l.number t i) := by
      intro i hi
      have hlt : i < (renumber (Moving.run t l).1.labels.toList).1.length := by
        rw [length_renumber, Level.length_labels_run]
        exact h.lt i hi
      rw [Level.number_eq, List.getElem?_eq_getElem hlt, List.getD_eq_getElem _ _ hlt]
    have hnext : l.aggregate? (renumber (Moving.run t l).1.labels.toList).1.toArray
        (renumber (Moving.run t l).1.labels.toList).2 = some (l.contract t) := by
      refine Level.aggregate?_eq h.closed ?_ fun _ ha => Level.number_lt ha
      rw [List.size_toArray, length_renumber, Level.length_labels_run]
    simp only [refine?, refine, Moving.run?_eq h.closed, Option.bind_eq_bind, Option.bind_some]
    split
    · rfl
    · rename_i hgo
      have hmoved : (Moving.run t l).2 = true := by
        by_contra hstill
        simp [hstill] at hgo
      -- One round is used up, and one node at least.
      have hlt : (l.contract t).size < l.size := Level.size_contract_lt h.closed hmoved
      rw [Lists.mapM_eq_some hparts, hnext, Option.bind_some, Option.bind_some]
      exact ih h.contract (by omega)

/-! ### The search ends -/

/-- What moving the nodes of a level comes to. A node that moves joins another one, so that no label comes back and the
    labels in use become no more. Then a node moved exactly when there are fewer communities than nodes; so the level
    that follows a move is smaller, and a test for as many communities as nodes fails. -/
structure Settles (t : Tuning α) (l : Level α) : Prop where
  joins : ∀ s, Moving.Reachable t l s → ∀ i < l.size, (s.visit t l i).2 = true →
    ∃ j < l.size, j ≠ i ∧ s.label j = (s.visit t l i).1.label i
  vacant : ∀ s, Moving.Reachable t l s → ∀ i < l.size, ∀ c, Moving.Vacant l s c → Moving.Vacant l (s.visit t l i).1 c
  fewer : ∀ s, Moving.Reachable t l s → ∀ i < l.size, (s.visit t l i).1.inUse ≤ s.inUse
  run : Moving.Reachable t l (Moving.run t l).1
  moved : (Moving.run t l).2 = true ↔ (Moving.run t l).1.inUse < l.size
  shrinks : (Moving.run t l).2 = true → (l.contract t).size < l.size
  untested : (Moving.run t l).2 = true → ((Moving.run t l).1.inUse == l.size) = false

theorem Level.Closed.settles (hl : l.Closed) : Settles t l where
  joins _ h _ hi := Moving.exists_joined hl (h.size_labels ▸ hi)
  vacant _ h _ hi _ hc := hc.visit hl h.size_labels hi
  fewer _ h _ hi := Moving.inUse_visit_le hl h hi
  run := Moving.run_reachable t l
  moved := Moving.moved_iff hl
  shrinks := Level.size_contract_lt hl
  untested h := beq_false_of_ne (Level.size_contract_lt hl h).ne

/-- The search for the communities of a graph ends: the nodes of each level settle, one round more than there are
    modules suffices, and no index is out of bounds. -/
structure Ends (t : Tuning α) (g : Graph) : Prop where
  levels : ∀ l membership, Reached t (.ofGraph g) l membership → l.Closed ∧ Settles t l
  rounds : refine? t (g.nodeCount + 1) (.ofGraph g) (List.range g.nodeCount) =
    some (refine t (g.nodeCount + 1) (.ofGraph g) (List.range g.nodeCount))
  labels : optimize? t (.ofGraph g) = some (optimize t (.ofGraph g))

/-- Whatever the weights and the gains come to, not-a-number included, the search ends. -/
theorem search_ends (t : Tuning α) (g : Graph) : Ends t g := by
  have hbase : (Level.ofGraph g : Level α).Closed := Level.closed_ofGraph g
  have hrounds : refine? t (g.nodeCount + 1) (.ofGraph g) (List.range g.nodeCount) =
      some (refine t (g.nodeCount + 1) (.ofGraph g) (List.range g.nodeCount)) :=
    refine?_eq _ (Reached.base.lifted (t := t) hbase) (Nat.lt_succ_self _)
  refine ⟨fun l membership h => ⟨(h.lifted hbase).closed, (h.lifted hbase).closed.settles⟩, hrounds, ?_⟩
  rw [optimize?, optimize]
  split
  · exact congrArg (Option.bind · fun membership => some (renumber membership).1) hrounds
  · rfl

/-- For two nodes that become one, one round is not enough. -/
example : refine? (⟨1, 1⟩ : Tuning Rat) 1 ⟨2, [⟨0, 1, 1⟩, ⟨1, 0, 1⟩]⟩ [0, 1] = none ∧
    refine? (⟨1, 1⟩ : Tuning Rat) 2 ⟨2, [⟨0, 1, 1⟩, ⟨1, 0, 1⟩]⟩ [0, 1] = some [0, 0] := by decide +kernel

end
end ModuleAudit.Community
