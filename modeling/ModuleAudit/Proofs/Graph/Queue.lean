import ModuleAudit.Proofs.Graph.Search

/-! The order in which a search comes upon the nodes. Ways are compared by their length, and ways of one length by the
    successors that they take, at the first step where they part. The queue of a search stands in this order, and each
    way in it is the first of all walks to its node. So the way back to where the search started is the first of all. -/

namespace ModuleAudit.Reach

variable {α : Type} {next : α → List α} {start a b x : α} {members : List α} {u v w : List α}

/-! ### The order of ways -/

/-- A walk from `start` that stays among `members`, the last node first. It may come to a node more than once. -/
structure Walk (next : α → List α) (start : α) (members walk : List α) : Prop where
  last : walk.getLast? = some start
  subset : walk ⊆ members
  chain : walk.IsChain fun a b => Step next b a

/-- A walk from `start` back to it that stays among `members`, from `start` on. -/
structure Round (next : α → List α) (start : α) (members round : List α) : Prop where
  head : round.head? = some start
  subset : round ⊆ members
  chain : (round ++ [start]).IsChain (Step next)

theorem Loop.round (h : Loop next start members w) : Round next start members w := ⟨h.head, h.subset, h.chain⟩

theorem Walk.tail (h : Walk next start members (a :: b :: w)) : a ∈ next b ∧ Walk next start members (b :: w) := by
  obtain ⟨hstep, hchain⟩ := List.isChain_cons_cons.mp h.chain
  exact ⟨hstep, List.getLast?_cons_cons ▸ h.last, (List.cons_subset.mp h.subset).2, hchain⟩

/-- A round trip read backwards is a walk to a node that `start` follows. -/
theorem Round.walk (h : Round next start members w) :
    ∃ x v, w.reverse = x :: v ∧ start ∈ next x ∧ Walk next start members (x :: v) := by
  have hlast : w.reverse.getLast? = some start := by rw [List.getLast?_reverse, h.head]
  obtain ⟨x, v, hxv⟩ : ∃ x v, w.reverse = x :: v := by
    cases hw : w.reverse with
    | nil => simp [hw] at hlast
    | cons x v => exact ⟨x, v, rfl⟩
  have hchain : (start :: x :: v).IsChain fun a b => Step next b a := by
    rw [← hxv, ← List.reverse_concat, List.isChain_reverse]
    exact h.chain
  obtain ⟨hback, hchain⟩ := List.isChain_cons_cons.mp hchain
  refine ⟨x, v, hxv, hback, hxv ▸ hlast, fun y hy => ?_, hchain⟩
  rw [← hxv, List.mem_reverse] at hy
  exact h.subset hy

variable [DecidableEq α]

/-- Of two ways of one length, the first takes the earlier successor where they part. The last node stands first. -/
def Precedes (next : α → List α) : List α → List α → Prop
  | a :: u, b :: v => Precedes next u v ∨ u = v ∧ ∃ p ∈ u.head?, (next p).idxOf a < (next p).idxOf b
  | _, _ => False

/-- A way comes before another one when it is shorter, or as long and takes the earlier successor. -/
def Ahead (next : α → List α) (u v : List α) : Prop := u.length < v.length ∨ Precedes next u v

/-- A way comes before another one or is the same. -/
def UpTo (next : α → List α) (u v : List α) : Prop := u = v ∨ Ahead next u v

theorem Precedes.length_eq : ∀ {u v : List α}, Precedes next u v → u.length = v.length
  | _ :: _, _ :: _, .inl h => congrArg (· + 1) h.length_eq
  | _ :: _, _ :: _, .inr ⟨h, _⟩ => congrArg (·.length + 1) h

theorem Precedes.trans : ∀ {u v w : List α}, Precedes next u v → Precedes next v w → Precedes next u w
  | _ :: _, _ :: _, _ :: _, .inl huv, .inl hvw => .inl (huv.trans hvw)
  | _ :: _, _ :: _, _ :: _, .inl huv, .inr ⟨hvw, _⟩ => .inl (hvw ▸ huv)
  | _ :: _, _ :: _, _ :: _, .inr ⟨huv, _⟩, .inl hvw => .inl (huv ▸ hvw)
  | _ :: _, _ :: _, _ :: _, .inr ⟨huv, p, hp, hab⟩, .inr ⟨hvw, q, hq, hbc⟩ => by
    subst huv hvw
    obtain rfl := Option.some.inj (hp.symm.trans hq)
    exact .inr ⟨rfl, p, hp, hab.trans hbc⟩

theorem Ahead.length_le (h : Ahead next u v) : u.length ≤ v.length := by
  rcases h with h | h
  · exact h.le
  · exact h.length_eq.le

theorem UpTo.length_le (h : UpTo next u v) : u.length ≤ v.length := by
  rcases h with rfl | h
  · exact Nat.le_refl _
  · exact h.length_le

theorem Ahead.trans (huv : Ahead next u v) (hvw : Ahead next v w) : Ahead next u w := by
  rcases huv with h | h
  · exact .inl (h.trans_le hvw.length_le)
  · rcases hvw with h' | h'
    · exact .inl (h.length_eq ▸ h')
    · exact .inr (h.trans h')

theorem Ahead.trans_upTo (huv : Ahead next u v) (hvw : UpTo next v w) : Ahead next u w := by
  rcases hvw with rfl | hvw
  · exact huv
  · exact huv.trans hvw

/-- Ways that are prolonged keep their order. -/
theorem Ahead.cons (h : Ahead next u v) (a b : α) : Ahead next (a :: u) (b :: v) := by
  rcases h with h | h
  · exact .inl (Nat.succ_lt_succ h)
  · exact .inr (.inl h)

theorem UpTo.cons (h : UpTo next u v) (a : α) : UpTo next (a :: u) (a :: v) := by
  rcases h with rfl | h
  · exact .inl rfl
  · exact .inr (h.cons a a)

/-- A way comes before every one that prolongs a way as long. -/
theorem ahead_cons (h : u.length ≤ v.length) (b : α) : Ahead next u (b :: v) := .inl (Nat.lt_succ_of_le h)

/-! ### What a way chooses -/

/-- At each step along a list, the place of the next node among the successors. -/
def places (next : α → List α) : List α → List Nat
  | a :: b :: l => (next a).idxOf b :: places next (b :: l)
  | _ => []

theorem map_zip_eq_places (next : α → List α) (b : α) : ∀ (a : α) (l : List α),
    ((a :: l).zip (l ++ [b])).map (fun e => (next e.1).idxOf e.2) = places next (a :: l ++ [b])
  | _, [] => rfl
  | a, x :: l => congrArg ((next a).idxOf x :: ·) (map_zip_eq_places next b x l)

theorem places_concat (next : α → List α) (p a : α) : ∀ l : List α,
    places next (l ++ [p] ++ [a]) = places next (l ++ [p]) ++ [(next p).idxOf a]
  | [] => rfl
  | [_] => rfl
  | x :: y :: l => congrArg ((next x).idxOf y :: ·) (places_concat next p a (y :: l))

theorem length_places (next : α → List α) : ∀ l : List α, (places next l).length = l.length - 1
  | [] => rfl
  | [_] => rfl
  | _ :: b :: l => congrArg (· + 1) (length_places next (b :: l))

theorem Precedes.exists_cons : ∀ {u v : List α}, Precedes next u v → ∃ a u' b v', u = a :: u' ∧ v = b :: v'
  | [], _, h => h.elim
  | _ :: _, [], h => h.elim
  | a :: u, b :: v, _ => ⟨a, u, b, v, rfl, rfl⟩

/-- The way that comes first makes the lesser choices. -/
theorem Precedes.places_lt (h : Precedes next u v) : places next u.reverse < places next v.reverse := by
  induction u generalizing v with
  | nil => exact h.elim
  | cons a u ih =>
    obtain ⟨_, _, b, v, -, rfl⟩ := h.exists_cons
    rcases h with h | ⟨rfl, p, hp, hlt⟩
    · obtain ⟨p, u, q, v, rfl, rfl⟩ := h.exists_cons
      have hlen : (places next (p :: u).reverse).length = (places next (q :: v).reverse).length := by
        rw [length_places, length_places, List.length_reverse, List.length_reverse, h.length_eq]
      have hlt := Lists.append_lt_append hlen (ih h) [(next p).idxOf a] [(next q).idxOf b]
      simpa only [List.reverse_cons, places_concat] using hlt
    · obtain ⟨u, rfl⟩ := List.head?_eq_some_iff.mp hp
      simp only [List.reverse_cons, places_concat]
      exact List.append_left_lt (List.cons_lt_cons_iff.mpr (.inl hlt))

/-! ### The queue -/

/-- A search that has some nodes done. The queue stands in order, the ways that its ways prolong come before all of it,
    and each of its ways is the first to its node. -/
structure Queue (next : α → List α) (start : α) (members done : List α) (queue : List (α × List α)) : Prop where
  frontier : Frontier next members done (queue.map Prod.fst)
  seen : start ∈ done ++ queue.map Prod.fst
  sorted : queue.Pairwise fun e f => Ahead next (e.1 :: e.2) (f.1 :: f.2)
  before : ∀ e ∈ queue, ∀ f ∈ queue, Ahead next e.2 (f.1 :: f.2)
  first : ∀ e ∈ queue, ∀ w, Walk next start members (e.1 :: w) → UpTo next (e.1 :: e.2) (e.1 :: w)

namespace Queue

variable {done fresh before : List α} {queue : List (α × List α)}

/-- A node that has not been seen is not the start, and what it follows is not done. -/
theorem unseen (h : Queue next start members done queue) (hx : x ∉ done ++ queue.map Prod.fst)
    (hw : Walk next start members (x :: w)) :
    ∃ y v, w = y :: v ∧ y ∉ done ∧ Walk next start members (y :: v) := by
  cases w with
  | nil =>
    obtain rfl := Option.some.inj hw.last
    exact absurd h.seen hx
  | cons y v =>
    obtain ⟨hxy, hwalk⟩ := hw.tail
    exact ⟨y, v, rfl, fun hy => hx (h.frontier.closed y hy x hxy (hw.subset List.mem_cons_self)), hwalk⟩

/-- The way at the front comes before every walk to a node that is not done. -/
theorem upTo_of_walk (h : Queue next start members done ((a, before) :: queue)) :
    ∀ {w : List α} {x : α}, x ∉ done → Walk next start members (x :: w) → UpTo next (a :: before) (x :: w)
  | w, x, hx, hw => by
    by_cases hseen : x ∈ done ++ a :: queue.map Prod.fst
    · have hqueue : x ∈ ((a, before) :: queue).map Prod.fst := (List.mem_append.mp hseen).resolve_left hx
      obtain ⟨e, he, rfl⟩ := List.mem_map.mp hqueue
      have hfirst := h.first e he w hw
      rcases List.mem_cons.mp he with rfl | he
      · exact hfirst
      · exact .inr (((List.pairwise_cons.mp h.sorted).1 e he).trans_upTo hfirst)
    · -- The walk has a node before this one that is not done either, so that the way is shorter.
      obtain ⟨y, v, rfl, hy, hwalk⟩ := h.unseen hseen hw
      exact .inr (ahead_cons (h.upTo_of_walk hy hwalk).length_le x)

/-- A node is done when the ways to its unseen successors are put at the end. -/
theorem step (h : Queue next start members done ((a, before) :: queue)) (hnodup : fresh.Nodup)
    (hsub : fresh.Sublist (next a))
    (hfresh : ∀ b, b ∈ fresh ↔ b ∈ next a ∧ b ∈ members ∧ b ∉ done ++ a :: queue.map Prod.fst)
    (hplaces : (next a).Nodup) :
    Queue next start members (done ++ [a]) (queue ++ fresh.map fun b => (b, a :: before)) := by
  have hnodes : (queue ++ fresh.map fun b => (b, a :: before)).map Prod.fst = queue.map Prod.fst ++ fresh := by
    simp [Function.comp_def]
  obtain ⟨hahead, hsorted⟩ := List.pairwise_cons.mp h.sorted
  have hfront : (a, before) ∈ (a, before) :: queue := List.mem_cons_self
  have hbefore : ∀ e ∈ queue, Ahead next e.2 (a :: before) := fun e he => h.before e (List.mem_cons_of_mem _ he) _ hfront
  refine ⟨?_, ?_, ?_, ?_, ?_⟩
  · rw [hnodes]
    exact h.frontier.step hnodup hfresh
  · rw [hnodes]
    have hseen := h.seen
    simp only [List.map_cons, List.mem_append, List.mem_cons] at hseen ⊢
    tauto
  · refine List.pairwise_append.mpr ⟨hsorted, ?_, fun e he f hf => ?_⟩
    · refine List.pairwise_map.mpr (((Lists.pairwise_idxOf_lt hplaces).sublist hsub).imp fun hlt => ?_)
      exact .inr (.inr ⟨rfl, a, rfl, hlt⟩)
    · obtain ⟨b, -, rfl⟩ := List.mem_map.mp hf
      exact (hbefore e he).cons e.1 b
  · intro e he f hf
    rcases List.mem_append.mp he with he | he <;> rcases List.mem_append.mp hf with hf | hf
    · exact h.before e (List.mem_cons_of_mem _ he) f (List.mem_cons_of_mem _ hf)
    · obtain ⟨b, -, rfl⟩ := List.mem_map.mp hf
      exact ahead_cons (hbefore e he).length_le b
    · obtain ⟨b, -, rfl⟩ := List.mem_map.mp he
      exact hahead f hf
    · obtain ⟨b, -, rfl⟩ := List.mem_map.mp he
      obtain ⟨c, -, rfl⟩ := List.mem_map.mp hf
      exact ahead_cons (Nat.le_refl _) c
  · intro e he w hw
    rcases List.mem_append.mp he with he | he
    · exact h.first e (List.mem_cons_of_mem _ he) w hw
    · obtain ⟨b, hb, rfl⟩ := List.mem_map.mp he
      obtain ⟨y, v, rfl, hy, hwalk⟩ := h.unseen ((hfresh b).mp hb).2.2 hw
      exact (h.upTo_of_walk hy hwalk).cons b

end Queue

/-- What a search finds comes before all round trips. -/
theorem upTo_of_wayBack? {c d : List α} (hplaces : ∀ a, (next a).Nodup) (hd : Round next start members d) :
    ∀ (steps : Nat) (done : List α) (queue : List (α × List α)),
      Queue next start members done queue → (∀ a ∈ done, start ∉ next a) →
        wayBack? next start members steps queue (done ++ queue.map Prod.fst) = some c →
          UpTo next c.reverse d.reverse
  | 0, _, _, _, _, hc => by simp [wayBack?] at hc
  | _ + 1, _, [], _, _, hc => by simp [wayBack?] at hc
  | steps + 1, done, (a, before) :: queue, h, hdone, hc => by
    rw [wayBack?] at hc
    split at hc
    · obtain ⟨x, v, hxv, hback, hwalk⟩ := hd.walk
      rw [← Option.some.inj hc, List.reverse_reverse, hxv]
      exact h.upTo_of_walk (fun hx => hdone x hx hback) hwalk
    · rename_i hstart
      have herase : (next a).eraseDups = next a := Lists.eraseDups_of_nodup (hplaces a)
      have hnodes (l : List α) : done ++ a :: queue.map Prod.fst ++ l =
          (done ++ [a]) ++ (queue ++ l.map fun b => (b, a :: before)).map Prod.fst := by
        simp [Function.comp_def]
      rw [List.map_cons] at hc
      dsimp only at hc
      rw [hnodes] at hc
      refine upTo_of_wayBack? hplaces hd steps (done ++ [a]) _ (h.step ?_ ?_ (fun b => mem_fresh) (hplaces a))
        (fun x hx => ?_) hc
      · exact nodup_fresh _ _ _
      · rw [fresh, herase]
        exact List.filter_sublist
      · rcases List.mem_append.mp hx with hx | hx
        · exact hdone x hx
        · rw [List.mem_singleton.mp hx]
          simpa using hstart

theorem upTo_of_shortestCycle? {c d : List α} (hplaces : ∀ a, (next a).Nodup) (hmem : start ∈ members)
    (hc : shortestCycle? next start members = some c) (hd : Round next start members d) :
    UpTo next c.reverse d.reverse := by
  rw [shortestCycle?_eq] at hc
  refine upTo_of_wayBack? hplaces hd members.length [] [(start, [])] ⟨⟨by simp, by simpa using hmem, by simp⟩, by simp,
    by simp, fun e he f hf => ?_, fun e he w hw => ?_⟩ (by simp) hc
  · obtain rfl := List.mem_singleton.mp he
    exact .inl (Nat.succ_pos _)
  · obtain rfl := List.mem_singleton.mp he
    cases w with
    | nil => exact .inl rfl
    | cons b w => exact .inr (.inl (by simp))

end ModuleAudit.Reach
