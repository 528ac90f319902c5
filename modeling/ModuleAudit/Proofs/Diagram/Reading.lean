import ModuleAudit.Diagram.Drawing
import ModuleAudit.Proofs.Diagram.Forest

/-! What a forest says as a drawing. Its nodes are the outermost groups of class `node`; the text inside of the titles
    of such a group names it, and the first of its ellipses that has a center, or else the first of its texts that has a
    place, tells where it stands. The same is said twice: as a description, and as a recursion on the forest that stops
    at what is malformed. -/

namespace ModuleAudit.Drawing

open Markup

variable {t : Tag} {ts : List Tag} {xKey yKey : String}

/-! ### The description -/

/-- Whether the content of an element belongs to a node. -/
def opensNode (t : Tag) : Bool := t.name == ascii "g" && isNode? t == some true

/-- The contents of the outermost groups of class `node`. -/
def nodeGroups : Forest → List Forest
  | .nil => []
  | .text _ rest => nodeGroups rest
  | .empty _ rest => nodeGroups rest
  | .element t content rest => (if opensNode t then [content] else nodeGroups content) ++ nodeGroups rest

/-- The groups with content that are not inside of a node. Their classes have to be read. -/
def outerGroups : Forest → List Tag
  | .nil => []
  | .text _ rest => outerGroups rest
  | .empty _ rest => outerGroups rest
  | .element t content rest =>
    (if t.name == ascii "g" then [t] else []) ++ (if opensNode t then [] else outerGroups content) ++ outerGroups rest

/-- The text inside of titles, at any depth. -/
def titleTexts : Forest → List (List UInt8)
  | .nil => []
  | .text _ rest => titleTexts rest
  | .empty _ rest => titleTexts rest
  | .element t content rest =>
    (if t.name == ascii "title" then content.texts else titleTexts content) ++ titleTexts rest

/-- No title is inside of another title. -/
def TitlesApart : Forest → Prop
  | .nil => True
  | .text _ rest => TitlesApart rest
  | .empty _ rest => TitlesApart rest
  | .element t content rest =>
    (t.name = ascii "title" → content.named "title" = []) ∧ TitlesApart content ∧ TitlesApart rest

instance decidableTitlesApart : (f : Forest) → Decidable (TitlesApart f)
  | .nil => inferInstanceAs (Decidable True)
  | .text _ rest => decidableTitlesApart rest
  | .empty _ rest => decidableTitlesApart rest
  | .element t content rest =>
    have := decidableTitlesApart content
    have := decidableTitlesApart rest
    inferInstanceAs (Decidable ((t.name = ascii "title" → content.named "title" = []) ∧
      TitlesApart content ∧ TitlesApart rest))

/-- The first position that two attributes of a tag give. -/
def firstPosition (xKey yKey : String) (ts : List Tag) : Option Position :=
  ts.findSome? fun t => (position? t xKey yKey).join

/-- One of the tags up to the first with a position is malformed. -/
def Faulty (xKey yKey : String) (ts : List Tag) : Prop :=
  ∃ before t after, ts = before ++ t :: after ∧ position? t xKey yKey = none ∧
    ∀ u ∈ before, position? u xKey yKey = some none

/-- The node that a group with a content draws, if it has a title and a position. -/
def drawn? (c : Forest) : Option PlacedNode :=
  let title := Text.trim ((titleTexts c).filterMap decode?).flatten
  if title.isEmpty then none
  else (firstPosition "cx" "cy" (c.named "ellipse") <|> firstPosition "x" "y" (c.named "text")).map
    fun p => ⟨String.ofList title, p.x, p.y⟩

/-- The content of a node is malformed where it has to be read. -/
def Spoilt (c : Forest) : Prop :=
  (∃ bs ∈ titleTexts c, decode? bs = none) ∨ Faulty "cx" "cy" (c.named "ellipse") ∨ Faulty "x" "y" (c.named "text")

/-- A forest is malformed where it has to be read. -/
def Malformed (f : Forest) : Prop := (∃ t ∈ outerGroups f, isNode? t = none) ∨ ∃ c ∈ nodeGroups f, Spoilt c

/-! ### The recursion -/

/-- Looks at a tag for a position unless one was found. -/
def seek? (xKey yKey : String) (found : Option Position) (t : Tag) : Option (Option Position) :=
  if found.isNone then position? t xKey yKey else some found

/-- What a group with a content comes to. -/
def group? (c : Forest) : Option (Option PlacedNode) := do
  let titles ← (titleTexts c).mapM decode?
  let center ← (c.named "ellipse").foldlM (seek? "cx" "cy") none
  let label ← (c.named "text").foldlM (seek? "x" "y") none
  return Group.node? { depth := 0, title := titles.flatten, center, label }

/-- Whether the content of an element belongs to a node, if that can be told. -/
def opensNode? (t : Tag) : Option Bool := if t.name == ascii "g" then isNode? t else some false

/-- The nodes of a forest. -/
def nodes? : Forest → Option Layout
  | .nil => some []
  | .text _ rest => nodes? rest
  | .empty _ rest => nodes? rest
  | .element t content rest => do
    let node ← opensNode? t
    let first ← (if node then (group? content).map Option.toList else nodes? content)
    let others ← nodes? rest
    return first ++ others

/-! ### The recursion finds what is described -/

/-- A search comes to nothing just where something is malformed, and to a value elsewhere. -/
def Finds {α : Type} (search : Option α) (value : α) (malformed : Prop) : Prop :=
  (search = none ∧ malformed) ∨ (search = some value ∧ ¬malformed)

section Finds
variable {α β : Type} {search : Option α} {a : α} {b : β} {k : α → Option β} {malformed malformed' : Prop}

theorem finds_some (a : α) : Finds (some a) a False := Or.inr ⟨rfl, id⟩

theorem Finds.bind (h : Finds search a malformed) (hk : Finds (k a) b malformed') :
    Finds (search >>= k) b (malformed ∨ malformed') := by
  rcases h with ⟨rfl, hbad⟩ | ⟨rfl, hgood⟩
  · exact Or.inl ⟨rfl, Or.inl hbad⟩
  · rcases hk with ⟨hnone, hbad⟩ | ⟨hsome, hgood'⟩
    · exact Or.inl ⟨hnone, Or.inr hbad⟩
    · exact Or.inr ⟨hsome, fun h => h.elim hgood hgood'⟩

theorem Finds.map (h : Finds search a malformed) (f : α → β) : Finds (search.map f) (f a) malformed := by
  rcases h with ⟨rfl, hbad⟩ | ⟨rfl, hgood⟩
  · exact Or.inl ⟨rfl, hbad⟩
  · exact Or.inr ⟨rfl, hgood⟩

theorem Finds.return (h : Finds search a malformed) (f : α → β) :
    Finds (do let a ← search; return f a) (f a) malformed := by
  have hmap : (do let a ← search; return f a) = search.map f := by cases search <;> rfl
  rw [hmap]
  exact h.map f

theorem Finds.of_iff (h : Finds search a malformed) (hiff : malformed ↔ malformed') : Finds search a malformed' :=
  propext hiff ▸ h

theorem Finds.eq_none_iff (h : Finds search a malformed) : search = none ↔ malformed := by
  rcases h with ⟨rfl, hbad⟩ | ⟨rfl, hgood⟩
  · exact iff_of_true rfl hbad
  · exact iff_of_false (Option.some_ne_none a) hgood

theorem Finds.eq_of_eq_some {a' : α} (h : Finds search a malformed) (hsome : search = some a') : a' = a := by
  rcases h with ⟨rfl, -⟩ | ⟨rfl, -⟩
  · cases hsome
  · exact (Option.some.inj hsome).symm

end Finds

theorem finds_decoded (bss : List (List UInt8)) :
    Finds (bss.mapM decode?) (bss.filterMap decode?) (∃ bs ∈ bss, decode? bs = none) := by
  induction bss with
  | nil => exact (finds_some []).of_iff (by simp)
  | cons bs bss ih =>
    rw [List.mapM_cons]
    cases h : decode? bs with
    | none => exact Or.inl ⟨rfl, bs, List.mem_cons_self, h⟩
    | some cs =>
      rw [List.filterMap_cons_some h]
      exact (ih.return (cs :: ·)).of_iff (by simp [h])

theorem foldlM_seek?_some (p : Position) : ts.foldlM (seek? xKey yKey) (some p) = some (some p) := by
  induction ts with
  | nil => rfl
  | cons t ts ih => exact ih

theorem not_faulty_nil : ¬Faulty xKey yKey [] := by
  rintro ⟨before, t, after, h, -⟩
  exact List.append_ne_nil_of_right_ne_nil before (List.cons_ne_nil t after) h.symm

theorem faulty_cons : Faulty xKey yKey (t :: ts) ↔
    position? t xKey yKey = none ∨ position? t xKey yKey = some none ∧ Faulty xKey yKey ts := by
  constructor
  · rintro ⟨before, u, after, hts, hnone, hbefore⟩
    cases before with
    | nil =>
      cases hts
      exact Or.inl hnone
    | cons v before =>
      cases hts
      rw [List.forall_mem_cons] at hbefore
      exact Or.inr ⟨hbefore.1, before, u, after, rfl, hnone, hbefore.2⟩
  · rintro (hnone | ⟨hsome, before, u, after, rfl, hnone, hbefore⟩)
    · exact ⟨[], t, ts, rfl, hnone, fun _ h => absurd h List.not_mem_nil⟩
    · exact ⟨t :: before, u, after, rfl, hnone, List.forall_mem_cons.mpr ⟨hsome, hbefore⟩⟩

theorem finds_position (xKey yKey : String) (ts : List Tag) :
    Finds (ts.foldlM (seek? xKey yKey) none) (firstPosition xKey yKey ts) (Faulty xKey yKey ts) := by
  induction ts with
  | nil => exact (finds_some none).of_iff (iff_of_false id not_faulty_nil)
  | cons t ts ih =>
    have hstep : seek? xKey yKey none t = position? t xKey yKey := rfl
    rw [List.foldlM_cons, hstep, firstPosition, List.findSome?_cons]
    cases h : position? t xKey yKey with
    | none => exact Or.inl ⟨rfl, faulty_cons.mpr (Or.inl h)⟩
    | some found =>
      cases found with
      | none => exact ih.of_iff (by simp [faulty_cons, h])
      | some p => exact Or.inr ⟨foldlM_seek?_some p, by simp [faulty_cons, h]⟩

theorem finds_group (c : Forest) : Finds (group? c) (drawn? c) (Spoilt c) :=
  (finds_decoded _).bind ((finds_position ..).bind ((finds_position ..).return _))

theorem finds_opensNode (t : Tag) :
    Finds (opensNode? t) (opensNode t) (t.name = ascii "g" ∧ isNode? t = none) := by
  rw [opensNode?, opensNode]
  by_cases hg : t.name = ascii "g"
  · cases h : isNode? t with
    | none => exact Or.inl ⟨by simp [hg], hg, rfl⟩
    | some b => exact Or.inr ⟨by simp [hg], by simp⟩
  · exact Or.inr ⟨by simp [hg], fun h => hg h.1⟩

theorem malformed_element (t : Tag) (content rest : Forest) : Malformed (.element t content rest) ↔
    (t.name = ascii "g" ∧ isNode? t = none) ∨
      (if opensNode t then Spoilt content else Malformed content) ∨ Malformed rest := by
  have houter : (∃ u ∈ outerGroups (.element t content rest), isNode? u = none) ↔
      (t.name = ascii "g" ∧ isNode? t = none) ∨
        (opensNode t = false ∧ ∃ u ∈ outerGroups content, isNode? u = none) ∨
        ∃ u ∈ outerGroups rest, isNode? u = none := by
    simp only [outerGroups, List.mem_append, or_and_right, exists_or, or_assoc]
    refine or_congr ?_ (or_congr_left ?_)
    · split <;> simp_all
    · split <;> simp_all
  have hinner : (∃ c ∈ nodeGroups (.element t content rest), Spoilt c) ↔
      (if opensNode t then Spoilt content else ∃ c ∈ nodeGroups content, Spoilt c) ∨
        ∃ c ∈ nodeGroups rest, Spoilt c := by
    simp only [nodeGroups, List.mem_append, or_and_right, exists_or]
    refine or_congr_left ?_
    split <;> simp
  rw [Malformed, houter, hinner, Malformed, Malformed]
  cases opensNode t with
  | true =>
    simp only [reduceIte, Bool.true_eq_false, false_and, false_or]
    rw [or_assoc, or_left_comm (a := ∃ u ∈ outerGroups rest, isNode? u = none)]
  | false =>
    simp only [Bool.false_eq_true, reduceIte, true_and]
    rw [or_assoc, or_or_or_comm]

/-- The recursion finds what the description says. -/
theorem finds_nodes (f : Forest) : Finds (nodes? f) ((nodeGroups f).filterMap drawn?) (Malformed f) := by
  induction f with
  | nil => exact (finds_some []).of_iff (by simp [Malformed, outerGroups, nodeGroups])
  | text bytes rest ih => exact ih
  | empty t rest ih => exact ih
  | element t content rest ihContent ihRest =>
    have hfirst : Finds (if opensNode t then (group? content).map Option.toList else nodes? content)
        ((if opensNode t then [content] else nodeGroups content).filterMap drawn?)
        (if opensNode t then Spoilt content else Malformed content) := by
      cases opensNode t with
      | true =>
        have hdrawn : [content].filterMap drawn? = (drawn? content).toList := by cases h : drawn? content <;> simp [h]
        rw [if_pos rfl, if_pos rfl, if_pos rfl, hdrawn]
        exact (finds_group content).map Option.toList
      | false => exact ihContent
    rw [malformed_element, nodeGroups, List.filterMap_append]
    refine (finds_opensNode t).bind ?_
    refine hfirst.bind ?_
    exact ihRest.return _

end ModuleAudit.Drawing
