import Mathlib.Data.List.Basic
import ModuleAudit.Diagram.Markup

/-! Documents as forests. The tokens of a forest of elements and text are well nested; tokens that end no other element
    than the innermost one, and leave none open, are those of a forest; and the tokens that are read of a document end
    no other element than the innermost one. -/

namespace ModuleAudit.Markup

/-- The content of a document or of an element. -/
inductive Forest where
  | nil
  | text (bytes : List UInt8) (rest : Forest)
  | empty (tag : Tag) (rest : Forest)
  | element (tag : Tag) (content rest : Forest)

namespace Forest

/-- A forest as it is read: a tag for each end of an element, in document order. -/
def tokens : Forest → List Token
  | nil => []
  | text bytes rest => .text bytes :: rest.tokens
  | empty tag rest => .empty tag :: rest.tokens
  | element tag content rest => .opening tag :: (content.tokens ++ .closing tag.name :: rest.tokens)

/-- The tags of all elements, with content or without, in document order. -/
def tags : Forest → List Tag
  | nil => []
  | text _ rest => rest.tags
  | empty tag rest => tag :: rest.tags
  | element tag content rest => tag :: (content.tags ++ rest.tags)

/-- The tags of the elements with a name. -/
def named (f : Forest) (name : String) : List Tag := f.tags.filter (·.name == ascii name)

/-- All text, in document order. -/
def texts : Forest → List (List UInt8)
  | nil => []
  | text bytes rest => bytes :: rest.texts
  | empty _ rest => rest.texts
  | element _ content rest => content.texts ++ rest.texts

theorem named_eq_nil_iff {f : Forest} {name : String} :
    f.named name = [] ↔ ∀ t ∈ f.tags, t.name ≠ ascii name := by
  rw [named, List.filter_eq_nil_iff]
  simp

/-- A run over an element: its tag, its content, its end, and what follows. -/
theorem foldlM_element {σ : Type} (step : σ → Token → Option σ) (s : σ) (t : Tag) (content rest : Forest) :
    (element t content rest).tokens.foldlM step s =
      (do
        let s₁ ← step s (.opening t)
        let s₂ ← content.tokens.foldlM step s₁
        let s₃ ← step s₂ (.closing t.name)
        rest.tokens.foldlM step s₃) := by
  rw [tokens, List.foldlM_cons]
  exact congrArg _ (funext fun s₁ => List.foldlM_append.trans rfl)

theorem named_empty_eq_nil_iff {t : Tag} {rest : Forest} {name : String} :
    (empty t rest).named name = [] ↔ t.name ≠ ascii name ∧ rest.named name = [] := by
  rw [named_eq_nil_iff, named_eq_nil_iff]
  exact List.forall_mem_cons

theorem named_element_eq_nil_iff {t : Tag} {content rest : Forest} {name : String} :
    (element t content rest).named name = [] ↔
      t.name ≠ ascii name ∧ content.named name = [] ∧ rest.named name = [] := by
  rw [named_eq_nil_iff, named_eq_nil_iff, named_eq_nil_iff]
  exact List.forall_mem_cons.trans (and_congr_right' List.forall_mem_append)

end Forest

/-! ### Well nested tokens -/

/-- The names of the open elements, innermost first, after a token. Nothing comes of a tag that ends another element
    than the innermost one. -/
def after? : List (List UInt8) → Token → Option (List (List UInt8))
  | names, .opening t => some (t.name :: names)
  | [], .closing _ => none
  | top :: outer, .closing name => if top = name then some outer else none
  | names, .empty _ => some names
  | names, .text _ => some names

/-- Where a forest ends: at the end of the innermost open element, or of the document. -/
def Ends : List (List UInt8) → List Token → Prop
  | [], ts => ts = []
  | top :: outer, ts => ∃ rest, ts = .closing top :: rest ∧ rest.foldlM after? outer = some []

/-- Tokens that leave no element open begin with a forest. -/
theorem exists_forest_append (ts : List Token) (names : List (List UInt8)) (h : ts.foldlM after? names = some []) :
    ∃ f : Forest, ∃ rest, ts = f.tokens ++ rest ∧ Ends names rest := by
  match ts, h with
  | [], h =>
    cases h
    exact ⟨.nil, [], rfl, rfl⟩
  | .text bytes :: ts, h =>
    obtain ⟨f, rest, rfl, hends⟩ := exists_forest_append ts names h
    exact ⟨.text bytes f, rest, rfl, hends⟩
  | .empty t :: ts, h =>
    obtain ⟨f, rest, rfl, hends⟩ := exists_forest_append ts names h
    exact ⟨.empty t f, rest, rfl, hends⟩
  | .opening t :: ts, h =>
    -- The content of the element comes first; what follows its end goes on with the elements around it.
    obtain ⟨content, _, hts, after, rfl, hafter⟩ := exists_forest_append ts (t.name :: names) h
    have hshorter : after.length < ts.length + 1 := by
      rw [hts, List.length_append, List.length_cons]
      omega
    obtain ⟨f, rest, rfl, hends⟩ := exists_forest_append after names hafter
    exact ⟨.element t content f, rest, by simp [Forest.tokens, hts], hends⟩
  | .closing name :: ts, h =>
    cases names with
    | nil => cases h
    | cons top outer =>
      rw [List.foldlM_cons, after?] at h
      split at h
      next heq => exact ⟨.nil, .closing name :: ts, rfl, ts, by rw [heq], h⟩
      · cases h
termination_by ts.length

theorem foldlM_after?_tokens (f : Forest) : ∀ names, f.tokens.foldlM after? names = some names := by
  induction f with
  | nil => exact fun _ => rfl
  | text bytes rest ih => exact ih
  | empty t rest ih => exact ih
  | element t content rest ihContent ihRest =>
    intro names
    rw [Forest.foldlM_element]
    simp [after?, ihContent, ihRest]

/-- Well nested tokens are those of a forest. -/
theorem foldlM_after?_eq_nil_iff {ts : List Token} :
    ts.foldlM after? [] = some [] ↔ ∃ f : Forest, ts = f.tokens := by
  constructor
  · intro h
    obtain ⟨f, rest, rfl, rfl⟩ := exists_forest_append ts [] h
    exact ⟨f, List.append_nil _⟩
  · rintro ⟨f, rfl⟩
    exact foldlM_after?_tokens f []

/-! ### How many elements are open -/

/-- How many more elements are open after a token. -/
def rise : Token → Int
  | .opening _ => 1
  | .closing _ => -1
  | .empty _ => 0
  | .text _ => 0

/-- How many more elements are open after some tokens. -/
def risen : List Token → Int
  | [] => 0
  | token :: ts => rise token + risen ts

/-- What goes up and down with every token does so along a run. -/
theorem size_of_foldlM {σ : Type} {step : σ → Token → Option σ} (size : σ → Nat)
    (hstep : ∀ {s token s'}, step s token = some s' → (size s' : Int) = size s + rise token) {ts : List Token}
    {s s' : σ} (h : ts.foldlM step s = some s') : (size s' : Int) = size s + risen ts := by
  induction ts generalizing s with
  | nil =>
    cases h
    exact (Int.add_zero _).symm
  | cons token ts ih =>
    rw [List.foldlM_cons] at h
    obtain ⟨s₁, hfirst, hrest⟩ := Option.bind_eq_some_iff.mp h
    rw [ih hrest, hstep hfirst, risen, Int.add_assoc]

theorem length_of_after? {token : Token} {names names' : List (List UInt8)} (h : after? names token = some names') :
    (names'.length : Int) = names.length + rise token := by
  cases token with
  | opening t =>
    cases h
    rfl
  | empty t =>
    cases h
    exact (Int.add_zero _).symm
  | text bytes =>
    cases h
    exact (Int.add_zero _).symm
  | closing name =>
    cases names with
    | nil => cases h
    | cons top outer =>
      rw [after?] at h
      split at h
      · cases h
        rw [List.length_cons, rise]
        omega
      · cases h

/-! ### The reader -/

/-- The reader hands out no tag that ends another element than the innermost one. -/
theorem isSome_foldlM_of_read? {rounds : Nat} {names : List (List UInt8)} {bs : List UInt8} {ts : List Token}
    (h : read? rounds names bs = some ts) : (ts.foldlM after? names).isSome = true := by
  induction rounds generalizing names bs ts with
  | zero =>
    cases h
    rfl
  | succ rounds ih =>
    -- One token, or nothing to tell, and then the rest with the names that are open after it.
    have hmore {token : Token} {names' : List (List UInt8)} {bs' : List UInt8}
        (hafter : after? names token = some names')
        (hrest : (read? rounds names' bs').map (token :: ·) = some ts) : (ts.foldlM after? names).isSome = true := by
      obtain ⟨ts', hts', rfl⟩ := Option.map_eq_some_iff.mp hrest
      rw [List.foldlM_cons, hafter]
      exact ih hts'
    cases bs with
    | nil =>
      cases h
      rfl
    | cons b bs =>
      rw [read?] at h
      split at h
      · exact hmore rfl h
      split at h
      · cases h
      · obtain ⟨bs', -, hrest⟩ := Option.bind_eq_some_iff.mp h
        exact ih hrest
      · obtain ⟨bs', -, hrest⟩ := Option.bind_eq_some_iff.mp h
        exact ih hrest
      · obtain ⟨⟨content, bs'⟩, -, hrest⟩ := Option.bind_eq_some_iff.mp h
        dsimp only at hrest
        split at hrest
        · cases hrest
        · split at hrest
          next htop =>
            refine hmore ?_ hrest
            exact if_pos (beq_iff_eq.mp htop)
          · cases hrest
      · obtain ⟨⟨content, bs'⟩, -, hrest⟩ := Option.bind_eq_some_iff.mp h
        dsimp only at hrest
        split at hrest
        · exact hmore rfl hrest
        · exact hmore rfl hrest

theorem isSome_foldlM_of_tokens? {bs : List UInt8} {ts : List Token} (h : tokens? bs = some ts) :
    (ts.foldlM after? []).isSome = true := isSome_foldlM_of_read? h

end ModuleAudit.Markup
