import ModuleAudit.Proofs.Diagram.Reading

/-! What a node takes note of while its group is read. The notes of a forest are the texts in its titles and its tags,
    in document order; a title and the positions come of them independently, as they do in the recursion on the
    forest. -/

namespace ModuleAudit.Drawing

open Markup

variable {g g' : Group} {t : Tag}

/-- What a node takes note of: a text in a title, or a tag. -/
inductive Note where
  | title (bytes : List UInt8)
  | tag (t : Tag)

/-- What is to be noted of a forest, which is part of a title or not. -/
def notes : Bool → Forest → List Note
  | _, .nil => []
  | inTitle, .text bytes rest => (if inTitle then [.title bytes] else []) ++ notes inTitle rest
  | inTitle, .empty t rest => .tag t :: notes inTitle rest
  | inTitle, .element t content rest =>
    .tag t :: (notes (inTitle || t.name == ascii "title") content ++ notes inTitle rest)

def note? (g : Group) : Note → Option Group
  | .title bytes => (decode? bytes).map fun cs => { g with title := g.title ++ cs }
  | .tag t =>
    if t.name == ascii "ellipse" then (seek? "cx" "cy" g.center t).map fun p => { g with center := p }
    else if t.name == ascii "text" then (seek? "x" "y" g.label t).map fun p => { g with label := p }
    else some g

def Note.title? : Note → Option (List UInt8)
  | .title bytes => some bytes
  | .tag _ => none

def Note.tag? : Note → Option Tag
  | .title _ => none
  | .tag t => some t

/-- The texts in titles among notes. -/
def titled (ns : List Note) : List (List UInt8) := ns.filterMap Note.title?

/-- The tags with a name among notes. -/
def noted (ns : List Note) (name : String) : List Tag := (ns.filterMap Note.tag?).filter (·.name == ascii name)

section
variable {ns : List Note} {bytes : List UInt8} {name : String}

@[simp]
theorem titled_title : titled (.title bytes :: ns) = bytes :: titled ns := rfl

@[simp]
theorem titled_tag : titled (.tag t :: ns) = titled ns := rfl

@[simp]
theorem noted_title : noted (.title bytes :: ns) name = noted ns name := rfl

theorem noted_tag_of_eq (h : t.name = ascii name) : noted (.tag t :: ns) name = t :: noted ns name :=
  List.filter_cons_of_pos (beq_iff_eq.mpr h)

theorem noted_tag_of_ne (h : t.name ≠ ascii name) : noted (.tag t :: ns) name = noted ns name :=
  List.filter_cons_of_neg (fun heq => h (beq_iff_eq.mp heq))

end

/-! ### Taking note -/

/-- The title and the positions are noted independently. -/
theorem foldlM_note? (ns : List Note) : ∀ g : Group, ns.foldlM note? g = do
    let titles ← (titled ns).mapM decode?
    let center ← (noted ns "ellipse").foldlM (seek? "cx" "cy") g.center
    let label ← (noted ns "text").foldlM (seek? "x" "y") g.label
    return { g with title := g.title ++ titles.flatten, center, label } := by
  induction ns with
  | nil => intro g; simp [noted, titled]
  | cons n ns ih =>
    intro g
    rw [List.foldlM_cons]
    cases n with
    | title bytes =>
      rw [note?, titled_title, noted_title, noted_title, List.mapM_cons]
      cases decode? bytes with
      | none => rfl
      | some cs => simp [ih, Option.bind_assoc]
    | tag t =>
      rw [note?, titled_tag]
      by_cases hellipse : t.name = ascii "ellipse"
      · have htext : t.name ≠ ascii "text" := by rw [hellipse]; decide
        rw [if_pos (beq_iff_eq.mpr hellipse), noted_tag_of_eq hellipse, noted_tag_of_ne htext, List.foldlM_cons]
        cases seek? "cx" "cy" g.center t <;> simp [ih]
      · rw [if_neg (by simpa using hellipse), noted_tag_of_ne hellipse]
        by_cases htext : t.name = ascii "text"
        · rw [if_pos (beq_iff_eq.mpr htext), noted_tag_of_eq htext, List.foldlM_cons]
          cases seek? "x" "y" g.label t <;> simp [ih]
        · rw [if_neg (by simpa using htext), noted_tag_of_ne htext]
          exact ih g

/-- Notes change neither the depth of a group nor whether it is inside of a title. -/
theorem foldlM_note?_kept {ns : List Note} (h : ns.foldlM note? g = some g') :
    g'.depth = g.depth ∧ g'.inTitle = g.inTitle := by
  rw [foldlM_note?] at h
  obtain ⟨titles, -, h⟩ := Option.bind_eq_some_iff.mp h
  obtain ⟨center, -, h⟩ := Option.bind_eq_some_iff.mp h
  obtain ⟨label, -, h⟩ := Option.bind_eq_some_iff.mp h
  cases h
  exact ⟨rfl, rfl⟩

theorem note?_kept {n : Note} (h : note? g n = some g') : g'.depth = g.depth ∧ g'.inTitle = g.inTitle := by
  have hrun : [n].foldlM note? g = some g' := by
    rw [List.foldlM_cons, h]
    rfl
  exact foldlM_note?_kept hrun

theorem foldlM_note?_inTitle (ns : List Note) (g : Group) (b : Bool) :
    ns.foldlM note? { g with inTitle := b } = (ns.foldlM note? g).map fun g' => { g' with inTitle := b } := by
  rw [foldlM_note?, foldlM_note?]
  simp only [Option.bind_eq_bind, Option.map_bind, Function.comp_def, Option.pure_def, Option.map_some]

/-! ### The notes of a forest -/

theorem tags_notes (f : Forest) : ∀ b, (notes b f).filterMap Note.tag? = f.tags := by
  induction f with
  | nil => exact fun _ => rfl
  | text bytes rest ih =>
    intro b
    cases b <;> exact ih _
  | empty t rest ih => exact fun b => congrArg (t :: ·) (ih b)
  | element t content rest ihContent ihRest =>
    intro b
    rw [notes, List.filterMap_cons, Note.tag?, List.filterMap_append, ihContent, ihRest]
    rfl

theorem titled_notes_true (f : Forest) : titled (notes true f) = f.texts := by
  induction f with
  | nil => rfl
  | text bytes rest ih => exact congrArg (bytes :: ·) ih
  | empty t rest ih => exact ih
  | element t content rest ihContent ihRest =>
    rw [notes, titled_tag, titled, List.filterMap_append]
    exact congrArg₂ (· ++ ·) ihContent ihRest

theorem titled_notes_false (f : Forest) : titled (notes false f) = titleTexts f := by
  induction f with
  | nil => rfl
  | text bytes rest ih => exact ih
  | empty t rest ih => exact ih
  | element t content rest ihContent ihRest =>
    rw [notes, titled_tag, titled, List.filterMap_append, titleTexts]
    refine congrArg₂ (· ++ ·) ?_ ihRest
    by_cases ht : t.name = ascii "title"
    · rw [if_pos (beq_iff_eq.mpr ht), ht]
      exact titled_notes_true content
    · rw [if_neg (by simpa using ht), beq_false_of_ne ht]
      exact ihContent

theorem node?_foldlM_note? (c : Forest) (d : Nat) :
    ((notes false c).foldlM note? { depth := d }).map Group.node? = group? c := by
  rw [foldlM_note?, titled_notes_false, noted, tags_notes, noted, tags_notes, group?]
  simp only [Option.bind_eq_bind, Option.map_bind, Function.comp_def, Option.pure_def, Option.map_some]
  rfl

end ModuleAudit.Drawing
