import ModuleAudit.Proofs.Diagram.Notes

/-! Reading a drawing token by token. Over the tokens of a forest the state goes through the recursion on the forest:
    inside of a node a run notes what belongs to the node and leaves all else as it is, and outside of one it adds the
    nodes. Over any tokens the number of open elements is kept. -/

namespace ModuleAudit.Drawing

open Markup

variable {f : Forest} {g g' : Group} {s s' : State} {t : Tag} {b : Bool}

/-! ### Inside of a node -/

theorem names_nodup : [ascii "g", ascii "title", ascii "ellipse", ascii "text"].Nodup := by decide

theorem enter?_inside (t : Tag) (d : Nat) (hasContent : Bool) (g : Group) :
    enter? t d hasContent (some g) = (note? g (.tag t)).map fun g' =>
      some { g' with inTitle := g.inTitle || (hasContent && t.name == ascii "title") } := by
  have hnames := names_nodup
  simp only [List.nodup_cons, List.mem_cons, List.not_mem_nil, or_false, not_or] at hnames
  obtain ⟨⟨hgTitle, hgEllipse, hgText⟩, ⟨htitleEllipse, htitleText⟩, hellipseText, -⟩ := hnames
  obtain ⟨depth, title, inTitle, center, label⟩ := g
  rw [enter?, note?]
  by_cases htitle : t.name = ascii "title"
  · cases hasContent <;> simp [htitle, Ne.symm hgTitle, htitleEllipse, htitleText]
  rw [beq_false_of_ne htitle, Bool.and_false, Bool.or_false]
  by_cases hg : t.name = ascii "g"
  · simp [hg, hgEllipse, hgText]
  by_cases hellipse : t.name = ascii "ellipse"
  · cases center <;> simp [hellipse, seek?, Function.comp_def, Ne.symm hgEllipse, hellipseText]
  by_cases htext : t.name = ascii "text"
  · cases label <;> simp [htext, seek?, Function.comp_def, Ne.symm hgText, Ne.symm hellipseText]
  · simp [hg, hellipse, htext]

theorem step?_opening_inside (depth : Nat) (saw : Bool) (g : Group) (nodes : List PlacedNode) (t : Tag) :
    step? ⟨depth, saw, some g, nodes⟩ (.opening t) = (note? g (.tag t)).map fun g' =>
      ⟨depth + 1, saw || t.name == ascii "svg",
        some { g' with inTitle := g.inTitle || t.name == ascii "title" }, nodes⟩ := by
  rw [step?, enter?_inside]
  cases note? g (.tag t) <;> rfl

theorem step?_empty_inside (depth : Nat) (saw : Bool) (g : Group) (nodes : List PlacedNode) (t : Tag) :
    step? ⟨depth, saw, some g, nodes⟩ (.empty t) = (note? g (.tag t)).map fun g' =>
      ⟨depth, saw || t.name == ascii "svg", some { g' with inTitle := g.inTitle }, nodes⟩ := by
  rw [step?, enter?_inside, Bool.false_and, Bool.or_false]
  cases note? g (.tag t) <;> rfl

/-- The end of an element inside of a node restores what was before it, unless the element is a title inside of
    another title. -/
theorem step?_closing_inside {depth : Nat} {name : List UInt8} (hdepth : g.depth ≤ depth)
    (htitle : b = true → name ≠ ascii "title") (saw : Bool) (nodes : List PlacedNode) :
    step? ⟨depth + 1, saw, some { g with inTitle := b || name == ascii "title" }, nodes⟩ (.closing name) =
      some ⟨depth, saw, some { g with inTitle := b }, nodes⟩ := by
  have hends : (g.depth == depth + 1) = false := beq_false_of_ne (by omega)
  rw [step?, leave]
  by_cases hname : name = ascii "title"
  · have hb : b = false := Bool.eq_false_iff.mpr fun hb => htitle hb hname
    simp [hends, hname, hb]
  · simp [hends, hname]

/-- Whether there is a drawing in a forest. -/
def draws (f : Forest) : Bool := f.tags.any (·.name == ascii "svg")

theorem draws_empty (t : Tag) (rest : Forest) : draws (.empty t rest) = (t.name == ascii "svg" || draws rest) := rfl

theorem draws_element (t : Tag) (content rest : Forest) :
    draws (.element t content rest) = (t.name == ascii "svg" || (draws content || draws rest)) :=
  congrArg _ List.any_append

theorem step?_text_inside (depth : Nat) (saw : Bool) (g : Group) (nodes : List PlacedNode) (bytes : List UInt8) :
    step? ⟨depth, saw, some g, nodes⟩ (.text bytes) =
      ((if g.inTitle then [Note.title bytes] else []).foldlM note? g).map fun g' => ⟨depth, saw, some g', nodes⟩ := by
  rw [step?]
  cases hin : g.inTitle with
  | false => simp [hin]
  | true => cases hdecoded : decode? bytes <;> simp [hin, note?, hdecoded]

/-- Inside of a node a run notes what belongs to the node, and changes nothing else. -/
theorem foldlM_step?_inside (f : Forest) : ∀ (depth : Nat) (saw : Bool) (g : Group) (nodes : List PlacedNode),
    g.depth ≤ depth → TitlesApart f → (g.inTitle = true → f.named "title" = []) →
      f.tokens.foldlM step? ⟨depth, saw, some g, nodes⟩ = ((notes g.inTitle f).foldlM note? g).map fun g' =>
        ⟨depth, saw || draws f, some g', nodes⟩ := by
  induction f with
  | nil =>
    intro depth saw g nodes _ _ _
    simp [Forest.tokens, notes, draws, Forest.tags]
  | text bytes rest ih =>
    intro depth saw g nodes hdepth hapart hclear
    have hdraws : draws (.text bytes rest) = draws rest := rfl
    rw [Forest.tokens, List.foldlM_cons, step?_text_inside, hdraws, notes, List.foldlM_append]
    cases hnotes : (if g.inTitle then [Note.title bytes] else []).foldlM note? g with
    | none => rfl
    | some g₁ =>
      obtain ⟨hdepth₁, hin₁⟩ := foldlM_note?_kept hnotes
      rw [← hin₁] at hclear ⊢
      exact ih depth saw g₁ nodes (hdepth₁ ▸ hdepth) hapart hclear
  | empty t rest ih =>
    intro depth saw g nodes hdepth hapart hclear
    rw [Forest.tokens, List.foldlM_cons, step?_empty_inside, draws_empty, notes, List.foldlM_cons, ← Bool.or_assoc]
    cases hnote : note? g (.tag t) with
    | none => rfl
    | some g₁ =>
      obtain ⟨hdepth₁, hin₁⟩ := note?_kept hnote
      rw [← hin₁] at hclear ⊢
      exact ih depth _ g₁ nodes (hdepth₁ ▸ hdepth) hapart fun hin =>
        (Forest.named_empty_eq_nil_iff.mp (hclear hin)).2
  | element t content rest ihContent ihRest =>
    intro depth saw g nodes hdepth hapart hclear
    rw [Forest.foldlM_element, step?_opening_inside, draws_element, notes, List.foldlM_cons, ← Bool.or_assoc,
      ← Bool.or_assoc]
    cases hnote : note? g (.tag t) with
    | none => rfl
    | some g₁ =>
      obtain ⟨hdepth₁, hin₁⟩ := note?_kept hnote
      -- The element is read as part of a title when it is one or is inside of one, but never both.
      have hclear (hin : g.inTitle = true) := Forest.named_element_eq_nil_iff.mp (hclear hin)
      have hcontentClear (hin : (g.inTitle || t.name == ascii "title") = true) : content.named "title" = [] := by
        rw [Bool.or_eq_true, beq_iff_eq] at hin
        exact hin.elim (fun hin => (hclear hin).2.1) hapart.1
      have hcontent := ihContent (depth + 1) (saw || t.name == ascii "svg")
        { g₁ with inTitle := g.inTitle || t.name == ascii "title" } nodes (by simp only; omega) hapart.2.1 hcontentClear
      simp only [Option.map_some, Option.bind_eq_bind, Option.bind_some, hcontent, foldlM_note?_inTitle,
        List.foldlM_append]
      cases hnotes : (notes (g.inTitle || t.name == ascii "title") content).foldlM note? g₁ with
      | none => rfl
      | some g₂ =>
        obtain ⟨hdepth₂, hin₂⟩ := foldlM_note?_kept hnotes
        rw [hin₁] at hin₂
        have hclosing := step?_closing_inside (by omega : g₂.depth ≤ depth) (fun hin => (hclear hin).1)
          (saw || t.name == ascii "svg" || draws content) nodes
        have hrest := ihRest depth (saw || t.name == ascii "svg" || draws content) g₂ nodes (by omega) hapart.2.2
          fun hin => (hclear (hin₂ ▸ hin)).2.2
        rw [← hin₂] at hclosing ⊢
        simp only [Option.map_some, Option.bind_some, hclosing, hrest]

/-! ### Outside of a node -/

theorem step?_opening_outside (depth : Nat) (saw : Bool) (nodes : List PlacedNode) (t : Tag) :
    step? ⟨depth, saw, none, nodes⟩ (.opening t) = (opensNode? t).map fun node =>
      ⟨depth + 1, saw || t.name == ascii "svg", if node then some { depth := depth + 1 } else none, nodes⟩ := by
  rw [step?, enter?, opensNode?]
  by_cases hg : t.name = ascii "g"
  · cases isNode? t <;> simp [hg]
  · simp [hg]

theorem step?_closing_outside (depth : Nat) (saw : Bool) (nodes : List PlacedNode) (name : List UInt8) :
    step? ⟨depth + 1, saw, none, nodes⟩ (.closing name) = some ⟨depth, saw, none, nodes⟩ := by
  simp [step?, leave]

theorem step?_closing_group {depth : Nat} {name : List UInt8} (hdepth : g.depth = depth + 1) (hname : name = ascii "g")
    (saw : Bool) (nodes : List PlacedNode) :
    step? ⟨depth + 1, saw, some g, nodes⟩ (.closing name) = some ⟨depth, saw, none, g.node?.toList ++ nodes⟩ := by
  have htitle : (ascii "g" == ascii "title") = false := by decide
  simp [step?, leave, hdepth, hname, htitle]

theorem name_of_opensNode? (h : opensNode? t = some true) : t.name = ascii "g" := by
  rw [opensNode?] at h
  split at h
  next hname => exact beq_iff_eq.mp hname
  · cases h

/-- Outside of a node a run adds the nodes that the recursion finds. -/
theorem foldlM_step?_outside (f : Forest) : ∀ (depth : Nat) (saw : Bool) (nodes : List PlacedNode), TitlesApart f →
    f.tokens.foldlM step? ⟨depth, saw, none, nodes⟩ = (nodes? f).map fun l =>
      ⟨depth, saw || draws f, none, l.reverse ++ nodes⟩ := by
  induction f with
  | nil =>
    intro depth saw nodes _
    simp [Forest.tokens, nodes?, draws, Forest.tags]
  | text bytes rest ih => exact ih
  | empty t rest ih =>
    intro depth saw nodes hapart
    have hstep : step? ⟨depth, saw, none, nodes⟩ (.empty t) =
        some ⟨depth, saw || t.name == ascii "svg", none, nodes⟩ := by
      simp [step?, enter?]
    rw [Forest.tokens, List.foldlM_cons, hstep, draws_empty, ← Bool.or_assoc]
    exact ih depth _ nodes hapart
  | element t content rest ihContent ihRest =>
    intro depth saw nodes hapart
    have hrest (nodes : List PlacedNode) :=
      ihRest depth (saw || t.name == ascii "svg" || draws content) nodes hapart.2.2
    rw [Forest.foldlM_element, step?_opening_outside, draws_element, nodes?, ← Bool.or_assoc, ← Bool.or_assoc]
    cases hnode : opensNode? t with
    | none => rfl
    | some node =>
      cases node with
      | false =>
        have hcontent := ihContent (depth + 1) (saw || t.name == ascii "svg") nodes hapart.2.1
        simp only [Option.map_some, Option.bind_eq_bind, Option.bind_some, Bool.false_eq_true, reduceIte, hcontent]
        cases nodes? content with
        | none => rfl
        | some first =>
          simp only [Option.map_some, Option.bind_some, step?_closing_outside, hrest]
          cases nodes? rest <;> simp
      | true =>
        have hcontent := foldlM_step?_inside content (depth + 1) (saw || t.name == ascii "svg") { depth := depth + 1 }
          nodes (Nat.le_refl _) hapart.2.1 fun hin => absurd hin Bool.false_ne_true
        simp only [Option.map_some, Option.bind_eq_bind, Option.bind_some, reduceIte, hcontent,
          ← node?_foldlM_note? content (depth + 1)]
        cases hnotes : (notes false content).foldlM note? { depth := depth + 1 } with
        | none => rfl
        | some g =>
          have hclosing := step?_closing_group (foldlM_note?_kept hnotes).1 (name_of_opensNode? hnode)
            (saw || t.name == ascii "svg" || draws content) nodes
          simp only [Option.map_some, Option.bind_some, hclosing, hrest]
          cases nodes? rest <;> cases g.node? <;> simp

theorem layoutOf?_tokens (h : TitlesApart f) : layoutOf? f.tokens = if draws f then nodes? f else none := by
  rw [layoutOf?, foldlM_step?_outside f 0 false [] h]
  cases nodes? f with
  | none => simp
  | some l => simp

/-- A forest with its titles apart is read as it is described. -/
theorem finds_layout (h : TitlesApart f) :
    Finds (layoutOf? f.tokens) ((nodeGroups f).filterMap drawn?) (f.named "svg" = [] ∨ Malformed f) := by
  have hdraws : draws f = false ↔ f.named "svg" = [] := by
    rw [Forest.named_eq_nil_iff, draws, List.any_eq_false]
    simp
  rw [layoutOf?_tokens h]
  cases hdraw : draws f with
  | false => exact Or.inl ⟨rfl, Or.inl (hdraws.mp hdraw)⟩
  | true =>
    have hsome : f.named "svg" ≠ [] := fun h => Bool.false_ne_true ((hdraws.mpr h).symm.trans hdraw)
    exact (finds_nodes f).of_iff (or_iff_right hsome).symm

/-! ### Any tokens -/

theorem depth_of_step? {token : Token} (h : step? s token = some s') : (s'.depth : Int) = s.depth + rise token := by
  cases token with
  | opening t =>
    obtain ⟨group, -, hs'⟩ := Option.bind_eq_some_iff.mp h
    cases hs'
    rfl
  | empty t =>
    obtain ⟨group, -, hs'⟩ := Option.bind_eq_some_iff.mp h
    cases hs'
    exact (Int.add_zero _).symm
  | text bytes =>
    rw [step?] at h
    split at h
    · split at h
      · obtain ⟨cs, -, rfl⟩ := Option.map_eq_some_iff.mp h
        exact (Int.add_zero _).symm
      · cases h
        exact (Int.add_zero _).symm
    · cases h
      exact (Int.add_zero _).symm
  | closing name =>
    rw [step?] at h
    split at h
    · cases h
    next hdepth =>
      cases h
      have hpos : s.depth ≠ 0 := fun hzero => hdepth (beq_iff_eq.mpr hzero)
      change ((s.depth - 1 : Nat) : Int) = s.depth + -1
      omega

/-- A layout is only found where every end has a beginning and every beginning an end. -/
theorem balanced_of_layoutOf? {ts : List Token} {l : Layout} (h : layoutOf? ts = some l) :
    risen ts = 0 ∧ ∀ before after, ts = before ++ after → 0 ≤ risen before := by
  obtain ⟨s, hrun, hl⟩ := Option.bind_eq_some_iff.mp h
  have hstart : ({} : State).depth = 0 := rfl
  have hdepth : s.depth = 0 := by
    split at hl
    next hend => exact beq_iff_eq.mp (Bool.and_eq_true_iff.mp hend).2
    · cases hl
  constructor
  · have hsize := size_of_foldlM State.depth depth_of_step? hrun
    rw [hdepth, hstart] at hsize
    omega
  · rintro before after rfl
    rw [List.foldlM_append] at hrun
    obtain ⟨s₁, hbefore, -⟩ := Option.bind_eq_some_iff.mp hrun
    have hsize := size_of_foldlM State.depth depth_of_step? hbefore
    rw [hstart] at hsize
    omega

/-- A layout is only found in a document that is the text of a forest. -/
theorem exists_forest_of_layout? {bytes : List UInt8} {l : Layout} (h : layout? bytes = some l) :
    ∃ f : Forest, tokens? bytes = some f.tokens := by
  obtain ⟨ts, hts, hl⟩ := Option.bind_eq_some_iff.mp h
  obtain ⟨names, hnames⟩ := Option.isSome_iff_exists.mp (isSome_foldlM_of_tokens? hts)
  have hsize := size_of_foldlM List.length length_of_after? hnames
  rw [(balanced_of_layoutOf? hl).1, List.length_nil] at hsize
  obtain rfl : names = [] := List.length_eq_zero_iff.mp (by omega)
  obtain ⟨f, rfl⟩ := foldlM_after?_eq_nil_iff.mp hnames
  exact ⟨f, hts⟩

/-! ### The layout of a document -/

/-- What is found in what a reader delivers, which are tokens unless it fails. -/
structure Reads (delivered : Option (List Token)) (found : Option Layout) : Prop where
  /-- Nothing is found in a forest just where there is no drawing or something is malformed that has to be read. -/
  none_iff : ∀ f : Forest, delivered = some f.tokens → TitlesApart f →
    (found = none ↔ f.named "svg" = [] ∨ Malformed f)
  nodes : ∀ (f : Forest) (l : Layout), delivered = some f.tokens → TitlesApart f → found = some l →
    l = (nodeGroups f).filterMap drawn?
  /-- An element stays open. -/
  unclosed : ∀ ts, delivered = some ts → 0 < risen ts → found = none
  /-- An element ends that did not begin. -/
  unopened : ∀ before after, delivered = some (before ++ after) → risen before < 0 → found = none
  failed : delivered = none → found = none

/-- Whatever a reader delivers is read as the forest that it spells, and nothing is found in tokens that are not
    balanced. In a document a layout is only found when its tokens are those of a forest. -/
theorem layout_reads (delivered : Option (List Token)) :
    Reads delivered (delivered.bind layoutOf?) ∧
      ∀ bytes, tokens? bytes = delivered → layout? bytes = delivered.bind layoutOf? ∧
        ∀ l, layout? bytes = some l → ∃ f : Forest, delivered = some f.tokens := by
  refine ⟨⟨?_, ?_, ?_, ?_, ?_⟩, ?_⟩
  · rintro f rfl hapart
    exact (finds_layout hapart).eq_none_iff
  · rintro f l rfl hapart hl
    exact (finds_layout hapart).eq_of_eq_some hl
  · rintro ts rfl hopen
    refine Option.eq_none_iff_forall_ne_some.mpr fun l hl => ?_
    exact absurd (balanced_of_layoutOf? hl).1 (by omega)
  · rintro before after rfl hended
    refine Option.eq_none_iff_forall_ne_some.mpr fun l hl => ?_
    exact absurd ((balanced_of_layoutOf? hl).2 before after rfl) (by omega)
  · rintro rfl
    rfl
  · rintro bytes rfl
    exact ⟨rfl, fun l => exists_forest_of_layout?⟩

/-! ### A drawing -/

/-- A node with a group inside of it that has its title, and a node without a place. -/
def sketch : Forest :=
  let tag (text : String) : Tag := .ofBytes (ascii text)
  .element (tag "svg")
    (.element (tag "g class=\"node\"")
      (.empty (tag "ellipse cx=\"1\" cy=\"2\"")
        (.element (tag "g class=\"node\"") (.element (tag "title") (.text (ascii " a") .nil) .nil) .nil))
      (.element (tag "g class=\"node\"") (.element (tag "title") (.text (ascii "b") .nil) .nil) .nil))
    .nil

def sketchText : String :=
  "<svg><g class=\"node\"><ellipse cx=\"1\" cy=\"2\"/><g class=\"node\"><title> a</title></g></g>" ++
    "<g class=\"node\"><title>b</title></g></svg>"

theorem sketch_reads : TitlesApart sketch ∧ tokens? (ascii sketchText) = some sketch.tokens ∧ ¬Malformed sketch ∧
    (layout? (ascii sketchText)).map (List.map PlacedNode.title) = some ["a"] ∧
    layout? (ascii sketchText) = some ((nodeGroups sketch).filterMap drawn?) := by
  have hapart : TitlesApart sketch := by decide +kernel
  have htokens : tokens? (ascii sketchText) = some sketch.tokens := by decide +kernel
  have htitles : (layout? (ascii sketchText)).map (List.map PlacedNode.title) = some ["a"] := by decide +kernel
  obtain ⟨hreads, hreader⟩ := layout_reads (some sketch.tokens)
  rw [← (hreader _ htokens).1] at hreads
  cases hfound : layout? (ascii sketchText) with
  | none =>
    rw [hfound] at htitles
    cases htitles
  | some l =>
    have hwhole : ¬Malformed sketch := fun h => by
      rw [(hreads.none_iff sketch rfl hapart).mpr (Or.inr h)] at hfound
      cases hfound
    exact ⟨hapart, htokens, hwhole, hfound ▸ htitles, congrArg some (hreads.nodes sketch l rfl hapart hfound)⟩

end ModuleAudit.Drawing
