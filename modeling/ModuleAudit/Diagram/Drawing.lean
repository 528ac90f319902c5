import ModuleAudit.Diagram.Attribute
import ModuleAudit.Diagram.Layout
import ModuleAudit.Text.Blank

/-! The layout of a drawing in SVG. Every node is a group of class `node`; its title names it, and it stands where
    its ellipse is centred or else where its label is set. A group inside such a group belongs to it. -/

namespace ModuleAudit.Drawing

open Markup

/-- What has been seen of the node whose group is being read. -/
structure Group where
  depth : Nat
  title : List Char := []
  inTitle : Bool := false
  center : Option Position := none
  label : Option Position := none

/-- The node, if it has a title and a position. -/
def Group.node? (g : Group) : Option PlacedNode :=
  let title := Text.trim g.title
  if title.isEmpty then none else (g.center <|> g.label).map fun p => ⟨String.ofList title, p.x, p.y⟩

/-- How far a drawing has been read: how many elements are open, whether one was a drawing, the group that is open,
    and the nodes so far, last first. -/
structure State where
  depth : Nat := 0
  sawDrawing : Bool := false
  group : Option Group := none
  nodes : List PlacedNode := []

/-- A finite number in an attribute. -/
def coordinate? (cs : List Char) : Option Float :=
  (Decimal.float? (String.ofList (Text.trim cs))).filter Float.isFinite

/-- The position that two attributes give, if both are there and finite; nothing comes of it when the attributes are
    malformed. -/
def position? (t : Tag) (xKey yKey : String) : Option (Option Position) := do
  let x ← t.attribute? xKey
  let y ← t.attribute? yKey
  return do return ⟨← x.bind coordinate?, ← y.bind coordinate?⟩

/-- Whether a tag belongs to the class of nodes. -/
def isNode? (t : Tag) : Option Bool :=
  (t.attribute? "class").map fun c => c.any fun cs => (Text.words cs).contains "node".toList

/-- The group after the tag of an element at a depth, which may have content or not. -/
def enter? (t : Tag) (depth : Nat) (hasContent : Bool) (group : Option Group) : Option (Option Group) :=
  if t.name == ascii "g" then
    if hasContent && group.isNone then (isNode? t).map fun b => if b then some { depth } else none
    else some group
  else match group with
    | none => some none
    | some g =>
      if t.name == ascii "title" then some (some (if hasContent then { g with inTitle := true } else g))
      else if t.name == ascii "ellipse" && g.center.isNone then
        (position? t "cx" "cy").map fun p => some { g with center := p }
      else if t.name == ascii "text" && g.label.isNone then
        (position? t "x" "y").map fun p => some { g with label := p }
      else some (some g)

def leave (name : List UInt8) (s : State) : State :=
  let group := s.group.map fun g => if name == ascii "title" then { g with inTitle := false } else g
  let ends := name == ascii "g" && group.any (·.depth == s.depth)
  { s with
    depth := s.depth - 1
    group := if ends then none else group
    nodes := if ends then ((group.bind Group.node?).toList ++ s.nodes) else s.nodes }

def step? (s : State) : Token → Option State
  | .opening t => do
    let group ← enter? t (s.depth + 1) true s.group
    return { s with depth := s.depth + 1, sawDrawing := s.sawDrawing || t.name == ascii "svg", group }
  | .empty t => do
    let group ← enter? t (s.depth + 1) false s.group
    return { s with sawDrawing := s.sawDrawing || t.name == ascii "svg", group }
  | .text bs =>
    match s.group with
    | some g =>
      if g.inTitle then (decode? bs).map fun cs => { s with group := some { g with title := g.title ++ cs } }
      else some s
    | none => some s
  | .closing name => if s.depth == 0 then none else some (leave name s)

/-- The layout that tokens describe. There has to be a drawing, and no element may stay open. -/
def layoutOf? (tokens : List Token) : Option Layout := do
  let s ← tokens.foldlM step? {}
  if s.sawDrawing && s.depth == 0 then some s.nodes.reverse else none

/-- The layout of a drawing, if it is one. -/
def layout? (bytes : List UInt8) : Option Layout := (tokens? bytes).bind layoutOf?

end ModuleAudit.Drawing
