import ModuleAudit.Text.Width

/-! Tables with ruled lines for a terminal. A column is as wide as its widest line, a blank stands on either side of
    it, and a cell may hold several lines. -/

namespace ModuleAudit.Render

/-- A header and rows with as many cells as the header. -/
structure Table where
  header : List String
  rows : List (List String)

namespace Table

def cellLines (s : String) : List String := s.splitOn "\n"

/-- The columns that the widest line of a cell takes. -/
def cellWidth (s : String) : Nat := ((cellLines s).map Text.width).foldl max 0

def columnWidths (t : Table) : List Nat :=
  t.rows.foldl (fun ws row => List.zipWith max ws (row.map cellWidth)) (t.header.map cellWidth)

/-- A text with blanks behind it up to a width. -/
def padded (n : Nat) (s : String) : String := s ++ String.ofList (List.replicate (n - Text.width s) ' ')

/-- A line that is drawn between rows or around them. -/
structure Rule where
  left : String
  dash : Char
  cross : String
  right : String

def topRule : Rule := ⟨"┌", '─', "┬", "┐"⟩

def headerRule : Rule := ⟨"╞", '═', "╪", "╡"⟩

def rowRule : Rule := ⟨"├", '╌', "┼", "┤"⟩

def bottomRule : Rule := ⟨"└", '─', "┴", "┘"⟩

def Rule.line (r : Rule) (widths : List Nat) : String :=
  r.left ++ String.intercalate r.cross (widths.map fun w => String.ofList (List.replicate (w + 2) r.dash)) ++ r.right

/-- One line of a row, made of one line of each cell. -/
def textLine (widths : List Nat) (texts : List String) : String :=
  "│" ++ String.intercalate "┆" (List.zipWith (fun w s => " " ++ padded w s ++ " ") widths texts) ++ "│"

/-- The lines of a row: as many as its tallest cell has. -/
def rowLines (widths : List Nat) (row : List String) : List String :=
  let cells := row.map cellLines
  (List.range ((cells.map List.length).foldl max 0)).map fun k =>
    textLine widths (cells.map fun ls => ls[k]?.getD "")

def lines (t : Table) : List String :=
  let ws := t.columnWidths
  [topRule.line ws] ++ rowLines ws t.header ++ [headerRule.line ws] ++
    ((t.rows.map (rowLines ws)).intersperse [rowRule.line ws]).flatten ++ [bottomRule.line ws]

end Table
end ModuleAudit.Render
