/-! Styles of text on a terminal. -/

namespace ModuleAudit.Render

inductive Style where
  | title
  | heading
  | red
  | green
  | yellow
  | cyan
deriving DecidableEq, Repr

namespace Style

/-- The graphic rendition that a terminal is asked for: bold and underlined, bold, or a colour. -/
def codes : Style → String
  | .title => "1;4"
  | .heading => "1"
  | .red => "31"
  | .green => "32"
  | .yellow => "33"
  | .cyan => "36"

end Style

inductive Colour where
  | plain
  | styled
deriving DecidableEq, Repr

/-- A text in a style; on a plain terminal the text alone. -/
def Colour.paint : Colour → Style → String → String
  | .plain, _, s => s
  | .styled, style, s => "\x1b[" ++ style.codes ++ "m" ++ s ++ "\x1b[0m"

end ModuleAudit.Render
