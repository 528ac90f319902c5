import ModuleAudit.Decimal.Text
import ModuleAudit.Json.Value
import ModuleAudit.ModuleMap

/-! Writing JSON. A document is written compactly, without any white space, or indented by two blanks for each
    level with one element or member on a line. -/

namespace ModuleAudit.Json

/-- How the parts of a document are set apart. -/
inductive Style where
  | compact
  | indented
deriving DecidableEq, Repr

namespace Style

/-- What stands before an element at a level, and before the closing bracket. -/
def gap : Style → Nat → List Char
  | .compact, _ => []
  | .indented, depth => '\n' :: List.replicate (2 * depth) ' '

def colon : Style → List Char
  | .compact => [':']
  | .indented => [':', ' ']

end Style

def hexDigit (n : Nat) : Char := if n < 10 then Char.ofNat (48 + n) else Char.ofNat (87 + n)

/-- A character inside a string. Quotes, backslashes and control characters are escaped, and nothing else. -/
def escape (c : Char) : List Char :=
  if c == '"' then ['\\', '"']
  else if c == '\\' then ['\\', '\\']
  else if c == '\x08' then ['\\', 'b']
  else if c == '\t' then ['\\', 't']
  else if c == '\n' then ['\\', 'n']
  else if c == '\x0c' then ['\\', 'f']
  else if c == '\r' then ['\\', 'r']
  else if c.toNat < 32 then ['\\', 'u', '0', '0', hexDigit (c.toNat / 16), hexDigit (c.toNat % 16)]
  else [c]

def quoted (s : String) : List Char := '"' :: s.toList.flatMap escape ++ ['"']

/-- The text of a number; a document has none for what is not finite. -/
def number (x : Float) : List Char := ((Decimal.json? x).getD "null").toList

mutual

/-- The text of a value that stands at level `depth`. -/
def write (st : Style) (depth : Nat) : Json → List Char
  | .null => "null".toList
  | .bool true => "true".toList
  | .bool false => "false".toList
  | .int n => (toString n).toList
  | .float x => number x
  | .string s => quoted s
  | .array [] => "[]".toList
  | .array (x :: xs) =>
    '[' :: st.gap (depth + 1) ++ write st (depth + 1) x ++ writeElements st (depth + 1) xs ++ st.gap depth ++ [']']
  | .object [] => ['{', '}']
  | .object (m :: ms) =>
    '{' :: st.gap (depth + 1) ++ writeMember st (depth + 1) m ++ writeMembers st (depth + 1) ms ++ st.gap depth ++ ['}']

/-- The elements after the first. -/
def writeElements (st : Style) (depth : Nat) : List Json → List Char
  | [] => []
  | x :: xs => ',' :: st.gap depth ++ write st depth x ++ writeElements st depth xs

def writeMember (st : Style) (depth : Nat) : String × Json → List Char
  | (k, v) => quoted k ++ st.colon ++ write st depth v

/-- The members after the first. -/
def writeMembers (st : Style) (depth : Nat) : List (String × Json) → List Char
  | [] => []
  | m :: ms => ',' :: st.gap depth ++ writeMember st depth m ++ writeMembers st depth ms

end

def text (st : Style) (v : Json) : String := String.ofList (write st 0 v)

/-- The document of a map: an object with one member for each entry. -/
def ofMap {α : Type} (value : α → Json) (t : ModuleMap α) : Json :=
  .object (t.toList.map fun e => (e.1, value e.2))

end ModuleAudit.Json
