import ModuleAudit.Json.Fault

/-! A place in a JSON document, which is read byte by byte. A reader takes a cursor and gives back a value and the
    cursor behind it, or a fault. A fault is found `here`, in what has been read already, or `ahead`, at the next
    byte. -/

namespace ModuleAudit.Json

/-- The bytes that are still to be read, and the place reached: the line, and the bytes of it that were read. -/
structure Cursor where
  rest : List UInt8
  line : Nat
  column : Nat

namespace Cursor

def start (bytes : List UInt8) : Cursor := ⟨bytes, 1, 0⟩

/-- The next byte as a character. Only ASCII characters are ever compared with it. -/
def peek? (c : Cursor) : Option Char := c.rest.head?.map Char.ofUInt8

/-- One byte further. The end of the document stays the end. -/
def next (c : Cursor) : Cursor :=
  match c.rest with
  | [] => c
  | b :: r => if b == 10 then ⟨r, c.line + 1, 0⟩ else ⟨r, c.line, c.column + 1⟩

/-- The problem, found here. -/
def fault (c : Cursor) (p : Problem) : Fault := ⟨p, c.line, c.column⟩

end Cursor

/-- What comes of reading: a value, mostly with the cursor behind it, or a fault. -/
abbrev Outcome := Except Fault

namespace Cursor

variable {α : Type}

def here (c : Cursor) (p : Problem) : Outcome (α × Cursor) := .error (c.fault p)

def ahead (c : Cursor) (p : Problem) : Outcome (α × Cursor) := .error (c.next.fault p)

def isBlank (ch : Char) : Bool := ch == ' ' || ch == '\n' || ch == '\t' || ch == '\r'

/-- Past white space, of which there are at most as many bytes as `rest`. -/
def skipFrom : List UInt8 → Cursor → Cursor
  | [], c => c
  | b :: rest, c => if isBlank (Char.ofUInt8 b) then skipFrom rest c.next else c

def skipBlank (c : Cursor) : Cursor := skipFrom c.rest c

/-- Past the digits at the cursor; gives the digits. -/
def digitsFrom : List UInt8 → Cursor → List Char × Cursor
  | [], c => ([], c)
  | b :: rest, c =>
    if (Char.ofUInt8 b).isDigit then
      let (ds, c') := digitsFrom rest c.next
      (Char.ofUInt8 b :: ds, c')
    else ([], c)

def digits (c : Cursor) : List Char × Cursor := digitsFrom c.rest c

/-- Past the letters of a name, which have to follow one by one. -/
def name : List Char → Cursor → Outcome (Unit × Cursor)
  | [], c => .ok ((), c)
  | letter :: letters, c =>
    match c.peek? with
    | none => c.here .endInValue
    | some ch => if ch == letter then name letters c.next else c.next.here .expectedIdentifier

end Cursor
end ModuleAudit.Json
