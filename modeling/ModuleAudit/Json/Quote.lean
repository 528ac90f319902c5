import ModuleAudit.Json.Cursor

/-! Strings in a JSON document. A string holds UTF-8 between quotes; control characters have to be escaped, and
    a character beyond sixteen bits is escaped as a pair of surrogates. -/

namespace ModuleAudit.Json

namespace Quote

def hexValue? (b : UInt8) : Option Nat :=
  let ch := Char.ofUInt8 b
  if ch.isDigit then some (ch.toNat - 48)
  else if 'a' ≤ ch && ch ≤ 'f' then some (ch.toNat - 87)
  else if 'A' ≤ ch && ch ≤ 'F' then some (ch.toNat - 55)
  else none

/-- The number that four hexadecimal digits spell. -/
def hexNumber? (ds : List UInt8) : Option Nat :=
  ds.foldlM (fun n b => (hexValue? b).map (n * 16 + ·)) 0

def skip (c : Cursor) (n : Nat) : Cursor := n.repeat Cursor.next c

def hexDigits (c : Cursor) : Outcome (Nat × Cursor) :=
  if c.rest.length < 4 then (skip c c.rest.length).here .endInString
  else
    match hexNumber? (c.rest.take 4) with
    | some n => .ok (n, skip c 4)
    | none => (skip c 4).here .invalidEscape

/-- Reads a byte that has to follow a first surrogate. -/
def surrogateMark (ch : Char) (c : Cursor) : Outcome (Unit × Cursor) :=
  match c.peek? with
  | none => c.here .endInString
  | some ch' => if ch' == ch then .ok ((), c.next) else c.next.here .unfinishedSurrogate

/-- Reads what follows the letter `u` of an escape. -/
def unicodeEscape (c : Cursor) : Outcome (Char × Cursor) := do
  let (n, c) ← hexDigits c
  if 0xDC00 ≤ n && n ≤ 0xDFFF then c.here .loneSurrogate
  else if n < 0xD800 || 0xDBFF < n then .ok (Char.ofNat n, c)
  else
    let (_, c) ← surrogateMark '\\' c
    let (_, c) ← surrogateMark 'u' c
    let (n', c) ← hexDigits c
    if n' < 0xDC00 || 0xDFFF < n' then c.here .loneSurrogate
    else .ok (Char.ofNat (0x10000 + (n - 0xD800) * 0x400 + (n' - 0xDC00)), c)

/-- The character that a letter stands for after a backslash. -/
def simpleEscape? : Char → Option Char
  | '"' => some '"'
  | '\\' => some '\\'
  | '/' => some '/'
  | 'b' => some '\x08'
  | 'f' => some '\x0c'
  | 'n' => some '\n'
  | 'r' => some '\r'
  | 't' => some '\t'
  | _ => none

def escape (c : Cursor) : Outcome (Char × Cursor) :=
  match c.peek? with
  | none => c.here .endInString
  | some 'u' => unicodeEscape c.next
  | some ch =>
    match simpleEscape? ch with
    | some ch' => .ok (ch', c.next)
    | none => c.next.here .invalidEscape

/-- Reads up to the closing quote. `taken` holds the bytes of the string so far, last first; each round reads at
    least one byte. -/
def bytesTo : Nat → List UInt8 → Cursor → Outcome (List UInt8 × Cursor)
  | 0, _, c => c.here .endInString
  | rounds + 1, taken, c =>
    match c.rest with
    | [] => c.here .endInString
    | b :: _ =>
      if b == 0x22 then .ok (taken.reverse, c)
      else if b == 0x5C then do
        let (ch, c) ← escape c.next
        bytesTo rounds ((String.utf8EncodeChar ch).reverse ++ taken) c
      else if b < 32 then c.next.here .controlCharacter
      else bytesTo rounds (b :: taken) c.next

def read (c : Cursor) : Outcome (String × Cursor) := do
  let (bytes, c) ← bytesTo (c.rest.length + 1) [] c
  match String.fromUTF8? bytes.toByteArray with
  | some s => .ok (s, c.next)
  | none => c.here .invalidUtf8

def skipEscape (c : Cursor) : Outcome (Unit × Cursor) :=
  match c.peek? with
  | none => c.here .endInString
  | some 'u' => (hexDigits c.next).map fun r => ((), r.2)
  | some ch => if (simpleEscape? ch).isSome then .ok ((), c.next) else c.next.here .invalidEscape

/-- Passes over a string after its opening quote without reading it; it need not be UTF-8. -/
def skipTo : Nat → Cursor → Outcome (Unit × Cursor)
  | 0, c => c.here .endInString
  | rounds + 1, c =>
    match c.rest with
    | [] => c.here .endInString
    | b :: _ =>
      if b == 0x22 then .ok ((), c.next)
      else if b == 0x5C then do
        let (_, c) ← skipEscape c.next
        skipTo rounds c
      else if b < 32 then c.here .controlCharacter
      else skipTo rounds c.next

def skipString (c : Cursor) : Outcome (Unit × Cursor) := skipTo (c.rest.length + 1) c

end Quote
end ModuleAudit.Json
