import ModuleAudit.Json.Number
import ModuleAudit.Json.Quote

/-! Readers for the values of a JSON document. A reader asks for one kind of value. Where another kind stands, a
    scalar is read to its end before it is refused, so that its own faults come first; lists and objects are not
    entered. -/

namespace ModuleAudit.Json

/-- Reads a value at a cursor and gives the cursor behind it. -/
abbrev Reader (α : Type) := Cursor → Outcome (α × Cursor)

namespace Reader

variable {α : Type}

def refuse (expected : String) : Reader α := fun c =>
  let wrong (found : Found) (c : Cursor) : Outcome (α × Cursor) := c.here (.invalidType found expected)
  match c.peek? with
  | none => c.ahead .endInValue
  | some 'n' => (c.next.name "ull".toList).bind fun r => wrong .null r.2
  | some 't' => (c.next.name "rue".toList).bind fun r => wrong (.bool true) r.2
  | some 'f' => (c.next.name "alse".toList).bind fun r => wrong (.bool false) r.2
  | some '"' => (Quote.read c.next).bind fun r => wrong (.string r.1) r.2
  | some '[' => wrong .sequence c
  | some '{' => wrong .map c
  | some '-' => (Number.read true c.next).bind fun r => wrong r.1.found r.2
  | some ch =>
    if ch.isDigit then (Number.read false c).bind fun r => wrong r.1.found r.2 else c.ahead .expectedValue

def string : Reader String := fun c =>
  let c := c.skipBlank
  if c.peek? == some '"' then Quote.read c.next else refuse "a string" c

/-- Reads a number and accepts it or says what is wrong with it. -/
def number (expected : String) (accept : Number → Except Problem α) : Reader α := fun c =>
  let c := c.skipBlank
  let check : Outcome (Number × Cursor) → Outcome (α × Cursor) := fun r =>
    r.bind fun (n, c) =>
      match accept n with
      | .ok v => .ok (v, c)
      | .error p => c.here p
  match c.peek? with
  | some '-' => check (Number.read true c.next)
  | some ch => if ch.isDigit then check (Number.read false c) else refuse expected c
  | none => refuse expected c

def integer (expected : String) (low high : Int) : Reader Int :=
  number expected fun
    | .integer n =>
      if low ≤ n && n ≤ high then .ok n else .error (.invalidValue (.integer n) expected)
    | .float x => .error (.invalidType (.float x) expected)

def int64 : Reader Int := integer "i64" (-Nat.pow 2 63) (Nat.pow 2 63 - 1)

def count : Reader Nat := fun c => (integer "usize" 0 (Nat.pow 2 64 - 1) c).map fun r => (r.1.toNat, r.2)

def float : Reader Float := number "f64" fun n => .ok n.toFloat

/-- Goes on to the next element of a list, if there is one. -/
def nextElement (first : Bool) : Reader Bool := fun c =>
  let c := c.skipBlank
  match c.peek? with
  | none => c.ahead .endInList
  | some ']' => .ok (false, c)
  | some ch =>
    if first then .ok (true, c)
    else if ch != ',' then c.ahead .expectedListEnd
    else
      let c := c.next.skipBlank
      match c.peek? with
      | none => c.ahead .endInValue
      | some ']' => c.ahead .trailingComma
      | some _ => .ok (true, c)

/-- Past the end of a list whose elements have been read. -/
def endList : Reader Unit := fun c =>
  let c := c.skipBlank
  match c.peek? with
  | none => c.ahead .endInList
  | some ']' => .ok ((), c.next)
  | some ',' =>
    let c := c.next.skipBlank
    c.ahead (if c.peek? == some ']' then .trailingComma else .trailingCharacters)
  | some _ => c.ahead .trailingCharacters

/-- Reads elements to the end of the list, at most one in each round. -/
def elements (element : Reader α) : Nat → Bool → Reader (List α)
  | 0, _, c => c.here .endInList
  | rounds + 1, first, c => do
    let (more, c) ← nextElement first c
    if !more then return ([], c)
    let (v, c) ← element c
    let (vs, c) ← elements element rounds false c
    return (v :: vs, c)

def list (element : Reader α) : Reader (List α) := fun c => do
  let c := c.skipBlank
  if c.peek? == some '[' then
    let (vs, c) ← elements element (c.rest.length + 1) true c.next
    let (_, c) ← endList c
    return (vs, c)
  else refuse "a sequence" c

/-- Goes on to the next key of an object, if there is one. -/
def nextKey (first : Bool) : Reader Bool := fun c =>
  let c := c.skipBlank
  let key (c : Cursor) (ch : Char) : Outcome (Bool × Cursor) :=
    if ch == '"' then .ok (true, c) else c.ahead .keyNotString
  match c.peek? with
  | none => c.ahead .endInObject
  | some '}' => .ok (false, c)
  | some ch =>
    if first then key c ch
    else if ch != ',' then c.ahead .expectedObjectEnd
    else
      let c := c.next.skipBlank
      match c.peek? with
      | none => c.ahead .endInValue
      | some '}' => c.ahead .trailingComma
      | some ch => key c ch

/-- Past the colon between a key and its value. -/
def colon : Reader Unit := fun c =>
  let c := c.skipBlank
  match c.peek? with
  | none => c.ahead .endInObject
  | some ':' => .ok ((), c.next)
  | some _ => c.ahead .expectedColon

/-- Past the end of an object whose members have been read. -/
def endObject : Reader Unit := fun c =>
  let c := c.skipBlank
  match c.peek? with
  | none => c.ahead .endInObject
  | some '}' => .ok ((), c.next)
  | some ',' => c.ahead .trailingComma
  | some _ => c.ahead .trailingCharacters

/-- Reads members to the end of the object, at most one in each round. -/
def members (value : Reader α) : Nat → Bool → Reader (List (String × α))
  | 0, _, c => c.here .endInObject
  | rounds + 1, first, c => do
    let (more, c) ← nextKey first c
    if !more then return ([], c)
    let (k, c) ← Quote.read c.next
    let (_, c) ← colon c
    let (v, c) ← value c
    let (ms, c) ← members value rounds false c
    return ((k, v) :: ms, c)

/-- An object with any keys and values of one kind. -/
def object (expected : String) (value : Reader α) : Reader (List (String × α)) := fun c => do
  let c := c.skipBlank
  if c.peek? == some '{' then
    let (ms, c) ← members value (c.rest.length + 1) true c.next
    let (_, c) ← endObject c
    return (ms, c)
  else refuse expected c

/-- Reads the whole document with nothing but white space behind the value. -/
def document (value : Reader α) (bytes : List UInt8) : Outcome α := do
  let (v, c) ← value (Cursor.start bytes)
  let c := c.skipBlank
  if c.rest.isEmpty then .ok v else .error (c.next.fault .trailingCharacters)

end Reader
end ModuleAudit.Json
