import ModuleAudit.Json.Skip

/-! Records: values with a fixed list of fields. A record is written as an object, whose members may stand in any
    order among others that are not read, or as a list of the fields in their order. -/

namespace ModuleAudit.Json.Record

variable {α : Type}

/-- The name of a kind of record and its fields. All fields are read as values of one type. -/
structure Shape (α : Type) where
  name : String
  fields : List (String × Reader α)

namespace Shape

def expected (s : Shape α) : String := "struct " ++ s.name

end Shape

/-- A problem with the record as a whole is placed behind its closing bracket, if that comes next. -/
def fault (close : Char) (p : Problem) (c : Cursor) : Outcome (α × Cursor) :=
  let c := c.skipBlank
  if c.peek? == some close then c.next.here p else c.here p

/-- Reads members to the end of the object. `found` holds the fields that have been read. -/
def members (s : Shape α) : Nat → Bool → List (String × α) → Reader (List (String × α))
  | 0, _, _, c => c.here .endInObject
  | rounds + 1, first, found, c => do
    let (more, c) ← Reader.nextKey first c
    if !more then return (found, c)
    let (k, c) ← Quote.read c.next
    match s.fields.lookup k with
    | some value =>
      if (found.lookup k).isSome then fault '}' (.duplicateField k) c
      else
        let (_, c) ← Reader.colon c
        let (v, c) ← value c
        members s rounds false ((k, v) :: found) c
    | none =>
      let (_, c) ← Reader.colon c
      let (_, c) ← Skip.any c
      members s rounds false found c

/-- The values of the fields in order; the first one missing is a fault. -/
def collect (found : List (String × α)) (c : Cursor) : List (String × Reader α) → Outcome (List α)
  | [] => .ok []
  | (k, _) :: rest =>
    match found.lookup k with
    | some v => (collect found c rest).map (v :: ·)
    | none => (fault '}' (.missingField k) c).map fun r => r.1

/-- Reads the fields one after the other. `n` of them have been read. -/
def elements (s : Shape α) : Nat → List (String × Reader α) → Reader (List α)
  | _, [], c => .ok ([], c)
  | n, (_, value) :: rest, c => do
    let (more, c) ← Reader.nextElement (n == 0) c
    if !more then
      fault ']' (.invalidLength n (s.expected ++ " with " ++ toString s.fields.length ++ " elements")) c
    else
      let (v, c) ← value c
      let (vs, c) ← elements s (n + 1) rest c
      return (v :: vs, c)

/-- Reads a record and gives the values of its fields in order. -/
def read (s : Shape α) : Reader (List α) := fun c => do
  let c := c.skipBlank
  match c.peek? with
  | some '{' =>
    let (found, c) ← members s (c.rest.length + 1) true [] c.next
    let vs ← collect found c s.fields
    let (_, c) ← Reader.endObject c
    return (vs, c)
  | some '[' =>
    let (vs, c) ← elements s 0 s.fields c.next
    let (_, c) ← Reader.endList c
    return (vs, c)
  | _ => Reader.refuse s.expected c

end ModuleAudit.Json.Record
