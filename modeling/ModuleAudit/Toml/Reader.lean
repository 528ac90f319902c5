import ModuleAudit.Toml.Quoted

/-! Reading TOML documents. A document consists of lines: a key with its value, or a header that says which table the
    keys after it belong to. -/

namespace ModuleAudit.Toml

def isBlank (c : Char) : Bool := c == ' ' || c == '\t'

def skipBlank (cs : List Char) : List Char := cs.dropWhile isBlank

/-- Past a comment, if one is there, up to the end of the line. -/
def skipComment? (cs : List Char) : Option (List Char) :=
  match cs with
  | '#' :: r =>
    let rest := r.dropWhile Quoted.isPlain
    if rest.isEmpty || (Quoted.lineBreak? rest).isSome then some rest else none
  | _ => some cs

/-- Past blanks, comments and line breaks. -/
def skipLines? : Nat → List Char → Option (List Char)
  | 0, cs => some cs
  | rounds + 1, cs => do
    let cs ← skipComment? (skipBlank cs)
    match Quoted.lineBreak? cs with
    | some cs => skipLines? rounds cs
    | none => return cs

def skipGap? (cs : List Char) : Option (List Char) := skipLines? (cs.length + 1) cs

/-- To the end of a line on which nothing but a comment may follow. -/
def endLine? (cs : List Char) : Option (List Char) := do
  let cs ← skipComment? (skipBlank cs)
  if cs.isEmpty then some [] else Quoted.lineBreak? cs

def isBare (c : Char) : Bool := c.isAlphanum || c == '_' || c == '-'

/-- One part of a key, bare or in quotes. -/
def keyPart? (cs : List Char) : Option (String × List Char) :=
  if cs.head? == some '"' || cs.head? == some '\'' then
    (Quoted.line? cs).map fun r => (String.ofList r.1, r.2)
  else
    let name := cs.takeWhile isBare
    if name.isEmpty then none else some (String.ofList name, cs.dropWhile isBare)

/-- The parts of a key with dots between them: those before the last, and the last. -/
def key? : Nat → List Char → Option ((List String × String) × List Char)
  | 0, _ => none
  | rounds + 1, cs => do
    let (part, cs) ← keyPart? (skipBlank cs)
    match skipBlank cs with
    | '.' :: cs => do
      let ((path, last), cs) ← key? rounds cs
      return ((part :: path, last), cs)
    | cs => return (([], part), cs)

/-- How deep brackets and braces may be nested. -/
def maxDepth : Nat := 80

mutual

/-- A value inside `depth` brackets and braces. Each round enters a bracket or reads at least one character. -/
def value? : Nat → Nat → List Char → Option (Value × List Char)
  | 0, _, _ => none
  | rounds + 1, depth, cs =>
    match cs with
    | '"' :: _ | '\'' :: _ => (Quoted.read? cs).map fun r => (.string (String.ofList r.1), r.2)
    | '[' :: cs =>
      if maxDepth ≤ depth then none
      else (elements? rounds (depth + 1) cs).map fun r => (.array r.1, r.2)
    | '{' :: cs =>
      if maxDepth ≤ depth then none
      else (braces? rounds (depth + 1) [] cs).map fun r => (.table .braces r.1, r.2)
    | _ => Scalar.read? cs

/-- The elements of an array after its bracket or a comma. -/
def elements? : Nat → Nat → List Char → Option (List Value × List Char)
  | 0, _, _ => none
  | rounds + 1, depth, cs => do
    match ← skipGap? cs with
    | ']' :: cs => return ([], cs)
    | cs =>
      let (v, cs) ← value? rounds depth cs
      match ← skipGap? cs with
      | ',' :: cs =>
        let (vs, cs) ← elements? rounds depth cs
        return (v :: vs, cs)
      | ']' :: cs => return ([v], cs)
      | _ => none

/-- The entries of a table in braces after its brace or a comma; `entries` are those before. -/
def braces? : Nat → Nat → Entries → List Char → Option (Entries × List Char)
  | 0, _, _, _ => none
  | rounds + 1, depth, entries, cs => do
    match ← skipGap? cs with
    | '}' :: cs => return (entries, cs)
    | cs =>
      let (entries, cs) ← entry? rounds depth entries cs
      match ← skipGap? cs with
      | ',' :: cs => braces? rounds depth entries cs
      | '}' :: cs => return (entries, cs)
      | _ => none

/-- A key and its value, added to the entries before. -/
def entry? : Nat → Nat → Entries → List Char → Option (Entries × List Char)
  | 0, _, _, _ => none
  | rounds + 1, depth, entries, cs => do
    let ((path, last), cs) ← key? (cs.length + 1) cs
    match skipBlank cs with
    | '=' :: cs =>
      let (v, cs) ← value? rounds depth (skipBlank cs)
      let entries ← entries.add last v path
      return (entries, cs)
    | _ => none

end

inductive Line where
  /-- A header, whose table is one of a list or not. -/
  | header (isElement : Bool) (path : List String) (last : String)
  | entry (path : List String) (last : String) (value : Value)
  | nothing

def header? (cs : List Char) : Option (Line × List Char) := do
  let (isElement, cs) := match cs with
    | '[' :: cs => (true, cs)
    | cs => (false, cs)
  let ((path, last), cs) ← key? (cs.length + 1) cs
  match isElement, skipBlank cs with
  | false, ']' :: cs => return (.header false path last, cs)
  | true, ']' :: ']' :: cs => return (.header true path last, cs)
  | _, _ => none

/-- Reads what stands on a line up to its end. -/
def line? (cs : List Char) : Option (Line × List Char) := do
  match skipBlank cs with
  | [] => return (.nothing, [])
  | '[' :: cs =>
    let (l, cs) ← header? cs
    return (l, ← endLine? cs)
  | cs =>
    if cs.head? == some '#' || (Quoted.lineBreak? cs).isSome then return (.nothing, ← endLine? cs)
    else
      let ((path, last), cs) ← key? (cs.length + 1) cs
      match skipBlank cs with
      | '=' :: cs =>
        let cs := skipBlank cs
        let (v, cs) ← value? (4 * cs.length + 4) 0 cs
        return (.entry path last v, ← endLine? cs)
      | _ => none

/-- Reads lines to the end of the document. `section_` is the path of the table that entries belong to, and `root`
    the document so far. -/
def lines? : Nat → List String → Entries → List Char → Option Entries
  | 0, _, root, _ => some root
  | rounds + 1, section_, root, cs => do
    if cs.isEmpty then return root
    let (l, cs) ← line? cs
    match l with
    | .nothing => lines? rounds section_ root cs
    | .header isElement path last =>
      let change := if isElement then Entries.openElement last else Entries.openTable last
      lines? rounds (path ++ [last]) (← root.within change path) cs
    | .entry path last v => lines? rounds section_ (← root.within (Entries.add last v path) section_) cs

/-- The table that a document describes, if it is one. A byte order mark at the front does not count. -/
def ofText? (text : String) : Option Entries :=
  let cs := match text.toList with
    | '\uFEFF' :: cs => cs
    | cs => cs
  lines? (cs.length + 1) [] [] cs

end ModuleAudit.Toml
