/-! Values of TOML documents. A table remembers how it came about, which decides what may still be added to it. -/

namespace ModuleAudit.Toml

/-- How a table came about. -/
inductive Origin where
  /-- On the way to the table of a header. -/
  | passed
  /-- By a header of its own. -/
  | header
  /-- By a dotted key. -/
  | dotted
  /-- Between braces; nothing can be added to it. -/
  | braces
deriving DecidableEq, Repr

inductive Value where
  | string (s : String)
  | integer (n : Int)
  | float (x : Float)
  | overflow
  | boolean (b : Bool)
  | datetime
  | array (elements : List Value)
  | table (origin : Origin) (entries : List (String × Value))
  /-- A list of tables with headers. Entries go to the latest. -/
  | tables (earlier : List Value) (latest : List (String × Value))

/-- The keys of a table with their values, each key once. -/
abbrev Entries := List (String × Value)

namespace Entries

/-- Gives a key a value; a new key goes to the end. -/
def set (k : String) (v : Value) : Entries → Entries
  | [] => [(k, v)]
  | (k', v') :: es => if k' == k then (k, v) :: es else (k', v') :: set k v es

/-- Adds a value under a dotted key, which consists of `path` and `k`. The tables on the way are new or came about by
    dotted keys; one that was only passed by a header may lie on the way but not hold the value. -/
def add (k : String) (v : Value) : List String → Entries → Option Entries
  | [], es => if (es.lookup k).isSome then none else some (es.set k v)
  | p :: ps, es =>
    match es.lookup p with
    | none => (add k v ps []).map fun sub => es.set p (.table .dotted sub)
    | some (.table .dotted sub) => (add k v ps sub).map fun sub => es.set p (.table .dotted sub)
    | some (.table .passed sub) =>
      if ps.isEmpty then none else (add k v ps sub).map fun sub => es.set p (.table .passed sub)
    | some _ => none

/-- Opens the table of a header, which must not have been defined before. -/
def openTable (k : String) (es : Entries) : Option Entries :=
  match es.lookup k with
  | none => some (es.set k (.table .header []))
  | some (.table .passed sub) => some (es.set k (.table .header sub))
  | some _ => none

/-- Opens a further table in the list of a header. -/
def openElement (k : String) (es : Entries) : Option Entries :=
  match es.lookup k with
  | none => some (es.set k (.tables [] []))
  | some (.tables earlier latest) => some (es.set k (.tables (earlier ++ [.table .header latest]) []))
  | some _ => none

/-- Changes the table at the end of a path. Missing tables are made on the way, and of a list of tables the latest
    is taken. -/
def within (change : Entries → Option Entries) : List String → Entries → Option Entries
  | [], es => change es
  | p :: ps, es =>
    match es.lookup p with
    | none => (within change ps []).map fun sub => es.set p (.table .passed sub)
    | some (.table .braces _) => none
    | some (.table origin sub) => (within change ps sub).map fun sub => es.set p (.table origin sub)
    | some (.tables earlier latest) => (within change ps latest).map fun latest => es.set p (.tables earlier latest)
    | some _ => none

end Entries
end ModuleAudit.Toml
