/-! Paths as texts. The components of a path stand between slashes. Empty ones do not count, and a single dot counts
    only at the start of a path that does not start at the root. -/

namespace ModuleAudit.Files

/-- The parts of a text between slashes. -/
def pieces : List Char → List (List Char)
  | [] => [[]]
  | c :: cs =>
    if c == '/' then [] :: pieces cs
    else match pieces cs with
      | [] => [[c]]
      | p :: ps => (c :: p) :: ps

/-- The parts with the place where each of them ends; `start` is the place where the first one starts. -/
def ends (start : Nat) : List (List Char) → List (List Char × Nat)
  | [] => []
  | p :: ps => (p, start + p.length) :: ends (start + p.length + 1) ps

def isRooted (path : List Char) : Bool := path.head? == some '/'

/-- The places where the components of a path end. -/
def componentEnds (path : List Char) : List Nat :=
  let counts (p : List Char × Nat) : Bool :=
    !p.1.isEmpty && (p.1 != ['.'] || (p.2 == 1 && !isRooted path))
  ((ends 0 (pieces path)).filter counts).map Prod.snd

/-- The path without its last component and what follows the one before it. A path without components has no
    parent. -/
def parent? (path : List Char) : Option (List Char) :=
  match (componentEnds path).reverse with
  | [] => none
  | _ :: before =>
    some (match before with
      | e :: _ => path.take e
      | [] => if isRooted path then ['/'] else [])

/-- The path and those above it, at most `limit` in all. -/
def chain : Nat → List Char → List (List Char)
  | 0, _ => []
  | limit + 1, path => path :: ((parent? path).map (chain limit)).getD []

/-- A directory and those above it, at most `limit` in all. -/
def ancestors (limit : Nat) (path : String) : List String := (chain limit path.toList).map String.ofList

def join (directory file : String) : String :=
  if directory.isEmpty || directory.endsWith "/" then directory ++ file else directory ++ "/" ++ file

end ModuleAudit.Files
