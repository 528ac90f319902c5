import ModuleAudit.Error
import ModuleAudit.Extraction.Clean
import ModuleAudit.Files.System
import ModuleAudit.Json.Document

/-! Extraction from files: the document of a dependency tree and, if wanted, a diagram. -/

namespace ModuleAudit

/-- Where an extraction reads, and which modules it leaves out. -/
structure Extraction where
  treePath : String
  diagramPath : Option String := none
  exclude : List Glob := []

namespace Extraction

def isExcluded (x : Extraction) (m : String) : Bool := x.exclude.any (·.isMatch m)

def readTree (x : Extraction) (fs : FileSystem) : Except Error Tree :=
  match fs.read x.treePath with
  | .error f => .error (.fileSystem x.treePath f.message)
  | .ok bytes =>
    match Tree.ofJson bytes with
    | .error f => .error (.extraction (x.treePath ++ " is not a module adjacency document: " ++ f.message))
    | .ok raw => .ok (raw.clean x.isExcluded)

/-- The diagram, and what is to be said when it cannot be read. -/
def readDiagram (x : Extraction) (fs : FileSystem) : Option (List UInt8) × List String :=
  match x.diagramPath with
  | none => (none, [])
  | some path =>
    match fs.read path with
    | .ok bytes => (some bytes, [])
    | .error f => (none, ["Could not read diagram " ++ path ++ ": " ++ f.message])

/-- Reads the files. Without a readable tree there is nothing; a missing diagram is only remarked upon. -/
def extract (x : Extraction) (fs : FileSystem) : Except Error Extracted := do
  let tree ← x.readTree fs
  let (diagram, remarks) := x.readDiagram fs
  return { Extracted.ofTree tree with diagram, warnings := tree.skippedWarnings ++ remarks }

end Extraction
end ModuleAudit
