import ModuleAudit.Extraction.Basic
import ModuleAudit.Text.Blank

/-! Cleaning a tree as it was written down. Module names are paths: they are brought to one spelling, names that
    become equal are merged, and empty and excluded ones are left out. -/

namespace ModuleAudit

namespace ModuleName

/-- Cuts `./` at the front as often as it stands there. -/
def stripHere : List Char → List Char
  | '.' :: '/' :: cs => stripHere cs
  | cs => cs

/-- The spelling of a name without white space around it, with slashes between its parts, and without steps to the
    directory it starts from. -/
def normalize (s : String) : String :=
  String.ofList (stripHere ((Text.trim s.toList).map fun c => if c == '\\' then '/' else c))

end ModuleName

namespace Tree

/-- The names in a list that are kept, in their spelling. -/
def keptNames (excluded : String → Bool) (names : List String) : List String :=
  (names.map ModuleName.normalize).filter fun m => m != "" && !excluded m

def extend (t : Tree) (m : String) (deps : List String) : Tree := t.insert m ((t.get? m).getD [] ++ deps)

/-- The tree with names in their spelling. Entries that become one are joined in order, and of a repeated
    dependency the first stays. -/
def clean (excluded : String → Bool) (raw : Tree) : Tree :=
  let merged : Tree := raw.toList.foldl (fun t e =>
    match keptNames excluded [e.1] with
    | [m] => extend t m (keptNames excluded e.2)
    | _ => t) ∅
  merged.mapValues fun _ deps => deps.eraseDups

/-- The dependencies on modules that are not listed, the first for each of those modules. -/
def firstUnlisted (t : Tree) : List Dependency :=
  (t.dependencies.filter fun d => !t.contains d.2).eraseDupsBy fun a b => a.2 == b.2

/-- One remark for each unlisted module, with the first module that imports it. -/
def skippedWarnings (t : Tree) : List String :=
  t.firstUnlisted.map fun d => "Skipped " ++ d.2 ++ " (imported by " ++ d.1 ++ ", not in analyzed set)"

end Tree
end ModuleAudit
