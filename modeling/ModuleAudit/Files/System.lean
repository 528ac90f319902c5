import ModuleAudit.Files.Path

/-! Files and directories. A file system knows the working directory, from which paths lead that do not start at the
    root. -/

namespace ModuleAudit

namespace Files

inductive Fault where
  | notFound
  | notDirectory
  | isDirectory
  | nameTooLong
  | notUtf8
  | nulInPath
deriving DecidableEq, Repr

def Fault.message : Fault → String
  | .notFound => "No such file or directory (os error 2)"
  | .notDirectory => "Not a directory (os error 20)"
  | .isDirectory => "Is a directory (os error 21)"
  | .nameTooLong => "File name too long (os error 36)"
  | .notUtf8 => "stream did not contain valid UTF-8"
  | .nulInPath => "file name contained an unexpected NUL byte"

inductive Entry where
  | file (bytes : List UInt8)
  | directory
deriving DecidableEq, Repr

/-- The names on the way from the root. -/
abbrev Location := List String

end Files

open Files

/-- The entries below the root, and the working directory. -/
structure FileSystem where
  entries : List (Location × Entry)
  workDir : Location

namespace FileSystem

/-- The entry at a location. The root is a directory. -/
def entry? (fs : FileSystem) (l : Location) : Option Entry :=
  if l.isEmpty then some .directory else fs.entries.lookup l

def put (fs : FileSystem) (l : Location) (e : Entry) : FileSystem :=
  { fs with entries := (l, e) :: fs.entries.filter (·.1 != l) }

def names (path : String) : List String := ((pieces path.toList).filter (!·.isEmpty)).map String.ofList

/-- The steps of a path. A slash at its end is a step to the directory itself. -/
def steps (path : String) : List String := if path.endsWith "/" then names path ++ ["."] else names path

/-- The location that one step leads to from a directory. -/
def step (l : Location) (name : String) : Location :=
  if name == "." then l else if name == ".." then l.dropLast else l ++ [name]

/-- Follows steps, each of which has to lead from a directory to something that is there. -/
def walk (fs : FileSystem) : Location → List String → Except Fault Location
  | l, [] => .ok l
  | l, name :: names =>
    match fs.entry? l with
    | none => .error .notFound
    | some (.file _) => .error .notDirectory
    | some .directory =>
      let l' := step l name
      if 255 < name.utf8ByteSize then .error .nameTooLong
      else if (fs.entry? l').isNone then .error .notFound
      else walk fs l' names

/-- Where the steps of a path start. -/
def origin (fs : FileSystem) (path : String) : Location := if path.startsWith "/" then [] else fs.workDir

/-- Refuses texts that are no path. -/
def checkPath (path : String) : Except Fault Unit :=
  if path.contains '\x00' then .error .nulInPath
  else if path.isEmpty then .error .notFound
  else if 4095 < path.utf8ByteSize then .error .nameTooLong
  else .ok ()

def locate (fs : FileSystem) (path : String) : Except Fault Location := do
  checkPath path
  fs.walk (fs.origin path) (steps path)

def has (fs : FileSystem) (path : String) : Bool := (fs.locate path).isOk

def read (fs : FileSystem) (path : String) : Except Fault (List UInt8) := do
  match fs.entry? (← fs.locate path) with
  | some (.file bytes) => .ok bytes
  | some .directory => .error .isDirectory
  | none => .error .notFound

def readText (fs : FileSystem) (path : String) : Except Fault String := do
  match String.fromUTF8? (← fs.read path).toByteArray with
  | some s => .ok s
  | none => .error .notUtf8

/-- Where a file can be written. The directory has to be there, and a slash at the end of a path says that it names
    no file. -/
def locateNew (fs : FileSystem) (path : String) : Except Fault Location := do
  checkPath path
  let last := (names path).getLast?.getD "."
  let l ← fs.walk (fs.origin path) (names path).dropLast
  match fs.entry? l with
  | some .directory =>
    if last == "." || last == ".." || path.endsWith "/" then .error .isDirectory
    else if 255 < last.utf8ByteSize then .error .nameTooLong
    else if fs.entry? (step l last) == some .directory then .error .isDirectory
    else .ok (step l last)
  | _ => .error .notDirectory

def write (fs : FileSystem) (path : String) (bytes : List UInt8) : Except Fault FileSystem := do
  let l ← fs.locateNew path
  .ok (fs.put l (.file bytes))

/-- Creates the directories on the way along some names. -/
def makeDirectories (fs : FileSystem) : Location → List String → FileSystem
  | _, [] => fs
  | l, name :: names =>
    let l' := step l name
    let fs := if (fs.entry? l').isNone then fs.put l' .directory else fs
    makeDirectories fs l' names

/-- Puts an entry at a path, with the directories above it. -/
def place (fs : FileSystem) (path : String) (e : Entry) : FileSystem :=
  let names := steps path
  let start := fs.origin path
  let fs := fs.makeDirectories start names.dropLast
  fs.put (names.foldl step start) e

/-- A file system with nothing in it but a working directory. -/
def startingIn (directory : String) : FileSystem :=
  { place ⟨[], []⟩ directory .directory with workDir := steps directory }

def workPath (fs : FileSystem) : String := "/" ++ String.intercalate "/" fs.workDir

def enter (fs : FileSystem) (path : String) : Except Fault FileSystem := do
  let l ← fs.locate path
  match fs.entry? l with
  | some .directory => .ok { fs with workDir := l }
  | _ => .error .notDirectory

end FileSystem
end ModuleAudit
