import ModuleAudit.Files.System
import ModuleAudit.Settings.Reader

/-! Finding the settings of an audit. Without a file of settings being named, one is looked for in a directory and in
    those above it. A file that cannot be used is passed over. -/

namespace ModuleAudit.Settings

/-- The number of directories that are looked into. -/
def maxDirectories : Nat := 10

/-- The settings in a file; whatever is wrong with it is an error. -/
def ofFile (fs : FileSystem) (path : String) : Except Error Settings :=
  match fs.readText path with
  | .error f => .error (.fileSystem path f.message)
  | .ok text => ofText text

/-- The settings in a file, if it can be used. -/
def ofFile? (fs : FileSystem) (path : String) : Option Settings := (ofFile fs path).toOption

/-- The settings for a directory: those of the first usable file in it or above it, or else the defaults. -/
def search (fs : FileSystem) (directory : String) : Settings :=
  let candidates := (Files.ancestors maxDirectories directory).map fun d => Files.join d fileName
  (candidates.findSome? (ofFile? fs)).getD {}

def searchHere (fs : FileSystem) : Settings := search fs fs.workPath

end ModuleAudit.Settings
