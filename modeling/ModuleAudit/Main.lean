import ModuleAudit.Command.Run

/-! The command line program. It reads the files that a command can name, runs the command on them, and then prints and
    writes what the command has left behind. -/

namespace ModuleAudit.Command

def usage : String :=
  String.join ([
    "Module dependency graph and modularity analyzer",
    "",
    "Usage: modmap analyze [OPTIONS] <TREE>",
    "       modmap init [--force]",
    "",
    "Options of analyze:",
    "      --diagram <DIAGRAM>        Graphviz SVG rendering of the dependency graph",
    "  -c, --config <CONFIG>          Configuration file (defaults to the nearest .modmap.toml)",
    "      --resolution <RESOLUTION>  Community resolution; higher values produce larger communities",
    "      --no-parallel              Compute metrics sequentially",
    "      --require-layout           Produce an empty report when the diagram is missing or unreadable",
    "  -f, --format <FORMAT>          Output format: json or terminal",
    "  -o, --output <OUTPUT>          Output file (defaults to stdout)",
    "  -v, --verbose                  Increase verbosity level (can be repeated)"].map (· ++ "\n"))

/-- What is printed in place of running a command. -/
def Fault.text : Fault → String
  | .helpAsked | .nothingAsked => usage
  | .versionAsked => version
  | .unknownCommand => "error: unrecognized subcommand\n"
  | .unknownArgument => "error: unexpected argument\n"
  | .missingArgument => "error: the tree to analyze is missing\n"
  | .missingValue => "error: a value is required\n"
  | .unknownChoice => "error: the value is not one of json, terminal\n"
  | .notNumber => "error: the value is not a number\n"
  | .repeated => "error: an argument cannot be used multiple times\n"
  | .unneededValue => "error: an argument takes no value\n"

/-- The paths that a command looks at in a working directory. -/
def paths (directory : String) : Command → List String
  | .analyze a =>
    let settings := match a.config with
      | some path => [path]
      | none => (Files.ancestors Settings.maxDirectories directory).map fun d => Files.join d Settings.fileName
    let output := a.output.toList.flatMap fun path =>
      path :: ((Files.parent? path.toList).map String.ofList).toList
    a.tree :: a.diagram.toList ++ settings ++ output
  | .init _ => [Settings.fileName]

/-- The paths that a command may write. -/
def targets : Command → List String
  | .analyze a => a.output.toList
  | .init _ => [Settings.fileName]

def snapshot (c : Command) : IO FileSystem := do
  let here ← IO.currentDir
  let directory := here.toString
  let mut fs := FileSystem.startingIn directory
  for path in c.paths directory do
    let target := here / path
    if ← target.isDir then fs := fs.place path .directory
    else if ← target.pathExists then fs := fs.place path (.file (← IO.FS.readBinFile target).toList)
  return fs

/-- Runs a command on the files of the machine. -/
def execute (c : Command) : IO UInt32 := do
  let effect := c.run (← snapshot c)
  let stderr ← IO.getStderr
  for line in effect.log do
    if (LogLevel.ofVerbosity c.verbosity).admits line.level then
      stderr.putStrLn (line.level.text.toUpper ++ " " ++ line.text)
  IO.print effect.printed
  match effect.failure with
  | some f =>
    stderr.putStrLn ("Error: " ++ String.intercalate ": " f.chain)
    return 1
  | none =>
    for path in c.targets do
      if let .ok bytes := effect.files.read path then IO.FS.writeBinFile path bytes.toByteArray
    return 0

end ModuleAudit.Command

open ModuleAudit in
def main (args : List String) : IO UInt32 := do
  match Command.ofWords args with
  | .ok c => c.execute
  | .error f =>
    if f.exitCode == 0 then IO.print f.text else (← IO.getStderr).putStr f.text
    return f.exitCode.toUInt32
