import ModuleAudit.Command.Grammar
import ModuleAudit.Decimal.Reader

/-! The commands and the command lines that ask for them. `analyze` audits the dependency tree in a file, and `init`
    writes a file of settings. -/

namespace ModuleAudit

inductive Format where
  | json
  | terminal
deriving DecidableEq, Repr

def Format.text : Format → String
  | .json => "json"
  | .terminal => "terminal"

/-- What is to be audited, with which settings, and where the report goes. -/
structure Analysis where
  tree : String
  diagram : Option String := none
  /-- A file of settings; without one, settings are looked for in the working directory and above it. -/
  config : Option String := none
  resolution : Option Float := none
  sequential : Bool := false
  layoutRequired : Bool := false
  format : Format := .terminal
  /-- A file for the report, which else is printed. -/
  output : Option String := none
  verbosity : Nat := 0
deriving Repr

inductive Command where
  | analyze (a : Analysis)
  /-- Writes the default settings, over a file that is there if `force` is set. -/
  | init (force : Bool)
deriving Repr

namespace Command

def verbosity : Command → Nat
  | .analyze a => a.verbosity
  | .init _ => 0

/-- Takes a value that can be given once. -/
def once {σ α : Type} (get : σ → Option α) (put : σ → α → σ) (read : String → Except Fault α) :
    Setter σ := fun v s => if (get s).isSome then .error .repeated else (read v).map (put s)

def onceOn {σ : Type} (get : σ → Bool) (put : σ → σ) : Action σ :=
  .switch fun s => if get s then .error .repeated else .ok (put s)

/-- Asks for help, whatever has been said before. -/
def help {σ : Type} : Action σ := .switch fun _ => .error .helpAsked

/-- Reads a path, which is not empty. -/
def path (v : String) : Except Fault String := if v.isEmpty then .error .missingValue else .ok v

def number (v : String) : Except Fault Float := (Decimal.float? v).elim (.error .notNumber) .ok

def format (v : String) : Except Fault Format :=
  match [Format.json, .terminal].find? (·.text == v) with
  | some f => .ok f
  | none => .error .unknownChoice

/-- What has been said about an analysis so far. -/
structure Draft where
  tree : Option String := none
  diagram : Option String := none
  config : Option String := none
  resolution : Option Float := none
  sequential : Bool := false
  layoutRequired : Bool := false
  format : Option Format := none
  output : Option String := none
  verbosity : Nat := 0

namespace Draft

/-- An analysis needs a tree; everything else has its default. -/
def analysis (d : Draft) : Except Fault Analysis :=
  match d.tree with
  | none => .error .missingArgument
  | some tree =>
    .ok { tree, diagram := d.diagram, config := d.config, resolution := d.resolution, sequential := d.sequential,
          layoutRequired := d.layoutRequired, format := d.format.getD .terminal, output := d.output,
          verbosity := d.verbosity }

def config? : Action Draft := .value (once config (fun d v => { d with config := some v }) path)

def format? : Action Draft := .value (once format (fun d v => { d with format := some v }) Command.format)

def output? : Action Draft := .value (once output (fun d v => { d with output := some v }) path)

/-- Asks to log more; the number is kept in a byte. -/
def more : Action Draft := .switch fun d => .ok { d with verbosity := min 255 (d.verbosity + 1) }

def grammar : Grammar Draft where
  long :=
    [("diagram", .value (once diagram (fun d v => { d with diagram := some v }) path)),
      ("config", config?),
      ("resolution", .value (once resolution (fun d v => { d with resolution := some v }) number)),
      ("no-parallel", onceOn sequential fun d => { d with sequential := true }),
      ("require-layout", onceOn layoutRequired fun d => { d with layoutRequired := true }),
      ("format", format?),
      ("output", output?),
      ("verbose", more),
      ("help", help)]
  short := [('c', config?), ('f', format?), ('o', output?), ('v', more), ('h', help)]
  arguments := [once tree (fun d v => { d with tree := some v }) path]

end Draft

def initGrammar : Grammar Bool :=
  let force : Action Bool := onceOn id fun _ => true
  { long := [("force", force), ("help", help)], short := [('f', force), ('h', help)], arguments := [] }

def names : List String := ["analyze", "init", "help"]

/-- A question about a command, or about the program when none is named. -/
def helpOn : List String → Fault
  | [] => .helpAsked
  | name :: rest => if names.contains name && rest.isEmpty then .helpAsked else .unknownCommand

def questions : List (String × Fault) := [("help", .helpAsked), ("version", .versionAsked)]

def questionLetters : List (Char × Fault) := [('h', .helpAsked), ('V', .versionAsked)]

/-- What a line that starts with an option asks for. -/
def question (asked : Option Fault) (attached : Option String) : Fault :=
  match asked, attached with
  | none, _ => .unknownArgument
  | some _, some _ => .unneededValue
  | some fault, none => fault

/-- The command of a line, which starts with its name. -/
def ofWords : List String → Except Fault Command
  | [] => .error .nothingAsked
  | name :: rest =>
    match Word.ofString name with
    | .plain "analyze" => do return .analyze (← (← Draft.grammar.read {} rest).analysis)
    | .plain "init" => do return .init (← initGrammar.read false rest)
    | .plain "help" => .error (helpOn rest)
    | .plain _ => .error .unknownCommand
    | .separator =>
      .error (match rest with
        | [] => .nothingAsked
        | w :: _ => if names.contains w then .unknownArgument else .unknownCommand)
    | .long option attached => .error (question (questions.lookup option) attached)
    | .letters cs => .error (question (cs.head?.bind fun c => questionLetters.lookup c) none)

end Command
end ModuleAudit
