import ModuleAudit.Audit.Run
import ModuleAudit.Command.Line
import ModuleAudit.Diagram.Drawing
import ModuleAudit.Extraction.File
import ModuleAudit.Log
import ModuleAudit.Render.Json
import ModuleAudit.Render.Terminal
import ModuleAudit.Settings.Search

/-! What the commands do. An audit that has nothing to report is no failure: it reports that. -/

namespace ModuleAudit

namespace Command

inductive Failure where
  | settingsFile (path : String) (e : Error)
  | settings (e : Error)
  | exclude (e : Error)
  | outputFile (path : String) (f : Files.Fault)
  | settingsExist
  | write (f : Files.Fault)

/-- The failure and what lies behind it, outermost first. -/
def Failure.chain : Failure → List String
  | .settingsFile path e => ("Failed to load config " ++ path) :: e.chain
  | .settings e => "Invalid analysis settings" :: e.chain
  | .exclude e => "Invalid exclude pattern" :: e.chain
  | .outputFile path f => ["Failed to create output file " ++ path, f.message]
  | .settingsExist => ["Configuration file already exists. Use --force to overwrite."]
  | .write f => [f.message]

/-- What a command has logged and printed, the files after it, and why it failed if it did. -/
structure Effect where
  files : FileSystem
  log : List LogLine := []
  printed : String := ""
  failure : Option Failure := none

end Command

open Command (Failure Effect)

namespace Analysis

/-- The settings in force: those of the file, with what the command line says in front. -/
def settings (a : Analysis) (fs : FileSystem) : Except Failure Settings := do
  let s ← match a.config with
    | some path => (Settings.ofFile fs path).mapError (.settingsFile path)
    | none => .ok (Settings.searchHere fs)
  let s := { s with
    community := { s.community with resolution := a.resolution.getD s.community.resolution }
    parallel := s.parallel && !a.sequential
    layoutRequired := s.layoutRequired || a.layoutRequired }
  s.validate.mapError .settings
  return s

def audit (a : Analysis) (fs : FileSystem) : Except Failure Audit.Outcome := do
  let s ← a.settings fs
  let exclude ← s.patterns.mapError .exclude
  let extraction : Extraction := ⟨a.tree, a.diagram, exclude⟩
  return Audit.run s (fun bytes => .ok (Drawing.layout? bytes)) (.ofExcept (extraction.extract fs))

def render (a : Analysis) (r : Option Report) : String :=
  match a.format with
  | .json => Render.json r
  | .terminal => Render.terminal .plain r

def log (a : Analysis) (o : Audit.Outcome) : List LogLine :=
  o.events.map Event.logLine ++
    if o.report.isNone then [⟨.warn, "nothing to report tree=" ++ a.tree⟩] else []

/-- Audits, and prints the report or writes it to its file. -/
def run (a : Analysis) (fs : FileSystem) : Effect :=
  match a.audit fs with
  | .error f => { files := fs, failure := some f }
  | .ok o =>
    let text := a.render o.report
    let log := a.log o
    match a.output with
    | none => { files := fs, log, printed := text }
    | some path =>
      match fs.write path text.toUTF8.toList with
      | .error f => { files := fs, log, failure := some (.outputFile path f) }
      | .ok fs => { files := fs, log }

end Analysis

namespace Command

def writeSettings (force : Bool) (fs : FileSystem) : Effect :=
  if fs.has Settings.fileName && !force then { files := fs, failure := some .settingsExist }
  else
    match fs.write Settings.fileName Settings.template.toUTF8.toList with
    | .error f => { files := fs, failure := some (.write f) }
    | .ok fs => { files := fs, printed := "Created " ++ Settings.fileName ++ " configuration file\n" }

def run : Command → FileSystem → Effect
  | .analyze a => a.run
  | .init force => writeSettings force

end Command
end ModuleAudit
