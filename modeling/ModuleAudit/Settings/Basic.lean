import ModuleAudit.Community.Tuning
import ModuleAudit.Error
import ModuleAudit.Json.Value

/-! The settings of an audit. -/

namespace ModuleAudit

/-- How communities are found, whether a layout diagram has to be there, whether metrics may be computed side by
    side, and which modules are left out. -/
structure Settings where
  community : Community.Tuning Float := Community.Tuning.standard
  layoutRequired : Bool := false
  parallel : Bool := true
  exclude : List String := []

namespace Settings

instance : Inhabited Settings := ⟨{}⟩

/-- The patterns of the modules that are left out. The first malformed one is an error. -/
def patterns (s : Settings) : Except Error (List Glob) :=
  s.exclude.mapM fun raw => (Glob.ofString raw).mapError .pattern

/-- Why a tuning cannot be used, as an error. -/
def checkTuning (t : Community.Tuning Float) : Except Error Unit :=
  match t.fault? with
  | some fault => .error (.configuration fault.message)
  | none => .ok ()

/-- Settings are valid when communities can be found with them and every pattern is well formed. -/
def validate (s : Settings) : Except Error Unit := do
  checkTuning s.community
  let _ ← s.patterns

def toJson (s : Settings) : Json :=
  .object
    [("community", .object
        [("resolution", .float s.community.resolution), ("max_passes", .nat s.community.maxPasses)]),
      ("layout", .object [("required", .bool s.layoutRequired)]),
      ("execution", .object [("parallel", .bool s.parallel)]),
      ("filter", .object [("exclude", .strings s.exclude)])]

def fileName : String := ".modmap.toml"

/-- The lines of a settings file that spells out the defaults. -/
def templateLines : List String :=
  ["# modmap configuration",
    "",
    "[community]",
    "# Granularity of detected communities. Higher values produce fewer, larger",
    "# communities; lower values produce more, smaller ones. Must be > 0.",
    "resolution = 0.8",
    "# Upper bound on local-moving passes per aggregation level.",
    "max_passes = 100",
    "",
    "[layout]",
    "# When true, a missing or unreadable layout diagram yields an empty report.",
    "required = false",
    "",
    "[execution]",
    "# Compute community, centrality and density metrics concurrently.",
    "parallel = true",
    "",
    "[filter]",
    "# Glob patterns for modules excluded from the analysis.",
    "exclude = []"]

/-- The text of a settings file that spells out the defaults. -/
def template : String := String.join (templateLines.map (· ++ "\n"))

end Settings
end ModuleAudit
