import ModuleAudit.Audit.Report
import ModuleAudit.Decimal.Text
import ModuleAudit.Render.Style
import ModuleAudit.Render.Table

/-! The report for readers at a terminal: a summary, the modules with the most coupling, the communities, and what is
    wrong, if anything is. -/

namespace ModuleAudit.Render

/-- The number of modules in the table of couplings. -/
def coupledRows : Nat := 10

def ratingStyle : Modularity → Style
  | .strong => .green
  | .moderate => .yellow
  | .weak => .red

def summaryTable (r : Report) : Table where
  header := ["Metric", "Value"]
  rows :=
    [["Modules", toString r.moduleCount],
      ["Dependencies", toString r.graph.edgeCount],
      ["Communities", toString r.communityCount],
      ["Modularity", Decimal.fixed 3 r.modularity ++ " (" ++ r.rating.text ++ ")"],
      ["Density", Decimal.fixed 3 r.density],
      ["Circular groups", toString r.cycles.length]]

def couplingRow (m : String) (c : Coupling) : List String :=
  [m, toString c.efferent, toString c.afferent, c.instabilityText, (Stability.ofInstability c.instability).text,
    (Load.ofCoupling c.total).text]

/-- The figures of the modules with the most coupling. -/
def couplingTable (ranked : List (String × Coupling)) : Table where
  header := ["Module", "Ce", "Ca", "Instability", "Stability", "Load"]
  rows := ranked.map fun (m, c) => couplingRow m c

/-- A part of the report under its title. -/
def titled (colour : Colour) (title : String) (body : List String) : List String :=
  "" :: colour.paint .heading title :: body

/-- A part that is left out when it is empty. -/
def titledUnlessEmpty (colour : Colour) (title : String) (body : List String) : List String :=
  if body.isEmpty then [] else titled colour title body

/-- The way around a cycle, back to its first module. -/
def around (cycle : List String) : String := String.intercalate " -> " (cycle ++ cycle.take 1)

def communityLines (colour : Colour) (members : List (List String)) : List String :=
  members.mapIdx fun id ms => "  " ++ colour.paint .cyan ("#" ++ toString id) ++ " " ++ String.intercalate ", " ms

def reportLines (colour : Colour) (r : Report) : List String :=
  let ranked := r.mostCoupled coupledRows
  [colour.paint .title "Modularity Report", ""] ++
    (summaryTable r).lines ++ ["Modularity is " ++ colour.paint (ratingStyle r.rating) r.rating.text] ++
    (if ranked.isEmpty then [] else titled colour "Most coupled modules" (couplingTable ranked).lines) ++
    titled colour "Communities" (communityLines colour r.communityMembers) ++
    titledUnlessEmpty colour "Circular dependencies"
      (r.cycles.map fun c => "  " ++ colour.paint .red "↻" ++ " " ++ around c) ++
    titledUnlessEmpty colour "Warnings" (r.warnings.map fun w => "  " ++ colour.paint .yellow "!" ++ " " ++ w)

/-- The report of an audit, or word that there is nothing to report. -/
def terminal (colour : Colour) (r : Option Report) : String :=
  let lines := match r with
    | some r => reportLines colour r
    | none => [colour.paint .yellow "No modules to analyze."]
  String.join (lines.map (· ++ "\n"))

end ModuleAudit.Render
