import ModuleAudit.Audit.Report
import ModuleAudit.Json.Document

/-! The report as a JSON document. -/

namespace ModuleAudit

namespace Report

def toJson (r : Report) : Json :=
  .object
    [("tree", r.tree.toJson),
      ("graph", r.graph.toJson),
      ("modularity", .float r.modularity),
      ("communities", .ofMap .nat r.communities),
      ("density", .float r.density),
      ("degreeCentrality", .ofMap .float r.centrality.degree),
      ("inDegreeCentrality", .ofMap .float r.centrality.incoming),
      ("outDegreeCentrality", .ofMap .float r.centrality.outgoing),
      ("couplingByModule", .ofMap Coupling.toJson r.couplings),
      ("circularGroups", .array (r.cycles.map .strings)),
      ("warnings", .strings r.warnings),
      ("orphanModules", .strings r.orphans),
      ("leafModules", .strings r.leaves)]

end Report

namespace Render

/-- The document of an audit; an empty object when there is nothing to report. -/
def document (r : Option Report) : Json := (r.map Report.toJson).getD (.object [])

/-- The document as it is printed: indented, with a line break at the end. -/
def json (r : Option Report) : String := Json.text .indented (document r) ++ "\n"

end Render
end ModuleAudit
