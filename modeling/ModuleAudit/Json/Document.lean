import ModuleAudit.Graph
import ModuleAudit.Json.Printer
import ModuleAudit.Json.Record
import ModuleAudit.Metric.Coupling

/-! The JSON documents of trees, graphs, positions and coupling figures. A map is an object with the modules as
    keys; when a key is repeated, its first place and its last value count. -/

namespace ModuleAudit

open Json

namespace ModuleMap

variable {α : Type}

/-- Reads a map whose values are all of one kind. -/
def reader (value : Reader α) : Reader (ModuleMap α) := fun c =>
  (Reader.object "a map keyed by module identifier" value c).map fun r => (ofList r.1, r.2)

end ModuleMap

namespace Tree

def reader : Reader Tree := ModuleMap.reader (Reader.list Reader.string)

def ofJson (bytes : List UInt8) : Outcome Tree := Reader.document reader bytes

def toJson (t : Tree) : Json := .ofMap .strings t

end Tree

namespace Coupling

def shape : Record.Shape Number where
  name := "CouplingRecord"
  fields :=
    let count : Reader Number := fun c => (Reader.count c).map fun r => (.integer r.1, r.2)
    let score : Reader Number := Reader.number "f64" .ok
    [("efferentCoupling", count), ("afferentCoupling", count), ("instabilityIndex", score)]

def ofFields : List Number → Coupling
  | [.integer ce, .integer ca, i] => ⟨ce.toNat, ca.toNat, i.toFloat⟩
  | _ => ⟨0, 0, 0⟩

/-- Reads the document of coupling figures; the instability is taken as it stands. -/
def ofJson (bytes : List UInt8) : Outcome Coupling := (Reader.document (Record.read shape) bytes).map ofFields

def toJson (c : Coupling) : Json :=
  .object [("efferentCoupling", .nat c.efferent), ("afferentCoupling", .nat c.afferent),
    ("instabilityIndex", .float c.instability)]

end Coupling

namespace Position

def shape : Record.Shape Float := ⟨"Position", [("x", Reader.float), ("y", Reader.float)]⟩

def ofFields : List Float → Position
  | [x, y] => ⟨x, y⟩
  | _ => ⟨0, 0⟩

def ofJson (bytes : List UInt8) : Outcome Position := (Reader.document (Record.read shape) bytes).map ofFields

def members (p : Position) : List (String × Json) := [("x", .float p.x), ("y", .float p.y)]

def toJson (p : Position) : Json := .object p.members

end Position

namespace Graph

/-- A module with its coordinates, if it has any. -/
def nodeJson (m : String) (p : Option Position) : Json :=
  .object (("id", .string m) :: (p.map Position.members).getD [])

def toJson (g : Graph) : Json :=
  .object [("nodes", .array (g.nodes.toList.map fun e => nodeJson e.1 e.2)),
    ("edges", .array (g.edges.map fun e => .strings [e.1, e.2]))]

end Graph
end ModuleAudit
