/-! Values of JSON documents. -/

namespace ModuleAudit

/-- A JSON value. The members of an object stand in order. -/
inductive Json where
  | null
  | bool (b : Bool)
  | int (n : Int)
  | float (x : Float)
  | string (s : String)
  | array (elements : List Json)
  | object (members : List (String × Json))

namespace Json

def nat (n : Nat) : Json := .int n

def strings (ss : List String) : Json := .array (ss.map .string)

end Json
end ModuleAudit
