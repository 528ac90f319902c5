/-! Words for scores: how stable a module is, how modular a graph is, how much coupling a module carries. -/

namespace ModuleAudit

/-- How far a module depends on others more than they on it. -/
inductive Stability where
  | stable
  | balanced
  | unstable
deriving DecidableEq, Repr

namespace Stability

/-- Rates an instability. What is not less than either bound, such as a score that is no number, is unstable. -/
def ofInstability (x : Float) : Stability :=
  if x < 0.3 then .stable else if x < 0.7 then .balanced else .unstable

def text : Stability → String
  | .stable => "stable"
  | .balanced => "balanced"
  | .unstable => "unstable"

end Stability

/-- How clearly a graph falls into communities. -/
inductive Modularity where
  | weak
  | moderate
  | strong
deriving DecidableEq, Repr

namespace Modularity

def ofScore (x : Float) : Modularity :=
  if x < 0.3 then .weak else if x < 0.5 then .moderate else .strong

def text : Modularity → String
  | .weak => "weak"
  | .moderate => "moderate"
  | .strong => "strong"

end Modularity

/-- How many modules a module is joined with. -/
inductive Load where
  | low
  | moderate
  | high
deriving DecidableEq, Repr

namespace Load

def ofCoupling (n : Nat) : Load :=
  if n ≤ 5 then .low else if n ≤ 15 then .moderate else .high

def text : Load → String
  | .low => "low"
  | .moderate => "moderate"
  | .high => "high"

end Load
end ModuleAudit
