import ModuleAudit.Settings.Basic
import ModuleAudit.Toml.Reader

/-! Reading settings from their TOML document. Each section is a table; in place of a table a section may be a list,
    which gives the settings of the section in their order. What is missing has its default, and keys that are no
    setting are passed over. -/

namespace ModuleAudit.Settings

open Toml (Value Entries)

mutual

/-- Whether every number in a value is in range: floating-point numbers, and integers of 128 bits. -/
def inRange : Value → Bool
  | .overflow => false
  | .integer n => -Nat.pow 2 127 ≤ n && n < Nat.pow 2 128
  | .array vs => allInRange vs
  | .table _ es => entriesInRange es
  | .tables earlier latest => allInRange earlier && entriesInRange latest
  | _ => true

def allInRange : List Value → Bool
  | [] => true
  | v :: vs => inRange v && allInRange vs

def entryInRange : String × Value → Bool
  | (_, v) => inRange v

def entriesInRange : List (String × Value) → Bool
  | [] => true
  | e :: es => entryInRange e && entriesInRange es

end

/-- A number; integers of sixty-four bits, with or without sign, count as numbers. -/
def float? : Value → Option Float
  | .float x => some x
  | .integer n => if -Nat.pow 2 63 ≤ n && n < Nat.pow 2 64 then some (Float.ofInt n) else none
  | _ => none

def count? : Value → Option Nat
  | .integer n => if 0 ≤ n && n < Nat.pow 2 64 then some n.toNat else none
  | _ => none

def boolean? : Value → Option Bool
  | .boolean b => some b
  | _ => none

def string? : Value → Option String
  | .string s => some s
  | _ => none

def strings? : Value → Option (List String)
  | .array vs => vs.mapM string?
  | _ => none

/-- Sets one setting from its value, if that is of the right kind. -/
abbrev Setter := Value → Settings → Option Settings

def ofEntries (setters : List (String × Setter)) (es : Entries) (s : Settings) : Option Settings :=
  es.foldlM (fun s e =>
    match setters.lookup e.1 with
    | some set => set e.2 s
    | none => if inRange e.2 then some s else none) s

/-- Sets settings in their order from the elements of a list. -/
def ofElements (setters : List (String × Setter)) (vs : List Value) (s : Settings) : Option Settings :=
  (setters.zip vs).foldlM (fun s p => p.1.2 p.2 s) s

def ofSection (setters : List (String × Setter)) : Setter := fun v s =>
  match v with
  | .table _ es => ofEntries setters es s
  | .array vs => ofElements setters vs s
  | .tables earlier latest => ofElements setters (earlier ++ [.table .header latest]) s
  | _ => none

def communitySetters : List (String × Setter) :=
  [("resolution", fun v s => (float? v).map fun x => { s with community := { s.community with resolution := x } }),
    ("max_passes", fun v s => (count? v).map fun n => { s with community := { s.community with maxPasses := n } })]

def layoutSetters : List (String × Setter) :=
  [("required", fun v s => (boolean? v).map fun b => { s with layoutRequired := b })]

def executionSetters : List (String × Setter) :=
  [("parallel", fun v s => (boolean? v).map fun b => { s with parallel := b })]

def filterSetters : List (String × Setter) :=
  [("exclude", fun v s => (strings? v).map fun ss => { s with exclude := ss })]

def sections : List (String × Setter) :=
  [("community", ofSection communitySetters), ("layout", ofSection layoutSetters),
    ("execution", ofSection executionSetters), ("filter", ofSection filterSetters)]

def ofText (text : String) : Except Error Settings :=
  match (Toml.ofText? text).bind fun es => ofEntries sections es {} with
  | none => .error .toml
  | some s => s.validate.map fun _ => s

end ModuleAudit.Settings
