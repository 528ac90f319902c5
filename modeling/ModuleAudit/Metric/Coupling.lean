import ModuleAudit.Tree
import ModuleAudit.Decimal.Text

/-! Coupling of modules, counted on the dependency tree. The efferent coupling of a module is the number of
    modules it imports, the afferent coupling the number of modules that import it; a module that imports
    itself counts in both. The instability is the efferent share of the two. -/

namespace ModuleAudit

structure Coupling where
  efferent : Nat
  afferent : Nat
  instability : Float
deriving Repr

/-- A number rounded to two places. -/
def round2 (x : Float) : Float := Decimal.roundFloat (x * 100) / 100

namespace Coupling

/-- The efferent share of the whole coupling, with two places; zero for a module without any. -/
def instabilityOf (efferent afferent : Nat) : Float :=
  let total := efferent + afferent
  if total == 0 then 0 else round2 (Float.ofNat efferent / Float.ofNat total)

def ofCounts (efferent afferent : Nat) : Coupling := ⟨efferent, afferent, instabilityOf efferent afferent⟩

def total (c : Coupling) : Nat := c.efferent + c.afferent

def instabilityText (c : Coupling) : String := Decimal.fixed 2 c.instability

end Coupling

namespace Tree

/-- Counts one more importer of `m`. -/
def countImporter (counts : Std.TreeMap String Nat) (m : String) : Std.TreeMap String Nat :=
  counts.insert m (counts.getD m 0 + 1)

/-- For each imported name, listed or not, the number of listed modules that import it. The tree is gone through
    once, and a module counts once for each name in its list. -/
def importers (t : Tree) : Std.TreeMap String Nat :=
  t.toList.foldl (fun counts e => e.2.eraseDups.foldl countImporter counts) ∅

def couplings (t : Tree) : ModuleMap Coupling :=
  let importers := t.importers
  t.rebuild fun m deps => Coupling.ofCounts deps.eraseDups.length (importers.getD m 0)

end Tree
end ModuleAudit
