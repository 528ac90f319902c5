/-! The arithmetic in which edge weights and scores are computed. The analyses are written over any type with
    these operations and no laws. Reports are computed in floating point; the rationals are the exact
    counterpart. -/

namespace ModuleAudit

/-- The operations that scores are computed with. -/
class Weight (α : Type) extends Zero α, One α, Add α, Sub α, Mul α, Div α where
  ofNat : Nat → α
  /-- Whether the first number is less than the second. -/
  less : α → α → Bool
  /-- Whether a result is a number at all, and not an overflow. -/
  isFinite : α → Bool
  /-- Gains that differ by no more than this count as equal. -/
  tolerance : α

instance : Weight Float where
  zero := 0
  one := 1
  ofNat := Float.ofNat
  less x y := decide (x < y)
  isFinite := Float.isFinite
  tolerance := 1e-12

instance : Weight Rat where
  zero := 0
  one := 1
  ofNat n := n
  less x y := decide (x < y)
  isFinite _ := true
  tolerance := 1 / 1000000000000

namespace Weight

variable {α : Type} [Weight α]

/-- `x`, or one when `x` is larger. -/
def capped (x : α) : α := if less x 1 then x else 1

/-- The sum from the left, starting from zero. -/
def sum (xs : List α) : α := xs.foldl (· + ·) 0

end Weight
end ModuleAudit
