/-! What a floating-point number is: not a number, an infinity, or a sign with an exact value `m · 2 ^ q`. Every
    decimal text of a number is computed from that value in integers. -/

namespace ModuleAudit.Decimal

/-- The value of a floating-point number. The magnitude of a finite one is `mantissa * 2 ^ exponent`. -/
inductive Binary where
  | nan
  | infinite (negative : Bool)
  | finite (negative : Bool) (mantissa : Nat) (exponent : Int)
deriving DecidableEq, Repr

namespace Binary

/-- Splits the sixty-four bits into a sign, eleven bits of exponent and fifty-two of fraction. -/
def ofFloat (x : Float) : Binary :=
  let bits := x.toBits.toNat
  let negative := bits / Nat.pow 2 63 % 2 == 1
  let exponent : Nat := bits / Nat.pow 2 52 % Nat.pow 2 11
  let fraction := bits % Nat.pow 2 52
  if exponent == 2047 then
    if fraction == 0 then .infinite negative else .nan
  else if exponent == 0 then .finite negative fraction (-1074)
  else .finite negative (Nat.pow 2 52 + fraction) ((exponent : Int) - 1075)

end Binary

/-- Which neighbour takes a value that lies halfway. -/
inductive Tie where
  | toEven
  | awayFromZero
deriving DecidableEq, Repr

/-- `num / den` rounded to a neighbouring integer. -/
def roundDiv (num den : Nat) (tie : Tie) : Nat :=
  let q := num / den
  let r := num % den
  if 2 * r < den then q
  else if den < 2 * r then q + 1
  else match tie with
    | .toEven => if q % 2 == 0 then q else q + 1
    | .awayFromZero => q + 1

/-- The integer nearest to a floating-point number, as one of its kind. The sign of zero is kept, and what is
    not finite stays as it is. -/
def roundFloat (x : Float) : Float :=
  match Binary.ofFloat x with
  | .finite negative m q =>
    let n := if 0 ≤ q then m * Nat.pow 2 q.toNat else roundDiv m (Nat.pow 2 (-q).toNat) .awayFromZero
    let y := Float.ofNat n
    if negative then -y else y
  | _ => x

end ModuleAudit.Decimal
