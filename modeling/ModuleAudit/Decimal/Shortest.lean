import ModuleAudit.Decimal.Binary

/-! The shortest decimal that reads back as a given floating-point number. The numbers that round to
    `m · 2 ^ q` form an interval around it. For one, two, … seventeen digits the two points of the decimal grid
    next to the value are tried; the first grid with a point in the interval gives the digits, and of two such
    points the nearer one. -/

namespace ModuleAudit.Decimal

/-- The decimal `digits * 10 ^ exponent`. -/
structure Digits where
  digits : Nat
  exponent : Int
deriving DecidableEq, Repr

namespace Digits

/-- The power of ten of the first digit. -/
def leading (d : Digits) : Int := d.exponent + (Nat.toDigits 10 d.digits).length - 1

/-- Moves trailing zeros of the digits into the exponent, at most `fuel` of them. -/
def strip : Nat → Digits → Digits
  | 0, d => d
  | fuel + 1, d =>
    if d.digits != 0 && d.digits % 10 == 0 then strip fuel ⟨d.digits / 10, d.exponent + 1⟩ else d

end Digits

/-- The ends of the interval that rounds to `m · 2 ^ q`, in quarters of the unit `2 ^ q`. Below a power of two
    the next smaller number is only half as far away. They belong to the interval when `m` is even. -/
structure Interval where
  lower : Nat
  value : Nat
  upper : Nat
  closed : Bool

namespace Interval

def around (m : Nat) (q : Int) : Interval where
  lower := if m == Nat.pow 2 52 && -1074 < q then 4 * m - 1 else 4 * m - 2
  value := 4 * m
  upper := 4 * m + 2
  closed := m % 2 == 0

/-- Whether `point`, counted in steps of which `per` make up `unit` quarters, lies in the interval. -/
def has (i : Interval) (unit per point : Nat) : Bool :=
  if i.closed then i.lower * unit ≤ point * per && point * per ≤ i.upper * unit
  else i.lower * unit < point * per && point * per < i.upper * unit

end Interval

/-- The point of the grid `10 ^ e` that lies in the interval and next to the value, if there is one. -/
def gridPoint? (i : Interval) (q e : Int) : Option Digits :=
  let unit := Nat.pow 2 (q - 2).toNat * Nat.pow 10 (-e).toNat
  let per := Nat.pow 2 (2 - q).toNat * Nat.pow 10 e.toNat
  let below := i.value * unit / per
  let gap := i.value * unit % per
  let point : Option Nat :=
    match i.has unit per below, i.has unit per (below + 1) with
    | true, true =>
      some (if 2 * gap < per then below else if per < 2 * gap then below + 1 else below + below % 2)
    | true, false => some below
    | false, true => some (below + 1)
    | false, false => none
  point.map fun p => ⟨p, e⟩

/-- The number of decimal digits before the point of `m · 2 ^ q`; not positive when it is below one. -/
def decimalLength (m : Nat) (q : Int) : Int :=
  (Nat.toDigits 10 (m * Nat.pow 2 q.toNat * Nat.pow 10 400 / Nat.pow 2 (-q).toNat)).length - 400

/-- The shortest decimal that reads back as `m · 2 ^ q`, without trailing zeros. -/
def shortest (m : Nat) (q : Int) : Digits :=
  if m == 0 then ⟨0, 0⟩
  else
    let i := Interval.around m q
    let top := decimalLength m q
    let found := (List.range 17).findSome? fun (n : Nat) => gridPoint? i q (top - n - 1)
    (found.getD ⟨m * Nat.pow 2 q.toNat, 0⟩).strip 400

end ModuleAudit.Decimal
