import ModuleAudit.Decimal.Shortest

/-! How numbers are written: with the shortest digits, positionally or with an exponent, or with a fixed number
    of places. -/

namespace ModuleAudit.Decimal

/-- The digits with the point in its place and no exponent; no point when the value is whole. -/
def positional (d : Digits) : String :=
  let ds := Nat.toDigits 10 d.digits
  if 0 ≤ d.exponent then String.ofList (ds ++ List.replicate d.exponent.toNat '0')
  else
    let places := (-d.exponent).toNat
    let padded := List.replicate (places + 1 - ds.length) '0' ++ ds
    let whole := padded.length - places
    String.ofList (padded.take whole ++ '.' :: padded.drop whole)

/-- One digit, a point, the other digits, and a power of ten that always has its sign. -/
def scientific (d : Digits) : String :=
  let rest := (Nat.toDigits 10 d.digits).drop 1
  let first := (Nat.toDigits 10 d.digits).take 1
  let point := if rest.isEmpty then [] else ['.']
  let sign := if d.leading < 0 then "e-" else "e+"
  String.ofList (first ++ point ++ rest) ++ sign ++ toString d.leading.natAbs

def signed (negative : Bool) (text : String) : String := if negative then "-" ++ text else text

/-- The plain text of a number: positional at every size, whole numbers without a point. -/
def plain (x : Float) : String :=
  match Binary.ofFloat x with
  | .nan => "NaN"
  | .infinite negative => signed negative "inf"
  | .finite negative m q => signed negative (positional (shortest m q))

/-- The text of a number as a JSON document has it: positional with at least one decimal when the first digit
    stands for `10 ^ e` with `-5 ≤ e < 16`, else with an exponent. A document has no other numbers. -/
def json? (x : Float) : Option String :=
  match Binary.ofFloat x with
  | .finite negative m q =>
    let d := shortest m q
    let text :=
      if d.leading < -5 || 16 ≤ d.leading then scientific d
      else if 0 ≤ d.exponent then positional d ++ ".0"
      else positional d
    some (signed negative text)
  | _ => none

/-- A number with a fixed number of places; a value halfway goes to the even neighbour, and a negative number
    that rounds to zero keeps its sign. -/
def fixed (places : Nat) (x : Float) : String :=
  match Binary.ofFloat x with
  | .nan => "NaN"
  | .infinite negative => signed negative "inf"
  | .finite negative m q =>
    let n := roundDiv (m * Nat.pow 2 q.toNat * Nat.pow 10 places) (Nat.pow 2 (-q).toNat) .toEven
    signed negative (positional ⟨n, -places⟩)

end ModuleAudit.Decimal
