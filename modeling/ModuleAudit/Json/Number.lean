import ModuleAudit.Decimal.Reader
import ModuleAudit.Json.Cursor

/-! Numbers in a JSON document. A number without point and exponent that fits into sixty-four bits is an integer;
    every other number is a floating-point number. Of its digits only as many are used as fit into sixty-four
    bits, and the number they form is scaled by a floating-point power of ten. -/

namespace ModuleAudit.Json

inductive Number where
  | integer (n : Int)
  | float (x : Float)
deriving Repr

namespace Number

def found : Number → Found
  | .integer n => .integer n
  | .float x => .float x

def toFloat : Number → Float
  | .integer n => Float.ofInt n
  | .float x => x

def limit : Nat := Nat.pow 2 64 - 1

/-- Appends digits to a significand as long as it stays within the limit; says how many were appended. -/
def absorb (significand : Nat) : List Char → Nat × Nat
  | [] => (significand, 0)
  | d :: ds =>
    let n := significand * 10 + Decimal.digitValue d
    if n ≤ limit then
      let (s, k) := absorb n ds
      (s, k + 1)
    else (significand, 0)

/-- The largest power of ten that is applied in one step. -/
def maxPower : Nat := 308

/-- Applies a power of ten, in steps; `none` when the result is out of range. -/
def scale : Nat → Float → Int → Option Float
  | 0, x, _ => some x
  | steps + 1, x, e =>
    if e.natAbs ≤ maxPower then
      let power := Decimal.nearest 1 e.natAbs
      if 0 ≤ e then
        let y := x * power
        if y.isInf then none else some y
      else some (x / power)
    else if x == 0 then some x
    else if 0 ≤ e then none
    else scale steps (x / Decimal.nearest 1 maxPower) (e + maxPower)

/-- The number `significand · 10 ^ e`. Three steps take the largest significand to zero. -/
def scaled (significand : Nat) (e : Int) : Option Float := scale 4 (Float.ofNat significand) e

def signed (negative : Bool) (x : Float) : Float := if negative then -x else x

/-- The largest exponent that is read; a larger one makes every number zero or too large. -/
def maxExponent : Nat := Nat.pow 2 31 - 1

/-- Reads the digits of an exponent, and stops behind the one that makes it too large. -/
def exponentFrom : List UInt8 → Nat → Cursor → Option Nat × Cursor
  | [], n, c => (some n, c)
  | b :: rest, n, c =>
    let ch := Char.ofUInt8 b
    if ch.isDigit then
      let n' := n * 10 + Decimal.digitValue ch
      if n' ≤ maxExponent then exponentFrom rest n' c.next else (none, c.next)
    else (some n, c)

/-- Reads what follows the letter of an exponent and gives the number. -/
def readExponent (negative : Bool) (significand : Nat) (e : Int) (c : Cursor) : Outcome (Number × Cursor) :=
  let (down, c) := match c.peek? with
    | some '-' => (true, c.next)
    | some '+' => (false, c.next)
    | _ => (false, c)
  match c.peek? with
  | none => c.here .endInValue
  | some ch =>
    if !ch.isDigit then c.next.here .invalidNumber
    else match exponentFrom c.rest 0 c with
      | (some n, c) =>
        let n : Int := n
        match scaled significand (if down then e - n else e + n) with
        | some x => .ok (.float (signed negative x), c)
        | none => c.here .numberOutOfRange
      | (none, c) =>
        if significand != 0 && !down then c.here .numberOutOfRange
        else .ok (.float (signed negative 0), c.digits.2)

/-- Gives the number when no exponent follows, and otherwise reads the exponent. -/
def readTail (negative : Bool) (significand : Nat) (e : Int) (c : Cursor) : Outcome (Number × Cursor) :=
  match c.peek? with
  | some 'e' | some 'E' => readExponent negative significand e c.next
  | _ =>
    match scaled significand e with
    | some x => .ok (.float (signed negative x), c)
    | none => c.here .numberOutOfRange

def readFraction (negative : Bool) (significand : Nat) (e : Int) (c : Cursor) : Outcome (Number × Cursor) :=
  let (ds, c') := c.digits
  if ds.isEmpty then c'.ahead (if c'.rest.isEmpty then .endInValue else .invalidNumber)
  else
    let (s, k) := absorb significand ds
    readTail negative s (e - k) c'

/-- The integer with the given sign, if it is one of sixty-four bits and not a negative zero. -/
def integer? (negative : Bool) (n : Nat) : Option Int :=
  if !negative then some n
  else if 0 < n && n ≤ Nat.pow 2 63 then some (-(n : Int))
  else none

def read (negative : Bool) (c : Cursor) : Outcome (Number × Cursor) :=
  match c.peek? with
  | none => c.here .endInValue
  | some ch =>
    if !ch.isDigit then c.next.here .invalidNumber
    else
      let (ds, c') := if ch == '0' then (['0'], c.next) else c.digits
      if ch == '0' && (c'.peek?.any Char.isDigit) then c'.ahead .invalidNumber
      else
        let (s, k) := absorb 0 ds
        let e : Int := ds.length - k
        match c'.peek? with
        | some '.' => readFraction negative s e c'.next
        | some 'e' | some 'E' => readExponent negative s e c'.next
        | _ =>
          if e == 0 then
            match integer? negative s with
            | some n => .ok (.integer n, c')
            | none => .ok (.float (signed negative (Float.ofNat s)), c')
          else readTail negative s e c'

/-- Passes over a number after its sign without reading its value. -/
def skip (c : Cursor) : Outcome (Unit × Cursor) :=
  match c.peek? with
  | none => c.here .invalidNumber
  | some ch =>
    if !ch.isDigit then c.next.here .invalidNumber
    else
      let c := if ch == '0' then c.next else c.digits.2
      if ch == '0' && (c.peek?.any Char.isDigit) then c.ahead .invalidNumber
      else
        let fraction : Outcome (Unit × Cursor) :=
          match c.peek? with
          | some '.' =>
            let (ds, c) := c.next.digits
            if ds.isEmpty then c.ahead .invalidNumber else .ok ((), c)
          | _ => .ok ((), c)
        fraction.bind fun (_, c) =>
          match c.peek? with
          | some 'e' | some 'E' =>
            let c := c.next
            let c := if c.peek? == some '+' || c.peek? == some '-' then c.next else c
            match c.peek? with
            | none => c.here .invalidNumber
            | some ch => if ch.isDigit then .ok ((), c.digits.2) else c.next.here .invalidNumber
          | _ => .ok ((), c)

end Number
end ModuleAudit.Json
