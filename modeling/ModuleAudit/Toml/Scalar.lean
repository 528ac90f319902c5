import ModuleAudit.Decimal.Reader
import ModuleAudit.Toml.Value

/-! Scalars of TOML that are written without quotes: truth values, numbers, dates and times. -/

namespace ModuleAudit.Toml.Scalar

def isHexDigit (c : Char) : Bool := c.isDigit || ('a' ≤ c && c ≤ 'f') || ('A' ≤ c && c ≤ 'F')

def hexValue (c : Char) : Nat :=
  if c.isDigit then c.toNat - 48 else if 'a' ≤ c then c.toNat - 87 else c.toNat - 55

/-- The digits of a number without the underscores, each of which stands between two digits. -/
def digits? (isDigit : Char → Bool) : List Char → Option (List Char)
  | [] => none
  | [c] => if isDigit c then some [c] else none
  | c :: '_' :: cs => if isDigit c then (digits? isDigit cs).map (c :: ·) else none
  | c :: cs => if isDigit c then (digits? isDigit cs).map (c :: ·) else none

def natOf (base : Nat) (ds : List Char) : Nat := ds.foldl (fun n c => n * base + hexValue c) 0

/-- Digits in a base after its mark. -/
def based? (base : Nat) (cs : List Char) : Option Value :=
  (digits? (fun c => isHexDigit c && hexValue c < base) cs).map fun ds => .integer (natOf base ds)

/-- A number does not begin with a zero unless that is its only digit. -/
def noLeadingZero (ds : List Char) : Bool := ds.length == 1 || ds.head? != some '0'

def decimalDigits? (cs : List Char) : Option (List Char) := digits? Char.isDigit cs

def withoutSign (cs : List Char) : List Char :=
  match cs with
  | '+' :: r => r
  | '-' :: r => r
  | r => r

/-- The text after the point or the letter of an exponent, if it is there. -/
def after? (mark : Char → Bool) (cs : List Char) : Option (List Char) :=
  match cs.dropWhile (!mark ·) with
  | [] => none
  | _ :: r => some r

/-- A number without sign that has a point or an exponent or both, without its underscores. -/
def floatText? (cs : List Char) : Option (List Char) := do
  let isExponent := fun c => c == 'e' || c == 'E'
  let mantissa := cs.takeWhile (!isExponent ·)
  let whole ← decimalDigits? (mantissa.takeWhile (· != '.'))
  let fraction ← match after? (· == '.') mantissa with
    | none => some []
    | some r => (decimalDigits? r).map ('.' :: ·)
  let exponent ← match after? isExponent cs with
    | none => some []
    | some r =>
      let sign := if r.head? == some '-' then ['-'] else []
      (decimalDigits? (withoutSign r)).map fun ds => 'e' :: sign ++ ds
  if !noLeadingZero whole || (fraction.isEmpty && exponent.isEmpty) then none
  else some (whole ++ fraction ++ exponent)

def number? (cs : List Char) : Option Value :=
  let negative := cs.head? == some '-'
  let body := withoutSign cs
  let signed (x : Float) : Value := .float (if negative then -x else x)
  if body == "inf".toList then some (signed (1.0 / 0.0))
  else if body == "nan".toList then some (signed (0.0 / 0.0))
  else match decimalDigits? body with
    | some ds =>
      let n : Int := Decimal.natOfDigits ds
      if noLeadingZero ds then some (.integer (if negative then -n else n)) else none
    | none =>
      (floatText? body).map fun text =>
        match Decimal.float? (String.ofList text) with
        | some x => if x.isFinite then signed x else .overflow
        | none => .overflow

/-- The number that exactly as many digits as asked for spell. -/
def fixed? (places : Nat) (cs : List Char) : Option Nat :=
  if cs.length == places && cs.all Char.isDigit then some (Decimal.natOfDigits cs) else none

def isLeap (year : Nat) : Bool := year % 4 == 0 && (year % 100 != 0 || year % 400 == 0)

def daysIn (year month : Nat) : Nat :=
  if month == 2 then (if isLeap year then 29 else 28)
  else if month == 4 || month == 6 || month == 9 || month == 11 then 30
  else 31

/-- Whether a text is a date: year, month and day with hyphens between them. -/
def isDate (cs : List Char) : Bool :=
  match fixed? 4 (cs.take 4), fixed? 2 ((cs.drop 5).take 2), fixed? 2 (cs.drop 8) with
  | some year, some month, some day =>
    (cs.drop 4).head? == some '-' && (cs.drop 7).head? == some '-' &&
      1 ≤ month && month ≤ 12 && 1 ≤ day && day ≤ daysIn year month
  | _, _, _ => false

/-- Whether a text is an hour and a minute with a colon between them. -/
def isClock (cs : List Char) : Bool :=
  match fixed? 2 (cs.take 2), fixed? 2 (cs.drop 3) with
  | some hour, some minute => (cs.drop 2).head? == some ':' && hour ≤ 23 && minute ≤ 59
  | _, _ => false

/-- Whether a text is a time of day: hour and minute, and perhaps seconds, which may have a fraction. -/
def isTime (cs : List Char) : Bool :=
  isClock (cs.take 5) &&
    match cs.drop 5 with
    | [] => true
    | ':' :: r =>
      (fixed? 2 (r.take 2)).any (· ≤ 60) &&
        match r.drop 2 with
        | [] => true
        | '.' :: f => !f.isEmpty && f.all Char.isDigit
        | _ => false
    | _ => false

/-- Whether a text is the offset of a time zone, or the letter that stands for none. -/
def isOffset (cs : List Char) : Bool :=
  match cs with
  | ['Z'] | ['z'] => true
  | '+' :: r | '-' :: r => isClock r
  | _ => false

/-- Whether a text is a date, a time, or a date and a time with or without offset. -/
def isDatetime (cs : List Char) : Bool :=
  if isTime cs || isDate cs then true
  else
    let time := cs.drop 11
    let inTime := fun c => c.isDigit || c == ':' || c == '.'
    let separated := (cs.drop 10).head?.any fun c => c == 'T' || c == 't' || c == ' '
    let offset := time.dropWhile inTime
    isDate (cs.take 10) && separated && isTime (time.takeWhile inTime) && (offset.isEmpty || isOffset offset)

def ofText? (cs : List Char) : Option Value :=
  match cs with
  | '0' :: 'x' :: r => based? 16 r
  | '0' :: 'o' :: r => based? 8 r
  | '0' :: 'b' :: r => based? 2 r
  | _ =>
    if cs == "true".toList then some (.boolean true)
    else if cs == "false".toList then some (.boolean false)
    else match number? cs with
      | some v => some v
      | none => if isDatetime cs then some .datetime else none

/-- The characters up to the end of a scalar. -/
def isInside (c : Char) : Bool :=
  !(c == ' ' || c == '\t' || c == '\r' || c == '\n' || c == ',' || c == ']' || c == '}' || c == '#')

/-- Reads the scalar at the front of a text. A date may be followed by a blank and a time. -/
def read? (cs : List Char) : Option (Value × List Char) :=
  let token := cs.takeWhile isInside
  let rest := cs.dropWhile isInside
  match rest with
  | ' ' :: r =>
    if isDate token && r.head?.any Char.isDigit then
      (ofText? (token ++ ' ' :: r.takeWhile isInside)).map fun v => (v, r.dropWhile isInside)
    else (ofText? token).map fun v => (v, rest)
  | _ => (ofText? token).map fun v => (v, rest)

end ModuleAudit.Toml.Scalar
