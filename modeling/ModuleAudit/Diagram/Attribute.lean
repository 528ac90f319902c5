import ModuleAudit.Decimal.Reader
import ModuleAudit.Diagram.Markup

/-! Attributes and character references. The attributes of a tag are gone through up to the one that is wanted, so a
    fault behind it does no harm. -/

namespace ModuleAudit.Markup

/-- The character with a number, if there is one; there is none with number zero. -/
def charOfNumber? (n : Nat) : Option Char := if n != 0 && n.isValidChar then some (Char.ofNat n) else none

def hexValue? (c : Char) : Option Nat :=
  if c.isDigit then some (c.toNat - 48)
  else if 'a' ≤ c && c ≤ 'f' then some (c.toNat - 87)
  else if 'A' ≤ c && c ≤ 'F' then some (c.toNat - 55)
  else none

/-- The number that at least one digit spells. -/
def number? (base : Nat) (ds : List Char) : Option Nat :=
  if ds.isEmpty then none
  else ds.foldlM (fun n c => (hexValue? c).bind fun d => if d < base then some (n * base + d) else none) 0

/-- What stands for a name between an ampersand and a semicolon. -/
def entity? (name : List Char) : Option Char :=
  match name with
  | '#' :: 'x' :: ds => (number? 16 ds).bind charOfNumber?
  | '#' :: ds => (number? 10 ds).bind charOfNumber?
  | _ =>
    match String.ofList name with
    | "lt" => some '<'
    | "gt" => some '>'
    | "amp" => some '&'
    | "quot" => some '"'
    | "apos" => some '\''
    | _ => none

/-- Replaces the references in a text. Each of at most `references` ends at a semicolon, with no ampersand before
    it. -/
def unescape? : Nat → List Char → Option (List Char)
  | 0, cs => some cs
  | references + 1, cs =>
    let plain := cs.takeWhile (· != '&')
    match cs.dropWhile (· != '&') with
    | [] => some plain
    | _ :: rest =>
      let stop := fun c => c != '&' && c != ';'
      match rest.dropWhile stop with
      | ';' :: after => do
        let c ← entity? (rest.takeWhile stop)
        let tail ← unescape? references after
        return plain ++ c :: tail
      | _ => none

/-- The text that bytes stand for: UTF-8 with references. -/
def decode? (bs : List UInt8) : Option (List Char) := do
  let s ← String.fromUTF8? bs.toByteArray
  unescape? (s.length + 1) s.toList

/-- The first attribute of a tag: its key, its value as written, and what follows. There is at least one character
    in the key, then an equals sign and a value in quotes. `seen` holds the keys that may not be repeated. -/
def firstAttribute? (seen : List (List UInt8)) : List UInt8 → Option (List UInt8 × List UInt8 × List UInt8)
  | [] => none
  | k :: bs =>
    let inKey := fun b => b != 0x3D && !isBlank b
    let key := k :: bs.takeWhile inKey
    match (bs.dropWhile inKey).dropWhile isBlank with
    | [] => none
    | e :: bs =>
      if e != 0x3D || seen.contains key then none
      else match bs.dropWhile isBlank with
        | [] => none
        | q :: bs =>
          if q != 0x22 && q != 0x27 then none
          else match bs.dropWhile (· != q) with
            | [] => none
            | _ :: after => some (key, bs.takeWhile (· != q), after)

/-- Looks for an attribute among at most `rounds`. Nothing comes of it when the attributes up to the wanted one are
    malformed, and `some none` when there is no such attribute. -/
def find? (key : List UInt8) : Nat → List (List UInt8) → List UInt8 → Option (Option (List Char))
  | 0, _, _ => some none
  | rounds + 1, seen, bs =>
    let bs := bs.dropWhile isBlank
    if bs.isEmpty then some none
    else do
      let (k, value, after) ← firstAttribute? seen bs
      if k == key then (decode? value).map some else find? key rounds (k :: seen) after

def Tag.attribute? (t : Tag) (key : String) : Option (Option (List Char)) :=
  find? (ascii key) (t.rest.length + 1) [] t.rest

end ModuleAudit.Markup
