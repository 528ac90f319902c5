import ModuleAudit.Toml.Scalar

/-! Strings of TOML. Between double quotes a backslash begins an escape; between single quotes it stands for itself.
    Three quotes enclose a string of several lines. -/

namespace ModuleAudit.Toml.Quoted

/-- Characters that may stand in a line: all but control characters, of which the tab may. -/
def isPlain (c : Char) : Bool := c == '\t' || (32 ≤ c.toNat && c.toNat != 127)

/-- Past a line break, if one is there. -/
def lineBreak? : List Char → Option (List Char)
  | '\n' :: cs => some cs
  | '\r' :: '\n' :: cs => some cs
  | _ => none

/-- Reads a fixed number of hexadecimal digits that spell the number of a character. -/
def hexChar? (places : Nat) (cs : List Char) : Option (Char × List Char) :=
  let ds := cs.take places
  if ds.length == places && ds.all Scalar.isHexDigit then
    let n := Scalar.natOf 16 ds
    if n.isValidChar then some (Char.ofNat n, cs.drop places) else none
  else none

def escape? : List Char → Option (Char × List Char)
  | 'b' :: cs => some ('\x08', cs)
  | 't' :: cs => some ('\t', cs)
  | 'n' :: cs => some ('\n', cs)
  | 'f' :: cs => some ('\x0c', cs)
  | 'r' :: cs => some ('\r', cs)
  | 'e' :: cs => some ('\x1b', cs)
  | '"' :: cs => some ('"', cs)
  | '\\' :: cs => some ('\\', cs)
  | 'x' :: cs => hexChar? 2 cs
  | 'u' :: cs => hexChar? 4 cs
  | 'U' :: cs => hexChar? 8 cs
  | _ => none

/-- Reads to the closing double quote, in at most as many rounds as there are characters. -/
def basic? : Nat → List Char → Option (List Char × List Char)
  | 0, _ => none
  | _ + 1, [] => none
  | rounds + 1, c :: cs =>
    if c == '"' then some ([], cs)
    else if c == '\\' then do
      let (e, cs) ← escape? cs
      (basic? rounds cs).map fun r => (e :: r.1, r.2)
    else if isPlain c then (basic? rounds cs).map fun r => (c :: r.1, r.2)
    else none

def literal? : List Char → Option (List Char × List Char)
  | [] => none
  | c :: cs =>
    if c == '\'' then some ([], cs)
    else if isPlain c then (literal? cs).map fun r => (c :: r.1, r.2)
    else none

/-- Past blanks and line breaks. -/
def skipGaps : Nat → List Char → List Char
  | 0, cs => cs
  | _ + 1, [] => []
  | rounds + 1, c :: cs =>
    if c == ' ' || c == '\t' then skipGaps rounds cs
    else match lineBreak? (c :: cs) with
      | some cs => skipGaps rounds cs
      | none => c :: cs

/-- Past a backslash at the end of a line and the gap that follows, if there is nothing between them. -/
def lineEnd? (cs : List Char) : Option (List Char) :=
  (lineBreak? (cs.dropWhile fun c => c == ' ' || c == '\t')).map fun cs => skipGaps cs.length cs

/-- The closing quotes: three, and one or two before them that belong to the string. -/
def closing? (q : Char) (cs : List Char) : Option (List Char × List Char) :=
  let quotes := (cs.takeWhile (· == q)).length
  if quotes < 3 then none
  else
    let n := min quotes 5
    some (List.replicate (n - 3) q, cs.drop n)

/-- Reads to the closing quotes of a string of several lines. -/
def lines? (q : Char) : Nat → List Char → Option (List Char × List Char)
  | 0, _ => none
  | _ + 1, [] => none
  | rounds + 1, c :: cs =>
    let more (front : List Char) (cs : List Char) : Option (List Char × List Char) :=
      (lines? q rounds cs).map fun r => (front ++ r.1, r.2)
    if c == q then
      match closing? q (c :: cs) with
      | some r => some r
      | none => more [c] cs
    else if c == '\\' && q == '"' then
      match lineEnd? cs with
      | some cs => more [] cs
      | none => (escape? cs).bind fun r => more [r.1] r.2
    else match lineBreak? (c :: cs) with
      | some after => more ((c :: cs).take (cs.length + 1 - after.length)) after
      | none => if isPlain c then more [c] cs else none

def line? : List Char → Option (List Char × List Char)
  | '"' :: cs => basic? (cs.length + 1) cs
  | '\'' :: cs => literal? cs
  | _ => none

/-- Reads a string. A line break right behind the opening quotes does not count. -/
def read? (cs : List Char) : Option (List Char × List Char) :=
  let body (q : Char) (cs : List Char) : Option (List Char × List Char) :=
    let cs := (lineBreak? cs).getD cs
    lines? q (cs.length + 1) cs
  match cs with
  | '"' :: '"' :: '"' :: r => body '"' r
  | '\'' :: '\'' :: '\'' :: r => body '\'' r
  | _ => line? cs

end ModuleAudit.Toml.Quoted
