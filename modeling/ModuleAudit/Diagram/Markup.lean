/-! Documents in markup, read byte by byte as tokens: a tag that opens or closes an element, a tag that does both,
    and text. Comments, sections of character data, declarations and processing instructions are passed over.
    Attributes stay as they are written; whoever needs one looks for it. -/

namespace ModuleAudit.Markup

def ascii (s : String) : List UInt8 := s.toList.map (·.toUInt8)

/-- A tag without its brackets: the name, and all that follows it. -/
structure Tag where
  name : List UInt8
  rest : List UInt8
deriving DecidableEq, Repr

inductive Token where
  | opening (tag : Tag)
  | closing (name : List UInt8)
  | empty (tag : Tag)
  | text (bytes : List UInt8)
deriving DecidableEq, Repr

def isBlank (b : UInt8) : Bool := b == 0x20 || b == 0x09 || b == 0x0A || b == 0x0D

/-- Without the white space at the end. White space alone stays. -/
def trimEnd (bs : List UInt8) : List UInt8 :=
  let trimmed := (bs.reverse.dropWhile isBlank).reverse
  if trimmed.isEmpty then bs else trimmed

/-- Splits a text in front of and behind the first place where `ends` holds of the bytes before it, last first, and
    the byte there is the bracket that closes a tag. -/
def splitEnd? (ends : List UInt8 → Bool) : List UInt8 → List UInt8 → Option (List UInt8 × List UInt8)
  | _, [] => none
  | before, b :: bs =>
    if b == 0x3E && ends before then some (before.reverse, bs) else splitEnd? ends (b :: before) bs

/-- Splits a tag from what follows. Inside quotes a bracket does not count; `quote` is the quote that is open. -/
def splitTag? : Option UInt8 → List UInt8 → Option (List UInt8 × List UInt8)
  | _, [] => none
  | none, b :: bs =>
    if b == 0x3E then some ([], bs)
    else (splitTag? (if b == 0x22 || b == 0x27 then some b else none) bs).map fun r => (b :: r.1, r.2)
  | some q, b :: bs => (splitTag? (if b == q then none else some q) bs).map fun r => (b :: r.1, r.2)

def Tag.ofBytes (bs : List UInt8) : Tag := ⟨bs.takeWhile (!isBlank ·), bs.dropWhile (!isBlank ·)⟩

/-- Whether a text begins with a word, in upper or lower case. -/
def startsWithWord (word : String) (bs : List UInt8) : Bool :=
  (bs.take word.length).map (fun b => (Char.ofUInt8 b).toUpper) == word.toList

/-- Passes over a comment; the bytes behind the exclamation mark begin with a hyphen. -/
def skipComment? (bs : List UInt8) : Option (List UInt8) := do
  let (content, after) ← splitEnd? (fun before => 4 ≤ before.length && before.take 2 == [0x2D, 0x2D]) [] bs
  if content.take 2 == [0x2D, 0x2D] then some after else none

/-- Passes over a section of character data; the bytes begin with a square bracket. -/
def skipData? (bs : List UInt8) : Option (List UInt8) := do
  let (content, after) ← splitEnd? (fun before => before.take 2 == [0x5D, 0x5D]) [] bs
  if startsWithWord "[CDATA[" content then some after else none

/-- Passes over a document type, which has a name and may hold balanced brackets. -/
def skipDoctype? (bs : List UInt8) : Option (List UInt8) := do
  let (content, after) ← splitEnd? (fun before => before.count 0x3C == before.count 0x3E) [] bs
  if startsWithWord "DOCTYPE" content && (content.drop 7).any (!isBlank ·) then some after else none

/-- Passes over what begins with an exclamation mark. -/
def skipDeclaration? (bs : List UInt8) : Option (List UInt8) :=
  match bs.head?.map Char.ofUInt8 with
  | some '-' => skipComment? bs
  | some '[' => skipData? bs
  | some 'D' | some 'd' => skipDoctype? bs
  | _ => none

/-- Passes over a processing instruction; the bytes begin with its question mark, and another one ends it. -/
def skipInstruction? (bs : List UInt8) : Option (List UInt8) := do
  let (content, after) ← splitEnd? (fun before => before.head? == some 0x3F) [] bs
  if 1 < content.length then some after else none

/-- Reads tokens to the end of the document. `open_` holds the names of the elements that are open, innermost first;
    each round reads at least one byte. Elements that are still open at the end are no fault here. -/
def read? : Nat → List (List UInt8) → List UInt8 → Option (List Token)
  | 0, _, _ => some []
  | _ + 1, _, [] => some []
  | rounds + 1, open_, b :: bs =>
    if b != 0x3C then
      let text := (b :: bs).takeWhile (· != 0x3C)
      (read? rounds open_ ((b :: bs).dropWhile (· != 0x3C))).map (.text text :: ·)
    else match bs.head?.map Char.ofUInt8 with
      | none => none
      | some '!' => (skipDeclaration? (bs.drop 1)).bind (read? rounds open_)
      | some '?' => (skipInstruction? bs).bind (read? rounds open_)
      | some '/' => do
        let (content, after) ← splitTag? none (bs.drop 1)
        let name := trimEnd content
        match open_ with
        | [] => none
        | top :: outer => if top == name then (read? rounds outer after).map (.closing name :: ·) else none
      | some _ => do
        let (content, after) ← splitTag? none bs
        if content.getLast? == some 0x2F then
          (read? rounds open_ after).map (.empty (.ofBytes content.dropLast) :: ·)
        else
          let tag := Tag.ofBytes content
          (read? rounds (tag.name :: open_) after).map (.opening tag :: ·)

/-- The tokens of a document, if it is well formed. A byte order mark at the front does not count. -/
def tokens? (bs : List UInt8) : Option (List Token) :=
  let bs := if bs.take 3 == [0xEF, 0xBB, 0xBF] then bs.drop 3 else bs
  read? (bs.length + 1) [] bs

end ModuleAudit.Markup
