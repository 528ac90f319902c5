/-! White space. A character is blank when it has Unicode's `White_Space` property; `trim` cuts blanks at both
    ends and `words` splits at runs of them. -/

namespace ModuleAudit.Text

/-- The characters with the property `White_Space`. -/
def isBlank (c : Char) : Bool :=
  let n := c.toNat
  (9 ≤ n && n ≤ 13) || n == 0x20 || n == 0x85 || n == 0xA0 || n == 0x1680 || (0x2000 ≤ n && n ≤ 0x200A) ||
    n == 0x2028 || n == 0x2029 || n == 0x202F || n == 0x205F || n == 0x3000

/-- Without the blanks at either end. -/
def trim (cs : List Char) : List Char :=
  ((cs.dropWhile isBlank).reverse.dropWhile isBlank).reverse

/-- The maximal runs of characters that are not blank. -/
def words (cs : List Char) : List (List Char) :=
  let add (c : Char) : List (List Char) → List (List Char)
    | [] => [[c]]
    | w :: ws => (c :: w) :: ws
  let split := cs.foldr (fun c acc => if isBlank c then [] :: acc else add c acc) [[]]
  split.filter (!·.isEmpty)

end ModuleAudit.Text
