/-! Glob patterns for module names. `?` stands for any character, `*` for any run of characters, `[…]` for one of
    the characters listed and `[!…]` for any other, and a component `**` for any number of whole components.
    None of them treats a slash or a leading dot apart. -/

namespace ModuleAudit

namespace Glob

/-- What one step of a pattern matches. -/
inductive Token where
  | literal (c : Char)
  | anyChar
  | anyRun
  | anyPath
  | oneOf (ranges : List (Char × Char))
  | noneOf (ranges : List (Char × Char))
deriving DecidableEq, Repr

/-- Why a pattern is refused, with the place in characters. -/
inductive Fault where
  | tooManyStars (position : Nat)
  | pathNotAlone (position : Nat)
  | openClass (position : Nat)
deriving DecidableEq, Repr

def Fault.message : Fault → String
  | .tooManyStars p => at_ p "wildcards are either regular `*` or recursive `**`"
  | .pathNotAlone p => at_ p "recursive wildcards must form a single path component"
  | .openClass p => at_ p "invalid range pattern"
where
  at_ (p : Nat) (reason : String) : String := "Pattern syntax error near position " ++ toString p ++ ": " ++ reason

/-- The members of a class; a hyphen between two characters makes a range. -/
def ranges : List Char → List (Char × Char)
  | a :: '-' :: b :: rest => (a, b) :: ranges rest
  | a :: rest => (a, a) :: ranges rest
  | [] => []

/-- Splits a class after its opening bracket into its members and what follows the closing one. The first member
    may be a closing bracket. -/
def splitClass? : List Char → Option (List Char × List Char)
  | [] => none
  | c :: rest =>
    let tail := rest.dropWhile (· != ']')
    if tail.isEmpty then none else some (c :: rest.takeWhile (· != ']'), tail.drop 1)

/-- Reads the tokens of a pattern from a position on. `before` is the character in front of it; each round reads
    at least one character. -/
def read : Nat → Nat → Option Char → List Char → Except Fault (List Token)
  | 0, _, _, _ => .ok []
  | _ + 1, _, _, [] => .ok []
  | rounds + 1, p, before, c :: rest =>
    match c with
    | '?' => (read rounds (p + 1) (some c) rest).map (.anyChar :: ·)
    | '*' =>
      let stars := 1 + (rest.takeWhile (· == '*')).length
      let rest := rest.dropWhile (· == '*')
      if 2 < stars then .error (.tooManyStars (p + 2))
      else if stars == 1 then (read rounds (p + 1) (some c) rest).map (.anyRun :: ·)
      else if before.any (· != '/') then .error (.pathNotAlone (p - 1))
      else match rest with
        | [] => .ok [.anyPath]
        | '/' :: rest => (read rounds (p + 3) (some '/') rest).map (.anyPath :: ·)
        | _ => .error (.pathNotAlone (p + 2))
    | '[' =>
      let (token, body) : (List (Char × Char) → Token) × List Char :=
        match rest with
        | '!' :: body => (.noneOf, body)
        | body => (.oneOf, body)
      match splitClass? body with
      | some (members, after) =>
        (read rounds (p + (rest.length - after.length) + 1) (some ']') after).map (token (ranges members) :: ·)
      | none => .error (.openClass p)
    | c => (read rounds (p + 1) (some c) rest).map (.literal c :: ·)

/-- All the ends of a text, longest first. -/
def suffixes {α : Type} : List α → List (List α)
  | [] => [[]]
  | a :: as => (a :: as) :: suffixes as

/-- The ends of a text that start behind a slash. -/
def afterSlashes : List Char → List (List Char)
  | [] => []
  | c :: cs => if c == '/' then cs :: afterSlashes cs else afterSlashes cs

def within (ranges : List (Char × Char)) (c : Char) : Bool := ranges.any fun r => r.1 ≤ c && c ≤ r.2

/-- Whether the tokens match a whole text. A path wildcard takes nothing, or a part that ends with a slash, or all
    that is left. -/
def run : List Token → List Char → Bool
  | [], cs => cs.isEmpty
  | .anyRun :: ts, cs => (suffixes cs).any (run ts)
  | .anyPath :: ts, cs => (cs :: afterSlashes cs ++ [[]]).any (run ts)
  | _ :: _, [] => false
  | .literal a :: ts, c :: cs => a == c && run ts cs
  | .anyChar :: ts, _ :: cs => run ts cs
  | .oneOf rs :: ts, c :: cs => within rs c && run ts cs
  | .noneOf rs :: ts, c :: cs => !within rs c && run ts cs

end Glob

structure Glob where
  tokens : List Glob.Token
deriving DecidableEq, Repr

namespace Glob

def ofString (s : String) : Except Fault Glob := (read (s.length + 1) 0 none s.toList).map Glob.mk

def isMatch (g : Glob) (s : String) : Bool := run g.tokens s.toList

end Glob
end ModuleAudit
