/-! The texts of JSON documents, told apart from how they are read. A grammar says which texts stand for a value. White
    space may stand around every value and on both sides of a comma and of a colon, and a character of a string can be
    spelled in more than one way. -/

namespace ModuleAudit.Json

/-- The texts that stand for a value. -/
abbrev Grammar (α : Type) := α → List Char → Prop

/-- White space. -/
def Blank (text : List Char) : Prop := ∀ ch ∈ text, ch ∈ [' ', '\n', '\t', '\r']

theorem Blank.nil : Blank [] := fun _ h => absurd h List.not_mem_nil

/-! ### Strings -/

/-- The letters that stand for a character after a backslash. -/
inductive Letter : Char → Char → Prop
  | quote : Letter '"' '"'
  | backslash : Letter '\\' '\\'
  | slash : Letter '/' '/'
  | backspace : Letter 'b' '\x08'
  | formFeed : Letter 'f' '\x0c'
  | newline : Letter 'n' '\n'
  | carriageReturn : Letter 'r' '\r'
  | tab : Letter 't' '\t'

/-- A hexadecimal digit, in small or capital letters. -/
def HexDigit (n : Nat) (d : Char) : Prop :=
  ∃ digits ∈ ["0123456789abcdef", "0123456789ABCDEF"], digits.toList[n]? = some d

/-- Four hexadecimal digits spell a number of sixteen bits. -/
inductive CodeUnit : Nat → List Char → Prop
  | mk {n₃ n₂ n₁ n₀ : Nat} {d₃ d₂ d₁ d₀ : Char} (h₃ : HexDigit n₃ d₃) (h₂ : HexDigit n₂ d₂) (h₁ : HexDigit n₁ d₁)
      (h₀ : HexDigit n₀ d₀) : CodeUnit (n₃ * 4096 + n₂ * 256 + n₁ * 16 + n₀) [d₃, d₂, d₁, d₀]

/-- What stands for a character behind a backslash. A character beyond sixteen bits takes a pair of surrogates, and
    surrogates stand in pairs alone. -/
inductive Escape : Char → List Char → Prop
  | letter {l ch : Char} (h : Letter l ch) : Escape ch [l]
  | unit {n : Nat} {ds : List Char} (h : CodeUnit n ds) (scalar : n < 0xD800 ∨ 0xDFFF < n) :
      Escape (Char.ofNat n) ('u' :: ds)
  | pair {n n' : Nat} {ds ds' : List Char} (h : CodeUnit n ds) (h' : CodeUnit n' ds') (high : 0xD800 ≤ n ∧ n < 0xDC00)
      (low : 0xDC00 ≤ n' ∧ n' ≤ 0xDFFF) :
      Escape (Char.ofNat (0x10000 + (n - 0xD800) * 0x400 + (n' - 0xDC00))) ('u' :: ds ++ '\\' :: 'u' :: ds')

/-- The ways to spell a character inside a string. -/
inductive Spelling : Char → List Char → Prop
  | plain {ch : Char} (visible : 32 ≤ ch.toNat) (quote : ch ≠ '"') (backslash : ch ≠ '\\') : Spelling ch [ch]
  | escaped {ch : Char} {text : List Char} (h : Escape ch text) : Spelling ch ('\\' :: text)

/-- Characters spelled one after the other. -/
inductive Spelled : List Char → List Char → Prop
  | nil : Spelled [] []
  | cons {ch : Char} {cs t text : List Char} (first : Spelling ch t) (others : Spelled cs text) :
      Spelled (ch :: cs) (t ++ text)

namespace Grammar

variable {α : Type}

/-- A string between quotes. -/
inductive Quoted : Grammar String
  | mk {s : String} {text : List Char} (h : Spelled s.toList text) : Quoted s ('"' :: text ++ ['"'])

/-- A number of at most sixty-four bits in decimal digits. -/
inductive Count : Grammar Nat
  | mk {n : Nat} (h : n < Nat.pow 2 64) : Count n (toString n).toList

/-! ### Lists and objects -/

/-- What follows an item: more of them, each behind a comma, and white space at the end. -/
inductive More (item : Grammar α) : Grammar (List α)
  | nil {blank : List Char} (h : Blank blank) : More item [] blank
  | cons {v : α} {vs : List α} {blank blank' t text : List Char} (before : Blank blank) (behind : Blank blank')
      (first : item v t) (others : More item vs text) : More item (v :: vs) (blank ++ ',' :: blank' ++ t ++ text)

/-- Items with commas between them. -/
inductive Items (item : Grammar α) : Grammar (List α)
  | nil {blank : List Char} (h : Blank blank) : Items item [] blank
  | cons {v : α} {vs : List α} {blank t text : List Char} (before : Blank blank) (first : item v t)
      (others : More item vs text) : Items item (v :: vs) (blank ++ t ++ text)

inductive Sequence (element : Grammar α) : Grammar (List α)
  | mk {vs : List α} {text : List Char} (h : Items element vs text) : Sequence element vs ('[' :: text ++ [']'])

/-- A key and its value with a colon between them. -/
inductive Member (value : Grammar α) : Grammar (String × α)
  | mk {k : String} {v : α} {tk tv blank blank' : List Char} (key : Quoted k tk) (before : Blank blank)
      (behind : Blank blank') (h : value v tv) : Member value (k, v) (tk ++ blank ++ ':' :: blank' ++ tv)

inductive Object (value : Grammar α) : Grammar (List (String × α))
  | mk {ms : List (String × α)} {text : List Char} (h : Items (Member value) ms text) :
      Object value ms ('{' :: text ++ ['}'])

/-- A document is a value with white space around it. -/
inductive Document (value : Grammar α) : Grammar α
  | mk {v : α} {blank text blank' : List Char} (before : Blank blank) (h : value v text) (behind : Blank blank') :
      Document value v (blank ++ text ++ blank')

end Grammar
end ModuleAudit.Json
