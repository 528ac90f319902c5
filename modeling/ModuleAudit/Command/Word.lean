/-! The words of a command line. A word that starts with two hyphens names an option, to which a value may be attached
    with an equals sign; one that starts with a single hyphen holds the letters of options. Two hyphens alone say that
    no options follow. -/

namespace ModuleAudit.Command

inductive Word where
  | separator
  | long (name : String) (value : Option String)
  | letters (cs : List Char)
  | plain (text : String)
deriving DecidableEq, Repr

namespace Word

/-- The text behind an equals sign, if there is one. -/
def attached? : List Char → Option String
  | '=' :: cs => some (String.ofList cs)
  | _ => none

def ofString (s : String) : Word :=
  match s.toList with
  | ['-', '-'] => .separator
  | '-' :: '-' :: cs => .long (String.ofList (cs.takeWhile (· != '='))) (attached? (cs.dropWhile (· != '=')))
  | '-' :: c :: cs => .letters (c :: cs)
  | _ => .plain s

end Word
end ModuleAudit.Command
