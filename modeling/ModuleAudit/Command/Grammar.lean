import ModuleAudit.Command.Fault
import ModuleAudit.Command.Word

/-! Reading the words of a command line. What a command accepts is a grammar: options with and without a value, and
    arguments by their place. The words fill a record of type `σ`. A value that is a word of its own is looked at when
    the next option or argument starts or the words end, so what is wrong with the next word may be found first. -/

namespace ModuleAudit.Command

variable {σ : Type}

/-- Takes a value in. -/
abbrev Setter (σ : Type) := String → σ → Except Fault σ

inductive Action (σ : Type) where
  | switch (set : σ → Except Fault σ)
  | value (set : Setter σ)

/-- The options by name and by letter, and the arguments in their order. -/
structure Grammar (σ : Type) where
  long : List (String × Action σ)
  short : List (Char × Action σ)
  arguments : List (Setter σ)

/-- What is still to be taken in. -/
inductive Pending (σ : Type) where
  | nothing
  /-- An option stands without its value so far. -/
  | expecting (set : Setter σ)
  | holding (set : Setter σ) (value : String)

/-- The record so far, and the arguments that may follow. -/
structure Progress (σ : Type) where
  record : σ
  pending : Pending σ
  arguments : List (Setter σ)

namespace Progress

def settle (p : Progress σ) : Except Fault (Progress σ) :=
  match p.pending with
  | .nothing => .ok p
  | .expecting _ => .error .missingValue
  | .holding set v => (set v p.record).map fun r => { p with record := r, pending := .nothing }

def switch (set : σ → Except Fault σ) (p : Progress σ) : Except Fault (Progress σ) := do
  let p ← p.settle
  return { p with record := ← set p.record }

/-- Takes an option, which may have its value attached. -/
def option (set : Setter σ) (attached : Option String) (p : Progress σ) : Except Fault (Progress σ) := do
  let p ← p.settle
  match attached with
  | some v => return { p with record := ← set v p.record }
  | none => return { p with pending := .expecting set }

def argument (p : Progress σ) (text : String) : Except Fault (Progress σ) :=
  match p.arguments with
  | [] => .error .unknownArgument
  | set :: rest => do
    let p ← p.settle
    return { p with pending := .holding set text, arguments := rest }

end Progress

namespace Grammar

/-- The value attached to a letter. -/
def attachedToLetter? : List Char → Option String
  | [] => none
  | '=' :: cs => some (String.ofList cs)
  | cs => some (String.ofList cs)

/-- Takes letters. Those behind an option with a value are its value. -/
def takeLetters (g : Grammar σ) : List Char → Progress σ → Except Fault (Progress σ)
  | [], p => .ok p
  | c :: cs, p =>
    match g.short.lookup c with
    | none => .error .unknownArgument
    | some (.switch set) => do takeLetters g cs (← p.switch set)
    | some (.value set) => p.option set (attachedToLetter? cs)

def takeName (g : Grammar σ) (name : String) (attached : Option String) (p : Progress σ) :
    Except Fault (Progress σ) :=
  match g.long.lookup name, attached with
  | none, _ => .error .unknownArgument
  | some (.value set), v => p.option set v
  | some (.switch _), some _ => .error .unneededValue
  | some (.switch set), none => p.switch set

/-- Takes a word that is neither an option nor a separator. -/
def takePlain (p : Progress σ) (text : String) : Except Fault (Progress σ) :=
  match p.pending with
  | .expecting set => .ok { p with pending := .holding set text }
  | _ => p.argument text

/-- Takes words to the end. Behind a separator all of them are arguments. -/
def takeWords (g : Grammar σ) : List String → Progress σ → Except Fault (Progress σ)
  | [], p => p.settle
  | w :: ws, p =>
    match Word.ofString w with
    | .separator => do (← ws.foldlM Progress.argument p).settle
    | .long name v => do takeWords g ws (← g.takeName name v p)
    | .letters cs => do takeWords g ws (← g.takeLetters cs p)
    | .plain text => do takeWords g ws (← takePlain p text)

def read (g : Grammar σ) (start : σ) (ws : List String) : Except Fault σ :=
  (g.takeWords ws ⟨start, .nothing, g.arguments⟩).map (·.record)

end Grammar
end ModuleAudit.Command
