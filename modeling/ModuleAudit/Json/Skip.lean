import ModuleAudit.Json.Reader

/-! Passing over a value of any kind. Its brackets have to match and its scalars to be well formed, but strings are
    not decoded and numbers have no bounds. -/

namespace ModuleAudit.Json.Skip

/-- What may follow the opening bracket or an element. -/
def afterElement (accepting : Bool) (close : Char) (unfinished missing : Problem) : Reader (Option Bool) := fun c =>
  let c := c.skipBlank
  match c.peek? with
  | none => c.ahead unfinished
  | some ch =>
    if ch == close then .ok (none, c.next)
    else if !accepting then .ok (some false, c)
    else if ch == ',' then .ok (some true, c.next)
    else c.ahead missing

def key : Reader Unit := fun c =>
  let c := c.skipBlank
  match c.peek? with
  | none => c.ahead .endInObject
  | some '"' => (Quote.skipString c.next).bind fun r => Reader.colon r.2
  | some _ => c.ahead .keyNotString

mutual

/-- Past a value. Each round reads at least one byte. -/
def value : Nat → Reader Unit
  | 0, c => c.here .endInValue
  | rounds + 1, c =>
    let c := c.skipBlank
    match c.peek? with
    | none => c.ahead .endInValue
    | some 'n' => c.next.name "ull".toList
    | some 't' => c.next.name "rue".toList
    | some 'f' => c.next.name "alse".toList
    | some '-' => Number.skip c.next
    | some '"' => Quote.skipString c.next
    | some '[' => elements rounds false c.next
    | some '{' => members rounds false c.next
    | some ch => if ch.isDigit then Number.skip c else c.ahead .expectedValue

/-- Past the elements of a list and its end. -/
def elements : Nat → Bool → Reader Unit
  | 0, _, c => c.here .endInList
  | rounds + 1, accepting, c => do
    match ← afterElement accepting ']' .endInList .expectedListEnd c with
    | (none, c) => return ((), c)
    | (some _, c) =>
      let (_, c) ← value rounds c
      elements rounds true c

/-- Past the members of an object and its end. -/
def members : Nat → Bool → Reader Unit
  | 0, _, c => c.here .endInObject
  | rounds + 1, accepting, c => do
    match ← afterElement accepting '}' .endInObject .expectedObjectEnd c with
    | (none, c) => return ((), c)
    | (some _, c) =>
      let (_, c) ← key c
      let (_, c) ← value rounds c
      members rounds true c

end

def any : Reader Unit := fun c => value (3 * c.rest.length + 3) c

end ModuleAudit.Json.Skip
