import AddressableHeap.Event

/-!
# Reading a trace

The message that a callback is written as can be read again. A message is read from the front, and each
part of it ends at a character that it does not contain: a key at the comma behind it, the number of an
element at the bracket that closes its pair, a name at a blank.
-/

namespace AddressableHeap

/-- Takes something off the front of a text and leaves the rest, or finds something else there. -/
abbrev Reader := StateT (List Char) Option

namespace Reader

/-- Pass over the character `c`. -/
def pass (c : Char) : Reader Unit := fun
  | [] => none
  | d :: rest => if d = c then some ((), rest) else none

/-- Take what stands before the first `stop`, and pass over the `stop`. -/
def upTo (stop : Char) : Reader String := fun text =>
  match text.dropWhile (· ≠ stop) with
  | [] => none
  | _ :: rest => some (String.ofList (text.takeWhile (· ≠ stop)), rest)

/-- A key, and the comma behind it. -/
def key : Reader Key := do
  let digits ← upTo ','
  let n ← digits.toInt?
  pure (Int64.ofInt n)

/-- The number of an element, and the bracket behind it. -/
def element : Reader Id := do
  let digits ← upTo ')'
  digits.toNat?

def entry : Reader Entry := do
  pass '('
  let key ← key
  pass ' '
  let id ← element
  pure ⟨key, id⟩

/-- As many entries as there are, with a blank between neighbours. -/
def entries (text : List Char) : Option (List Entry × List Char) :=
  match entry text with
  | none => some ([], text)
  | some (e, ' ' :: rest) =>
    if rest.length < text.length then (entries rest).map fun (es, rest) => (e :: es, rest)
    else none
  | some (e, rest) => some ([e], rest)
termination_by text.length

/-- A mutation, and the blank behind it. -/
def mutation : Reader Mutation := do
  match ← upTo ' ' with
  | "INSERT" => do
    let e ← entry
    pass ' '
    pure (.insert e.key e.id)
  | "UPDATE" => do
    let e ← entry
    pass ' '
    pure (.update e.key e.id)
  | "REM" => do
    let _ ← upTo ' '
    pure .removeMin
  | "REMOVE" => do
    pass '('
    let id ← element
    pass ' '
    pure (.remove id)
  | "CLEAR" => pure .clear
  | _ => failure

/-- The mark of a moment, and the blank behind it. -/
def moment : Reader Moment := do
  match ← upTo ' ' with
  | "<<" => pure .before
  | ">>" => pure .after
  | _ => failure

/-- The members, between brackets. -/
def members : Reader (List Entry) := do
  pass '['
  let es ← entries
  pass ']'
  pure es

def callback : Reader Callback := do
  let moment ← moment
  let mutation ← mutation
  let members ← members
  pure ⟨moment, mutation, members⟩

end Reader

/-- The callback that was written as `message`. -/
def Callback.ofMessage? (message : String) : Option Callback :=
  match Reader.callback message.toList with
  | some (c, []) => some c
  | _ => none

end AddressableHeap
