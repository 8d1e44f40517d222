import AddressableHeap.Heap.Operations

/-!
# Mutations

The requests that can change a heap, as data: they can be written down, shown to an observer, and
carried out again later.
-/

namespace AddressableHeap

/-- A request that can change a heap. -/
inductive Mutation where
  /-- Make `id` a member under `key`. -/
  | insert (key : Key) (id : Id)
  /-- Change the key of the member `id`. -/
  | update (key : Key) (id : Id)
  /-- Remove the member with the least key. -/
  | removeMin
  /-- Remove the member `id`. -/
  | remove (id : Id)
  /-- Dismiss all members. -/
  | clear
  deriving DecidableEq, Repr

/-- How a heap answers a mutation: with a rejection, with the element it removed, or with consent
alone. -/
abbrev Reply := Except Rejection (Option Id)

namespace Mutation

def text : Mutation → String
  | .insert key id => s!"INSERT ({key}, {id})"
  | .update key id => s!"UPDATE ({key}, {id})"
  | .removeMin => "REM MIN"
  | .remove id => s!"REMOVE ({id})"
  | .clear => "CLEAR"

def outline : Mutation → Outline
  | .insert key id => .record "Insert" [("key", .word (toString key)), ("id", .nat id)]
  | .update key id => .record "Update" [("key", .word (toString key)), ("id", .nat id)]
  | .removeMin => .word "RemoveMin"
  | .remove id => .record "Remove" [("id", .nat id)]
  | .clear => .word "Clear"

end Mutation

namespace Heap

/-- Carry out a mutation. -/
def apply (h : Heap) : Mutation → Checked (Reply × Heap)
  | .insert key id => do
    let (reply, h) ← h.insert key id
    pure (reply.map fun _ => none, h)
  | .update key id => do
    let (reply, h) ← h.update key id
    pure (reply.map fun _ => none, h)
  | .removeMin => do
    let (reply, h) ← h.removeMin
    pure (reply.map some, h)
  | .remove id => do
    let (reply, h) ← h.remove id
    pure (reply.map some, h)
  | .clear => pure (.ok none, h.clear)

/-- Carry out mutations one after the other and collect the replies. A rejection does not end the
run. -/
def applyAll (h : Heap) : List Mutation → Checked (List Reply × Heap)
  | [] => pure ([], h)
  | m :: ms => do
    let (reply, h) ← h.apply m
    let (replies, h) ← h.applyAll ms
    pure (reply :: replies, h)

end Heap

end AddressableHeap
