import AddressableHeap.Outline

/-!
# Rejections

The heap turns a request down for one of five reasons. A rejection is an answer and not a fault: it
is given before anything is changed.
-/

namespace AddressableHeap

/-- Why a request was turned down. -/
inductive Rejection where
  /-- All `capacity` places are taken. -/
  | full (capacity : Nat)
  /-- The element is in the heap already. -/
  | duplicate (id : Nat)
  /-- The element is not in the heap. -/
  | unknown (id : Nat)
  /-- The number is none of those below `capacity`. -/
  | outOfRange (id capacity : Nat)
  /-- There is nothing to remove. -/
  | empty
  deriving DecidableEq, Repr

namespace Rejection

def message : Rejection → String
  | .full capacity => s!"heap is full ({capacity} elements)"
  | .duplicate id => s!"element {id} is already in the heap"
  | .unknown id => s!"element {id} is not in the heap"
  | .outOfRange id capacity =>
    s!"element {id} is outside the heap's id range [0, {capacity})"
  | .empty => "heap is empty"

def outline : Rejection → Outline
  | .full capacity => .record "CapacityExceeded" [("capacity", .nat capacity)]
  | .duplicate id => .record "DuplicateElement" [("id", .nat id)]
  | .unknown id => .record "UnknownElement" [("id", .nat id)]
  | .outOfRange id capacity =>
    .record "ElementOutOfRange" [("id", .nat id), ("capacity", .nat capacity)]
  | .empty => .word "EmptyHeap"

end Rejection

end AddressableHeap
