import AddressableHeap.Observer

/-!
# Settings

How large a heap is to be made, and whether its mutations are to be traced in the log.
-/

namespace AddressableHeap

/-- What a heap is built from. -/
structure Settings where
  capacity : Nat := 16
  trace : Bool := false
  deriving DecidableEq, Repr

namespace Settings

/-- The capacity where none is asked for. -/
def defaultCapacity : Nat := ({} : Settings).capacity

/-- The heap that is asked for. -/
def heap (s : Settings) : Heap := .empty s.capacity

/-- The tracing that is asked for. -/
def tracing (s : Settings) : Tracing := .ofFlag s.trace

def outline (s : Settings) : Outline :=
  .record "HeapConfig" [("capacity", .nat s.capacity), ("trace", .word (toString s.trace))]

end Settings

end AddressableHeap
