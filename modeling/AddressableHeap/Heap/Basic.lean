import AddressableHeap.Entry
import AddressableHeap.Rejection
import AddressableHeap.SlotIndex

/-!
# The addressable heap

A heap of capacity `n` holds at most one entry for each element number below `n`, in an implicit
binary tree with the smallest key at the root, and finds the entry of any element at once.

A heap is plain data. Which heaps keep the order of the tree and an index that tells the truth is a
predicate beside them, so that a heap may also be handed over damaged and be examined. Slots above
the last occupied one, and notes about elements that have left, are never cleaned up; no answer
depends on them.
-/

namespace AddressableHeap

/-- A heap. -/
structure Heap where
  /-- The entries, by slot. Slot 0 holds the sentinel, the slots up to `last` the members, and the
  slots above `last` whatever was there before. -/
  entries : Array Entry
  /-- Where each element was last put. -/
  index : SlotIndex
  /-- The last occupied slot, 0 in an empty heap. -/
  last : Slot
  deriving DecidableEq, Repr

namespace Heap

/-- A heap without members for the elements below `capacity`. -/
def empty (capacity : Nat) : Heap where
  entries := (Array.replicate (capacity + 1) Entry.blank).setIfInBounds 0 Entry.sentinel
  index := .empty capacity
  last := 0

/-- How many members the heap has room for; its members have numbers below this. -/
def capacity (h : Heap) : Nat := h.index.capacity

/-- How many members the heap has. -/
def size (h : Heap) : Nat := h.last.toNat

/-- Whether the heap has no members. -/
def isEmpty (h : Heap) : Bool := h.last == 0

/-- The occupied slots, from the root to the last. -/
def occupied (h : Heap) : List Slot := (List.range' 1 h.size).map UInt64.ofNat

/-- The members in the order of their slots. -/
def toList (h : Heap) : List Entry := (h.entries.extract 1 (h.size + 1)).toList

/-! ## Finding a member -/

/-- The slot of `id`. The note in the index counts only if the slot is occupied, and by `id`. -/
def locate (h : Heap) (id : Id) : Checked (Option Slot) :=
  match h.index.find? id with
  | none => pure none
  | some slot =>
    if slot ≤ h.last then do
      let entry ← Checked.get h.entries slot.toNat
      pure (if entry.id = id then some slot else none)
    else pure none

/-- Whether `id` is a member. -/
def contains (h : Heap) (id : Id) : Checked Bool := do
  pure (← h.locate id).isSome

/-- The key of `id`, if it is a member. -/
def keyOf (h : Heap) (id : Id) : Checked (Option Key) := do
  match ← h.locate id with
  | none => pure none
  | some slot => do
    let entry ← Checked.get h.entries slot.toNat
    pure (some entry.key)

/-- The member at the root, which has a least key. -/
def peekMin (h : Heap) : Checked (Option Entry) :=
  if h.isEmpty then pure none else some <$> Checked.get h.entries Tree.root.toNat

/-! ## Showing the members -/

/-- The members in the order of their slots, with the bounds of that stretch of the array checked.
`toList` is the same list without the check. -/
def snapshot (h : Heap) : Checked (List Entry) := do
  let stop ← Checked.add h.last 1
  if stop.toNat ≤ h.entries.size then pure h.toList
  else throw (.outOfBounds h.entries.size h.last.toNat)

/-- The written form of a heap: that of its members. -/
def text (h : Heap) : Checked String := Entry.listText <$> h.snapshot

/-- The skeleton of a heap: its capacity, its size, and the keys and numbers of its members. -/
def outline (h : Heap) : Checked Outline := do
  let members ← h.snapshot
  pure (.record "IndexedMinHeap" [
    ("capacity", .nat h.capacity),
    ("size", .nat h.size),
    ("keys", .list (members.map fun e => .word (toString e.key))),
    ("elems", .list (members.map fun e => .nat e.id))])

end Heap

end AddressableHeap
