import AddressableHeap.Checked
import AddressableHeap.Tree

/-!
# The slot index

The slot index remembers for every element the slot it was last put into. Nothing is ever struck
out: when an element leaves the heap its note stays behind, so a note is a hint that the heap
confirms by a look at the slot. Slot 0 stands for "never put anywhere".
-/

namespace AddressableHeap

/-- For every element number below the capacity, the slot it was last put into. -/
structure SlotIndex where
  /-- The notes, by element number. -/
  slots : Array Slot
  deriving DecidableEq, Repr

namespace SlotIndex

/-- An index for the numbers below `capacity`, of which none was put anywhere yet. -/
def empty (capacity : Nat) : SlotIndex := ⟨Array.replicate capacity 0⟩

/-- How many element numbers the index covers. -/
def capacity (index : SlotIndex) : Nat := index.slots.size

/-- The slot that `id` was last put into, if it is covered and was put anywhere. -/
def find? (index : SlotIndex) (id : Nat) : Option Slot :=
  index.slots[id]?.filter (· ≠ 0)

/-- Note that `id` was put into `slot`. -/
def record (index : SlotIndex) (id : Nat) (slot : Slot) : Checked SlotIndex :=
  mk <$> Checked.set index.slots id slot

@[simp] theorem capacity_empty (capacity : Nat) : (empty capacity).capacity = capacity := by
  simp [SlotIndex.capacity, empty]

@[simp] theorem find?_empty (capacity id : Nat) : (empty capacity).find? id = none := by
  by_cases h : id < capacity <;> simp [find?, empty, h]

theorem record_eq_ok {index : SlotIndex} {id : Nat} (slot : Slot) (h : id < index.capacity) :
    index.record id slot = .ok ⟨index.slots.set id slot h⟩ := by
  simp [record, Checked.set_eq_ok (show id < index.slots.size from h), Functor.map, Except.map]

end SlotIndex

end AddressableHeap
