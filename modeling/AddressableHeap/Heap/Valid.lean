import AddressableHeap.Heap.Audit

/-!
# Valid heaps

A heap is valid when the array and the index fit its capacity, the index tells the truth about every
occupied slot, and no key is below that of its parent. Nothing is asked of the slots above the last
one, nor of what the index says about elements that are not members.

Seen from outside, a heap is a finite map from element numbers to keys.
-/

namespace AddressableHeap.Heap

/-- The entry in a slot, or the sentinel if the array has no such slot. -/
def entryAt (h : Heap) (slot : Nat) : Entry := h.entries.getD slot Entry.sentinel

/-- The key of an element, if it is a member. -/
def lookup (h : Heap) (id : Id) : Option Key := (h.toList.find? (·.id == id)).map (·.key)

/-- The array and the index are as long as the capacity asks for. What they contain is left open. -/
structure Fits (h : Heap) : Prop where
  addressable : h.capacity + 1 < UInt64.size
  entries_size : h.entries.size = h.capacity + 1
  size_le : h.size ≤ h.capacity

/-- The order of the tree, and an index that tells the truth. -/
structure Valid (h : Heap) : Prop where
  /-- Every slot, and the one behind the last, has a 64-bit address. -/
  addressable : h.capacity + 1 < UInt64.size
  /-- There is a slot for every member and one for the sentinel. -/
  entries_size : h.entries.size = h.capacity + 1
  /-- No slot beyond the capacity is occupied. -/
  size_le : h.size ≤ h.capacity
  /-- The sentinel has the least key. -/
  sentinel : (h.entryAt 0).key = Key.least
  /-- The element in an occupied slot is one of those the heap is for. -/
  inRange : ∀ slot, 1 ≤ slot → slot ≤ h.size → (h.entryAt slot).id < h.capacity
  /-- The index finds the element in an occupied slot where it is. -/
  placed : ∀ slot, 1 ≤ slot → slot ≤ h.size →
    h.index.find? (h.entryAt slot).id = some (UInt64.ofNat slot)
  /-- The key in an occupied slot other than the root is not below that of its parent. -/
  ordered : ∀ slot, 2 ≤ slot → slot ≤ h.size →
    (h.entryAt (slot / 2)).key ≤ (h.entryAt slot).key

@[simp] theorem capacity_empty (capacity : Nat) : (empty capacity).capacity = capacity := by
  simp [Heap.capacity, empty]

@[simp] theorem size_empty (capacity : Nat) : (empty capacity).size = 0 := rfl

/-- A new heap is valid if its slots can be addressed. -/
theorem valid_empty {capacity : Nat} (h : capacity + 1 < UInt64.size) : (empty capacity).Valid where
  addressable := by simpa using h
  entries_size := by simp [empty, Heap.capacity]
  size_le := by simp
  sentinel := by simp [entryAt, empty, Entry.sentinel]
  inRange := by
    intro slot h₁ h₂
    simp only [size_empty] at h₂
    omega
  placed := by
    intro slot h₁ h₂
    simp only [size_empty] at h₂
    omega
  ordered := by
    intro slot h₁ h₂
    simp only [size_empty] at h₂
    omega

end AddressableHeap.Heap
