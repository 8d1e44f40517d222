import AddressableHeap.Heap.Basic

/-!
# Moving an entry to its level

When a single entry is out of order, exchanging it again and again with its parent, or with the
smaller of its children, brings the order back. All writes go through `swap`, which tells the index
about both entries it moved.
-/

namespace AddressableHeap.Heap

/-- Exchange the entries in slots `a` and `b`, and note their new slots. -/
def swap (h : Heap) (a b : Slot) : Checked Heap := do
  let ⟨entries, index, last⟩ := h
  let entries ← Checked.swap entries a.toNat b.toNat
  let entryA ← Checked.get entries a.toNat
  let index ← index.record entryA.id a
  let entryB ← Checked.get entries b.toNat
  let index ← index.record entryB.id b
  pure ⟨entries, index, last⟩

/-- Move the entry in `slot` towards the root as long as its key is below that of its parent.
The slot it ends in comes with the heap. -/
def siftUp (h : Heap) (slot : Slot) : Checked (Slot × Heap) := do
  if _ : slot = 0 then pure (slot, h)
  else
    let entry ← Checked.get h.entries slot.toNat
    let above ← Checked.get h.entries (Tree.parent slot).toNat
    if entry.key < above.key then
      let h ← h.swap slot (Tree.parent slot)
      h.siftUp (Tree.parent slot)
    else pure (slot, h)
termination_by slot.toNat
decreasing_by exact Tree.toNat_parent_lt ‹_›

/-- The child of `slot` with the smaller key, the first one if their keys are the same.
It is asked for only where there is a child. -/
def smallerChild (h : Heap) (slot : Slot) : Checked Slot := do
  let left := Tree.leftChild slot
  if left < h.last then
    let right ← Checked.add left 1
    let leftEntry ← Checked.get h.entries left.toNat
    let rightEntry ← Checked.get h.entries right.toNat
    pure (if rightEntry.key < leftEntry.key then right else left)
  else pure left

/-- Move the entry in `slot` towards the leaves as long as a child has a smaller key, where `last` is
the last occupied slot, which no exchange moves. The slot it ends in comes with the heap. A child
that is not an occupied slot below `slot` would be a fault. -/
def descend (h : Heap) (last slot : Slot) : Checked (Slot × Heap) := do
  if Tree.isLeaf slot last then pure (slot, h)
  else
    let child ← h.smallerChild slot
    if _ : slot < child ∧ child ≤ last then
      let entry ← Checked.get h.entries slot.toNat
      let below ← Checked.get h.entries child.toNat
      if entry.key ≤ below.key then pure (slot, h)
      else
        let h ← h.swap slot child
        h.descend last child
    else throw (.outOfBounds last.toNat child.toNat)
termination_by last.toNat - slot.toNat
decreasing_by
  rename_i hc
  have := UInt64.lt_iff_toNat_lt.mp hc.1
  have := UInt64.le_iff_toNat_le.mp hc.2
  omega

/-- Move the entry in `slot` towards the leaves to its level. The slot it ends in comes with the
heap. -/
def siftDown (h : Heap) (slot : Slot) : Checked (Slot × Heap) := h.descend h.last slot

/-- Bring the entry in `slot` to its level, whichever way it has to go: down, or up if it did not
move down. -/
def settle (h : Heap) (slot : Slot) : Checked (Slot × Heap) := do
  let (reached, h) ← h.siftDown slot
  if reached = slot then h.siftUp slot else pure (reached, h)

end AddressableHeap.Heap
