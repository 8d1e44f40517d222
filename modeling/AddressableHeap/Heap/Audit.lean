import AddressableHeap.Heap.Basic

/-!
# Examining a heap

A heap is plain data and can be examined for damage: a sentinel that is not least, a member whose
note in the index is wrong, a key below that of its parent. The examination goes from slot to slot
and reports the first defect it meets.
-/

namespace AddressableHeap

/-- A way in which a heap is damaged. -/
inductive Defect where
  /-- The key in `slot` is below that of its parent. -/
  | order (slot : Slot) (key parentKey : Key)
  /-- The element `id` lies in `slot`, and the index notes `recorded`. -/
  | misplaced (id : Nat) (slot recorded : Slot)
  /-- The sentinel has a key that is not the least. -/
  | sentinel (key : Key)
  deriving DecidableEq, Repr

namespace Defect

def message : Defect → String
  | .order slot key parentKey => s!"slot {slot} has key {key} below its parent's key {parentKey}"
  | .misplaced id slot recorded =>
    s!"element {id} sits in slot {slot} but its position index says {recorded}"
  | .sentinel key => s!"sentinel slot holds key {key} instead of the minimum key"

def outline : Defect → Outline
  | .order slot key parentKey =>
    .record "HeapOrder" [
      ("slot", .nat slot.toNat),
      ("key", .word (toString key)),
      ("parent_key", .word (toString parentKey))]
  | .misplaced id slot recorded =>
    .record "PositionIndex" [
      ("id", .nat id), ("slot", .nat slot.toNat), ("recorded", .nat recorded.toNat)]
  | .sentinel key => .record "Sentinel" [("key", .word (toString key))]

end Defect

namespace Heap

/-- The defect of the member in `slot`. Its note in the index is looked at first. -/
def defectAt? (h : Heap) (slot : Slot) : Checked (Option Defect) := do
  let entry ← Checked.get h.entries slot.toNat
  let recorded := (h.index.find? entry.id).getD 0
  if recorded ≠ slot then pure (some (.misplaced entry.id slot recorded))
  else
    let above ← Checked.get h.entries (Tree.parent slot).toNat
    if slot > Tree.root ∧ entry.key < above.key then
      pure (some (.order slot entry.key above.key))
    else pure none

/-- The first defect in a list of slots. -/
def firstDefect? (h : Heap) : List Slot → Checked (Option Defect)
  | [] => pure none
  | slot :: slots => do
    match ← h.defectAt? slot with
    | some defect => pure (some defect)
    | none => h.firstDefect? slots

/-- The first defect of a heap, if it has one: that of the sentinel, or else the first among the
occupied slots. -/
def defect? (h : Heap) : Checked (Option Defect) := do
  let bottom ← Checked.get h.entries 0
  if bottom.key ≠ Key.least then pure (some (.sentinel bottom.key))
  else h.firstDefect? h.occupied

end Heap

end AddressableHeap
