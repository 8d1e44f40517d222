/-!
# The implicit tree

A complete binary tree lies in an array without links: the root is in slot 1, and the children of
slot `n` are in slots `2n` and `2n + 1`. Slots are 64-bit words, doubling and halving are shifts, and
a shift to the left drops the top bit.
-/

namespace AddressableHeap

/-- A place in the array of a heap. Slot 0 is occupied by no element. -/
abbrev Slot := UInt64

namespace Tree

/-- The slot every other slot descends from. -/
def root : Slot := 1

/-- The first child of a slot. -/
def leftChild (slot : Slot) : Slot := slot <<< 1

/-- The second child of a slot. -/
def rightChild (slot : Slot) : Slot := (slot <<< 1) + 1

/-- The slot that `slot` is a child of. The parent of the root is slot 0. -/
def parent (slot : Slot) : Slot := slot >>> 1

/-- Whether `slot` is one of the occupied slots `1 … last` and has no child among them. -/
def isLeaf (slot last : Slot) : Bool := slot > last >>> 1 && slot ≤ last

@[simp] theorem toNat_root : root.toNat = 1 := rfl

theorem toNat_parent (slot : Slot) : (parent slot).toNat = slot.toNat / 2 := by
  simp [parent, Nat.shiftRight_eq_div_pow]

theorem toNat_leftChild (slot : Slot) : (leftChild slot).toNat = 2 * slot.toNat % UInt64.size := by
  simp [leftChild, Nat.shiftLeft_eq, Nat.mul_comm, UInt64.size]

/-- No bit is lost on the way to a child that is there. -/
theorem toNat_leftChild_of_le {slot last : Slot} (h : 2 * slot.toNat ≤ last.toNat) :
    (leftChild slot).toNat = 2 * slot.toNat := by
  rw [toNat_leftChild]
  exact Nat.mod_eq_of_lt (Nat.lt_of_le_of_lt h last.toNat_lt)

theorem isLeaf_iff {slot last : Slot} (hl : slot ≤ last) :
    isLeaf slot last = true ↔ last.toNat < 2 * slot.toNat := by
  have hhalf : (last >>> 1).toNat = last.toNat / 2 := toNat_parent last
  simp only [isLeaf, hl, decide_true, Bool.and_true, decide_eq_true_eq, gt_iff_lt,
    UInt64.lt_iff_toNat_lt, hhalf]
  omega

/-- Every slot but slot 0 lies above its parent, so walking up ends. -/
theorem toNat_parent_lt {slot : Slot} (h : slot ≠ 0) : (parent slot).toNat < slot.toNat := by
  have : slot.toNat ≠ 0 := fun e => h (UInt64.toNat_inj.mp (by simpa using e))
  rw [toNat_parent]
  omega

end Tree

end AddressableHeap
