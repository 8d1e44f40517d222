import AddressableHeap.Checked
import AddressableHeap.Tree
import Mathlib.Algebra.Ring.Nat
import Mathlib.Logic.Function.Iterate

/-!
# The tree of slots

Going to a child is a shift to the left, which drops the top bit, and a slot is told to be a leaf by a
shift to the right, which drops the bottom one. Nothing in this depends on a heap: the slots that a
word can address form a complete binary tree, with every slot but slot 0 and the root either the first
or the second child of a slot before it, and a shift loses its bit only in the upper half of the
slots, which have no children.
-/

namespace AddressableHeap.Tree

variable {slot last : Slot}

/-! ## Down -/

theorem isLeaf_eq_true_iff :
    isLeaf slot last = true ↔ slot.toNat ≤ last.toNat ∧ last.toNat < 2 * slot.toNat := by
  by_cases hl : slot ≤ last
  · rw [isLeaf_iff hl, and_iff_right (UInt64.le_iff_toNat_le.mp hl)]
  · have hout : ¬ slot.toNat ≤ last.toNat := mt UInt64.le_iff_toNat_le.mpr hl
    simp [isLeaf, hl, hout]

/-- A slot that is no leaf has a first child among the occupied slots. -/
theorem leftChild_of_isLeaf_eq_false (h1 : 1 ≤ slot) (hl : slot ≤ last)
    (hleaf : isLeaf slot last = false) :
    (leftChild slot).toNat = 2 * slot.toNat ∧ slot < leftChild slot ∧ leftChild slot ≤ last := by
  have hchild : 2 * slot.toNat ≤ last.toNat := by
    rw [← Nat.not_lt, ← isLeaf_iff hl, hleaf]
    exact Bool.false_ne_true
  have hdouble := toNat_leftChild_of_le hchild
  rw [UInt64.le_iff_toNat_le, UInt64.toNat_one] at h1
  rw [UInt64.lt_iff_toNat_lt, UInt64.le_iff_toNat_le, hdouble]
  omega

/-- The bit that a shift to the left brings in leaves room for one more. -/
theorem toNat_rightChild (slot : Slot) :
    (rightChild slot).toNat = (leftChild slot).toNat + 1 := by
  have heven := toNat_leftChild slot
  have hsum := UInt64.toNat_add (leftChild slot) 1
  rw [UInt64.toNat_one] at hsum
  rw [show rightChild slot = leftChild slot + 1 from rfl, hsum]
  simp only [UInt64.size] at heven
  omega

theorem add_leftChild_one (slot : Slot) : Checked.add (leftChild slot) 1 = .ok (rightChild slot) := by
  refine Checked.add_eq_ok ?_
  rw [UInt64.toNat_one, ← toNat_rightChild]
  exact (rightChild slot).toNat_lt

/-! ## And up again -/

theorem toNat_parent_leftChild (slot : Slot) :
    (parent (leftChild slot)).toNat = slot.toNat % 2 ^ 63 := by
  rw [toNat_parent, toNat_leftChild]
  simp only [UInt64.size]
  omega

theorem parent_rightChild (slot : Slot) : parent (rightChild slot) = parent (leftChild slot) := by
  have heven := toNat_leftChild slot
  rw [← UInt64.toNat_inj, toNat_parent, toNat_parent, toNat_rightChild]
  simp only [UInt64.size] at heven
  omega

theorem parent_leftChild (h : slot.toNat < 2 ^ 63) : parent (leftChild slot) = slot := by
  rw [← UInt64.toNat_inj, toNat_parent_leftChild, Nat.mod_eq_of_lt h]

/-! ## Up -/

theorem toNat_leftChild_parent (slot : Slot) :
    (leftChild (parent slot)).toNat = 2 * (slot.toNat / 2) := by
  have hlt := slot.toNat_lt
  rw [toNat_leftChild, toNat_parent]
  simp only [UInt64.size]
  omega

/-- A slot is the first child of its parent or the second one, as it is even or odd. -/
theorem eq_child_parent (slot : Slot) :
    Xor (slot = leftChild (parent slot)) (slot = rightChild (parent slot)) := by
  have hleft := toNat_leftChild_parent slot
  have hright := toNat_rightChild (parent slot)
  unfold Xor
  rw [← UInt64.toNat_inj, ← UInt64.toNat_inj, hright, hleft]
  omega

theorem parent_bounds (h2 : 2 ≤ slot) : 1 ≤ parent slot ∧ parent slot < slot := by
  have hslot : 2 ≤ slot.toNat := UInt64.le_iff_toNat_le.mp h2
  rw [UInt64.le_iff_toNat_le, UInt64.lt_iff_toNat_lt, toNat_parent, UInt64.toNat_one]
  omega

theorem toNat_iterate_parent (slot : Slot) (n : Nat) :
    (parent^[n] slot).toNat = slot.toNat / 2 ^ n := by
  induction n with
  | zero => simp
  | succ n ih =>
    rw [Function.iterate_succ_apply', toNat_parent, ih, Nat.div_div_eq_div_mul, Nat.pow_succ]

/-- Every slot but slot 0 descends from the root, which it has as many levels above it as its number
has bits behind the first. -/
theorem exists_iterate_parent (h1 : 1 ≤ slot) :
    ∃ n < 64, parent^[n] slot = root ∧ parent^[n + 1] slot = 0 ∧
      ∀ m < n, root < parent^[m] slot := by
  have hslot : slot.toNat ≠ 0 := Nat.one_le_iff_ne_zero.mp (UInt64.le_iff_toNat_le.mp h1)
  have hle := Nat.log2_self_le hslot
  have hlt : slot.toNat < 2 ^ (slot.toNat.log2 + 1) := Nat.lt_log2_self
  refine ⟨slot.toNat.log2, (Nat.log2_lt hslot).mpr slot.toNat_lt, ?_, ?_, ?_⟩
  · rw [← UInt64.toNat_inj, toNat_iterate_parent, toNat_root]
    refine Nat.div_eq_of_lt_le (by omega) ?_
    rwa [Nat.pow_succ, Nat.mul_comm] at hlt
  · rw [← UInt64.toNat_inj, toNat_iterate_parent, UInt64.toNat_zero]
    exact Nat.div_eq_of_lt hlt
  · intro m hm
    have hpow : 2 ^ (m + 1) ≤ 2 ^ slot.toNat.log2 := Nat.pow_le_pow_right (by decide) hm
    rw [UInt64.lt_iff_toNat_lt, toNat_root, toNat_iterate_parent]
    refine (Nat.le_div_iff_mul_le (Nat.two_pow_pos m)).mpr ?_
    rw [Nat.pow_succ, Nat.mul_comm] at hpow
    exact Nat.le_trans hpow hle

/-! ## The whole tree -/

/-- Whether a slot is a leaf is a matter of exact arithmetic, and so is the way to its first child if it
is none. The second child can always be computed from the first one, and both have the slot they were
computed from for their parent, less the bit that the shift to the left has dropped. Every slot behind
the root is one of the two children of a slot before it, and from every slot but slot 0 the way over
the parents leads to the root, and from there to slot 0. -/
theorem slots_form_tree (slot last : Slot) :
    (isLeaf slot last = true ↔ slot.toNat ≤ last.toNat ∧ last.toNat < 2 * slot.toNat) ∧
    (1 ≤ slot → slot ≤ last → isLeaf slot last = false →
      (leftChild slot).toNat = 2 * slot.toNat ∧ slot < leftChild slot ∧ leftChild slot ≤ last) ∧
    Checked.add (leftChild slot) 1 = .ok (rightChild slot) ∧
    parent (rightChild slot) = parent (leftChild slot) ∧
    (slot.toNat < 2 ^ 63 → parent (leftChild slot) = slot) ∧
    (2 ^ 63 ≤ slot.toNat → (parent (leftChild slot)).toNat = slot.toNat - 2 ^ 63) ∧
    (2 ≤ slot → 1 ≤ parent slot ∧ parent slot < slot ∧
      Xor (slot = leftChild (parent slot)) (slot = rightChild (parent slot))) ∧
    (1 ≤ slot → ∃ n < 64, parent^[n] slot = root ∧ parent^[n + 1] slot = 0 ∧
      ∀ m < n, root < parent^[m] slot) := by
  refine ⟨isLeaf_eq_true_iff, leftChild_of_isLeaf_eq_false, add_leftChild_one slot,
    parent_rightChild slot, parent_leftChild, ?_, ?_, exists_iterate_parent⟩
  · intro hbit
    have hlt := slot.toNat_lt
    rw [toNat_parent_leftChild]
    omega
  · intro h2
    obtain ⟨h1, hlt⟩ := parent_bounds h2
    exact ⟨h1, hlt, eq_child_parent slot⟩

/-- The last slot that can have children, and a slot for which the shift to the left drops a bit. -/
theorem slots_form_tree_of_half :
    ((1 : Slot) ≤ 0x7fffffffffffffff ∧ (0x7fffffffffffffff : Slot) ≤ 0xffffffffffffffff ∧
      isLeaf 0x7fffffffffffffff 0xffffffffffffffff = false ∧
      leftChild 0x7fffffffffffffff ≤ 0xffffffffffffffff ∧
      parent (leftChild 0x7fffffffffffffff) = 0x7fffffffffffffff) ∧
    2 ^ 63 ≤ (0x8000000000000005 : Slot).toNat ∧
      (parent (leftChild 0x8000000000000005)).toNat = (0x8000000000000005 : Slot).toNat - 2 ^ 63 ∧
      ∃ n < 64, parent^[n] 0x8000000000000005 = root ∧ parent^[n + 1] 0x8000000000000005 = 0 := by
  obtain ⟨-, hdown, -, -, hback, -⟩ := slots_form_tree 0x7fffffffffffffff 0xffffffffffffffff
  obtain ⟨-, -, -, -, -, hdropped, -, hup⟩ := slots_form_tree 0x8000000000000005 0
  obtain ⟨n, hn, hroot, hnone, -⟩ := hup (by decide)
  exact ⟨⟨by decide, by decide, by decide, (hdown (by decide) (by decide) (by decide)).2.2,
    hback (by decide)⟩, by decide, hdropped (by decide), n, hn, hroot, hnone⟩

end AddressableHeap.Tree
