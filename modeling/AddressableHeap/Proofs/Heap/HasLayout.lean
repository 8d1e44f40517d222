import AddressableHeap.Heap.Valid
import AddressableHeap.Proofs.Layout.Members
import AddressableHeap.Proofs.Layout.Order

/-!
# Heaps and their layouts

A heap has a layout if its array holds the layout, its index tells the truth about the occupied slots,
and all its parts fit its capacity. The order of the keys is left out: it is broken while an entry is
on its way. On a heap that has a layout no access faults, an exchange exchanges in the layout, and the
walks of the heap are those of the layout.
-/

namespace AddressableHeap.Heap

variable {h : Heap} {capacity last : Nat} {f : Layout}

/-- The heap has room for `capacity` members, its last occupied slot is `last`, and its entries lie as
in `f`. -/
structure HasLayout (h : Heap) (capacity last : Nat) (f : Layout) : Prop where
  capacity_eq : h.capacity = capacity
  size_eq : h.size = last
  entryAt_eq : h.entryAt = f
  addressable : capacity + 1 < UInt64.size
  entries_size : h.entries.size = capacity + 1
  last_le : last ≤ capacity
  sentinel : (f 0).key = Key.least
  inRange : ∀ slot, 1 ≤ slot → slot ≤ last → (f slot).id < capacity
  placed : ∀ slot, 1 ≤ slot → slot ≤ last →
    h.index.find? (f slot).id = some (UInt64.ofNat slot)

/-- A heap is valid if it has a layout and that layout is in order. -/
theorem valid_iff :
    h.Valid ↔ h.HasLayout h.capacity h.size h.entryAt ∧ Layout.Ordered h.entryAt h.size := by
  constructor
  · rintro ⟨h1, h2, h3, h4, h5, h6, h7⟩
    exact ⟨⟨rfl, rfl, rfl, h1, h2, h3, h4, h5, h6⟩, h7⟩
  · rintro ⟨⟨-, -, -, h1, h2, h3, h4, h5, h6⟩, h7⟩
    exact ⟨h1, h2, h3, h4, h5, h6, h7⟩

theorem Valid.hasLayout (hv : h.Valid) : h.HasLayout h.capacity h.size h.entryAt :=
  (valid_iff.mp hv).1

theorem Valid.layout_ordered (hv : h.Valid) : Layout.Ordered h.entryAt h.size :=
  (valid_iff.mp hv).2

theorem HasLayout.valid (hf : h.HasLayout capacity last f) (ho : f.Ordered last) : h.Valid := by
  have h₁ := hf.capacity_eq
  have h₂ := hf.size_eq
  have h₃ := hf.entryAt_eq
  subst h₁ h₂ h₃
  exact valid_iff.mpr ⟨hf, ho⟩

theorem HasLayout.toList_eq (hf : h.HasLayout capacity last f) : h.toList = f.members last := by
  have hs := hf.entries_size
  have hl := hf.last_le
  unfold toList
  rw [hf.size_eq]
  refine List.ext_getElem ?_ ?_
  · simp [Layout.length_members, hs]
    omega
  · intro i h₁ h₂
    have hi : i < last := by simpa [Layout.length_members] using h₂
    simp [Layout.members, ← hf.entryAt_eq, entryAt, hs, Nat.add_comm 1 i,
      show i + 1 < capacity + 1 by omega]

/-! ## Heaps whose parts fit together -/

theorem Valid.fits (hv : h.Valid) : h.Fits := ⟨hv.addressable, hv.entries_size, hv.size_le⟩

theorem HasLayout.fits (hf : h.HasLayout capacity last f) : h.Fits := by
  have hcap := hf.capacity_eq
  have hsize := hf.size_eq
  subst hcap hsize
  exact ⟨hf.addressable, hf.entries_size, hf.last_le⟩

theorem Fits.get_eq (hf : h.Fits) {slot : Nat} (hs : slot ≤ h.capacity) :
    Checked.get h.entries slot = .ok (h.entryAt slot) := by
  have hlt : slot < h.entries.size := by
    rw [hf.entries_size]
    exact Nat.lt_succ_of_le hs
  rw [Checked.get_eq_ok hlt]
  simp [entryAt, hlt]

/-- The occupied slots have addresses. -/
theorem Fits.toNat_ofNat_slot (hf : h.Fits) {slot : Nat} (hs : slot ≤ h.size) :
    (UInt64.ofNat slot).toNat = slot := by
  have hcap := hf.size_le
  have hadr := hf.addressable
  exact UInt64.toNat_ofNat_of_lt' (by omega)

/-! ## The index -/

theorem record_spec (index : SlotIndex) {id : Id} {slot : Slot} (hid : id < index.capacity)
    (hs : slot ≠ 0) : ∃ index', index.record id slot = .ok index' ∧
      index'.capacity = index.capacity ∧
      ∀ id', index'.find? id' = if id' = id then some slot else index.find? id' := by
  have hlt : id < index.slots.size := hid
  refine ⟨⟨index.slots.set id slot hlt⟩, SlotIndex.record_eq_ok slot hid, ?_, ?_⟩
  · simp [SlotIndex.capacity]
  · intro id'
    by_cases h : id' = id
    · subst h
      simp [SlotIndex.find?, hs]
    · simp [SlotIndex.find?, h, Ne.symm h]

theorem find?_ne_zero {index : SlotIndex} {id : Id} {slot : Slot}
    (h : index.find? id = some slot) : slot ≠ 0 := by
  have := (Option.filter_eq_some_iff.mp h).2
  simpa using this

namespace HasLayout

/-! ## Single accesses -/

theorem toNat_last (hf : h.HasLayout capacity last f) : h.last.toNat = last := hf.size_eq

theorem get_eq (hf : h.HasLayout capacity last f) {slot : Nat} (hs : slot ≤ capacity) :
    Checked.get h.entries slot = .ok (f slot) := by
  rw [← hf.capacity_eq] at hs
  rw [← hf.entryAt_eq]
  exact hf.fits.get_eq hs

theorem toNat_ofNat_slot (hf : h.HasLayout capacity last f) {slot : Nat} (hs : slot ≤ last) :
    (UInt64.ofNat slot).toNat = slot := by
  rw [← hf.size_eq] at hs
  exact hf.fits.toNat_ofNat_slot hs

theorem id_inj (hf : h.HasLayout capacity last f) {i j : Nat} (hi : 1 ≤ i) (hi' : i ≤ last)
    (hj : 1 ≤ j) (hj' : j ≤ last) (he : (f i).id = (f j).id) : i = j := by
  have h₁ := hf.placed i hi hi'
  rw [he, hf.placed j hj hj', Option.some_inj] at h₁
  have h₂ := congrArg UInt64.toNat h₁
  rw [hf.toNat_ofNat_slot hi', hf.toNat_ofNat_slot hj'] at h₂
  exact h₂.symm

theorem toNat_last_add_one (hf : h.HasLayout capacity last f) :
    (h.last + 1).toNat = last + 1 := by
  have := hf.addressable
  have := hf.last_le
  rw [UInt64.toNat_add, UInt64.toNat_one, hf.toNat_last]
  exact Nat.mod_eq_of_lt (show last + 1 < UInt64.size by omega)

theorem add_last_eq (hf : h.HasLayout capacity last f) :
    Checked.add h.last 1 = .ok (h.last + 1) := by
  have := hf.addressable
  have := hf.last_le
  refine Checked.add_eq_ok ?_
  rw [hf.toNat_last, UInt64.toNat_one]
  omega

theorem snapshot_eq (hf : h.HasLayout capacity last f) : h.snapshot = .ok h.toList := by
  have hle : last + 1 ≤ h.entries.size := by
    rw [hf.entries_size]
    exact Nat.succ_le_succ hf.last_le
  rw [snapshot, hf.add_last_eq, Checked.ok_bind, hf.toNat_last_add_one, if_pos hle]
  rfl

end HasLayout

end AddressableHeap.Heap
