import AddressableHeap.Heap.Operations
import AddressableHeap.Proofs.Heap.HasLayout

/-!
# The walks of a heap

On a heap that has a layout, exchanging two entries and moving an entry to its level never fault, and
do in the array what they do in the layout.
-/

namespace AddressableHeap.Heap.HasLayout

variable {h : Heap} {capacity last : Nat} {f : Layout} {slot : Slot}

/-- An occupied slot is not slot 0. -/
theorem slot_ne_zero (h1 : 1 ≤ slot.toNat) : slot ≠ 0 := by
  rintro rfl
  simp at h1

/-- The exchange of two occupied slots. -/
theorem swap (hf : h.HasLayout capacity last f) {a b : Slot} (ha : 1 ≤ a.toNat)
    (ha' : a.toNat ≤ last) (hb : 1 ≤ b.toNat) (hb' : b.toNat ≤ last) :
    ∃ h', h.swap a b = .ok h' ∧ h'.HasLayout capacity last (f.swap a.toNat b.toNat) := by
  have hl := hf.last_le
  have hs := hf.entries_size
  have hi : a.toNat < h.entries.size := by omega
  have hj : b.toNat < h.entries.size := by omega
  have hget : ∀ slot, slot ≤ capacity →
      Checked.get (h.entries.swap a.toNat b.toNat hi hj) slot = .ok (f.swap a.toNat b.toNat slot) := by
    intro slot hle
    rw [Checked.get_eq_ok (by rw [Array.size_swap]; omega), Array.getElem_swap, ← hf.entryAt_eq]
    simp [Layout.swap, entryAt, hs, show a.toNat < capacity + 1 by omega,
      show b.toNat < capacity + 1 by omega, show slot < capacity + 1 by omega]
  have hga := hget a.toNat (by omega)
  have hgb := hget b.toNat (by omega)
  rw [Layout.swap_left] at hga
  rw [Layout.swap_right] at hgb
  have hcap : h.index.capacity = capacity := hf.capacity_eq
  obtain ⟨index₁, hr₁, hc₁, hn₁⟩ := record_spec h.index
    (show (f b.toNat).id < _ by rw [hcap]; exact hf.inRange _ hb hb') (slot_ne_zero ha)
  obtain ⟨index₂, hr₂, hc₂, hn₂⟩ := record_spec index₁
    (show (f a.toNat).id < _ by rw [hc₁, hcap]; exact hf.inRange _ ha ha') (slot_ne_zero hb)
  refine ⟨⟨h.entries.swap a.toNat b.toNat hi hj, index₂, h.last⟩, ?_, ?_⟩
  · unfold Heap.swap
    simp only [Checked.swap_eq_ok hi hj, Checked.ok_bind, hga, hr₁, hgb, hr₂]
    rfl
  · refine ⟨hc₂.trans (hc₁.trans hcap), hf.size_eq, ?_, hf.addressable, ?_, hl, ?_, ?_, ?_⟩
    · funext slot
      by_cases hle : slot ≤ capacity
      · have hlt : slot < h.entries.size := by omega
        have := hget slot hle
        rw [Checked.get_eq_ok (by rw [Array.size_swap]; omega), Except.ok.injEq] at this
        rw [← this]
        simp [entryAt, hlt]
      · rw [Layout.swap_of_ne f (by omega) (by omega), ← hf.entryAt_eq]
        simp [entryAt, hs, show ¬ slot < capacity + 1 by omega]
    · rw [Array.size_swap, hs]
    · rw [Layout.swap_of_ne f (by omega) (by omega)]
      exact hf.sentinel
    · intro slot h1 hle
      unfold Layout.swap
      split
      · exact hf.inRange _ hb hb'
      · split
        · exact hf.inRange _ ha ha'
        · exact hf.inRange _ h1 hle
    · intro slot h1 hle
      rw [hn₂, hn₁]
      by_cases hsb : slot = b.toNat
      · rw [hsb, Layout.swap_right, if_pos rfl, UInt64.ofNat_toNat]
      · by_cases hsa : slot = a.toNat
        · rw [hsa, Layout.swap_left, if_neg, if_pos rfl, UInt64.ofNat_toNat]
          intro he
          exact hsb (hsa.trans (hf.id_inj ha ha' hb hb' he.symm))
        · rw [Layout.swap_of_ne f hsa hsb, if_neg, if_neg]
          · exact hf.placed slot h1 hle
          · exact fun he => hsb (hf.id_inj h1 hle hb hb' he)
          · exact fun he => hsa (hf.id_inj h1 hle ha ha' he)

/-- The walk towards the root. The sentinel stops it at the root. -/
theorem siftUp (hf : h.HasLayout capacity last f) (h1 : 1 ≤ slot.toNat) (hl : slot.toNat ≤ last) :
    ∃ h', h.siftUp slot = .ok (UInt64.ofNat (f.rise slot.toNat).1, h') ∧
      h'.HasLayout capacity last (f.rise slot.toNat).2 := by
  induction hn : slot.toNat using Nat.strongRecOn generalizing h f slot with
  | _ n ih =>
    subst hn
    have hcap := hf.last_le
    have hpar := Tree.toNat_parent slot
    have hgs := hf.get_eq (show slot.toNat ≤ capacity by omega)
    have hgp := hf.get_eq (show slot.toNat / 2 ≤ capacity by omega)
    rw [← hpar] at hgp
    rw [Heap.siftUp, dif_neg (slot_ne_zero h1), hgs, Checked.ok_bind, hgp, Checked.ok_bind, hpar,
      Layout.rise]
    by_cases hlt : (f slot.toNat).key < (f (slot.toNat / 2)).key
    · have h2 : 2 ≤ slot.toNat := by
        by_contra hroot
        have hone : slot.toNat = 1 := by omega
        rw [hone, hf.sentinel] at hlt
        exact Int64.not_lt.mpr (Int64.minValue_le _) hlt
      obtain ⟨h₁, he₁, hf₁⟩ := hf.swap h1 hl (show 1 ≤ (Tree.parent slot).toNat by omega) (by omega)
      obtain ⟨h₂, he₂, hf₂⟩ := ih (Tree.parent slot).toNat (by omega) hf₁ (by omega) (by omega)
        rfl
      rw [hpar] at he₂ hf₂
      rw [if_pos hlt, if_pos ⟨h2, hlt⟩, he₁, Checked.ok_bind]
      exact ⟨h₂, he₂, hf₂⟩
    · rw [if_neg hlt, if_neg fun hc => hlt hc.2, UInt64.ofNat_toNat]
      exact ⟨h, rfl, hf⟩

/-- The choice of a child. -/
theorem smallerChild (hf : h.HasLayout capacity last f) (hl : 2 * slot.toNat ≤ last) :
    h.smallerChild slot = .ok (UInt64.ofNat (f.smallerChild last slot.toNat)) := by
  have hcap := hf.last_le
  have hadr := hf.addressable
  have hlast := hf.toNat_last
  have hleft := Tree.toNat_leftChild_of_le (hlast ▸ hl)
  unfold Heap.smallerChild Layout.smallerChild
  by_cases hlt : 2 * slot.toNat < last
  · have hright : (Tree.leftChild slot + 1).toNat = 2 * slot.toNat + 1 := by
      rw [UInt64.toNat_add, hleft]
      exact Nat.mod_eq_of_lt (show _ < UInt64.size by simpa using by omega)
    have hsum : (Tree.leftChild slot).toNat + (1 : UInt64).toNat < UInt64.size := by
      rw [hleft, UInt64.toNat_one]
      omega
    simp only [UInt64.lt_iff_toNat_lt, hleft, hlast, hlt, if_true, true_and,
      Checked.add_eq_ok hsum, Checked.ok_bind, hright]
    rw [hf.get_eq (by omega), Checked.ok_bind, hf.get_eq (by omega), Checked.ok_bind]
    split
    · rw [← hright, UInt64.ofNat_toNat]
      rfl
    · rw [← hleft, UInt64.ofNat_toNat]
      rfl
  · simp only [UInt64.lt_iff_toNat_lt, hleft, hlast, hlt, if_false, false_and]
    rw [← hleft, UInt64.ofNat_toNat]
    rfl

/-! ### One step towards the leaves -/

section Descend

variable {bound : Slot}

theorem descend_of_leaf (hbound : bound.toNat = last) (hl : slot.toNat ≤ last)
    (hleaf : last < 2 * slot.toNat) : h.descend bound slot = .ok (slot, h) := by
  rw [← hbound, ← UInt64.le_iff_toNat_le] at hl
  rw [← hbound, ← Tree.isLeaf_iff hl] at hleaf
  rw [descend, if_pos hleaf]
  rfl

theorem descend_of_child (hf : h.HasLayout capacity last f) (hbound : bound.toNat = last)
    (h1 : 1 ≤ slot.toNat) (h2 : 2 * slot.toNat ≤ last) {child : Slot}
    (hchild : child.toNat = f.smallerChild last slot.toNat) :
    h.descend bound slot =
      if (f slot.toNat).key ≤ (f child.toNat).key then .ok (slot, h)
      else h.swap slot child >>= fun h' => h'.descend bound child := by
  have hcap := hf.last_le
  have hc1 := f.le_smallerChild last slot.toNat
  have hc2 := Layout.smallerChild_le (f := f) h2
  have hl : slot ≤ bound := by
    rw [UInt64.le_iff_toNat_le, hbound]
    omega
  have hinner : ¬ Tree.isLeaf slot bound = true := by
    rw [Tree.isLeaf_iff hl, hbound]
    omega
  have hwithin : slot < child ∧ child ≤ bound := by
    rw [UInt64.lt_iff_toNat_lt, UInt64.le_iff_toNat_le, hbound, hchild]
    omega
  have hsmaller := hf.smallerChild h2
  rw [← hchild, UInt64.ofNat_toNat] at hsmaller
  rw [descend, if_neg hinner, hsmaller, Checked.ok_bind, dif_pos hwithin,
    hf.get_eq (show slot.toNat ≤ capacity by omega), Checked.ok_bind,
    hf.get_eq (show child.toNat ≤ capacity by omega), Checked.ok_bind]
  rfl

end Descend

/-- The walk towards the leaves. -/
theorem siftDown (hf : h.HasLayout capacity last f) (h1 : 1 ≤ slot.toNat)
    (hl : slot.toNat ≤ last) :
    ∃ h', h.siftDown slot = .ok (UInt64.ofNat (f.sink last slot.toNat).1, h') ∧
      h'.HasLayout capacity last (f.sink last slot.toNat).2 := by
  unfold Heap.siftDown
  generalize hbound : h.last = bound
  have hlast : bound.toNat = last := by rw [← hbound, hf.toNat_last]
  clear hbound
  induction hn : last - slot.toNat using Nat.strongRecOn generalizing h f slot with
  | _ n ih =>
    subst hn
    rw [Layout.sink]
    by_cases h2 : 2 * slot.toNat ≤ last
    · have hc1 := f.le_smallerChild last slot.toNat
      have hc2 := Layout.smallerChild_le (f := f) h2
      obtain ⟨child, hchild⟩ : ∃ child : Slot, child.toNat = f.smallerChild last slot.toNat :=
        ⟨_, hf.toNat_ofNat_slot hc2⟩
      rw [hf.descend_of_child hlast h1 h2 hchild,
        if_pos (show 1 ≤ slot.toNat ∧ 2 * slot.toNat ≤ last from ⟨h1, h2⟩), ← hchild]
      by_cases hle : (f slot.toNat).key ≤ (f child.toNat).key
      · rw [if_pos hle, if_pos hle, UInt64.ofNat_toNat]
        exact ⟨h, rfl, hf⟩
      · obtain ⟨h₁, he₁, hf₁⟩ := hf.swap h1 hl (show 1 ≤ child.toNat by omega) (by omega)
        obtain ⟨h₂, he₂, hf₂⟩ := ih (last - child.toNat) (by omega) hf₁ (by omega) (by omega) rfl
        rw [if_neg hle, if_neg hle, he₁, Checked.ok_bind]
        exact ⟨h₂, he₂, hf₂⟩
    · rw [descend_of_leaf hlast hl (by omega), if_neg fun hc => h2 hc.2, UInt64.ofNat_toNat]
      exact ⟨h, rfl, hf⟩

/-- Settling is a walk towards the leaves, and if that has not moved the entry, one towards the root. -/
theorem settle_of_siftDown {reached : Slot} {h' : Heap} (he : h.siftDown slot = .ok (reached, h')) :
    h.settle slot = if reached = slot then h'.siftUp slot else .ok (reached, h') := by
  unfold Heap.settle
  rw [he]
  rfl

/-- The walk either way. -/
theorem settle (hf : h.HasLayout capacity last f) (h1 : 1 ≤ slot.toNat) (hl : slot.toNat ≤ last) :
    ∃ h', h.settle slot = .ok (UInt64.ofNat (f.settle last slot.toNat).1, h') ∧
      h'.HasLayout capacity last (f.settle last slot.toNat).2 := by
  have hb := Layout.sink_bounds (f := f) hl
  obtain ⟨h₁, he₁, hf₁⟩ := hf.siftDown h1 hl
  have hback : UInt64.ofNat (f.sink last slot.toNat).1 = slot ↔
      (f.sink last slot.toNat).1 = slot.toNat := by
    rw [← UInt64.toNat_inj, hf.toNat_ofNat_slot hb.2]
  rw [settle_of_siftDown he₁]
  unfold Layout.settle
  by_cases hs : (f.sink last slot.toNat).1 = slot.toNat
  · rw [if_pos hs, if_pos (hback.mpr hs)]
    exact hf₁.siftUp h1 hl
  · rw [if_neg hs, if_neg (mt hback.mp hs)]
    exact ⟨h₁, rfl, hf₁⟩

/-! ## Walks that end where they start -/

/-- An entry that is in order with its parent does not go towards the root, and nothing is written. -/
theorem siftUp_of_above (hf : h.HasLayout capacity last f) (h1 : 1 ≤ slot.toNat)
    (hl : slot.toNat ≤ last) (ha : f.Above slot.toNat) : h.siftUp slot = .ok (slot, h) := by
  have hcap := hf.last_le
  have hpar := Tree.toNat_parent slot
  have hentry := hf.get_eq (show slot.toNat ≤ capacity by omega)
  have habove := hf.get_eq (show (Tree.parent slot).toNat ≤ capacity by omega)
  have hstop : ¬ (f slot.toNat).key < (f (Tree.parent slot).toNat).key := by
    rw [Int64.not_lt, hpar]
    by_cases h2 : 2 ≤ slot.toNat
    · exact ha h2
    · -- above the root there is the sentinel, which lets no entry pass
      have hbottom : slot.toNat / 2 = 0 := by omega
      rw [hbottom, hf.sentinel]
      exact Int64.minValue_le _
  rw [Heap.siftUp, dif_neg (slot_ne_zero h1), hentry, Checked.ok_bind, habove, Checked.ok_bind,
    if_neg hstop]
  rfl

/-- An entry that is in order with its children does not go towards the leaves, and nothing is
written. -/
theorem siftDown_of_below (hf : h.HasLayout capacity last f) (h1 : 1 ≤ slot.toNat)
    (hl : slot.toNat ≤ last) (hb : f.Below last slot.toNat) : h.siftDown slot = .ok (slot, h) := by
  unfold Heap.siftDown
  by_cases h2 : 2 * slot.toNat ≤ last
  · have hc2 := Layout.smallerChild_le (f := f) h2
    obtain ⟨child, hchild⟩ : ∃ child : Slot, child.toNat = f.smallerChild last slot.toNat :=
      ⟨_, hf.toNat_ofNat_slot hc2⟩
    have hle := (Layout.below_iff h1).mp hb h2
    rw [← hchild] at hle
    rw [hf.descend_of_child hf.toNat_last h1 h2 hchild, if_pos hle]
  · exact descend_of_leaf hf.toNat_last hl (by omega)

/-- An entry that is in order with its parent settles on a walk towards the leaves. -/
theorem settle_of_above (hf : h.HasLayout capacity last f) (h1 : 1 ≤ slot.toNat)
    (hl : slot.toNat ≤ last) (ha : f.Above slot.toNat) : h.settle slot = h.siftDown slot := by
  by_cases hb : f.Below last slot.toNat
  · have hdown := hf.siftDown_of_below h1 hl hb
    rw [settle_of_siftDown hdown, hdown, if_pos rfl, hf.siftUp_of_above h1 hl ha]
  · have hcap := hf.last_le
    have hreached := Layout.sink_bounds (f := f) hl
    obtain ⟨h', he, -⟩ := hf.siftDown h1 hl
    rw [settle_of_siftDown he, he, if_neg]
    rw [← UInt64.toNat_inj, hf.toNat_ofNat_slot hreached.2, Layout.sink_fst_eq_iff h1]
    exact hb

/-- An entry that is in order with its children settles on a walk towards the root. -/
theorem settle_of_below (hf : h.HasLayout capacity last f) (h1 : 1 ≤ slot.toNat)
    (hl : slot.toNat ≤ last) (hb : f.Below last slot.toNat) : h.settle slot = h.siftUp slot := by
  rw [settle_of_siftDown (hf.siftDown_of_below h1 hl hb), if_pos rfl]

end AddressableHeap.Heap.HasLayout
