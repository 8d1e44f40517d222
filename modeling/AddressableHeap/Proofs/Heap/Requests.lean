import AddressableHeap.Proofs.Heap.Walks

/-!
# What a request does to the layout

On a heap that has a layout every request returns an answer. An accepted one carries its change out in
the layout, and a rejected one hands back the heap it was given.
-/

namespace AddressableHeap.Heap.HasLayout

variable {h : Heap} {capacity last : Nat} {f : Layout} {slot : Slot} {id : Id} {i : Nat}

/-! ## Finding -/

/-- The element in an occupied slot is found there. -/
theorem locate_some (hf : h.HasLayout capacity last f) (h1 : 1 ≤ i) (hl : i ≤ last) :
    h.locate (f i).id = .ok (some (UInt64.ofNat i)) := by
  have hcap := hf.last_le
  have hto := hf.toNat_ofNat_slot hl
  have hle : UInt64.ofNat i ≤ h.last := by
    rw [UInt64.le_iff_toNat_le, hto, hf.toNat_last]
    exact hl
  unfold locate
  simp only [hf.placed i h1 hl, if_pos hle, hto, hf.get_eq (show i ≤ capacity by omega),
    Checked.ok_bind, if_true]
  rfl

/-- An element that is in no occupied slot is not found, whatever the index says about it. -/
theorem locate_none (hf : h.HasLayout capacity last f)
    (hne : ∀ i, 1 ≤ i → i ≤ last → (f i).id ≠ id) : h.locate id = .ok none := by
  have hcap := hf.last_le
  unfold locate
  cases hn : h.index.find? id with
  | none => rfl
  | some slot =>
    by_cases hle : slot ≤ h.last
    · have hl : slot.toNat ≤ last := by
        rw [← hf.toNat_last]
        exact UInt64.le_iff_toNat_le.mp hle
      have h1 : 1 ≤ slot.toNat := by
        by_contra h0
        have : slot.toNat = (0 : Slot).toNat := by simpa using by omega
        exact find?_ne_zero hn (UInt64.toNat_inj.mp this)
      simp only [if_pos hle, hf.get_eq (show slot.toNat ≤ capacity by omega), Checked.ok_bind,
        if_neg (hne _ h1 hl)]
      rfl
    · simp only [if_neg hle]
      rfl

/-- The member at the root is looked at. -/
theorem peekMin_some (hf : h.HasLayout capacity last f) (h1 : 1 ≤ last) :
    h.peekMin = .ok (some (f 1)) := by
  have hcap := hf.last_le
  have hne : h.isEmpty = false := by
    unfold isEmpty
    rw [beq_eq_false_iff_ne]
    intro h0
    have := hf.toNat_last
    rw [h0] at this
    simp at this
    omega
  unfold peekMin
  rw [hne, Tree.toNat_root, hf.get_eq (show 1 ≤ capacity by omega)]
  rfl

theorem isEmpty_iff (hf : h.HasLayout capacity last f) : h.isEmpty = true ↔ last = 0 := by
  unfold isEmpty
  rw [beq_iff_eq, ← hf.toNat_last, ← UInt64.toNat_inj]
  rfl

/-! ## Giving up slots -/

/-- Giving up slots at the end leaves everything where it is. -/
theorem shrink (hf : h.HasLayout capacity last f) {m : Nat} (hm : m ≤ last)
    (hs : slot.toNat = m) : HasLayout ⟨h.entries, h.index, slot⟩ capacity m f where
  capacity_eq := hf.capacity_eq
  size_eq := hs
  entryAt_eq := hf.entryAt_eq
  addressable := hf.addressable
  entries_size := hf.entries_size
  last_le := Nat.le_trans hm hf.last_le
  sentinel := hf.sentinel
  inRange := fun i h1 hl => hf.inRange i h1 (by omega)
  placed := fun i h1 hl => hf.placed i h1 (by omega)

theorem clear (hf : h.HasLayout capacity last f) : h.clear.HasLayout capacity 0 f :=
  hf.shrink (Nat.zero_le _) rfl

theorem vacate (hf : h.HasLayout capacity last f) (h1 : 1 ≤ slot.toNat) (hl : slot.toNat ≤ last) :
    ∃ h', h.vacate slot = .ok h' ∧ h'.HasLayout capacity (last - 1) (f.swap slot.toNat last) := by
  obtain ⟨h₁, he₁, hf₁⟩ := hf.swap h1 hl (show 1 ≤ h.last.toNat by rw [hf.toNat_last]; omega)
    (Nat.le_of_eq hf.toNat_last)
  rw [hf.toNat_last] at hf₁
  have hle : 1 ≤ h₁.last := by
    rw [UInt64.le_iff_toNat_le, hf₁.toNat_last, UInt64.toNat_one]
    omega
  have hto : (h₁.last - 1).toNat = last - 1 := by
    rw [UInt64.toNat_sub_of_le _ _ hle, hf₁.toNat_last, UInt64.toNat_one]
  refine ⟨_, ?_, hf₁.shrink (Nat.sub_le last 1) hto⟩
  unfold Heap.vacate
  simp only [he₁, Checked.ok_bind, Checked.sub_eq_ok hle]
  rfl

theorem vacated (hf : h.HasLayout capacity last f) (hlt : last < capacity) :
    h.vacated = .ok (f (last + 1)).id := by
  unfold Heap.vacated
  rw [hf.add_last_eq, Checked.ok_bind, hf.toNat_last_add_one, hf.get_eq hlt, Checked.ok_bind]
  rfl

/-! ## Taking a slot -/

/-- An element that is new to the heap is put behind the last slot and moved to its level. -/
theorem append (hf : h.HasLayout capacity last f) (key : Key) (hlt : last < capacity)
    (hid : id < capacity) (hne : ∀ i, 1 ≤ i → i ≤ last → (f i).id ≠ id) :
    ∃ h', h.append ⟨key, id⟩ = .ok h' ∧
      h'.HasLayout capacity (last + 1) (f.insert last ⟨key, id⟩) := by
  have hs := hf.entries_size
  have hto := hf.toNat_last_add_one
  have hto' : UInt64.ofNat (last + 1) = h.last + 1 := by rw [← hto, UInt64.ofNat_toNat]
  have hbound : (h.last + 1).toNat < h.entries.size := by omega
  have hcap : h.index.capacity = capacity := hf.capacity_eq
  obtain ⟨index, hr, hc, hn⟩ := record_spec h.index (by rw [hcap]; exact hid)
    (slot_ne_zero (show 1 ≤ (h.last + 1).toNat by omega))
  have hf₁ : HasLayout ⟨h.entries.set (h.last + 1).toNat ⟨key, id⟩ hbound, index, h.last + 1⟩
      capacity (last + 1) (f.put (last + 1) ⟨key, id⟩) := by
    refine ⟨hc.trans hcap, hto, ?_, hf.addressable, ?_, hlt, ?_, ?_, ?_⟩
    · funext i
      rw [← hf.entryAt_eq]
      by_cases hi : i = last + 1
      · subst hi
        simp [entryAt, hto, hs, hlt]
      · rw [Layout.put_of_ne _ _ hi]
        simp [entryAt, hto, Ne.symm hi]
    · rw [Array.size_set, hs]
    · rw [Layout.put_of_ne f _ (by omega)]
      exact hf.sentinel
    · intro i h1 hl
      by_cases hi : i = last + 1
      · rw [hi, Layout.put_same]
        exact hid
      · rw [Layout.put_of_ne f _ hi]
        exact hf.inRange i h1 (by omega)
    · intro i h1 hl
      rw [hn]
      by_cases hi : i = last + 1
      · rw [hi, Layout.put_same, if_pos rfl, hto']
      · rw [Layout.put_of_ne f _ hi, if_neg (hne i h1 (by omega))]
        exact hf.placed i h1 (by omega)
  obtain ⟨h₂, he₂, hf₂⟩ := hf₁.siftUp (show 1 ≤ (h.last + 1).toNat by omega) (by omega)
  rw [hto] at hf₂
  refine ⟨h₂, ?_, hf₂⟩
  unfold Heap.append
  simp only [hf.add_last_eq, Checked.ok_bind, Checked.set_eq_ok hbound, hr, he₂]
  rfl

/-! ## Changing a key -/

theorem setKey (hf : h.HasLayout capacity last f) (key : Key) (h1 : 1 ≤ slot.toNat)
    (hl : slot.toNat ≤ last) :
    ∃ h', h.setKey slot key = .ok h' ∧ h'.HasLayout capacity last (f.setKey slot.toNat key) := by
  have hcap := hf.last_le
  have hs := hf.entries_size
  have hbound : slot.toNat < h.entries.size := by omega
  have hsame : ∀ i, (f.setKey slot.toNat key i).id = (f i).id := fun i => by
    unfold Layout.setKey
    by_cases hi : i = slot.toNat
    · rw [hi, Layout.put_same]
    · rw [Layout.put_of_ne f _ hi]
  refine ⟨⟨h.entries.set slot.toNat ⟨key, (f slot.toNat).id⟩ hbound, h.index, h.last⟩, ?_,
    hf.capacity_eq, hf.size_eq, ?_, hf.addressable, ?_, hcap, ?_, ?_, ?_⟩
  · unfold Heap.setKey
    simp only [hf.get_eq (show slot.toNat ≤ capacity by omega), Checked.ok_bind,
      Checked.set_eq_ok hbound]
    rfl
  · funext i
    unfold Layout.setKey
    rw [← hf.entryAt_eq]
    by_cases hi : i = slot.toNat
    · subst hi
      simp [entryAt, hbound]
    · rw [Layout.put_of_ne _ _ hi]
      simp [entryAt, Ne.symm hi]
  · rw [Array.size_set, hs]
  · rw [Layout.setKey, Layout.put_of_ne f _ (by omega)]
    exact hf.sentinel
  · intro i h1 hl
    rw [hsame]
    exact hf.inRange i h1 hl
  · intro i h1 hl
    rw [hsame]
    exact hf.placed i h1 hl

theorem rekey (hf : h.HasLayout capacity last f) (key : Key) (h1 : 1 ≤ slot.toNat)
    (hl : slot.toNat ≤ last) :
    ∃ h', h.rekey slot key = .ok h' ∧ h'.HasLayout capacity last (f.rekey last slot.toNat key) := by
  have hcap := hf.last_le
  obtain ⟨h₁, he₁, hf₁⟩ := hf.setKey key h1 hl
  unfold Heap.rekey Layout.rekey
  rw [hf.get_eq (show slot.toNat ≤ capacity by omega), Checked.ok_bind, he₁, Checked.ok_bind]
  split
  · obtain ⟨h₂, he₂, hf₂⟩ := hf₁.siftUp h1 hl
    rw [he₂]
    exact ⟨h₂, rfl, hf₂⟩
  · split
    · obtain ⟨h₂, he₂, hf₂⟩ := hf₁.siftDown h1 hl
      rw [he₂]
      exact ⟨h₂, rfl, hf₂⟩
    · exact ⟨h₁, rfl, hf₁⟩

/-! ## Requests that are accepted -/

theorem insert_ok (hf : h.HasLayout capacity last f) (key : Key) (hlt : last < capacity)
    (hid : id < capacity) (hne : ∀ i, 1 ≤ i → i ≤ last → (f i).id ≠ id) :
    ∃ h', h.insert key id = .ok (.ok (), h') ∧
      h'.HasLayout capacity (last + 1) (f.insert last ⟨key, id⟩) := by
  obtain ⟨h', he, hf'⟩ := hf.append key hlt hid hne
  refine ⟨h', ?_, hf'⟩
  unfold Heap.insert
  rw [if_neg (by rw [hf.size_eq, hf.capacity_eq]; omega), if_neg (by rw [hf.capacity_eq]; exact Nat.not_le.mpr hid),
    hf.locate_none hne]
  simp only [Checked.ok_bind, he]
  rfl

theorem update_ok (hf : h.HasLayout capacity last f) (key : Key) (h1 : 1 ≤ i)
    (hl : i ≤ last) : ∃ h', h.update key (f i).id = .ok (.ok (), h') ∧
      h'.HasLayout capacity last (f.rekey last i key) := by
  have hto := hf.toNat_ofNat_slot hl
  obtain ⟨h', he, hf'⟩ := hf.rekey key (show 1 ≤ (UInt64.ofNat i).toNat by omega) (by omega)
  rw [hto] at hf'
  refine ⟨h', ?_, hf'⟩
  unfold Heap.update
  rw [hf.locate_some h1 hl]
  simp only [Checked.ok_bind, he]
  rfl

/-- The slot behind the last one answers a removal with the element that was removed. -/
theorem vacated_remove (hf : h.HasLayout capacity (last - 1) (f.remove last i)) (h1 : 1 ≤ i)
    (hl : i ≤ last) (hcap : last ≤ capacity) : h.vacated = .ok (f i).id := by
  have hgone := hf.vacated (by omega)
  rwa [Nat.sub_add_cancel (by omega), Layout.remove_last f last h1] at hgone

theorem remove_ok (hf : h.HasLayout capacity last f) (h1 : 1 ≤ i) (hl : i ≤ last) :
    ∃ h', h.remove (f i).id = .ok (.ok (f i).id, h') ∧
      h'.HasLayout capacity (last - 1) (f.remove last i) := by
  have hcap := hf.last_le
  have hto := hf.toNat_ofNat_slot hl
  obtain ⟨h₁, he₁, hf₁⟩ := hf.vacate (show 1 ≤ (UInt64.ofNat i).toNat by omega) (by omega)
  rw [hto] at hf₁
  have hle : UInt64.ofNat i ≤ h₁.last ↔ i < last := by
    rw [UInt64.le_iff_toNat_le, hto, hf₁.toNat_last]
    omega
  by_cases hlt : i < last
  · obtain ⟨h₂, he₂, hf₂⟩ := hf₁.settle (show 1 ≤ (UInt64.ofNat i).toNat by omega) (by omega)
    have hrem : ((f.swap i last).settle (last - 1) i).2 = f.remove last i := by
      rw [Layout.remove, if_pos hlt]
    rw [hto, hrem] at hf₂
    refine ⟨h₂, ?_, hf₂⟩
    unfold Heap.remove
    rw [hf.locate_some h1 hl]
    simp only [Checked.ok_bind, he₁, if_pos (hle.mpr hlt), he₂, Functor.map, Except.map,
      hf₂.vacated_remove h1 hl hcap]
    rfl
  · have hrem : f.swap i last = f.remove last i := by rw [Layout.remove, if_neg hlt]
    rw [hrem] at hf₁
    refine ⟨h₁, ?_, hf₁⟩
    unfold Heap.remove
    rw [hf.locate_some h1 hl]
    simp only [Checked.ok_bind, he₁, if_neg (mt hle.mp hlt), pure, Except.pure,
      hf₁.vacated_remove h1 hl hcap]

theorem removeMin_ok (hf : h.HasLayout capacity last f) (h1 : 1 ≤ last) :
    ∃ h', h.removeMin = .ok (.ok (f 1).id, h') ∧
      h'.HasLayout capacity (last - 1) (f.remove last 1) := by
  have hcap := hf.last_le
  have hne : ¬ h.isEmpty = true := by
    rw [hf.isEmpty_iff]
    omega
  obtain ⟨h₁, he₁, hf₁⟩ := hf.vacate (show 1 ≤ Tree.root.toNat from Nat.le_refl 1) h1
  rw [Tree.toNat_root] at hf₁
  have hzero : h₁.last = 0 ↔ ¬ 1 < last := by
    rw [← UInt64.toNat_inj, hf₁.toNat_last, UInt64.toNat_zero]
    omega
  unfold Heap.removeMin
  rw [if_neg hne, he₁, Checked.ok_bind]
  by_cases hlt : 1 < last
  · obtain ⟨h₂, he₂, hf₂⟩ := hf₁.siftDown (show 1 ≤ Tree.root.toNat from Nat.le_refl 1)
      (by rw [Tree.toNat_root]; omega)
    have hrem : ((f.swap 1 last).sink (last - 1) 1).2 = f.remove last 1 := by
      rw [Layout.remove, if_pos hlt, Layout.settle_root]
    rw [Tree.toNat_root, hrem] at hf₂
    refine ⟨h₂, ?_, hf₂⟩
    simp only [if_neg (fun h0 => hzero.mp h0 hlt), he₂, Functor.map, Except.map, Checked.ok_bind,
      hf₂.vacated_remove (Nat.le_refl 1) h1 hcap]
    rfl
  · have hrem : f.swap 1 last = f.remove last 1 := by rw [Layout.remove, if_neg hlt]
    rw [hrem] at hf₁
    refine ⟨h₁, ?_, hf₁⟩
    simp only [if_pos (hzero.mpr hlt), pure, Except.pure, Checked.ok_bind,
      hf₁.vacated_remove (Nat.le_refl 1) h1 hcap]

end AddressableHeap.Heap.HasLayout
