import AddressableHeap.Proofs.Heap.Answers
import AddressableHeap.Proofs.Layout.Agreement

/-!
# Heaps with the same members

Two valid heaps are alike if they have the same members in the same slots. They may differ in their
capacity, in what lies behind the last slot, and in the notes about elements that have left. Nothing
of this shows: heaps that are alike answer every question in the same way, and every request too,
after which they are still alike. Only where the smaller one has no room can they part.
-/

namespace AddressableHeap

variable {α β : Type}

/-- Both computations return, and they return the same. -/
def Checked.Concur (x y : Checked α) : Prop := ∃ a, x = .ok a ∧ y = .ok a

/-- The rejections that a heap of larger capacity might not have pronounced. -/
def Rejection.Cramped : Rejection → Prop
  | .full _ | .outOfRange _ _ => True
  | .duplicate _ | .unknown _ | .empty => False

namespace Heap

variable {h h' : Heap} {id : Id} {key : Key}

structure Alike (h h' : Heap) : Prop where
  valid : h.Valid
  valid' : h'.Valid
  toList_eq : h.toList = h'.toList

/-- Whatever is asked of the two heaps, except for their capacity, they return the same answer. -/
structure LooksLike (h h' : Heap) : Prop where
  size : h.size = h'.size
  isEmpty : h.isEmpty = h'.isEmpty
  snapshot : Checked.Concur h.snapshot h'.snapshot
  locate : ∀ id, Checked.Concur (h.locate id) (h'.locate id)
  keyOf : ∀ id, Checked.Concur (h.keyOf id) (h'.keyOf id)
  contains : ∀ id, Checked.Concur (h.contains id) (h'.contains id)
  peekMin : Checked.Concur h.peekMin h'.peekMin
  text : Checked.Concur h.text h'.text

/-- Both requests return the same answer, and they leave heaps that are alike. -/
def AlikeAfter (x y : Checked (α × Heap)) : Prop :=
  ∃ a k k', x = .ok (a, k) ∧ y = .ok (a, k') ∧ k.Alike k'

theorem AlikeAfter.map {x y : Checked (α × Heap)} (h : AlikeAfter x y) (f : α → β) :
    AlikeAfter (do let (a, k) ← x; pure (f a, k)) (do let (a, k) ← y; pure (f a, k)) := by
  obtain ⟨a, k, k', rfl, rfl, ha⟩ := h
  exact ⟨f a, k, k', rfl, rfl, ha⟩

namespace Alike

theorem size_eq (ha : h.Alike h') : h.size = h'.size := by
  rw [← ha.valid.length_toList, ha.toList_eq, ha.valid'.length_toList]

theorem lookup_eq (ha : h.Alike h') : h.lookup = h'.lookup := by
  unfold lookup
  rw [ha.toList_eq]

theorem agree (ha : h.Alike h') : Layout.Agree h.size h.entryAt h'.entryAt := by
  rw [Layout.agree_iff, ← ha.valid.hasLayout.toList_eq, ha.toList_eq,
    ha.valid'.hasLayout.toList_eq, ha.size_eq]

/-- Heaps whose layouts agree up to the last slot are alike if one of the layouts is in order. -/
theorem of_layouts {capacity capacity' last : Nat} {f f' : Layout}
    (hf : h.HasLayout capacity last f) (hf' : h'.HasLayout capacity' last f')
    (ho : f.Ordered last) (hag : Layout.Agree last f f') : h.Alike h' := by
  refine ⟨hf.valid ho, hf'.valid (hag.ordered ho), ?_⟩
  rw [hf.toList_eq, hf'.toList_eq, Layout.agree_iff.mp hag]

/-! ## Questions -/

theorem snapshot (ha : h.Alike h') : Checked.Concur h.snapshot h'.snapshot := by
  refine ⟨h.toList, ha.valid.snapshot_eq, ?_⟩
  rw [ha.toList_eq]
  exact ha.valid'.snapshot_eq

theorem locate (ha : h.Alike h') (id : Id) : Checked.Concur (h.locate id) (h'.locate id) := by
  cases hk : h.lookup id with
  | none =>
    have hk' := hk
    rw [ha.lookup_eq] at hk'
    exact ⟨none, ha.valid.locate_eq_none hk, ha.valid'.locate_eq_none hk'⟩
  | some key =>
    obtain ⟨i, h1, hl, he⟩ := ha.valid.exists_slot hk
    have hloc := ha.valid.hasLayout.locate_some h1 hl
    have hloc' := ha.valid'.hasLayout.locate_some h1 (ha.size_eq ▸ hl)
    rw [← ha.agree i h1 hl] at hloc'
    rw [he] at hloc hloc'
    exact ⟨_, hloc, hloc'⟩

theorem peekMin (ha : h.Alike h') : Checked.Concur h.peekMin h'.peekMin := by
  by_cases h0 : h.size = 0
  · exact ⟨none, ha.valid.peekMin_eq_none h0, ha.valid'.peekMin_eq_none (ha.size_eq ▸ h0)⟩
  · have h1 := Nat.one_le_iff_ne_zero.mpr h0
    refine ⟨_, (ha.valid.peekMin_eq h1).1, ?_⟩
    rw [ha.agree 1 (Nat.le_refl 1) h1]
    exact (ha.valid'.peekMin_eq (ha.size_eq ▸ h1)).1

/-- Heaps that are alike cannot be told apart by questions. -/
theorem looksLike (ha : h.Alike h') : h.LooksLike h' where
  size := ha.size_eq
  isEmpty := by rw [Bool.eq_iff_iff, ha.valid.isEmpty_iff, ha.valid'.isEmpty_iff, ha.size_eq]
  snapshot := ha.snapshot
  locate := ha.locate
  keyOf id := ⟨h.lookup id, ha.valid.keyOf_eq id, by rw [ha.lookup_eq, ha.valid'.keyOf_eq]⟩
  contains id := ⟨_, ha.valid.contains_eq id, by rw [ha.lookup_eq, ha.valid'.contains_eq]⟩
  peekMin := ha.peekMin
  text := by
    obtain ⟨members, he, he'⟩ := ha.snapshot
    unfold Heap.text
    exact ⟨Entry.listText members, by rw [he]; rfl, by rw [he']; rfl⟩

theorem outline (ha : h.Alike h') (hc : h.capacity = h'.capacity) :
    Checked.Concur h.outline h'.outline := by
  obtain ⟨members, he, he'⟩ := ha.snapshot
  unfold Heap.outline
  rw [he, he', hc, ha.size_eq]
  exact ⟨_, rfl, rfl⟩

/-! ## Requests -/

theorem insert_new (ha : h.Alike h') (key : Key) (hid : id < h.capacity) (hid' : id < h'.capacity)
    (hn : h.lookup id = none) : AlikeAfter (h.insert key id) (h'.insert key id) := by
  have hn' := hn
  rw [ha.lookup_eq] at hn'
  obtain ⟨k, he, hf⟩ := ha.valid.hasLayout.insert_ok key (ha.valid.size_lt hid hn) hid
    (ha.valid.lookup_eq_none_iff.mp hn)
  obtain ⟨k', he', hf'⟩ := ha.valid'.hasLayout.insert_ok key (ha.valid'.size_lt hid' hn') hid'
    (ha.valid'.lookup_eq_none_iff.mp hn')
  rw [← ha.size_eq] at hf'
  exact ⟨_, k, k', he, he',
    of_layouts hf hf' (Layout.ordered_insert ha.valid.layout_ordered _) (ha.agree.insert _)⟩

/-- An insertion gets the same answer if the smaller heap has room for it. -/
theorem insert (ha : h.Alike h') (key : Key) (hs : h.size ≠ h.capacity) (hid : id < h.capacity)
    (hle : h.capacity ≤ h'.capacity) : AlikeAfter (h.insert key id) (h'.insert key id) := by
  cases hk : h.lookup id with
  | none => exact ha.insert_new key hid (Nat.lt_of_lt_of_le hid hle) hk
  | some former =>
    have hs' : h'.size ≠ h'.capacity := by
      have := ha.valid.size_le
      have := ha.size_eq
      omega
    have hk' := hk
    rw [ha.lookup_eq] at hk'
    exact ⟨_, h, h', ha.valid.insert_duplicate hs hk, ha.valid'.insert_duplicate hs' hk', ha⟩

theorem update (ha : h.Alike h') (key : Key) (id : Id) :
    AlikeAfter (h.update key id) (h'.update key id) := by
  cases hk : h.lookup id with
  | none =>
    have hk' := hk
    rw [ha.lookup_eq] at hk'
    exact ⟨_, h, h', ha.valid.update_unknown hk, ha.valid'.update_unknown hk', ha⟩
  | some former =>
    obtain ⟨i, h1, hl, hi⟩ := ha.valid.exists_slot hk
    obtain ⟨k, he, hf⟩ := ha.valid.hasLayout.update_ok key h1 hl
    obtain ⟨k', he', hf'⟩ := ha.valid'.hasLayout.update_ok key h1 (ha.size_eq ▸ hl)
    rw [← ha.agree i h1 hl] at he'
    rw [← ha.size_eq] at hf'
    rw [hi] at he he'
    exact ⟨_, k, k', he, he',
      of_layouts hf hf' (Layout.ordered_rekey ha.valid.layout_ordered h1 hl key)
        (ha.agree.rekey key h1 hl)⟩

theorem remove (ha : h.Alike h') (id : Id) : AlikeAfter (h.remove id) (h'.remove id) := by
  cases hk : h.lookup id with
  | none =>
    have hk' := hk
    rw [ha.lookup_eq] at hk'
    exact ⟨_, h, h', ha.valid.remove_unknown hk, ha.valid'.remove_unknown hk', ha⟩
  | some key =>
    obtain ⟨i, h1, hl, hi⟩ := ha.valid.exists_slot hk
    obtain ⟨k, he, hf⟩ := ha.valid.hasLayout.remove_ok h1 hl
    obtain ⟨k', he', hf'⟩ := ha.valid'.hasLayout.remove_ok h1 (ha.size_eq ▸ hl)
    rw [← ha.agree i h1 hl] at he'
    rw [← ha.size_eq] at hf'
    rw [hi] at he he'
    exact ⟨_, k, k', he, he',
      of_layouts hf hf' (Layout.ordered_remove ha.valid.layout_ordered h1 hl)
        (ha.agree.remove h1 hl)⟩

theorem removeMin (ha : h.Alike h') : AlikeAfter h.removeMin h'.removeMin := by
  by_cases h0 : h.size = 0
  · exact ⟨_, h, h', ha.valid.removeMin_empty h0, ha.valid'.removeMin_empty (ha.size_eq ▸ h0), ha⟩
  · have h1 := Nat.one_le_iff_ne_zero.mpr h0
    obtain ⟨k, he, hf⟩ := ha.valid.hasLayout.removeMin_ok h1
    obtain ⟨k', he', hf'⟩ := ha.valid'.hasLayout.removeMin_ok (ha.size_eq ▸ h1)
    rw [← ha.agree 1 (Nat.le_refl 1) h1] at he'
    rw [← ha.size_eq] at hf'
    exact ⟨_, k, k', he, he',
      of_layouts hf hf' (Layout.ordered_remove ha.valid.layout_ordered (Nat.le_refl 1) h1)
        (ha.agree.remove (Nat.le_refl 1) h1)⟩

end Alike

/-- Once their members are dismissed, all valid heaps are alike. -/
theorem Valid.clear_alike (hv : h.Valid) (hv' : h'.Valid) : h.clear.Alike h'.clear :=
  .of_layouts hv.hasLayout.clear hv'.hasLayout.clear (fun _ _ _ => by omega) fun _ _ _ => by omega

namespace Alike

/-- Under a request for which the smaller heap has room, heaps that are alike remain alike. -/
theorem apply (ha : h.Alike h') (m : Mutation)
    (hroom : ∀ key id, m = .insert key id → AlikeAfter (h.insert key id) (h'.insert key id)) :
    AlikeAfter (h.apply m) (h'.apply m) := by
  cases m with
  | insert key id => exact (hroom key id rfl).map _
  | update key id => exact (ha.update key id).map _
  | removeMin => exact ha.removeMin.map _
  | remove id => exact (ha.remove id).map _
  | clear => exact ⟨_, h.clear, h'.clear, rfl, rfl, ha.valid.clear_alike ha.valid'⟩

/-- Heaps of the same capacity that are alike remain alike under every request. -/
theorem apply_of_eq (ha : h.Alike h') (hc : h.capacity = h'.capacity) (m : Mutation) :
    AlikeAfter (h.apply m) (h'.apply m) := by
  refine ha.apply m fun key id _ => ?_
  by_cases hs : h.size = h.capacity
  · have hs' : h'.size = h'.capacity := by rw [← ha.size_eq, hs, hc]
    exact ⟨_, h, h', Valid.insert_full hs, hc ▸ Valid.insert_full hs', ha⟩
  · rcases Nat.lt_or_ge id h.capacity with hid | hid
    · exact ha.insert key hs hid (Nat.le_of_eq hc)
    · have hs' : h'.size ≠ h'.capacity := by rwa [← ha.size_eq, ← hc]
      exact ⟨_, h, h', Valid.insert_outOfRange hs hid,
        hc ▸ Valid.insert_outOfRange hs' (hc ▸ hid), ha⟩

/-- Heaps that are alike part at most where the smaller one has no room. -/
theorem apply_of_le (ha : h.Alike h') (hle : h.capacity ≤ h'.capacity) (m : Mutation) :
    (∃ reason, h.apply m = .ok (.error reason, h) ∧ reason.Cramped) ∨
      AlikeAfter (h.apply m) (h'.apply m) := by
  by_cases hroom : ∀ key id, m = .insert key id → h.size ≠ h.capacity ∧ id < h.capacity
  · refine .inr (ha.apply m fun key id hm => ?_)
    obtain ⟨hs, hid⟩ := hroom key id hm
    exact ha.insert key hs hid hle
  · simp only [not_forall, exists_prop] at hroom
    obtain ⟨key, id, rfl, hfull⟩ := hroom
    left
    by_cases hs : h.size = h.capacity
    · exact ⟨.full h.capacity, by rw [Heap.apply, Valid.insert_full hs]; rfl, trivial⟩
    · have hid := Nat.not_lt.mp fun hlt => hfull ⟨hs, hlt⟩
      exact ⟨.outOfRange id h.capacity, by rw [Heap.apply, Valid.insert_outOfRange hs hid]; rfl,
        trivial⟩

end Alike

end Heap

end AddressableHeap
