import AddressableHeap.Proofs.Evolution

/-!
# Finding a member and scanning for it

A heap finds an element by a note in its index and a look at the slot that the note names. The notes
of elements that have left are never struck out, and the slots they name may have gone to others.
Still the heap answers as one would who goes through the list of its members: every occupied slot is
noted, and a note that names an occupied slot is confirmed there or not at all.
-/

namespace AddressableHeap.Heap

variable {h : Heap} {id : Id} {slot : Slot} {i : Nat}

namespace Valid

/-- The members are listed from the root on. -/
theorem getElem?_toList (hv : h.Valid) (hi : i < h.size) :
    h.toList[i]? = some (h.entryAt (i + 1)) := by
  rw [hv.hasLayout.toList_eq, Layout.members, List.getElem?_map, List.getElem?_range' hi,
    Option.map_some, Nat.one_mul, Nat.add_comm 1 i]

/-- An element is found in a slot exactly if that slot is occupied, and by this element. -/
theorem locate_eq_some_iff (hv : h.Valid) :
    h.locate id = .ok (some slot) ↔
      1 ≤ slot.toNat ∧ slot.toNat ≤ h.size ∧ (h.entryAt slot.toNat).id = id := by
  constructor
  · intro hloc
    cases hk : h.lookup id with
    | none =>
      rw [hv.locate_eq_none hk] at hloc
      cases hloc
    | some key =>
      obtain ⟨i, h1, hl, he⟩ := hv.exists_slot hk
      have hfound := hv.hasLayout.locate_some h1 hl
      rw [he] at hfound
      rw [hfound] at hloc
      obtain rfl := Option.some.inj (Except.ok.inj hloc)
      rw [hv.fits.toNat_ofNat_slot hl]
      exact ⟨h1, hl, by rw [he]⟩
  · rintro ⟨h1, hl, rfl⟩
    rw [hv.hasLayout.locate_some h1 hl, UInt64.ofNat_toNat]

theorem lookup_isSome_iff (hv : h.Valid) :
    (h.lookup id).isSome = true ↔ id ∈ h.toList.map (·.id) := by
  rw [Option.isSome_iff_exists, List.mem_map]
  constructor
  · rintro ⟨key, hk⟩
    exact ⟨⟨key, id⟩, hv.lookup_eq_some_iff.mp hk, rfl⟩
  · rintro ⟨e, he, rfl⟩
    exact ⟨e.key, hv.lookup_of_mem he⟩

end Valid

/-- The heap answers questions about an element as one would who goes through `members`. -/
structure AgreesWith (h : Heap) (members : List Entry) : Prop where
  /-- An element is in the slot that says how far down the list it stands. -/
  locate : ∀ id, ∃ slot?, h.locate id = .ok slot? ∧ ∀ slot : Slot, slot? = some slot ↔
    1 ≤ slot.toNat ∧ slot.toNat ≤ h.size ∧ (members[slot.toNat - 1]?).map (·.id) = some id
  /-- An element has the key that it is listed under. -/
  keyOf : ∀ id, ∃ key?, h.keyOf id = .ok key? ∧ ∀ key, key? = some key ↔ ⟨key, id⟩ ∈ members
  /-- An element is a member if it is listed. -/
  contains : ∀ id, ∃ found, h.contains id = .ok found ∧ (found = true ↔ id ∈ members.map (·.id))

theorem Valid.agreesWith (hv : h.Valid) : h.AgreesWith h.toList where
  locate := by
    intro id
    obtain ⟨slot?, hloc, -⟩ := hv.locate_total id
    refine ⟨slot?, hloc, ?_⟩
    intro slot
    have hslot : h.locate id = .ok (some slot) ↔ _ := hv.locate_eq_some_iff
    rw [hloc, Except.ok.injEq] at hslot
    rw [hslot]
    refine and_congr_right fun h1 => and_congr_right fun hl => ?_
    rw [hv.getElem?_toList (by omega), Nat.sub_add_cancel h1, Option.map_some, Option.some_inj]
  keyOf := fun id => ⟨_, hv.keyOf_eq id, fun _ => hv.lookup_eq_some_iff⟩
  contains := fun id => ⟨_, hv.contains_eq id, hv.lookup_isSome_iff⟩

/-- A reachable heap lists no element twice, and finds each element, of whatever number, where a
scan of the list finds it. -/
theorem Reachable.agreesWith_snapshot (hr : h.Reachable) :
    ∃ members, h.snapshot = .ok members ∧ (members.map (·.id)).Nodup ∧ h.AgreesWith members :=
  ⟨h.toList, hr.valid.snapshot_eq, hr.valid.ids_nodup, hr.valid.agreesWith⟩

/-- Element 1 has left this heap. Its note names slot 3, which lies behind the last one and still
holds it. -/
theorem Reachable.agreesWith_snapshot_of_leftovers :
    ∃ h : Heap, h.Reachable ∧ h.index.find? 1 = some 3 ∧ (h.entryAt 3).id = 1 ∧
      h.snapshot = .ok [⟨4, 2⟩, ⟨5, 0⟩] ∧
      ∃ members, h.snapshot = .ok members ∧ (members.map (·.id)).Nodup ∧ h.AgreesWith members :=
  ⟨_, reachable_leftovers, by cbv, by cbv, by cbv, reachable_leftovers.agreesWith_snapshot⟩

end AddressableHeap.Heap
