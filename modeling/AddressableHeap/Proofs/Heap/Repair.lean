import AddressableHeap.Proofs.Heap.Audit
import AddressableHeap.Proofs.Layout.Return

/-!
# One entry out of order

If one key of a valid heap is overwritten, by whatever key, only the entry under it can be out of order,
and with its parent or with its children but not with both. So it is brought to its level by a walk
towards the leaves or by one towards the root, and whichever of them is not needed writes nothing.
Removal, which does not know the way, tries the one and then the other; a change of the key knows it
beforehand. Both leave the same heap.
-/

namespace AddressableHeap

namespace Layout

variable {f : Layout} {last slot : Nat}

/-- A settled entry lies in the slot that comes with the layout. -/
theorem settle_apply_fst (f : Layout) (last slot : Nat) :
    (f.settle last slot).2 (f.settle last slot).1 = f slot := by
  have hsink : Lowered f last slot (f.sink last slot).1 (f.sink last slot).2 := Lowered.here.sink
  unfold settle
  split
  · rename_i hstayed
    have hrise : Lifted (f.sink last slot).2 slot _ _ := Lifted.here.rise
    rw [hrise.apply_hole, sink_eq_self hstayed]
  · exact hsink.apply_hole

theorem settle_bounds (h1 : 1 ≤ slot) (hl : slot ≤ last) :
    1 ≤ (f.settle last slot).1 ∧ (f.settle last slot).1 ≤ last := by
  unfold settle
  split
  · have hrise : Lifted (f.sink last slot).2 slot _ _ := Lifted.here.rise
    have hb := hrise.bounds h1
    omega
  · have hb := sink_bounds (f := f) hl
    omega

end Layout

namespace Heap

variable {h : Heap} {slot reached : Slot} {key : Key}

namespace HasLayout

variable {h' : Heap} {capacity last : Nat} {f : Layout}

/-- A walk towards the leaves ends where it starts exactly if it writes nothing. -/
theorem siftDown_eq_self_iff (hf : h.HasLayout capacity last f) (h1 : 1 ≤ slot.toNat)
    (hl : slot.toNat ≤ last) (he : h.siftDown slot = .ok (reached, h')) :
    reached = slot ↔ h' = h := by
  have hcap := hf.last_le
  have hadr := hf.addressable
  have hb := Layout.sink_bounds (f := f) hl
  obtain ⟨h₁, he₁, hf₁⟩ := hf.siftDown h1 hl
  rw [he₁, Except.ok.injEq, Prod.mk.injEq] at he
  obtain ⟨rfl, rfl⟩ := he
  rw [← UInt64.toNat_inj, hf.toNat_ofNat_slot hb.2]
  constructor
  · intro hstayed
    have hidle := hf.siftDown_of_below h1 hl ((Layout.sink_fst_eq_iff h1).mp hstayed)
    rw [he₁, Except.ok.injEq, Prod.mk.injEq] at hidle
    exact hidle.2
  · -- no other slot holds the entry before the walk, and the slot where it ends holds it afterwards
    rintro rfl
    have hg : Layout.Lowered f last slot.toNat _ _ := Layout.Lowered.here.sink
    have hsame : (f.sink last slot.toNat).2 = f := hf₁.entryAt_eq.symm.trans hf.entryAt_eq
    have hentry := hg.apply_hole
    rw [hsame] at hentry
    exact hf.id_inj (by omega) hb.2 h1 hl (congrArg Entry.id hentry)

end HasLayout

/-- The repaired heap is valid and has the members of the damaged one, with `id` in slot `stop`, and
nothing was written behind the last slot. -/
structure Repairs (damaged repaired : Heap) (id : Id) (stop : Slot) : Prop where
  valid : repaired.Valid
  capacity_eq : repaired.capacity = damaged.capacity
  size_eq : repaired.size = damaged.size
  members : repaired.toList.Perm damaged.toList
  beyond : ∀ i, damaged.size < i → repaired.entryAt i = damaged.entryAt i
  found : repaired.locate id = .ok (some stop)

theorem HasLayout.repairs_settle {capacity last : Nat} {f : Layout} (hf : h.HasLayout capacity last f)
    (ho : f.OrderedBut last slot.toNat) (h1 : 1 ≤ slot.toNat) (hl : slot.toNat ≤ last) :
    ∃ stop repaired, h.settle slot = .ok (stop, repaired) ∧
      h.Repairs repaired (f slot.toNat).id stop := by
  obtain ⟨repaired, he, hf'⟩ := hf.settle h1 hl
  have hb := Layout.settle_bounds (f := f) h1 hl
  refine ⟨_, repaired, he, hf'.valid (Layout.ordered_settle ho h1 hl), ?capacity, ?size, ?members,
    ?beyond, ?found⟩
  case capacity => rw [hf'.capacity_eq, hf.capacity_eq]
  case size => rw [hf'.size_eq, hf.size_eq]
  case members =>
    rw [hf'.toList_eq, hf.toList_eq]
    exact Layout.members_settle_perm h1 hl
  case beyond =>
    intro i hi
    rw [hf.size_eq] at hi
    rw [hf'.entryAt_eq, hf.entryAt_eq]
    exact Layout.settle_frame h1 hl (.inr hi)
  case found =>
    have hfound := hf'.locate_some hb.1 hb.2
    rwa [Layout.settle_apply_fst] at hfound

/-- Overwrite the key in an occupied slot of a valid heap, by whatever key, walk towards the leaves, and
if that leads nowhere, towards the root. The heap is valid again, with the same members and with the
entry found where the last walk says. The walk towards the leaves leads nowhere exactly if it writes
nothing, and one of the two walks has nothing to write. Under a lower key than before the walk towards
the root would have done alone, and under a higher one the walk towards the leaves. -/
theorem Valid.repairs_setKey (hv : h.Valid) (h1 : 1 ≤ slot.toNat) (hl : slot.toNat ≤ h.size)
    (key : Key) :
    ∃ damaged lowered repaired : Heap, ∃ reached stop : Slot,
      h.setKey slot key = .ok damaged ∧ damaged.entryAt = Layout.setKey h.entryAt slot.toNat key ∧
      damaged.siftDown slot = .ok (reached, lowered) ∧
      (if reached = slot then lowered.siftUp slot else .ok (reached, lowered)) = .ok (stop, repaired) ∧
      damaged.settle slot = .ok (stop, repaired) ∧
      damaged.Repairs repaired (h.entryAt slot.toNat).id stop ∧
      (reached = slot ↔ lowered = damaged) ∧ (lowered = damaged ∨ repaired = lowered) ∧
      (damaged.siftDown slot = .ok (slot, damaged) ∨ damaged.siftUp slot = .ok (slot, damaged)) ∧
      (key < (h.entryAt slot.toNat).key → damaged.siftUp slot = .ok (stop, repaired)) ∧
      ((h.entryAt slot.toNat).key < key → damaged.siftDown slot = .ok (stop, repaired)) := by
  have ho := hv.layout_ordered
  have hb : (Layout.setKey h.entryAt slot.toNat key).OrderedBut h.size slot.toNat := ho.put _ _
  obtain ⟨damaged, hset, hf⟩ := hv.hasLayout.setKey key h1 hl
  obtain ⟨lowered, hdown, -⟩ := hf.siftDown h1 hl
  generalize UInt64.ofNat (Layout.sink _ h.size slot.toNat).1 = reached at hdown
  obtain ⟨stop, repaired, hsettle, hrepairs⟩ := hf.repairs_settle hb h1 hl
  have hwalks := HasLayout.settle_of_siftDown hdown
  rw [hsettle] at hwalks
  have hidle := hf.siftDown_eq_self_iff h1 hl hdown
  have hid : (Layout.setKey h.entryAt slot.toNat key slot.toNat).id = (h.entryAt slot.toNat).id := by
    rw [Layout.setKey, Layout.put_same]
  rw [hid] at hrepairs
  refine ⟨damaged, lowered, repaired, reached, stop, hset, hf.entryAt_eq, hdown, hwalks.symm, hsettle,
    hrepairs, hidle, ?once, ?oneWay, ?lower, ?higher⟩
  case once =>
    rw [← hidle]
    by_cases hstayed : reached = slot
    · exact .inl hstayed
    · rw [if_neg hstayed, Except.ok.injEq, Prod.mk.injEq] at hwalks
      exact .inr hwalks.2
  case oneWay =>
    by_cases hbelow : (Layout.setKey h.entryAt slot.toNat key).Below h.size slot.toNat
    · exact .inl (hf.siftDown_of_below h1 hl hbelow)
    · exact .inr (hf.siftUp_of_above h1 hl (hb.above hbelow))
  case lower =>
    intro hlt
    rw [← hf.settle_of_below h1 hl (ho.below_setKey (Int64.le_of_lt hlt)), hsettle]
  case higher =>
    intro hgt
    rw [← hf.settle_of_above h1 hl (ho.above_setKey hl (Int64.le_of_lt hgt)), hsettle]

/-- An element that this heap is not for lies behind its last slot, and its index names a slot that it
does not have. The entry in slot 2 gets the key of the sentinel, or a key above those of its children. -/
theorem Valid.repairs_setKey_of_garbage :
    ∃ h : Heap, h.Valid ∧ (h.entryAt 6).id = 18446744073709551615 ∧ h.index.find? 5 = some 99 ∧
      h.entryAt 2 = ⟨10, 1⟩ ∧ Key.least < 10 ∧
      (∃ damaged repaired stop, h.setKey 2 Key.least = .ok damaged ∧
        damaged.settle 2 = .ok (stop, repaired) ∧ damaged.siftUp 2 = .ok (stop, repaired) ∧
        damaged.Repairs repaired 1 stop) ∧
      (10 : Key) < 100 ∧
      ∃ damaged repaired stop, h.setKey 2 100 = .ok damaged ∧
        damaged.settle 2 = .ok (stop, repaired) ∧ damaged.siftDown 2 = .ok (stop, repaired) ∧
        damaged.Repairs repaired 1 stop := by
  obtain ⟨h, hv, hsize, hentry, hbehind, hnote⟩ : ∃ h : Heap, h.Valid ∧ h.size = 5 ∧
      h.entryAt 2 = ⟨10, 1⟩ ∧ (h.entryAt 6).id = 18446744073709551615 ∧
      h.index.find? 5 = some 99 := by
    have hfits : (⟨#[.sentinel, ⟨1, 0⟩, ⟨10, 1⟩, ⟨2, 2⟩, ⟨11, 3⟩, ⟨12, 4⟩, ⟨-4, 18446744073709551615⟩],
        ⟨#[1, 2, 3, 4, 5, 99]⟩, 5⟩ : Heap).Fits := ⟨by decide, by decide, by decide⟩
    exact ⟨_, hfits.defect?_eq_none_iff.mp (by cbv), by decide, by decide, by decide, by decide⟩
  have hbound : (2 : Slot).toNat ≤ h.size := by
    rw [hsize]
    decide
  have hslot : h.entryAt (2 : Slot).toNat = ⟨10, 1⟩ := hentry
  obtain ⟨damaged, -, repaired, -, stop, hset, -, -, -, hsettle, hrepairs, -, -, -, hlower, -⟩ :=
    hv.repairs_setKey (by decide) hbound Key.least
  obtain ⟨damaged₁, -, repaired₁, -, stop₁, hset₁, -, -, -, hsettle₁, hrepairs₁, -, -, -, -, hhigher⟩ :=
    hv.repairs_setKey (by decide) hbound 100
  rw [hslot] at hlower hhigher hrepairs hrepairs₁
  exact ⟨h, hv, hbehind, hnote, hentry, by decide,
    ⟨damaged, repaired, stop, hset, hsettle, hlower (by decide), hrepairs⟩, by decide, damaged₁,
    repaired₁, stop₁, hset₁, hsettle₁, hhigher (by decide), hrepairs₁⟩

end Heap

end AddressableHeap
