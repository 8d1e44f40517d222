import AddressableHeap.Proofs.Observation

/-!
# What the examination of a heap decides

The examination of a heap whose parts fit together goes through its occupied slots and raises no fault,
whatever the slots and the index contain, and it reports nothing exactly if the heap is valid. What lies
behind the last slot, and what the index notes about elements that are not members, is not looked at:
a heap that passes with whatever it has there passes again after every request.
-/

namespace AddressableHeap

namespace Heap

variable {h : Heap} {slots : List Slot} {i : Nat}

/-- The entry in a slot is noted there, and its key is not below that of its parent. -/
structure SoundAt (h : Heap) (slot : Nat) : Prop where
  placed : h.index.find? (h.entryAt slot).id = some (UInt64.ofNat slot)
  ordered : 2 ≤ slot → (h.entryAt (slot / 2)).key ≤ (h.entryAt slot).key

/-- A note that is not 0 is found as it stands. -/
theorem find?_eq_some_iff {index : SlotIndex} {id : Id} {slot : Slot} (hs : slot ≠ 0) :
    index.find? id = some slot ↔ index.slots[id]? = some slot := by
  rw [SlotIndex.find?, Option.filter_eq_some_iff]
  exact and_iff_left (by simpa using hs)

namespace Fits

theorem ofNat_slot_ne_zero (hf : h.Fits) (h1 : 1 ≤ i) (hl : i ≤ h.size) : UInt64.ofNat i ≠ 0 := by
  rw [Ne, ← UInt64.toNat_inj, hf.toNat_ofNat_slot hl, UInt64.toNat_zero]
  omega

/-- Where the parts of a heap fit together, it is valid if its sentinel and all its occupied slots are
as they should be. -/
theorem valid_iff (hf : h.Fits) :
    h.Valid ↔ (h.entryAt 0).key = Key.least ∧ ∀ slot, 1 ≤ slot → slot ≤ h.size → h.SoundAt slot := by
  constructor
  · intro hv
    exact ⟨hv.sentinel, fun slot h1 hl => ⟨hv.placed slot h1 hl, fun h2 => hv.ordered slot h2 hl⟩⟩
  · rintro ⟨hbottom, hsound⟩
    refine ⟨hf.addressable, hf.entries_size, hf.size_le, hbottom, ?inRange,
      fun slot h1 hl => (hsound slot h1 hl).placed,
      fun slot h2 hl => (hsound slot (by omega) hl).ordered h2⟩
    -- the index has notes about the elements below the capacity only
    case inRange =>
      intro slot h1 hl
      have hnote := (hsound slot h1 hl).placed
      rw [find?_eq_some_iff (hf.ofNat_slot_ne_zero h1 hl)] at hnote
      exact (Array.getElem?_eq_some_iff.mp hnote).1

/-! ## Slot by slot -/

theorem exists_defectAt? (hf : h.Fits) (h1 : 1 ≤ i) (hl : i ≤ h.size) :
    ∃ report, h.defectAt? (UInt64.ofNat i) = .ok report ∧ (report = none ↔ h.SoundAt i) := by
  have hcap := hf.size_le
  have hi := hf.toNat_ofNat_slot hl
  have hentry := hf.get_eq (show i ≤ h.capacity by omega)
  have habove := hf.get_eq (show i / 2 ≤ h.capacity by omega)
  have hparent : (Tree.parent (UInt64.ofNat i)).toNat = i / 2 := by rw [Tree.toNat_parent, hi]
  unfold defectAt?
  rw [hi, hentry, Checked.ok_bind]
  by_cases hplaced : h.index.find? (h.entryAt i).id = some (UInt64.ofNat i)
  · simp only [hplaced, Option.getD_some, ne_eq, not_true_eq_false, if_false, hparent, habove,
      Checked.ok_bind]
    by_cases hbelow : UInt64.ofNat i > Tree.root ∧ (h.entryAt i).key < (h.entryAt (i / 2)).key
    · rw [if_pos hbelow]
      have h2 : 2 ≤ i := by
        have hroot := UInt64.lt_iff_toNat_lt.mp hbelow.1
        rwa [hi] at hroot
      refine ⟨_, rfl, iff_of_false (Option.some_ne_none _) fun hsound => ?_⟩
      exact Int64.not_lt.mpr (hsound.ordered h2) hbelow.2
    · rw [if_neg hbelow]
      refine ⟨none, rfl, iff_of_true rfl ⟨hplaced, fun h2 => Int64.not_lt.mp fun hlt => ?_⟩⟩
      have hroot : UInt64.ofNat i > Tree.root := by
        rw [gt_iff_lt, UInt64.lt_iff_toNat_lt, hi]
        exact h2
      exact hbelow ⟨hroot, hlt⟩
  · have hnote : (h.index.find? (h.entryAt i).id).getD 0 ≠ UInt64.ofNat i := by
      intro he
      cases hfound : h.index.find? (h.entryAt i).id with
      | none =>
        rw [hfound] at he
        exact hf.ofNat_slot_ne_zero h1 hl he.symm
      | some slot =>
        rw [hfound] at he
        exact hplaced (hfound.trans (congrArg some he))
    rw [if_pos hnote]
    exact ⟨_, rfl, iff_of_false (Option.some_ne_none _) fun hsound => hplaced hsound.placed⟩

end Fits

/-- An examination that has a report of every slot reports nothing if it has nothing to report of any. -/
theorem exists_firstDefect? (hslots : ∀ slot ∈ slots, ∃ report, h.defectAt? slot = .ok report) :
    ∃ report, h.firstDefect? slots = .ok report ∧
      (report = none ↔ ∀ slot ∈ slots, h.defectAt? slot = .ok none) := by
  induction slots with
  | nil => exact ⟨none, rfl, iff_of_true rfl fun slot hmem => absurd hmem List.not_mem_nil⟩
  | cons slot slots ih =>
    obtain ⟨first, hfirst⟩ := hslots slot (List.mem_cons_self ..)
    obtain ⟨rest, hrest, hiff⟩ := ih fun slot hmem => hslots slot (List.mem_cons_of_mem _ hmem)
    unfold firstDefect?
    rw [hfirst, Checked.ok_bind, List.forall_mem_cons, hfirst]
    cases first with
    | some defect => exact ⟨some defect, rfl, iff_of_false (Option.some_ne_none _) (by simp)⟩
    | none => exact ⟨rest, hrest, hiff.trans (and_iff_right rfl).symm⟩

/-- The examination of a heap whose parts fit together ends, and reports nothing exactly if the heap is
valid. -/
theorem Fits.exists_defect? (hf : h.Fits) :
    ∃ report, h.defect? = .ok report ∧ (report = none ↔ h.Valid) := by
  have hdefectAt : ∀ slot ∈ h.occupied, ∃ report, h.defectAt? slot = .ok report := by
    intro slot hslot
    obtain ⟨i, hi, rfl⟩ := List.mem_map.mp hslot
    rw [List.mem_range'_1] at hi
    obtain ⟨report, hreport, -⟩ := hf.exists_defectAt? hi.1 (by omega)
    exact ⟨report, hreport⟩
  obtain ⟨report, hreport, hiff⟩ := exists_firstDefect? hdefectAt
  have hsound : (∀ slot ∈ h.occupied, h.defectAt? slot = .ok none) ↔
      ∀ i, 1 ≤ i → i ≤ h.size → h.SoundAt i := by
    simp only [occupied, List.forall_mem_map, List.mem_range'_1]
    refine forall_congr' fun i => ?_
    rw [and_imp, Nat.add_comm 1 h.size]
    refine forall_congr' fun h1 => ?_
    rw [Nat.lt_succ_iff]
    refine forall_congr' fun hl => ?_
    obtain ⟨report, hreport, hiff⟩ := hf.exists_defectAt? h1 hl
    rw [hreport, Except.ok.injEq, hiff]
  rw [hf.valid_iff]
  unfold defect?
  rw [hf.get_eq (Nat.zero_le _), Checked.ok_bind]
  by_cases hbottom : (h.entryAt 0).key = Key.least
  · rw [if_neg (not_not_intro hbottom), hreport]
    exact ⟨report, rfl, by rw [hiff, hsound, and_iff_right hbottom]⟩
  · rw [if_pos hbottom]
    exact ⟨_, rfl, iff_of_false (Option.some_ne_none _) fun hv => hbottom hv.1⟩

theorem Fits.defect?_eq_none_iff (hf : h.Fits) : h.defect? = .ok none ↔ h.Valid := by
  obtain ⟨report, hreport, hiff⟩ := hf.exists_defect?
  rw [hreport, Except.ok.injEq, hiff]

/-- The examination of a valid heap reports no defect. -/
theorem Valid.defect?_eq_none (hv : h.Valid) : h.defect? = .ok none :=
  hv.fits.defect?_eq_none_iff.mpr hv

/-! ## Examined heaps -/

/-- The examination of a heap whose parts fit together, and otherwise contain what they may, always
reports, and it reports nothing exactly if the sentinel has the least key and every occupied slot
holds an element of the heap that the index notes there, under a key that is not below that of its
parent. A heap of which it reports nothing holds no element twice, has a least key at the root, and
passes the examination again after every request. -/
theorem Fits.examination_decides (hf : h.Fits) :
    (∃ report, h.defect? = .ok report ∧ (report = none ↔
      (h.entryAt 0).key = Key.least ∧ ∀ slot, 1 ≤ slot → slot ≤ h.size →
        (h.entryAt slot).id < h.capacity ∧
        h.index.slots[(h.entryAt slot).id]? = some (UInt64.ofNat slot) ∧
        (1 < slot → (h.entryAt (slot / 2)).key ≤ (h.entryAt slot).key))) ∧
    (h.defect? = .ok none →
      (∀ i j, 1 ≤ i → i < j → j ≤ h.size → (h.entryAt i).id ≠ (h.entryAt j).id) ∧
      (∀ slot, 1 ≤ slot → slot ≤ h.size → (h.entryAt 1).key ≤ (h.entryAt slot).key) ∧
      ∀ {σ : Type} (watch : Observer σ) (seen : σ) (m : Mutation),
        ∃ reply w', watch.perform m ⟨h, seen⟩ = .ok (reply, w') ∧
          w'.heap.Fits ∧ w'.heap.capacity = h.capacity ∧ w'.heap.defect? = .ok none) := by
  constructor
  · obtain ⟨report, hreport, hiff⟩ := hf.exists_defect?
    refine ⟨report, hreport, hiff.trans ⟨fun hv => ?_, fun hcontents => ?_⟩⟩
    · refine ⟨hv.sentinel, fun slot h1 hl => ⟨hv.inRange slot h1 hl, ?_, fun h2 => hv.ordered slot h2 hl⟩⟩
      exact (find?_eq_some_iff (hf.ofNat_slot_ne_zero h1 hl)).mp (hv.placed slot h1 hl)
    · obtain ⟨hbottom, hslots⟩ := hcontents
      refine hf.valid_iff.mpr ⟨hbottom, fun slot h1 hl => ?_⟩
      obtain ⟨-, hnote, hkey⟩ := hslots slot h1 hl
      exact ⟨(find?_eq_some_iff (hf.ofNat_slot_ne_zero h1 hl)).mpr hnote, hkey⟩
  · intro hnone
    have hv := hf.defect?_eq_none_iff.mp hnone
    refine ⟨fun i j h1 hlt hl he => ?_, hv.layout_ordered.root_le, fun watch seen m => ?_⟩
    · have hsame := hv.hasLayout.id_inj h1 (by omega) (by omega) hl he
      omega
    · obtain ⟨reply, w', he, -, hv', hcap⟩ := watch.perform_total (w := ⟨h, seen⟩) hv m
      exact ⟨reply, w', he, hv'.fits, hcap, hv'.defect?_eq_none⟩

/-- The first heap was never built by requests: behind its last slot lies an element that it is not for,
and its index names a slot that it does not have. It passes, and an insertion over these leftovers leaves
a heap that passes. In the second heap two elements are noted in one slot. -/
theorem Fits.examination_decides_of_garbage :
    ∃ h h' : Heap, h.Fits ∧ (h.entryAt 3).id = 18446744073709551615 ∧ h.index.find? 2 = some 99 ∧
      h.defect? = .ok none ∧
      (∃ reply w', Observer.silent.perform (.insert 1 2) ⟨h, ()⟩ = .ok (reply, w') ∧
        w'.heap.Fits ∧ w'.heap.capacity = 4 ∧ w'.heap.defect? = .ok none) ∧
      h'.Fits ∧ ∃ report, h'.defect? = .ok report ∧ report ≠ none := by
  have hfits : (⟨#[⟨Key.least, 9⟩, ⟨3, 1⟩, ⟨5, 0⟩, ⟨-4, 18446744073709551615⟩, .blank],
      ⟨#[2, 1, 99, 1]⟩, 2⟩ : Heap).Fits := ⟨by decide, by decide, by decide⟩
  have hfits' : (⟨#[.sentinel, ⟨3, 1⟩, ⟨5, 0⟩], ⟨#[2, 2]⟩, 2⟩ : Heap).Fits :=
    ⟨by decide, by decide, by decide⟩
  have hpasses : Heap.defect? ⟨#[⟨Key.least, 9⟩, ⟨3, 1⟩, ⟨5, 0⟩, ⟨-4, 18446744073709551615⟩, .blank],
      ⟨#[2, 1, 99, 1]⟩, 2⟩ = .ok none := by cbv
  obtain ⟨-, hkept⟩ := hfits.examination_decides
  obtain ⟨-, -, hagain⟩ := hkept hpasses
  obtain ⟨⟨report, hreport, hiff⟩, -⟩ := hfits'.examination_decides
  refine ⟨_, _, hfits, by decide, by decide, hpasses, hagain .silent () (.insert 1 2), hfits', report,
    hreport, ?_⟩
  intro hnone
  obtain ⟨-, hslots⟩ := hiff.mp hnone
  obtain ⟨-, hnote, -⟩ := hslots 1 (by decide) (by decide)
  exact absurd hnote (by decide)

end Heap

end AddressableHeap
