import AddressableHeap.Proofs.Calls
import AddressableHeap.Proofs.Evolution

/-!
# Two ways to the least member

The least member can be removed by asking for it, or by naming it. A heap that it is named to finds it
through the index, and lets the entry that takes over the root look towards the leaves and then
towards the parent; a heap that is asked for it does neither. There is nothing above the root but the
sentinel, whose key no key is below, so both ways end in the same heap, down to what lies behind the
last slot and what is noted about elements that have left.
-/

namespace AddressableHeap

namespace Heap

variable {h : Heap} {capacity last : Nat} {f : Layout}

namespace HasLayout

/-- At the root there is one way to go. -/
theorem settle_root (hf : h.HasLayout capacity last f) (h1 : 1 ≤ last) :
    h.settle Tree.root = h.siftDown Tree.root :=
  hf.settle_of_above (Nat.le_refl 1) h1 fun h2 => absurd h2 (by decide)

/-- The element at the root is removed in the same way whether it is named or not. -/
theorem remove_root (hf : h.HasLayout capacity last f) (h1 : 1 ≤ last) :
    h.remove (f 1).id = h.removeMin := by
  have hne : ¬ h.isEmpty = true := by
    rw [hf.isEmpty_iff]
    omega
  have hloc : h.locate (f 1).id = .ok (some Tree.root) := hf.locate_some (Nat.le_refl 1) h1
  obtain ⟨h₁, he₁, hf₁⟩ := hf.vacate (show 1 ≤ Tree.root.toNat from Nat.le_refl 1) h1
  have hzero : h₁.last = 0 ↔ ¬ Tree.root ≤ h₁.last := by
    rw [← UInt64.toNat_inj, UInt64.le_iff_toNat_le, UInt64.toNat_zero, Tree.toNat_root]
    omega
  unfold remove removeMin
  rw [hloc, if_neg hne]
  simp only [Checked.ok_bind, he₁]
  by_cases hlast : Tree.root ≤ h₁.last
  · have hleft : 1 ≤ last - 1 := by
      rwa [UInt64.le_iff_toNat_le, hf₁.toNat_last] at hlast
    rw [if_pos hlast, if_neg (mt hzero.mp (not_not_intro hlast)), hf₁.settle_root hleft]
  · rw [if_neg hlast, if_pos (hzero.mpr hlast)]

end HasLayout

/-- A heap that is not empty removes its least member in the same way whether it is asked for it or
told its name. The heaps that are left are the same in every slot, occupied or not, and in every note
of the index, and an observer is told the same, but for the name of the request. -/
theorem Reachable.remove_least (hr : h.Reachable) (hne : h.isEmpty = false) :
    ∃ least h' former members, h.peekMin = .ok (some least) ∧ h.snapshot = .ok former ∧
      h'.snapshot = .ok members ∧ h.removeMin = .ok (.ok least.id, h') ∧
      h.remove least.id = .ok (.ok least.id, h') ∧
      ∀ {σ : Type} (watch : Observer σ) (seen : σ), ∀ m ∈ [Mutation.removeMin, .remove least.id],
        watch.perform m ⟨h, seen⟩ = .ok (.ok (some least.id),
          ⟨h', watch.feed [.callback ⟨.before, m, former⟩, .callback ⟨.after, m, members⟩] seen⟩) := by
  have hv := hr.valid
  have h1 : 1 ≤ h.size := by
    rw [Nat.one_le_iff_ne_zero, Ne, ← hv.isEmpty_iff, hne]
    exact Bool.false_ne_true
  obtain ⟨h', hremoveMin, hb⟩ := hv.removeMin_ok h1
  have hremove := (hv.hasLayout.remove_root h1).trans hremoveMin
  refine ⟨h.entryAt 1, h', h.toList, h'.toList, (hv.peekMin_eq h1).1, hv.snapshot_eq,
    hb.valid.snapshot_eq, hremoveMin, hremove, ?_⟩
  intro σ watch seen m hm
  have happly : h.apply m = .ok (.ok (some (h.entryAt 1).id), h') := by
    simp only [List.mem_cons, List.not_mem_nil, or_false] at hm
    rcases hm with rfl | rfl
    · rw [apply, hremoveMin]
      rfl
    · rw [apply, hremove]
      rfl
  exact watch.around_eq_of_ok (w := ⟨h, seen⟩) hv happly hb.valid

/-- Element 0 has left this heap, and the keys of all its members are that of the sentinel. -/
theorem Reachable.remove_least_of_least_keys :
    ∃ h : Heap, h.Reachable ∧ h.isEmpty = false ∧ h.index.find? 0 = some 3 ∧
      h.snapshot = .ok [⟨Key.least, 2⟩, ⟨Key.least, 1⟩] ∧
      ∃ h', h.removeMin = .ok (.ok 2, h') ∧ h.remove 2 = .ok (.ok 2, h') := by
  have hrun : Observer.silent.performAll
      [.insert Key.least 0, .insert Key.least 1, .insert Key.least 2, .removeMin] ⟨.empty 3, ()⟩
      = .ok ([.ok none, .ok none, .ok none, .ok (some 0)],
        ⟨⟨#[.sentinel, ⟨Key.least, 2⟩, ⟨Key.least, 1⟩, ⟨Key.least, 0⟩], ⟨#[3, 2, 1]⟩, 2⟩, ()⟩) := by
    cbv
  have hr := (Reachable.fresh 3 (by decide)).performAll (w := ⟨.empty 3, ()⟩) hrun
  obtain ⟨least, h', former, members, hpeek, -, -, hremoveMin, hremove, -⟩ :=
    hr.remove_least (by decide)
  obtain rfl : ⟨Key.least, 2⟩ = least := Option.some.inj (Except.ok.inj hpeek)
  exact ⟨_, hr, by decide, by decide, by cbv, h', hremoveMin, hremove⟩

end Heap

end AddressableHeap
