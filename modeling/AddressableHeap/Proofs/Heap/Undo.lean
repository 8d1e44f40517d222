import AddressableHeap.Proofs.Faultless
import AddressableHeap.Proofs.Layout.Return
import AddressableHeap.Proofs.Lockstep

/-!
# Requests that are taken back

An insertion is taken back by removing the element, and a change of a key by changing it back. That the
heap then has its former members under their former keys is a matter of finite maps. That they are in
their former slots is not, and it holds of heaps in which no key is held twice.
-/

namespace AddressableHeap

variable {σ : Type} {watch : Observer σ} {w w₁ : Watched σ} {members : List Entry} {key : Key}
  {id : Id}

namespace Heap

variable {h : Heap}

namespace Valid

theorem strictlyOrdered (hv : h.Valid) (hnd : (h.toList.map (·.key)).Nodup) :
    Layout.StrictlyOrdered h.entryAt h.size := by
  rw [hv.hasLayout.toList_eq] at hnd
  exact hv.layout_ordered.strictlyOrdered hnd

/-- The element may come under any key, be it that of a member. -/
theorem exists_remove_insert (hv : h.Valid) (hnd : (h.toList.map (·.key)).Nodup) (key : Key)
    (hid : id < h.capacity) (hn : h.lookup id = none) :
    ∃ h₁ h', h.insert key id = .ok (.ok (), h₁) ∧ h₁.Valid ∧ h₁.remove id = .ok (.ok id, h') ∧
      h.Alike h' ∧ h.capacity = h'.capacity := by
  obtain ⟨h₁, he₁, hf₁⟩ := hv.hasLayout.insert_ok key (hv.size_lt hid hn) hid
    (hv.lookup_eq_none_iff.mp hn)
  obtain ⟨hole, h1, hl, hhole, hback⟩ :=
    Layout.exists_remove_insert (hv.strictlyOrdered hnd) ⟨key, id⟩
  obtain ⟨h', he', hf'⟩ := hf₁.remove_ok h1 hl
  rw [hhole] at he'
  exact ⟨h₁, h', he₁, hf₁.valid (Layout.ordered_insert hv.layout_ordered _), he',
    .of_layouts hv.hasLayout hf' hv.layout_ordered fun i h1 hl => (hback i h1 hl).symm,
    hf'.capacity_eq.symm⟩

/-- The key in between may be any, be it that of another member. -/
theorem exists_update_update (hv : h.Valid) (hnd : (h.toList.map (·.key)).Nodup)
    (hk : h.lookup id = some key) (key' : Key) :
    ∃ h₁ h', h.update key' id = .ok (.ok (), h₁) ∧
      h.Becomes h₁ h.size (Function.update h.lookup id (some key')) ∧
      h₁.update key id = .ok (.ok (), h') ∧ h.Alike h' ∧ h.capacity = h'.capacity := by
  obtain ⟨slot, h1, hl, hslot⟩ := hv.exists_slot hk
  obtain ⟨h₁, he₁, hf₁⟩ := hv.hasLayout.update_ok key' h1 hl
  obtain ⟨hole, hole1, holel, hhole, hback⟩ :=
    Layout.exists_rekey_rekey (hv.strictlyOrdered hnd) h1 hl key'
  obtain ⟨h', he', hf'⟩ := hf₁.update_ok key hole1 holel
  rw [hslot] at he₁ hhole hback
  rw [hhole] at he'
  rw [hback] at hf'
  -- the same change once more, as a change of the finite map
  obtain ⟨h₂, he₂, hb⟩ := hv.update_ok key' hk
  obtain rfl : h₂ = h₁ := (Prod.mk.inj (Except.ok.inj (he₂.symm.trans he₁))).2
  exact ⟨h₂, h', he₁, hb, he',
    .of_layouts hv.hasLayout hf' hv.layout_ordered fun _ _ _ => rfl, hf'.capacity_eq.symm⟩

end Valid

/-- Element 4 has left this heap, and no two keys of the others are the same. -/
theorem reachable_four : (⟨#[.sentinel, ⟨2, 0⟩, ⟨7, 1⟩, ⟨4, 2⟩, ⟨9, 3⟩, ⟨1, 4⟩, .blank],
    ⟨#[1, 2, 3, 4, 5, 0]⟩, 4⟩ : Heap).Reachable := by
  have hrun : Observer.silent.performAll
      [.insert 2 0, .insert 7 1, .insert 4 2, .insert 9 3, .insert 1 4, .removeMin] ⟨.empty 6, ()⟩
      = .ok ([.ok none, .ok none, .ok none, .ok none, .ok none, .ok (some 4)],
        ⟨⟨#[.sentinel, ⟨2, 0⟩, ⟨7, 1⟩, ⟨4, 2⟩, ⟨9, 3⟩, ⟨1, 4⟩, .blank],
          ⟨#[1, 2, 3, 4, 5, 0]⟩, 4⟩, ()⟩) := by cbv
  exact (Reachable.fresh 6 (by decide)).performAll hrun

/-! ## Under observation -/

/-- If no key is held twice, and an element is inserted under whatever key and removed again, no
question tells the heap from what it was before. -/
theorem Reachable.remove_insert (hr : w.heap.Reachable) (hm : w.heap.snapshot = .ok members)
    (hnd : (members.map (·.key)).Nodup)
    (he : watch.perform (.insert key id) w = .ok (.ok none, w₁)) :
    ∃ w', watch.perform (.remove id) w₁ = .ok (.ok (some id), w') ∧ w.heap.Twins w'.heap := by
  have hv := hr.valid
  obtain rfl := Except.ok.inj (hv.snapshot_eq.symm.trans hm)
  have happly := Observer.of_around_eq_ok he
  obtain ⟨hid, hn⟩ := (hv.isOk_iff_grants happly).mp rfl
  obtain ⟨h₁, h', hinsert, hv₁, hremove, halike, hcap⟩ := hv.exists_remove_insert hnd key hid hn
  rw [apply, hinsert] at happly
  obtain rfl : h₁ = w₁.heap := (Prod.mk.inj (Except.ok.inj happly)).2
  have hreply : w₁.heap.apply (.remove id) = .ok (.ok (some id), h') := by
    rw [apply, hremove]
    rfl
  exact ⟨_, watch.around_eq_of_ok hv₁ hreply halike.valid', halike.looksLike, hcap,
    halike.outline hcap⟩

/-- Element 5 comes under the key of element 0 and passes element 1 on its way. -/
theorem Reachable.remove_insert_of_tied_key :
    ∃ w w₁ w' : Watched Unit, w.heap.Reachable ∧
      w.heap.snapshot = .ok [⟨2, 0⟩, ⟨7, 1⟩, ⟨4, 2⟩, ⟨9, 3⟩] ∧
      Observer.silent.perform (.insert 2 5) w = .ok (.ok none, w₁) ∧
      w₁.heap.snapshot = .ok [⟨2, 0⟩, ⟨2, 5⟩, ⟨4, 2⟩, ⟨9, 3⟩, ⟨7, 1⟩] ∧
      Observer.silent.perform (.remove 5) w₁ = .ok (.ok (some 5), w') ∧
      w.heap.Twins w'.heap := by
  have he : Observer.silent.perform (.insert 2 5)
      ⟨⟨#[.sentinel, ⟨2, 0⟩, ⟨7, 1⟩, ⟨4, 2⟩, ⟨9, 3⟩, ⟨1, 4⟩, .blank], ⟨#[1, 2, 3, 4, 5, 0]⟩, 4⟩, ()⟩
      = .ok (.ok none, ⟨⟨#[.sentinel, ⟨2, 0⟩, ⟨2, 5⟩, ⟨4, 2⟩, ⟨9, 3⟩, ⟨7, 1⟩, .blank],
        ⟨#[1, 5, 3, 4, 5, 2]⟩, 5⟩, ()⟩) := by cbv
  obtain ⟨w', he', htwins⟩ := Reachable.remove_insert reachable_four (by cbv) (by decide) he
  exact ⟨_, _, w', reachable_four, by cbv, he, by cbv, he', htwins⟩

-- Where three members have one key, the last of them takes the place of the first.
example : ((Heap.empty 4).applyAll [.insert 5 0, .insert 5 1, .insert 5 2, .insert 3 3, .remove 3]
    >>= (·.2.snapshot)) = .ok [⟨5, 1⟩, ⟨5, 0⟩, ⟨5, 2⟩] := by cbv

/-- If no key is held twice, and the key of a member is changed to whatever other and back again, the
member has the other key in between, and no question tells the heap from what it was before. -/
theorem Reachable.update_update (hr : w.heap.Reachable) (hm : w.heap.snapshot = .ok members)
    (hnd : (members.map (·.key)).Nodup) (hk : w.heap.keyOf id = .ok (some key))
    (watch : Observer σ) (key' : Key) :
    ∃ w₁ w', watch.perform (.update key' id) w = .ok (.ok none, w₁) ∧
      w₁.heap.keyOf id = .ok (some key') ∧
      watch.perform (.update key id) w₁ = .ok (.ok none, w') ∧ w.heap.Twins w'.heap := by
  have hv := hr.valid
  obtain rfl := Except.ok.inj (hv.snapshot_eq.symm.trans hm)
  rw [hv.keyOf_eq, Except.ok.injEq] at hk
  obtain ⟨h₁, h', hthere, hb, hback, halike, hcap⟩ := hv.exists_update_update hnd hk key'
  have hheld : h₁.keyOf id = .ok (some key') := by
    rw [hb.valid.keyOf_eq, hb.lookup_eq, Function.update_self]
  have hreply₁ : w.heap.apply (.update key' id) = .ok (.ok none, h₁) := by
    rw [apply, hthere]
    rfl
  have hreply' : h₁.apply (.update key id) = .ok (.ok none, h') := by
    rw [apply, hback]
    rfl
  exact ⟨_, _, watch.around_eq_of_ok hv hreply₁ hb.valid, hheld,
    watch.around_eq_of_ok (w := ⟨h₁, _⟩) hb.valid hreply' halike.valid', halike.looksLike, hcap,
    halike.outline hcap⟩

/-- Element 3 rises to the key of element 0, and sinks back below element 1. -/
theorem Reachable.update_update_of_tied_key :
    ∃ w w₁ w' : Watched (Array Event), w.heap.Reachable ∧
      w.heap.snapshot = .ok [⟨2, 0⟩, ⟨7, 1⟩, ⟨4, 2⟩, ⟨9, 3⟩] ∧ w.heap.keyOf 3 = .ok (some 9) ∧
      Observer.transcript.perform (.update 2 3) w = .ok (.ok none, w₁) ∧
      w₁.heap.snapshot = .ok [⟨2, 0⟩, ⟨2, 3⟩, ⟨4, 2⟩, ⟨7, 1⟩] ∧
      w₁.heap.keyOf 3 = .ok (some 2) ∧
      Observer.transcript.perform (.update 9 3) w₁ = .ok (.ok none, w') ∧
      w.heap.Twins w'.heap := by
  have hk : Heap.keyOf ⟨#[.sentinel, ⟨2, 0⟩, ⟨7, 1⟩, ⟨4, 2⟩, ⟨9, 3⟩, ⟨1, 4⟩, .blank],
      ⟨#[1, 2, 3, 4, 5, 0]⟩, 4⟩ 3 = .ok (some 9) := by cbv
  obtain ⟨w₁, w', he, hheld, he', htwins⟩ := Reachable.update_update (w := ⟨_, #[]⟩) reachable_four
    (by cbv) (by decide) hk .transcript 2
  have hbetween : (Observer.transcript.perform (.update 2 3)
      ⟨⟨#[.sentinel, ⟨2, 0⟩, ⟨7, 1⟩, ⟨4, 2⟩, ⟨9, 3⟩, ⟨1, 4⟩, .blank], ⟨#[1, 2, 3, 4, 5, 0]⟩, 4⟩, #[]⟩
      >>= (·.2.heap.snapshot)) = .ok [⟨2, 0⟩, ⟨2, 3⟩, ⟨4, 2⟩, ⟨7, 1⟩] := by decide +kernel
  rw [he, Checked.ok_bind] at hbetween
  exact ⟨_, w₁, w', reachable_four, by cbv, hk, he, hbetween, hheld, he', htwins⟩

end Heap

end AddressableHeap
