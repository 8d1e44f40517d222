import AddressableHeap.Proofs.Faultless
import AddressableHeap.Proofs.Heap.Scan
import AddressableHeap.Proofs.Layout.Routes

/-!
# Which entries a request moves

An element that is inserted, or whose key is lowered, is inserted in the order of the keys into the
branch of the tree that ends in its slot. An element whose key is raised goes towards the leaves, and
where an element is removed the last entry takes over its slot and goes either way. Each time the entries
on one route move by one place, and all others stay where they are, members and leftovers alike.
-/

namespace AddressableHeap

variable {σ : Type} {w w' : Watched σ} {key former : Key} {id : Id} {slot : Slot} {i : Nat}

namespace Heap

variable {h : Heap}

/-- An element lies under its key in the slot where it is found. -/
theorem Valid.entryAt_of_locate (hv : h.Valid) (hloc : h.locate id = .ok (some slot))
    (hk : h.keyOf id = .ok (some former)) :
    1 ≤ slot.toNat ∧ slot.toNat ≤ h.size ∧ h.entryAt slot.toNat = ⟨former, id⟩ := by
  obtain ⟨h1, hl, rfl⟩ := hv.locate_eq_some_iff.mp hloc
  have hmem := hv.lookup_of_mem (hv.mem_toList_iff.mpr ⟨_, h1, hl, rfl⟩)
  rw [hv.keyOf_eq, hmem] at hk
  obtain rfl := Option.some.inj (Except.ok.inj hk)
  exact ⟨h1, hl, rfl⟩

namespace HasLayout

variable {capacity last : Nat} {f : Layout}

/-- Under the key that it has, an entry stays where it is, and nothing is written that was not there. -/
theorem rekey_self (hf : h.HasLayout capacity last f) (hl : slot.toNat ≤ last) :
    h.rekey slot (f slot.toNat).key = .ok h := by
  have hcap := hf.last_le
  have hs := hf.entries_size
  have hbound : slot.toNat < h.entries.size := by omega
  have hkept : h.entries.set slot.toNat (f slot.toNat) hbound = h.entries := by
    have hentry : f slot.toNat = h.entries[slot.toNat] := by
      rw [← hf.entryAt_eq]
      simp [entryAt, hbound]
    rw [hentry, Array.set_getElem_self]
  have hget := hf.get_eq (show slot.toNat ≤ capacity by omega)
  have hset : h.setKey slot (f slot.toNat).key = .ok h := by
    unfold Heap.setKey
    simp only [hget, Checked.ok_bind, Checked.set_eq_ok hbound]
    exact congrArg (fun entries => Except.ok (Heap.mk entries h.index h.last)) hkept
  unfold Heap.rekey
  rw [hget, Checked.ok_bind, hset, Checked.ok_bind, if_neg Int64.lt_irrefl,
    if_neg Int64.lt_irrefl]
  rfl

end HasLayout

end Heap

/-! ## Under observation -/

namespace Observer

theorem perform_insert (watch : Observer σ) (hv : w.heap.Valid)
    (he : watch.perform (.insert key id) w = .ok (.ok none, w')) :
    w'.heap.size = w.heap.size + 1 ∧
      w'.heap.entryAt = Layout.insert w.heap.entryAt w.heap.size ⟨key, id⟩ := by
  have happly := of_around_eq_ok he
  obtain ⟨hid, hn⟩ := (hv.isOk_iff_grants happly).mp rfl
  obtain ⟨h', hinsert, hf'⟩ := hv.hasLayout.insert_ok key (hv.size_lt hid hn) hid
    (hv.lookup_eq_none_iff.mp hn)
  rw [Heap.apply, hinsert] at happly
  obtain rfl : h' = w'.heap := (Prod.mk.inj (Except.ok.inj happly)).2
  exact ⟨hf'.size_eq, hf'.entryAt_eq⟩

theorem perform_update (watch : Observer σ) (hv : w.heap.Valid) (h1 : 1 ≤ i) (hl : i ≤ w.heap.size)
    (hi : w.heap.entryAt i = ⟨former, id⟩) (key : Key) :
    ∃ w', watch.perform (.update key id) w = .ok (.ok none, w') ∧ w'.heap.size = w.heap.size ∧
      w'.heap.entryAt = Layout.rekey w.heap.entryAt w.heap.size i key := by
  obtain ⟨h', hupdate, hf'⟩ := hv.hasLayout.update_ok key h1 hl
  rw [hi] at hupdate
  have happly : w.heap.apply (.update key id) = .ok (.ok none, h') := by
    rw [Heap.apply, hupdate]
    rfl
  obtain ⟨seen, he⟩ := watch.perform_of_apply hv happly
  exact ⟨⟨h', seen⟩, he, hf'.size_eq, hf'.entryAt_eq⟩

theorem perform_remove (watch : Observer σ) (hv : w.heap.Valid) (h1 : 1 ≤ i) (hl : i ≤ w.heap.size)
    (hi : w.heap.entryAt i = ⟨former, id⟩) :
    ∃ w', watch.perform (.remove id) w = .ok (.ok (some id), w') ∧
      w'.heap.size = w.heap.size - 1 ∧
      w'.heap.entryAt = Layout.remove w.heap.entryAt w.heap.size i := by
  obtain ⟨h', hremove, hf'⟩ := hv.hasLayout.remove_ok h1 hl
  rw [hi] at hremove
  have happly : w.heap.apply (.remove id) = .ok (.ok (some id), h') := by
    rw [Heap.apply, hremove]
    rfl
  obtain ⟨seen, he⟩ := watch.perform_of_apply hv happly
  exact ⟨⟨h', seen⟩, he, hf'.size_eq, hf'.entryAt_eq⟩

/-- The key that an element has can be given to it again, and the heap is the same down to its
leftovers. -/
theorem perform_update_self (watch : Observer σ) (hv : w.heap.Valid)
    (hloc : w.heap.locate id = .ok (some slot)) (hl : slot.toNat ≤ w.heap.size)
    (hi : w.heap.entryAt slot.toNat = ⟨former, id⟩) :
    ∃ w', watch.perform (.update former id) w = .ok (.ok none, w') ∧ w'.heap = w.heap := by
  have hrekey := hv.hasLayout.rekey_self hl
  rw [hi] at hrekey
  have happly : w.heap.apply (.update former id) = .ok (.ok none, w.heap) := by
    unfold Heap.apply Heap.update
    simp only [hloc, Checked.ok_bind, hrekey]
    rfl
  obtain ⟨seen, he⟩ := watch.perform_of_apply hv happly
  exact ⟨⟨w.heap, seen⟩, he, rfl⟩

end Observer

namespace Heap

/-- Seven elements, each inserted where it has no way to go. -/
theorem reachable_seven :
    (⟨#[.sentinel, ⟨1, 0⟩, ⟨10, 1⟩, ⟨2, 2⟩, ⟨11, 3⟩, ⟨12, 4⟩, ⟨3, 5⟩, ⟨4, 6⟩, .blank],
      ⟨#[1, 2, 3, 4, 5, 6, 7, 0]⟩, 7⟩ : Heap).Reachable := by
  have hrun : Observer.silent.performAll [.insert 1 0, .insert 10 1, .insert 2 2, .insert 11 3,
      .insert 12 4, .insert 3 5, .insert 4 6] ⟨.empty 8, ()⟩
      = .ok (List.replicate 7 (.ok none),
        ⟨⟨#[.sentinel, ⟨1, 0⟩, ⟨10, 1⟩, ⟨2, 2⟩, ⟨11, 3⟩, ⟨12, 4⟩, ⟨3, 5⟩, ⟨4, 6⟩, .blank],
          ⟨#[1, 2, 3, 4, 5, 6, 7, 0]⟩, 7⟩, ()⟩) := by cbv
  exact (Reachable.fresh 8 (by decide)).performAll hrun

/-- An element that is inserted, or whose key is lowered, is inserted in the order of the keys among the
entries on the way from the root to its slot, behind those with the same key. Everything off this
way stays where it is. -/
theorem Reachable.inserts_at (watch : Observer σ) (hr : w.heap.Reachable) :
    (∀ key id w', watch.perform (.insert key id) w = .ok (.ok none, w') →
      w'.heap.size = w.heap.size + 1 ∧
        Layout.InsertsAt w.heap.entryAt w'.heap.entryAt w'.heap.size ⟨key, id⟩) ∧
    ∀ key id former slot, w.heap.locate id = .ok (some slot) →
      w.heap.keyOf id = .ok (some former) → key < former →
        ∃ w', watch.perform (.update key id) w = .ok (.ok none, w') ∧
          w'.heap.size = w.heap.size ∧
          Layout.InsertsAt w.heap.entryAt w'.heap.entryAt slot.toNat ⟨key, id⟩ := by
  have hv := hr.valid
  constructor
  · intro key id w' he
    obtain ⟨hsize, hentries⟩ := watch.perform_insert hv he
    rw [hsize, hentries]
    exact ⟨rfl, Layout.insert_insertsAt hv.layout_ordered ⟨key, id⟩⟩
  · intro key id former slot hloc hk hlt
    obtain ⟨h1, hl, hi⟩ := hv.entryAt_of_locate hloc hk
    obtain ⟨w', he, hsize, hentries⟩ := watch.perform_update hv h1 hl hi key
    have hlower : key < (w.heap.entryAt slot.toNat).key := by
      rw [hi]
      exact hlt
    have hinserts := Layout.rekey_insertsAt hv.layout_ordered h1 hl hlower
    rw [hi, ← hentries] at hinserts
    exact ⟨w', he, hsize, hinserts⟩

/-- The first element comes under the key of another one on its branch, and the second one under that of
the root. -/
theorem Reachable.inserts_at_of_tied_keys :
    ∃ w : Watched Unit, w.heap.Reachable ∧
      (∃ w', Observer.silent.perform (.insert 10 7) w = .ok (.ok none, w') ∧
        Layout.InsertsAt w.heap.entryAt w'.heap.entryAt w'.heap.size ⟨10, 7⟩) ∧
      w.heap.locate 4 = .ok (some 5) ∧ w.heap.keyOf 4 = .ok (some 12) ∧ (1 : Key) < 12 ∧
      ∃ w', Observer.silent.perform (.update 1 4) w = .ok (.ok none, w') ∧
        Layout.InsertsAt w.heap.entryAt w'.heap.entryAt 5 ⟨1, 4⟩ := by
  obtain ⟨hinsert, hupdate⟩ := Reachable.inserts_at (w := ⟨_, ()⟩) .silent reachable_seven
  have he : Observer.silent.perform (.insert 10 7)
      ⟨⟨#[.sentinel, ⟨1, 0⟩, ⟨10, 1⟩, ⟨2, 2⟩, ⟨11, 3⟩, ⟨12, 4⟩, ⟨3, 5⟩, ⟨4, 6⟩, .blank],
        ⟨#[1, 2, 3, 4, 5, 6, 7, 0]⟩, 7⟩, ()⟩
      = .ok (.ok none, ⟨⟨#[.sentinel, ⟨1, 0⟩, ⟨10, 1⟩, ⟨2, 2⟩, ⟨10, 7⟩, ⟨12, 4⟩, ⟨3, 5⟩, ⟨4, 6⟩, ⟨11, 3⟩],
        ⟨#[1, 2, 3, 8, 5, 6, 7, 4]⟩, 8⟩, ()⟩) := by cbv
  obtain ⟨w', hlowered, -, hat⟩ := hupdate 1 4 12 5 (by cbv) (by cbv) (by decide)
  exact ⟨_, reachable_seven, ⟨_, he, (hinsert 10 7 _ he).2⟩, by cbv, by cbv, by decide, w', hlowered,
    hat⟩

/-- An element whose key is raised goes along the route towards the leaves that leads past smaller keys,
and the entries on it move up by one place. Where an element is removed, the last entry takes over its
slot and goes along such a route, or else along the route towards the root. All others stay where they
are. If the last element is removed, none moves, and if an element is given the key that it has, nothing
changes at all. -/
theorem Reachable.shifts_along (watch : Observer σ) (hr : w.heap.Reachable)
    (hloc : w.heap.locate id = .ok (some slot)) (hk : w.heap.keyOf id = .ok (some former)) :
    (∀ key, former < key → ∃ route w', watch.perform (.update key id) w = .ok (.ok none, w') ∧
      w'.heap.size = w.heap.size ∧
      Layout.SinksAlong w.heap.entryAt w.heap.size key slot.toNat route ∧
      Layout.Shifts w.heap.entryAt w'.heap.entryAt slot.toNat route ⟨key, id⟩) ∧
    (slot ≠ w.heap.last → ∃ route w', watch.perform (.remove id) w = .ok (.ok (some id), w') ∧
      w'.heap.size = w.heap.size - 1 ∧
      Layout.SettlesAlong w.heap.entryAt w'.heap.size (w.heap.entryAt w.heap.size).key slot.toNat
        route ∧
      Layout.Shifts (Layout.swap w.heap.entryAt slot.toNat w.heap.size) w'.heap.entryAt slot.toNat
        route (w.heap.entryAt w.heap.size)) ∧
    (slot = w.heap.last → ∃ w', watch.perform (.remove id) w = .ok (.ok (some id), w') ∧
      w'.heap.size = w.heap.size - 1 ∧ w'.heap.entryAt = w.heap.entryAt) ∧
    ∃ w', watch.perform (.update former id) w = .ok (.ok none, w') ∧ w'.heap = w.heap := by
  have hv := hr.valid
  obtain ⟨h1, hl, hi⟩ := hv.entryAt_of_locate hloc hk
  refine ⟨?raised, ?removed, ?removedLast, watch.perform_update_self hv hloc hl hi⟩
  case raised =>
    intro key hgt
    obtain ⟨w', he, hsize, hentries⟩ := watch.perform_update hv h1 hl hi key
    have hhigher : (w.heap.entryAt slot.toNat).key < key := by
      rw [hi]
      exact hgt
    obtain ⟨route, hroute, hshifts⟩ := Layout.rekey_shifts_of_gt w.heap.size h1 hhigher
    rw [hi, ← hentries] at hshifts
    exact ⟨route, w', he, hsize, hroute, hshifts⟩
  all_goals obtain ⟨w', he, hsize, hentries⟩ := watch.perform_remove hv h1 hl hi
  case removed =>
    intro hne
    have hlt : slot.toNat < w.heap.size := Nat.lt_of_le_of_ne hl fun h => hne (UInt64.toNat_inj.mp h)
    obtain ⟨route, hroute, hshifts⟩ := Layout.remove_shifts hv.layout_ordered h1 hlt
    rw [← hsize] at hroute
    rw [← hentries] at hshifts
    exact ⟨route, w', he, hsize, hroute, hshifts⟩
  case removedLast =>
    intro hlast
    have hsame : slot.toNat = w.heap.size := congrArg UInt64.toNat hlast
    rw [hsame, Layout.remove, if_neg (Nat.lt_irrefl _), Layout.swap_self] at hentries
    exact ⟨w', he, hsize, hentries⟩

/-- Element 0 goes from the root past elements 2 and 5. The last entry takes over the slot of element 3
and passes element 1 on its way to the root. -/
theorem Reachable.shifts_along_of_seven :
    ∃ w : Watched Unit, w.heap.Reachable ∧
      w.heap.locate 0 = .ok (some 1) ∧ w.heap.keyOf 0 = .ok (some 1) ∧ (1 : Key) < 5 ∧
      (∃ route w', Observer.silent.perform (.update 5 0) w = .ok (.ok none, w') ∧
        Layout.SinksAlong w.heap.entryAt 7 5 1 route ∧
        Layout.Shifts w.heap.entryAt w'.heap.entryAt 1 route ⟨5, 0⟩) ∧
      w.heap.locate 3 = .ok (some 4) ∧ w.heap.keyOf 3 = .ok (some 11) ∧ 4 ≠ w.heap.last ∧
      (∃ route w', Observer.silent.perform (.remove 3) w = .ok (.ok (some 3), w') ∧
        Layout.SettlesAlong w.heap.entryAt w'.heap.size 4 4 route ∧
        Layout.Shifts (Layout.swap w.heap.entryAt 4 7) w'.heap.entryAt 4 route ⟨4, 6⟩) ∧
      (∃ w', Observer.silent.perform (.update 11 3) w = .ok (.ok none, w') ∧ w'.heap = w.heap) ∧
      w.heap.locate 6 = .ok (some 7) ∧ w.heap.keyOf 6 = .ok (some 4) ∧ 7 = w.heap.last ∧
      ∃ w', Observer.silent.perform (.remove 6) w = .ok (.ok (some 6), w') ∧
        w'.heap.entryAt = w.heap.entryAt := by
  obtain ⟨h, hr, hlast, hentry, hroot, hrootKey, hfourth, hfourthKey, hseventh, hseventhKey⟩ :
      ∃ h : Heap, h.Reachable ∧ h.last = 7 ∧ h.entryAt 7 = ⟨4, 6⟩ ∧
        h.locate 0 = .ok (some 1) ∧ h.keyOf 0 = .ok (some 1) ∧
        h.locate 3 = .ok (some 4) ∧ h.keyOf 3 = .ok (some 11) ∧
        h.locate 6 = .ok (some 7) ∧ h.keyOf 6 = .ok (some 4) :=
    ⟨_, reachable_seven, rfl, rfl, by cbv, by cbv, by cbv, by cbv, by cbv, by cbv⟩
  have hsize : h.size = 7 := congrArg UInt64.toNat hlast
  have hne : 4 ≠ h.last := by
    rw [hlast]
    decide
  obtain ⟨hraised, -⟩ := Reachable.shifts_along (w := ⟨h, ()⟩) .silent hr hroot hrootKey
  obtain ⟨route, w', he, -, hroute, hshifts⟩ := hraised 5 (by decide)
  obtain ⟨-, hremoved, -, hsame⟩ :=
    Reachable.shifts_along (w := ⟨h, ()⟩) .silent hr hfourth hfourthKey
  obtain ⟨route₁, w₁, he₁, -, hroute₁, hshifts₁⟩ := hremoved hne
  obtain ⟨-, -, hremovedLast, -⟩ :=
    Reachable.shifts_along (w := ⟨h, ()⟩) .silent hr hseventh hseventhKey
  obtain ⟨w₂, he₂, -, hentries⟩ := hremovedLast hlast.symm
  rw [hsize] at hroute hroute₁ hshifts₁
  rw [hentry] at hroute₁ hshifts₁
  exact ⟨⟨h, ()⟩, hr, hroot, hrootKey, by decide, ⟨route, w', he, hroute, hshifts⟩, hfourth,
    hfourthKey, hne, ⟨route₁, w₁, he₁, hroute₁, hshifts₁⟩, hsame, hseventh, hseventhKey, hlast.symm,
    w₂, he₂, hentries⟩

end Heap

end AddressableHeap
