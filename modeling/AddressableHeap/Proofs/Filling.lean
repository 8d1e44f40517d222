import AddressableHeap.Proofs.Faultless

/-!
# Room for every absent element

A heap is full when all its places are taken, and it looks at the number of its members before it looks
at the element it is asked to take in. Still no absent element that is within its range is ever turned
down for want of room: no element is held twice and none is out of range, so there are as many free
places as there are absent elements. An empty place is never lost, whatever was inserted and removed
before.
-/

namespace AddressableHeap

variable {σ : Type} {watch : Observer σ} {w : Watched σ} {key : Key} {id : Id} {entries : List Entry}

/-- The request that makes a member of an entry. -/
def Entry.insertion (e : Entry) : Mutation := .insert e.key e.id

namespace Heap

variable {h : Heap}

/-- A heap is full exactly if there is no absent element within its range. -/
theorem Valid.size_eq_capacity_iff (hv : h.Valid) :
    h.size = h.capacity ↔ ∀ id < h.capacity, (h.lookup id).isSome = true := by
  constructor
  · intro hs id hid
    by_contra hn
    have hroom := hv.size_lt hid (by simpa using hn)
    omega
  · intro hall
    have hsub : List.range h.capacity ⊆ h.toList.map (·.id) := by
      intro id hid
      rw [List.mem_range] at hid
      obtain ⟨key, hk⟩ := Option.isSome_iff_exists.mp (hall id hid)
      exact List.mem_map.mpr ⟨_, hv.lookup_eq_some_iff.mp hk, rfl⟩
    have hle := (List.subperm_of_subset List.nodup_range hsub).length_le
    rw [List.length_range, List.length_map, hv.length_toList] at hle
    exact Nat.le_antisymm hv.size_le hle

theorem Valid.contains_eq_true_iff (hv : h.Valid) :
    h.contains id = .ok true ↔ (h.lookup id).isSome = true := by
  rw [hv.contains_eq, Except.ok.injEq]

theorem Valid.contains_eq_false_iff (hv : h.Valid) :
    h.contains id = .ok false ↔ h.lookup id = none := by
  rw [hv.contains_eq, Except.ok.injEq, Option.isSome_eq_false_iff, Option.isNone_iff_eq_none]

end Heap

namespace Observer

theorem performAll_append {w₁ w' : Watched σ} {ms ms' : List Mutation} {replies replies' : List Reply}
    (he : watch.performAll ms w = .ok (replies, w₁))
    (he' : watch.performAll ms' w₁ = .ok (replies', w')) :
    watch.performAll (ms ++ ms') w = .ok (replies ++ replies', w') := by
  induction ms generalizing w replies with
  | nil =>
    obtain ⟨rfl, rfl⟩ := Prod.mk.inj (Except.ok.inj he)
    exact he'
  | cons m ms ih =>
    simp only [performAll, Checked.bind_eq_ok] at he
    obtain ⟨⟨reply, w₂⟩, hm, ⟨rest, w₃⟩, hms, he⟩ := he
    obtain ⟨rfl, rfl⟩ := Prod.mk.inj (Except.ok.inj he)
    exact performAll_cons hm (ih hms)

/-! ## Inserting one after the other -/

/-- Elements that are absent and different from each other are all taken in. -/
theorem performAll_insertion (watch : Observer σ) (hv : w.heap.Valid)
    (hnd : (entries.map (·.id)).Nodup)
    (hnew : ∀ id ∈ entries.map (·.id), id < w.heap.capacity ∧ w.heap.lookup id = none) :
    ∃ w', watch.performAll (entries.map Entry.insertion) w
        = .ok (List.replicate entries.length (.ok none), w') ∧
      w'.heap.Valid ∧ w'.heap.capacity = w.heap.capacity ∧
      w'.heap.size = w.heap.size + entries.length ∧
      ∀ id, (w'.heap.lookup id).isSome = true ↔
        (w.heap.lookup id).isSome = true ∨ id ∈ entries.map (·.id) := by
  induction entries generalizing w with
  | nil => exact ⟨w, rfl, hv, rfl, rfl, fun id => by simp⟩
  | cons e entries ih =>
    rw [List.map_cons, List.nodup_cons] at hnd
    obtain ⟨hid, hn⟩ := hnew e.id (List.mem_cons_self ..)
    obtain ⟨h₁, hinsert, hb⟩ := hv.insert_ok e.key hid hn
    have happly : w.heap.apply e.insertion = .ok (.ok none, h₁) := by
      rw [Entry.insertion, Heap.apply, hinsert]
      rfl
    obtain ⟨seen, he⟩ := watch.perform_of_apply hv happly
    have hnew₁ : ∀ id ∈ entries.map (·.id), id < h₁.capacity ∧ h₁.lookup id = none := by
      intro id hmem
      have hne : id ≠ e.id := by
        rintro rfl
        exact hnd.1 hmem
      rw [hb.capacity_eq, hb.lookup_eq, Function.update_of_ne hne]
      exact hnew id (List.mem_cons_of_mem _ hmem)
    obtain ⟨w', he', hv', hcap, hsize, hmembers⟩ := ih (w := ⟨h₁, seen⟩) hb.valid hnd.2 hnew₁
    refine ⟨w', performAll_cons he he', hv', hcap.trans hb.capacity_eq, ?_, ?_⟩
    · rw [hsize, hb.size_eq, List.length_cons]
      omega
    · intro id
      rw [hmembers, hb.lookup_eq, List.map_cons, List.mem_cons]
      by_cases hie : id = e.id
      · subst hie
        simp
      · rw [Function.update_of_ne hie]
        simp [hie]

/-- A full heap turns down everything that is to be inserted, and remains full. -/
theorem performAll_insertion_of_full (watch : Observer σ) (hv : w.heap.Valid)
    (hs : w.heap.size = w.heap.capacity) (entries : List Entry) :
    ∃ w', watch.performAll (entries.map Entry.insertion) w
      = .ok (List.replicate entries.length (.error (.full w.heap.capacity)), w') := by
  induction entries generalizing w with
  | nil => exact ⟨w, rfl⟩
  | cons e entries ih =>
    have happly : w.heap.apply e.insertion = .ok (.error (.full w.heap.capacity), w.heap) := by
      rw [Entry.insertion, Heap.apply, Heap.Valid.insert_full hs]
      rfl
    obtain ⟨seen, he⟩ := watch.perform_of_apply hv happly
    obtain ⟨w', he'⟩ := ih (w := ⟨w.heap, seen⟩) hv hs
    exact ⟨w', performAll_cons he he'⟩

end Observer

namespace Heap

/-- A reachable heap takes in every element within its range that it does not have, and no other. It is
full exactly if it has them all. If those that it does not have are inserted, in whatever order and under
whatever keys, it takes in as many as it has places left, and turns down everything after that. -/
theorem Reachable.takes_in_absent (watch : Observer σ) (hr : w.heap.Reachable) :
    (∀ key id, ∃ reply w', watch.perform (.insert key id) w = .ok (reply, w') ∧
      (reply.isOk = true ↔ id < w.heap.capacity ∧ w.heap.contains id = .ok false)) ∧
    (w.heap.size = w.heap.capacity ↔ ∀ id < w.heap.capacity, w.heap.contains id = .ok true) ∧
    ∀ entries : List Entry, (entries.map (·.id)).Nodup →
      (∀ id, id ∈ entries.map (·.id) ↔ id < w.heap.capacity ∧ w.heap.contains id = .ok false) →
        ∀ more : List Entry, ∃ w',
          watch.performAll ((entries ++ more).map Entry.insertion) w
            = .ok (List.replicate (w.heap.capacity - w.heap.size) (.ok none) ++
                List.replicate more.length (.error (.full w.heap.capacity)), w') := by
  have hv := hr.valid
  simp only [hv.contains_eq_true_iff, hv.contains_eq_false_iff]
  refine ⟨?_, hv.size_eq_capacity_iff, ?_⟩
  · intro key id
    obtain ⟨reply, w', he, happly, -⟩ := watch.perform_total hv (.insert key id)
    exact ⟨reply, w', he, hv.isOk_iff_grants happly⟩
  · intro entries hnd habsent more
    obtain ⟨w₁, he₁, hv₁, hcap, hsize, hmembers⟩ :=
      watch.performAll_insertion hv hnd fun id hmem => (habsent id).mp hmem
    have hfull : w₁.heap.size = w₁.heap.capacity := by
      rw [hv₁.size_eq_capacity_iff]
      intro id hid
      rw [hcap] at hid
      rw [hmembers, habsent]
      cases hk : w.heap.lookup id with
      | some key => exact .inl rfl
      | none => exact .inr ⟨hid, rfl⟩
    obtain ⟨w', he'⟩ := watch.performAll_insertion_of_full hv₁ hfull more
    have hlength : entries.length = w.heap.capacity - w.heap.size := by omega
    rw [hlength] at he₁
    rw [hcap] at he'
    rw [List.map_append]
    exact ⟨w', Observer.performAll_append he₁ he'⟩

/-- Element 1 has left this heap. It takes the only free place, under another key, and then there is room
neither for a member nor for an element that is out of range. -/
theorem Reachable.takes_in_absent_of_leftovers :
    ∃ w : Watched (Array Event), w.heap.Reachable ∧ w.heap.index.find? 1 = some 3 ∧
      w.heap.snapshot = .ok [⟨4, 2⟩, ⟨5, 0⟩] ∧
      ∃ w', Observer.transcript.performAll [.insert 4 1, .insert 0 2, .insert 7 9] w
        = .ok ([.ok none, .error (.full 3), .error (.full 3)], w') := by
  have hr := reachable_leftovers
  obtain ⟨-, -, hfill⟩ := Reachable.takes_in_absent (w := ⟨_, #[]⟩) .transcript hr
  refine ⟨⟨_, #[]⟩, hr, by decide, by cbv, hfill [⟨4, 1⟩] (by decide) ?_ [⟨0, 2⟩, ⟨7, 9⟩]⟩
  generalize hheap : (⟨#[.sentinel, ⟨4, 2⟩, ⟨5, 0⟩, ⟨3, 1⟩], ⟨#[2, 3, 1]⟩, 2⟩ : Heap) = h
  have hcap : h.capacity = 3 := by
    rw [← hheap]
    rfl
  have hzero : h.contains 0 = .ok true := by
    rw [← hheap]
    cbv
  have hone : h.contains 1 = .ok false := by
    rw [← hheap]
    cbv
  have htwo : h.contains 2 = .ok true := by
    rw [← hheap]
    cbv
  intro id
  rw [List.map_singleton, List.mem_singleton]
  constructor
  · rintro rfl
    exact ⟨by rw [hcap]; decide, hone⟩
  · rintro ⟨hid, habsent⟩
    change id < h.capacity at hid
    have hcases : id = 0 ∨ id = 1 ∨ id = 2 := by omega
    rcases hcases with rfl | rfl | rfl
    · rw [hzero] at habsent
      cases habsent
    · rfl
    · rw [htwo] at habsent
      cases habsent

end Heap

end AddressableHeap
