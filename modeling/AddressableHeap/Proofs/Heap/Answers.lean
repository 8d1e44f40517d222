import AddressableHeap.Mutation
import AddressableHeap.Proofs.Heap.Contents

/-!
# The answers of a valid heap

For every request to a valid heap, when it is accepted, what it answers, and which finite map the heap
stands for afterwards. A request that is turned down hands back the heap it was given.
-/

namespace AddressableHeap.Heap

variable {h h' : Heap} {id : Id} {key : Key}

/-- From `h`, a request leaves the valid heap `h'` of the same capacity, with `size` members under the
keys that `keys` says. -/
structure Becomes (h h' : Heap) (size : Nat) (keys : Id → Option Key) : Prop where
  valid : h'.Valid
  capacity_eq : h'.capacity = h.capacity
  size_eq : h'.size = size
  lookup_eq : h'.lookup = keys

namespace Valid

/-! ## Inserting -/

theorem insert_ok (hv : h.Valid) (key : Key) (hid : id < h.capacity) (hn : h.lookup id = none) :
    ∃ h', h.insert key id = .ok (.ok (), h') ∧
      h.Becomes h' (h.size + 1) (Function.update h.lookup id (some key)) := by
  have hf := hv.hasLayout
  obtain ⟨h', he, hf'⟩ :=
    hf.insert_ok key (hv.size_lt hid hn) hid (hv.lookup_eq_none_iff.mp hn)
  have hv' := hf'.valid (Layout.ordered_insert hv.layout_ordered _)
  refine ⟨h', he, hv', hf'.capacity_eq, hf'.size_eq, lookup_insert hv hv' hn ?_⟩
  rw [hf'.toList_eq, hf.toList_eq]
  exact Layout.members_insert_perm h.entryAt h.size ⟨key, id⟩

theorem insert_full (hs : h.size = h.capacity) :
    h.insert key id = .ok (.error (.full h.capacity), h) := by
  unfold Heap.insert
  rw [if_pos hs]
  rfl

theorem insert_outOfRange (hs : h.size ≠ h.capacity) (hid : h.capacity ≤ id) :
    h.insert key id = .ok (.error (.outOfRange id h.capacity), h) := by
  unfold Heap.insert
  rw [if_neg hs, if_pos hid]
  rfl

theorem insert_duplicate (hv : h.Valid) {former : Key} (hs : h.size ≠ h.capacity)
    (hk : h.lookup id = some former) :
    h.insert key id = .ok (.error (.duplicate id), h) := by
  obtain ⟨i, h1, hl, he⟩ := hv.exists_slot hk
  have hloc := hv.hasLayout.locate_some h1 hl
  rw [he] at hloc
  unfold Heap.insert
  rw [if_neg hs, if_neg (Nat.not_le.mpr (hv.lookup_lt hk)), hloc]
  rfl

/-- An element that is not to be taken in is turned down, for whatever reason comes first. -/
theorem insert_refused (hv : h.Valid) (key : Key) (hn : ¬ (id < h.capacity ∧ h.lookup id = none)) :
    ∃ reason, h.insert key id = .ok (.error reason, h) := by
  by_cases hs : h.size = h.capacity
  · exact ⟨_, insert_full hs⟩
  · by_cases hid : h.capacity ≤ id
    · exact ⟨_, insert_outOfRange hs hid⟩
    · obtain ⟨former, hk⟩ := Option.ne_none_iff_exists'.mp fun hk => hn ⟨Nat.not_le.mp hid, hk⟩
      exact ⟨_, hv.insert_duplicate hs hk⟩

/-! ## Changing a key -/

theorem update_ok (hv : h.Valid) {former : Key} (key : Key) (hk : h.lookup id = some former) :
    ∃ h', h.update key id = .ok (.ok (), h') ∧
      h.Becomes h' h.size (Function.update h.lookup id (some key)) := by
  have hf := hv.hasLayout
  obtain ⟨i, h1, hl, hi⟩ := hv.exists_slot hk
  obtain ⟨h', he, hf'⟩ := hf.update_ok key h1 hl
  have hv' := hf'.valid (Layout.ordered_rekey hv.layout_ordered h1 hl key)
  have hp := Layout.members_rekey_perm h.entryAt key h1 hl
  rw [hi] at he hp
  rw [← hf'.toList_eq, ← hf.toList_eq] at hp
  exact ⟨h', he, hv', hf'.capacity_eq, hf'.size_eq, lookup_rekey hv hv' hk hp⟩

theorem update_unknown (hv : h.Valid) (hn : h.lookup id = none) :
    h.update key id = .ok (.error (.unknown id), h) := by
  unfold Heap.update
  rw [hv.locate_eq_none hn]
  rfl

/-! ## Removing -/

theorem remove_ok (hv : h.Valid) (hk : h.lookup id = some key) :
    ∃ h', h.remove id = .ok (.ok id, h') ∧
      h.Becomes h' (h.size - 1) (Function.update h.lookup id none) := by
  have hf := hv.hasLayout
  obtain ⟨i, h1, hl, hi⟩ := hv.exists_slot hk
  obtain ⟨h', he, hf'⟩ := hf.remove_ok h1 hl
  have hv' := hf'.valid (Layout.ordered_remove hv.layout_ordered h1 hl)
  have hp := Layout.members_remove_perm h.entryAt h1 hl
  rw [hi] at he hp
  rw [← hf'.toList_eq, ← hf.toList_eq] at hp
  exact ⟨h', he, hv', hf'.capacity_eq, hf'.size_eq, lookup_remove hv hv' hp⟩

theorem remove_unknown (hv : h.Valid) (hn : h.lookup id = none) :
    h.remove id = .ok (.error (.unknown id), h) := by
  unfold Heap.remove
  rw [hv.locate_eq_none hn]
  rfl

/-- The member at the root is removed. -/
theorem removeMin_ok (hv : h.Valid) (h1 : 1 ≤ h.size) :
    ∃ h', h.removeMin = .ok (.ok (h.entryAt 1).id, h') ∧
      h.Becomes h' (h.size - 1) (Function.update h.lookup (h.entryAt 1).id none) := by
  have hf := hv.hasLayout
  obtain ⟨h', he, hf'⟩ := hf.removeMin_ok h1
  have hv' := hf'.valid (Layout.ordered_remove hv.layout_ordered (Nat.le_refl 1) h1)
  have hp := Layout.members_remove_perm h.entryAt (Nat.le_refl 1) h1
  rw [← hf'.toList_eq, ← hf.toList_eq] at hp
  exact ⟨h', he, hv', hf'.capacity_eq, hf'.size_eq, lookup_remove hv hv' hp⟩

theorem removeMin_empty (hv : h.Valid) (h0 : h.size = 0) :
    h.removeMin = .ok (.error .empty, h) := by
  unfold Heap.removeMin
  rw [if_pos (hv.isEmpty_iff.mpr h0)]
  rfl

theorem clear (hv : h.Valid) : h.Becomes h.clear 0 fun _ => none := by
  have hf := hv.hasLayout.clear
  have hv' := hf.valid (hv.layout_ordered.mono (Nat.zero_le _))
  refine ⟨hv', rfl, rfl, ?_⟩
  funext id
  rw [hv'.lookup_eq_none_iff]
  intro i h1 hl
  have := hf.size_eq
  omega

/-! ## Every request -/

/-- A request to a valid heap returns an answer and leaves a valid heap of the same capacity. -/
theorem insert_total (hv : h.Valid) (key : Key) (id : Id) :
    ∃ reply h', h.insert key id = .ok (reply, h') ∧ h'.Valid ∧ h'.capacity = h.capacity := by
  by_cases hn : id < h.capacity ∧ h.lookup id = none
  · obtain ⟨h', he, hb⟩ := hv.insert_ok key hn.1 hn.2
    exact ⟨_, h', he, hb.valid, hb.capacity_eq⟩
  · obtain ⟨reason, he⟩ := hv.insert_refused key hn
    exact ⟨_, h, he, hv, rfl⟩

theorem update_total (hv : h.Valid) (key : Key) (id : Id) :
    ∃ reply h', h.update key id = .ok (reply, h') ∧ h'.Valid ∧ h'.capacity = h.capacity := by
  cases hk : h.lookup id with
  | none => exact ⟨_, h, hv.update_unknown hk, hv, rfl⟩
  | some former =>
    obtain ⟨h', he, hb⟩ := hv.update_ok key hk
    exact ⟨_, h', he, hb.valid, hb.capacity_eq⟩

theorem remove_total (hv : h.Valid) (id : Id) :
    ∃ reply h', h.remove id = .ok (reply, h') ∧ h'.Valid ∧ h'.capacity = h.capacity := by
  cases hk : h.lookup id with
  | none => exact ⟨_, h, hv.remove_unknown hk, hv, rfl⟩
  | some key =>
    obtain ⟨h', he, hb⟩ := hv.remove_ok hk
    exact ⟨_, h', he, hb.valid, hb.capacity_eq⟩

theorem removeMin_total (hv : h.Valid) :
    ∃ reply h', h.removeMin = .ok (reply, h') ∧ h'.Valid ∧ h'.capacity = h.capacity := by
  by_cases h0 : h.size = 0
  · exact ⟨_, h, hv.removeMin_empty h0, hv, rfl⟩
  · obtain ⟨h', he, hb⟩ := hv.removeMin_ok (Nat.one_le_iff_ne_zero.mpr h0)
    exact ⟨_, h', he, hb.valid, hb.capacity_eq⟩

theorem apply_total (hv : h.Valid) (m : Mutation) :
    ∃ reply h', h.apply m = .ok (reply, h') ∧ h'.Valid ∧ h'.capacity = h.capacity := by
  cases m with
  | insert key id =>
    obtain ⟨reply, h', he, hb⟩ := hv.insert_total key id
    exact ⟨reply.map fun _ => none, h', by rw [apply, he]; rfl, hb⟩
  | update key id =>
    obtain ⟨reply, h', he, hb⟩ := hv.update_total key id
    exact ⟨reply.map fun _ => none, h', by rw [apply, he]; rfl, hb⟩
  | removeMin =>
    obtain ⟨reply, h', he, hb⟩ := hv.removeMin_total
    exact ⟨reply.map some, h', by rw [apply, he]; rfl, hb⟩
  | remove id =>
    obtain ⟨reply, h', he, hb⟩ := hv.remove_total id
    exact ⟨reply.map some, h', by rw [apply, he]; rfl, hb⟩
  | clear => exact ⟨_, h.clear, rfl, hv.clear.valid, rfl⟩

/-- What a request answers, it answers with a valid heap. -/
theorem of_apply (hv : h.Valid) {m : Mutation} {reply : Reply} (he : h.apply m = .ok (reply, h')) :
    h'.Valid ∧ h'.capacity = h.capacity := by
  obtain ⟨reply₁, h₁, he₁, hb⟩ := hv.apply_total m
  rw [he₁, Except.ok.injEq, Prod.mk.injEq] at he
  rw [← he.2]
  exact hb

end Valid

/-! ## Requests that are turned down -/

variable {α : Type} {reason : Rejection}

theorem eq_of_insert_error (he : h.insert key id = .ok (.error reason, h')) : h' = h := by
  unfold insert at he
  split at he
  · exact (Prod.mk.inj (Except.ok.inj he)).2.symm
  · split at he
    · exact (Prod.mk.inj (Except.ok.inj he)).2.symm
    · rw [Checked.bind_eq_ok] at he
      obtain ⟨found, -, he⟩ := he
      cases found with
      | some slot => exact (Prod.mk.inj (Except.ok.inj he)).2.symm
      | none =>
        simp only [Checked.bind_eq_ok] at he
        obtain ⟨k, -, he⟩ := he
        cases he

theorem eq_of_update_error (he : h.update key id = .ok (.error reason, h')) : h' = h := by
  unfold update at he
  rw [Checked.bind_eq_ok] at he
  obtain ⟨found, -, he⟩ := he
  cases found with
  | none => exact (Prod.mk.inj (Except.ok.inj he)).2.symm
  | some slot =>
    simp only [Checked.bind_eq_ok] at he
    obtain ⟨k, -, he⟩ := he
    cases he

theorem eq_of_remove_error (he : h.remove id = .ok (.error reason, h')) : h' = h := by
  unfold remove at he
  rw [Checked.bind_eq_ok] at he
  obtain ⟨found, -, he⟩ := he
  cases found with
  | none => exact (Prod.mk.inj (Except.ok.inj he)).2.symm
  | some slot =>
    rw [Checked.bind_eq_ok] at he
    obtain ⟨k, -, he⟩ := he
    split at he
    all_goals
      simp only [Checked.bind_eq_ok] at he
      obtain ⟨k', -, gone, -, he⟩ := he
      cases he

theorem eq_of_removeMin_error (he : h.removeMin = .ok (.error reason, h')) : h' = h := by
  unfold removeMin at he
  split at he
  · exact (Prod.mk.inj (Except.ok.inj he)).2.symm
  · rw [Checked.bind_eq_ok] at he
    obtain ⟨k, -, he⟩ := he
    split at he
    all_goals
      simp only [Checked.bind_eq_ok] at he
      obtain ⟨k', -, gone, -, he⟩ := he
      cases he

theorem of_map_eq_error {act : Checked (Except Rejection α × Heap)} {f : α → Option Id}
    (he : (do let (reply, h) ← act; pure (reply.map f, h)) = .ok (.error reason, h')) :
    act = .ok (.error reason, h') := by
  rw [Checked.bind_eq_ok] at he
  obtain ⟨⟨reply, k⟩, hact, he⟩ := he
  obtain ⟨hr, rfl⟩ := Prod.mk.inj (Except.ok.inj he)
  cases reply with
  | ok a => exact nomatch hr
  | error reason' =>
    obtain rfl := Except.error.inj hr
    exact hact

/-- A mutation that is turned down changes nothing. -/
theorem eq_of_apply_error {m : Mutation} (he : h.apply m = .ok (.error reason, h')) : h' = h := by
  cases m with
  | insert key id => exact eq_of_insert_error (of_map_eq_error he)
  | update key id => exact eq_of_update_error (of_map_eq_error he)
  | removeMin => exact eq_of_removeMin_error (of_map_eq_error he)
  | remove id => exact eq_of_remove_error (of_map_eq_error he)
  | clear => cases he

end AddressableHeap.Heap
