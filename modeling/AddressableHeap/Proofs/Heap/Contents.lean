import AddressableHeap.Proofs.Heap.Requests
import Mathlib.Data.List.Perm.Subperm
import Mathlib.Data.List.Nodup

/-!
# What a request does to the members

A valid heap holds each element at most once, so its members are a finite map from elements to keys.
Every request returns an answer and leaves a valid heap of the same capacity, and an accepted request
changes that map at the one element it is about.
-/

namespace AddressableHeap.Heap

variable {h h' : Heap} {id : Id} {key : Key} {e : Entry}

/-- No element is held twice. -/
theorem HasLayout.ids_nodup {capacity last : Nat} {f : Layout} (hf : h.HasLayout capacity last f) :
    (h.toList.map (·.id)).Nodup := by
  rw [hf.toList_eq, Layout.members, List.map_map]
  refine List.Nodup.map_on ?_ (List.nodup_range' ..)
  intro i hi j hj he
  rw [List.mem_range'_1] at hi hj
  exact hf.id_inj hi.1 (by omega) hj.1 (by omega) he

namespace Valid

theorem ids_nodup (hv : h.Valid) : (h.toList.map (·.id)).Nodup := hv.hasLayout.ids_nodup

theorem length_toList (hv : h.Valid) : h.toList.length = h.size := by
  rw [hv.hasLayout.toList_eq, Layout.length_members]

theorem mem_toList_iff (hv : h.Valid) :
    e ∈ h.toList ↔ ∃ i, 1 ≤ i ∧ i ≤ h.size ∧ h.entryAt i = e := by
  rw [hv.hasLayout.toList_eq, Layout.mem_members]

theorem id_lt (hv : h.Valid) (he : e ∈ h.toList) : e.id < h.capacity := by
  obtain ⟨i, h1, hl, rfl⟩ := hv.mem_toList_iff.mp he
  exact hv.inRange i h1 hl

theorem eq_of_id_eq (hv : h.Valid) {e' : Entry} (he : e ∈ h.toList) (he' : e' ∈ h.toList)
    (hid : e.id = e'.id) : e = e' :=
  List.inj_on_of_nodup_map hv.ids_nodup he he' hid

/-- The map that a valid heap stands for has the members as its graph. -/
theorem lookup_eq_some_iff (hv : h.Valid) : h.lookup id = some key ↔ ⟨key, id⟩ ∈ h.toList := by
  unfold lookup
  rw [Option.map_eq_some_iff]
  constructor
  · rintro ⟨e, he, rfl⟩
    have hid : e.id = id := by simpa using List.find?_some he
    rw [← hid]
    exact List.mem_of_find?_eq_some he
  · intro hmem
    cases hfind : h.toList.find? (·.id == id) with
    | none => simpa using List.find?_eq_none.mp hfind _ hmem
    | some e =>
      have hid : e.id = id := by simpa using List.find?_some hfind
      have := hv.eq_of_id_eq (List.mem_of_find?_eq_some hfind) hmem hid
      exact ⟨e, rfl, by rw [this]⟩

theorem lookup_of_mem (hv : h.Valid) (he : e ∈ h.toList) : h.lookup e.id = some e.key :=
  hv.lookup_eq_some_iff.mpr he

theorem lookup_eq_none_iff (hv : h.Valid) :
    h.lookup id = none ↔ ∀ i, 1 ≤ i → i ≤ h.size → (h.entryAt i).id ≠ id := by
  rw [Option.eq_none_iff_forall_ne_some]
  constructor
  · rintro hn i h1 hl rfl
    exact hn _ (hv.lookup_of_mem (hv.mem_toList_iff.mpr ⟨i, h1, hl, rfl⟩))
  · intro hne key hk
    obtain ⟨i, h1, hl, he⟩ := hv.mem_toList_iff.mp (hv.lookup_eq_some_iff.mp hk)
    exact hne i h1 hl (by rw [he])

theorem lookup_lt (hv : h.Valid) (hk : h.lookup id = some key) : id < h.capacity :=
  hv.id_lt (hv.lookup_eq_some_iff.mp hk)

/-- A heap that lacks an element it is for is not full. -/
theorem size_lt (hv : h.Valid) (hid : id < h.capacity) (hn : h.lookup id = none) :
    h.size < h.capacity := by
  have hnew : id ∉ h.toList.map (·.id) := by
    rw [List.mem_map]
    rintro ⟨e, he, rfl⟩
    rw [Option.eq_none_iff_forall_ne_some] at hn
    exact hn _ (hv.lookup_of_mem he)
  have hsub : id :: h.toList.map (·.id) ⊆ List.range h.capacity := by
    intro i hi
    rw [List.mem_range]
    rcases List.mem_cons.mp hi with rfl | hi
    · exact hid
    · obtain ⟨e, he, rfl⟩ := List.mem_map.mp hi
      exact hv.id_lt he
  have := (List.subperm_of_subset (List.nodup_cons.mpr ⟨hnew, hv.ids_nodup⟩) hsub).length_le
  rw [List.length_cons, List.length_map, List.length_range, hv.length_toList] at this
  exact this

/-! ## Reading -/

theorem locate_eq_none (hv : h.Valid) (hn : h.lookup id = none) : h.locate id = .ok none :=
  hv.hasLayout.locate_none (hv.lookup_eq_none_iff.mp hn)

theorem exists_slot (hv : h.Valid) (hk : h.lookup id = some key) :
    ∃ i, 1 ≤ i ∧ i ≤ h.size ∧ h.entryAt i = ⟨key, id⟩ :=
  hv.mem_toList_iff.mp (hv.lookup_eq_some_iff.mp hk)

theorem locate_total (hv : h.Valid) (id : Id) :
    ∃ slot?, h.locate id = .ok slot? ∧ (slot? = none ↔ h.lookup id = none) ∧
      ∀ slot, slot? = some slot → 1 ≤ slot.toNat ∧ slot.toNat ≤ h.size := by
  cases hk : h.lookup id with
  | none => exact ⟨none, hv.locate_eq_none hk, by simp, fun slot hs => nomatch hs⟩
  | some key =>
    obtain ⟨i, h1, hl, he⟩ := hv.exists_slot hk
    have hloc := hv.hasLayout.locate_some h1 hl
    rw [he] at hloc
    refine ⟨_, hloc, by simp, ?_⟩
    rintro slot hs
    rw [← Option.some.inj hs, hv.fits.toNat_ofNat_slot hl]
    exact ⟨h1, hl⟩

theorem keyOf_eq (hv : h.Valid) (id : Id) : h.keyOf id = .ok (h.lookup id) := by
  unfold keyOf
  cases hk : h.lookup id with
  | none =>
    rw [hv.locate_eq_none hk]
    rfl
  | some key =>
    obtain ⟨i, h1, hl, he⟩ := hv.exists_slot hk
    have hloc := hv.hasLayout.locate_some h1 hl
    rw [he] at hloc
    rw [hloc]
    simp only [Checked.ok_bind, hv.fits.toNat_ofNat_slot hl,
      hv.hasLayout.get_eq (Nat.le_trans hl hv.size_le), he]
    rfl

theorem contains_eq (hv : h.Valid) (id : Id) : h.contains id = .ok (h.lookup id).isSome := by
  unfold contains
  cases hk : h.lookup id with
  | none =>
    rw [hv.locate_eq_none hk]
    rfl
  | some key =>
    obtain ⟨i, h1, hl, he⟩ := hv.exists_slot hk
    have hloc := hv.hasLayout.locate_some h1 hl
    rw [he] at hloc
    rw [hloc]
    rfl

theorem isEmpty_iff (hv : h.Valid) : h.isEmpty = true ↔ h.size = 0 := hv.hasLayout.isEmpty_iff

theorem isEmpty_eq_false_iff (hv : h.Valid) : h.isEmpty = false ↔ h.size ≠ 0 := by
  rw [← Bool.not_eq_true, hv.isEmpty_iff]

/-- The member at the root is a least one. -/
theorem peekMin_eq (hv : h.Valid) (h1 : 1 ≤ h.size) :
    h.peekMin = .ok (some (h.entryAt 1)) ∧ h.entryAt 1 ∈ h.toList ∧
      ∀ e ∈ h.toList, (h.entryAt 1).key ≤ e.key := by
  refine ⟨hv.hasLayout.peekMin_some h1, hv.mem_toList_iff.mpr ⟨1, Nat.le_refl 1, h1, rfl⟩, ?_⟩
  intro e he
  obtain ⟨i, hi1, hil, rfl⟩ := hv.mem_toList_iff.mp he
  exact hv.layout_ordered.root_le i hi1 hil

theorem peekMin_eq_none (hv : h.Valid) (h0 : h.size = 0) : h.peekMin = .ok none := by
  unfold peekMin
  rw [if_pos (hv.isEmpty_iff.mpr h0)]
  rfl

theorem snapshot_eq (hv : h.Valid) : h.snapshot = .ok h.toList := hv.hasLayout.snapshot_eq

/-! ## From members to maps -/

theorem lookup_insert (hv : h.Valid) (hv' : h'.Valid) (hn : h.lookup id = none)
    (hp : h'.toList.Perm (⟨key, id⟩ :: h.toList)) :
    h'.lookup = Function.update h.lookup id (some key) := by
  funext i
  refine Option.ext ?_
  intro k
  rw [hv'.lookup_eq_some_iff, hp.mem_iff, List.mem_cons, Entry.mk.injEq, ← hv.lookup_eq_some_iff]
  by_cases hi : i = id
  · subst hi
    simp [hn, eq_comm]
  · simp [hi]

theorem lookup_rekey {former : Key} (hv : h.Valid) (hv' : h'.Valid)
    (hk : h.lookup id = some former)
    (hp : (⟨former, id⟩ :: h'.toList).Perm (⟨key, id⟩ :: h.toList)) :
    h'.lookup = Function.update h.lookup id (some key) := by
  funext i
  by_cases hi : i = id
  · subst hi
    rw [Function.update_self, hv'.lookup_eq_some_iff]
    by_cases heq : former = key
    · subst heq
      exact (hp.cons_inv.mem_iff).mpr (hv.lookup_eq_some_iff.mp hk)
    · have := hp.mem_iff.mpr (List.mem_cons_self ..)
      rw [List.mem_cons, Entry.mk.injEq] at this
      exact this.resolve_left fun h => heq h.1.symm
  · rw [Function.update_of_ne hi]
    refine Option.ext ?_
    intro k
    have := hp.mem_iff (a := ⟨k, i⟩)
    rw [List.mem_cons, List.mem_cons, Entry.mk.injEq, Entry.mk.injEq] at this
    rw [hv'.lookup_eq_some_iff, hv.lookup_eq_some_iff]
    simpa [hi] using this

theorem lookup_remove (hv : h.Valid) (hv' : h'.Valid) (hp : (e :: h'.toList).Perm h.toList) :
    h'.lookup = Function.update h.lookup e.id none := by
  have hnd := (hp.map (·.id)).nodup_iff.mpr hv.ids_nodup
  rw [List.map_cons, List.nodup_cons] at hnd
  funext i
  refine Option.ext ?_
  intro k
  rw [hv'.lookup_eq_some_iff]
  by_cases hi : i = e.id
  · subst hi
    rw [Function.update_self]
    refine iff_of_false (fun hmem => hnd.1 (List.mem_map.mpr ⟨_, hmem, rfl⟩)) (by simp)
  · rw [Function.update_of_ne hi, hv.lookup_eq_some_iff, ← hp.mem_iff, List.mem_cons]
    refine (or_iff_right fun h => hi ?_).symm
    rw [← h]

end Valid

end AddressableHeap.Heap
