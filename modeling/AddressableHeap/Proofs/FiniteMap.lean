import AddressableHeap.Proofs.Observation
import Std.Data.ExtTreeMap.Lemmas

/-!
# A heap is a bounded finite map

From outside, a heap of capacity `n` is a finite map from the elements below `n` to keys that also
shows one of its least members. Each request answers what the map answers, and leaves a heap that
shows the map that the request makes of it, in every run from an empty heap.
-/

namespace AddressableHeap

/-- A finite map from elements to keys. -/
abbrev KeyMap := Std.ExtTreeMap Id Key

namespace KeyMap

/-- `least` shows a least member of the map, or that there is none. -/
def Least (M : KeyMap) : Option Entry → Prop
  | none => M = ∅
  | some least => M[least.id]? = some least.key ∧
      ∀ (id : Id) (key : Key), M[id]? = some key → least.key ≤ key

/-- What a map bounded by `capacity` answers, and what becomes of it. Of several least members,
`least` is the one that was shown. -/
def request (capacity : Nat) (least : Option Entry) (M : KeyMap) : Mutation → Reply × KeyMap
  | .insert key id =>
    if M.size = capacity then (.error (.full capacity), M)
    else if capacity ≤ id then (.error (.outOfRange id capacity), M)
    else if id ∈ M then (.error (.duplicate id), M)
    else (.ok none, M.insert id key)
  | .update key id =>
    if id ∈ M then (.ok none, M.insert id key) else (.error (.unknown id), M)
  | .removeMin =>
    match least with
    | none => (.error .empty, M)
    | some least => (.ok (some least.id), M.erase least.id)
  | .remove id =>
    if id ∈ M then (.ok (some id), M.erase id) else (.error (.unknown id), M)
  | .clear => (.ok none, ∅)

end KeyMap

namespace Heap

/-- All that can be asked of the heap is answered as by the map. -/
structure Shows (h : Heap) (M : KeyMap) : Prop where
  /-- The key of every element. -/
  keyOf : ∀ id, h.keyOf id = .ok M[id]?
  /-- Whether an element is a member. -/
  contains : ∀ id, h.contains id = .ok (decide (id ∈ M))
  /-- How many members there are. -/
  size : h.size = M.size
  /-- Whether there are none. -/
  isEmpty : h.isEmpty = M.isEmpty
  /-- A least member. -/
  peekMin : ∃ least, h.peekMin = .ok least ∧ M.Least least

end Heap

/-- The heap shows the map `M` now and behaves as that map does under all of these requests. -/
def Watched.Follows {σ : Type} (watch : Observer σ) (capacity : Nat) :
    Watched σ → KeyMap → List Mutation → Prop
  | w, M, [] => w.heap.Shows M
  | w, M, m :: ms => w.heap.Shows M ∧ ∃ least w', w.heap.peekMin = .ok least ∧
      watch.perform m w = .ok ((M.request capacity least m).1, w') ∧
      w'.Follows watch capacity (M.request capacity least m).2 ms

namespace Heap

variable {h h' : Heap} {M : KeyMap} {capacity : Nat}

/-- A valid heap of this capacity whose members are the graph of the map. -/
structure Represents (h : Heap) (capacity : Nat) (M : KeyMap) : Prop where
  valid : h.Valid
  capacity_eq : h.capacity = capacity
  size_eq : h.size = M.size
  lookup_eq : ∀ id, h.lookup id = M[id]?

theorem represents_empty (hc : capacity + 1 < UInt64.size) :
    (Heap.empty capacity).Represents capacity ∅ := by
  have hv := valid_empty hc
  refine ⟨hv, capacity_empty capacity, by simp, ?_⟩
  intro id
  rw [Std.ExtTreeMap.getElem?_empty, hv.lookup_eq_none_iff]
  intro i h1 hl
  simp at hl
  omega

namespace Represents

theorem mem_iff (hr : h.Represents capacity M) {id : Id} : id ∈ M ↔ (h.lookup id).isSome := by
  rw [hr.lookup_eq, Std.ExtTreeMap.mem_iff_isSome_getElem?]

theorem lookup_eq_none (hr : h.Represents capacity M) {id : Id} (hid : id ∉ M) :
    h.lookup id = none := by
  rw [hr.mem_iff] at hid
  simpa using hid

theorem exists_lookup (hr : h.Represents capacity M) {id : Id} (hid : id ∈ M) :
    ∃ key, h.lookup id = some key :=
  Option.isSome_iff_exists.mp (hr.mem_iff.mp hid)

theorem eq_empty_iff (hr : h.Represents capacity M) : M = ∅ ↔ h.size = 0 := by
  rw [Std.ExtTreeMap.eq_empty_iff_size_eq_zero, hr.size_eq]

theorem peekMin (hr : h.Represents capacity M) :
    ∃ least, h.peekMin = .ok least ∧ M.Least least := by
  by_cases h0 : h.size = 0
  · exact ⟨none, hr.valid.peekMin_eq_none h0, hr.eq_empty_iff.mpr h0⟩
  · obtain ⟨he, hmem, hle⟩ := hr.valid.peekMin_eq (Nat.one_le_iff_ne_zero.mpr h0)
    refine ⟨_, he, ?_, ?_⟩
    · rw [← hr.lookup_eq]
      exact hr.valid.lookup_of_mem hmem
    · intro id key hk
      rw [← hr.lookup_eq] at hk
      exact hle _ (hr.valid.lookup_eq_some_iff.mp hk)

theorem shows (hr : h.Represents capacity M) : h.Shows M where
  keyOf id := by rw [hr.valid.keyOf_eq, hr.lookup_eq]
  contains id := by
    rw [hr.valid.contains_eq, Except.ok.injEq, Bool.eq_iff_iff, decide_eq_true_iff, hr.mem_iff]
  size := hr.size_eq
  isEmpty := by
    rw [Bool.eq_iff_iff, hr.valid.isEmpty_iff, Std.ExtTreeMap.isEmpty_iff, hr.eq_empty_iff]
  peekMin := hr.peekMin

theorem insert (hr : h.Represents capacity M) {id : Id} {key : Key} {n : Nat}
    (hb : h.Becomes h' n (Function.update h.lookup id (some key)))
    (hn : n = (M.insert id key).size) : h'.Represents capacity (M.insert id key) := by
  refine ⟨hb.valid, hb.capacity_eq.trans hr.capacity_eq, hb.size_eq.trans hn, ?_⟩
  intro i
  rw [hb.lookup_eq, Function.update_apply, Std.ExtTreeMap.getElem?_insert, hr.lookup_eq]
  simp only [Std.compare_eq_iff_eq, @eq_comm _ i id]

theorem erase (hr : h.Represents capacity M) {id : Id} (hid : id ∈ M)
    (hb : h.Becomes h' (h.size - 1) (Function.update h.lookup id none)) :
    h'.Represents capacity (M.erase id) := by
  refine ⟨hb.valid, hb.capacity_eq.trans hr.capacity_eq, ?_, ?_⟩
  · rw [hb.size_eq, Std.ExtTreeMap.size_erase, if_pos (Std.ExtTreeMap.mem_iff_contains.mp hid),
      hr.size_eq]
  · intro i
    rw [hb.lookup_eq, Function.update_apply, Std.ExtTreeMap.getElem?_erase, hr.lookup_eq]
    simp only [Std.compare_eq_iff_eq, @eq_comm _ i id]

/-- One request: the heap answers what the map answers, and represents what becomes of the map. -/
theorem apply (hr : h.Represents capacity M) {least : Option Entry}
    (hp : h.peekMin = .ok least) (m : Mutation) :
    ∃ h', h.apply m = .ok ((M.request capacity least m).1, h') ∧
      h'.Represents capacity (M.request capacity least m).2 := by
  have hv := hr.valid
  have hc := hr.capacity_eq
  subst hc
  cases m with
  | insert key id =>
    simp only [KeyMap.request]
    split
    · rename_i hs
      exact ⟨h, by rw [Heap.apply, Valid.insert_full (hr.size_eq.trans hs)]; rfl, hr⟩
    · rename_i hs
      have hs' : h.size ≠ h.capacity := hr.size_eq ▸ hs
      split
      · rename_i hid
        exact ⟨h, by rw [Heap.apply, Valid.insert_outOfRange hs' hid]; rfl, hr⟩
      · rename_i hid
        split
        · rename_i hmem
          obtain ⟨former, hk⟩ := hr.exists_lookup hmem
          exact ⟨h, by rw [Heap.apply, hv.insert_duplicate hs' hk]; rfl, hr⟩
        · rename_i hmem
          obtain ⟨h', he, hb⟩ := hv.insert_ok key (Nat.not_le.mp hid) (hr.lookup_eq_none hmem)
          refine ⟨h', by rw [Heap.apply, he]; rfl, hr.insert hb ?_⟩
          rw [Std.ExtTreeMap.size_insert, if_neg (mt Std.ExtTreeMap.mem_iff_contains.mpr hmem),
            hr.size_eq]
  | update key id =>
    simp only [KeyMap.request]
    split
    · rename_i hmem
      obtain ⟨former, hk⟩ := hr.exists_lookup hmem
      obtain ⟨h', he, hb⟩ := hv.update_ok key hk
      refine ⟨h', by rw [Heap.apply, he]; rfl, hr.insert hb ?_⟩
      rw [Std.ExtTreeMap.size_insert, if_pos (Std.ExtTreeMap.mem_iff_contains.mp hmem), hr.size_eq]
    · rename_i hmem
      exact ⟨h, by rw [Heap.apply, hv.update_unknown (hr.lookup_eq_none hmem)]; rfl, hr⟩
  | removeMin =>
    by_cases h0 : h.size = 0
    · rw [hv.peekMin_eq_none h0, Except.ok.injEq] at hp
      subst hp
      exact ⟨h, by rw [Heap.apply, hv.removeMin_empty h0]; rfl, hr⟩
    · have h1 := Nat.one_le_iff_ne_zero.mpr h0
      obtain ⟨hpeek, hmem, -⟩ := hv.peekMin_eq h1
      rw [hpeek, Except.ok.injEq] at hp
      subst hp
      obtain ⟨h', he, hb⟩ := hv.removeMin_ok h1
      refine ⟨h', by rw [Heap.apply, he]; rfl, hr.erase ?_ hb⟩
      rw [hr.mem_iff, hv.lookup_of_mem hmem]
      rfl
  | remove id =>
    simp only [KeyMap.request]
    split
    · rename_i hmem
      obtain ⟨key, hk⟩ := hr.exists_lookup hmem
      obtain ⟨h', he, hb⟩ := hv.remove_ok hk
      exact ⟨h', by rw [Heap.apply, he]; rfl, hr.erase hmem hb⟩
    · rename_i hmem
      exact ⟨h, by rw [Heap.apply, hv.remove_unknown (hr.lookup_eq_none hmem)]; rfl, hr⟩
  | clear =>
    have hb := hv.clear
    refine ⟨h.clear, rfl, hb.valid, hb.capacity_eq, hb.size_eq, ?_⟩
    intro id
    rw [hb.lookup_eq]
    exact Std.ExtTreeMap.getElem?_empty.symm

end Represents

end Heap

namespace Watched

variable {σ : Type} {w : Watched σ} {M : KeyMap} {capacity : Nat}

/-- A heap that represents a map behaves as that map does in every run. -/
theorem follows_of_represents (watch : Observer σ) (hr : w.heap.Represents capacity M)
    (ms : List Mutation) : w.Follows watch capacity M ms := by
  induction ms generalizing w M with
  | nil => exact hr.shows
  | cons m ms ih =>
    obtain ⟨least, hp, -⟩ := hr.peekMin
    obtain ⟨h', he, hr'⟩ := hr.apply hp m
    exact ⟨hr.shows, least, _, hp, watch.around_eq_of_ok hr.valid he hr'.valid, ih hr'⟩

/-- In every run from an empty heap, under any observer, the heap behaves as a finite map does that is
bounded by its capacity. -/
theorem follows_empty (watch : Observer σ) (seen : σ) (hc : capacity + 1 < UInt64.size)
    (ms : List Mutation) : (⟨.empty capacity, seen⟩ : Watched σ).Follows watch capacity ∅ ms :=
  follows_of_represents watch (Heap.represents_empty hc) ms

theorem follows_empty_of_two :
    2 + 1 < UInt64.size ∧ (⟨.empty 2, #[]⟩ : Watched (Array Event)).Follows .transcript 2 ∅
      [.insert 5 0, .insert 5 0, .insert 5 1, .insert 9 2, .removeMin, .update (-3) 1, .remove 7,
        .insert 0 2, .clear] :=
  ⟨by decide, follows_empty .transcript #[] (by decide) _⟩

end Watched

end AddressableHeap
