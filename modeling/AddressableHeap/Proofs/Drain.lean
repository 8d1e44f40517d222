import AddressableHeap.Proofs.Evolution

/-!
# Draining

A heap is drained by looking at the least member and removing it, until there is none to look at.
Every removal takes away the one member that was looked at and leaves the others as they are, so a
drain is as long as the heap is large, meets every member once, and meets them in the order of their
keys. The keys it meets are therefore a matter of the contents alone: neither the history of the
heap nor its capacity nor the slots of its members show in them.
-/

namespace AddressableHeap

variable {σ : Type} {watch : Observer σ}

namespace Heap

variable {h h' : Heap} {e : Entry} {size : Nat}

theorem Valid.nodup_toList (hv : h.Valid) : h.toList.Nodup := hv.ids_nodup.of_map

theorem Valid.mem_toList_iff_lookup (hv : h.Valid) :
    e ∈ h.toList ↔ h.lookup e.id = some e.key :=
  hv.lookup_eq_some_iff.symm

/-- Heaps list their members alike, up to the order, if they hold the same elements under the same
keys, and only then. -/
theorem Valid.toList_perm_iff (hv : h.Valid) (hv' : h'.Valid) :
    h.toList.Perm h'.toList ↔ h.lookup = h'.lookup := by
  rw [List.perm_ext_iff_of_nodup hv.nodup_toList hv'.nodup_toList]
  constructor
  · intro hmem
    funext id
    refine Option.ext fun key => ?_
    rw [hv.lookup_eq_some_iff, hv'.lookup_eq_some_iff, hmem]
  · intro hl e
    rw [hv.mem_toList_iff_lookup, hv'.mem_toList_iff_lookup, hl]

/-- Taking an element away takes away its entry and no other. -/
theorem Becomes.cons_perm (hv : h.Valid) (he : e ∈ h.toList)
    (hb : h.Becomes h' size (Function.update h.lookup e.id none)) :
    (e :: h'.toList).Perm h.toList := by
  have hgone : e ∉ h'.toList := by
    rw [hb.valid.mem_toList_iff_lookup, hb.lookup_eq, Function.update_self]
    exact (Option.some_ne_none _).symm
  rw [List.perm_ext_iff_of_nodup (List.nodup_cons.mpr ⟨hgone, hb.valid.nodup_toList⟩)
    hv.nodup_toList]
  intro e'
  rw [List.mem_cons, hb.valid.mem_toList_iff_lookup, hb.lookup_eq]
  by_cases hid : e'.id = e.id
  · rw [hid, Function.update_self]
    constructor
    · rintro (rfl | hnone)
      · exact he
      · cases hnone
    · exact fun he' => .inl (hv.eq_of_id_eq he' he hid)
  · rw [Function.update_of_ne hid, ← hv.mem_toList_iff_lookup]
    exact or_iff_right fun heq => hid (by rw [heq])

end Heap

namespace Observer

variable {w w₁ w' : Watched σ} {least : Entry} {es : List Entry}

/-! ## One removal -/

/-- A member that was looked at can be removed, and the removal answers with it. Whatever is left is
not before it. -/
theorem removeMin_of_peekMin (watch : Observer σ) (hv : w.heap.Valid)
    (hp : w.heap.peekMin = .ok (some least)) :
    ∃ w₁, watch.removeMin w = .ok (.ok least.id, w₁) ∧ w₁.heap.Valid ∧
      (least :: w₁.heap.toList).Perm w.heap.toList ∧ ∀ e ∈ w.heap.toList, least.key ≤ e.key := by
  have h1 : 1 ≤ w.heap.size := by
    by_contra h0
    rw [hv.peekMin_eq_none (by omega)] at hp
    cases hp
  obtain ⟨hroot, hmem, hle⟩ := hv.peekMin_eq h1
  rw [hroot] at hp
  obtain rfl := Option.some.inj (Except.ok.inj hp)
  obtain ⟨h', he, hb⟩ := hv.removeMin_ok h1
  exact ⟨_, watch.around_eq_of_ok hv he hb.valid, hb.valid, hb.cons_perm hv hmem, hle⟩

/-- A removal that answers with the member that was looked at takes away this one. -/
theorem cons_perm_of_removeMin (hv : w.heap.Valid) (hp : w.heap.peekMin = .ok (some least))
    (hr : watch.removeMin w = .ok (.ok least.id, w₁)) :
    w₁.heap.Valid ∧ (least :: w₁.heap.toList).Perm w.heap.toList ∧
      ∀ e ∈ w.heap.toList, least.key ≤ e.key := by
  obtain ⟨w₂, hr₂, htaken⟩ := removeMin_of_peekMin watch hv hp
  obtain ⟨-, rfl⟩ := Prod.mk.inj (Except.ok.inj (hr.symm.trans hr₂))
  exact htaken

/-- Where there is nothing to look at, there are no members. -/
theorem toList_eq_nil_of_peekMin (hv : w.heap.Valid) (hp : w.heap.peekMin = .ok none) :
    w.heap.toList = [] := by
  rw [List.eq_nil_iff_length_eq_zero, hv.length_toList]
  by_contra h0
  rw [(hv.peekMin_eq (Nat.one_le_iff_ne_zero.mpr h0)).1] at hp
  cases hp

/-! ## The whole drain -/

/-- The least member is looked at and removed again and again, until there is none to look at. Every
removal answers with the member that was looked at, and these are the members met. -/
inductive Drains (watch : Observer σ) : Watched σ → List Entry → Watched σ → Prop where
  | done {w : Watched σ} : w.heap.peekMin = .ok none → Drains watch w [] w
  | take {w w₁ w' : Watched σ} {least : Entry} {es : List Entry} :
      w.heap.peekMin = .ok (some least) → watch.removeMin w = .ok (.ok least.id, w₁) →
      Drains watch w₁ es w' → Drains watch w (least :: es) w'

/-- A valid heap can be drained: no removal is turned down, and the members run out. -/
theorem exists_drains (watch : Observer σ) (hv : w.heap.Valid) :
    ∃ es w', watch.Drains w es w' := by
  induction hn : w.heap.size generalizing w with
  | zero => exact ⟨[], w, .done (hv.peekMin_eq_none hn)⟩
  | succ n ih =>
    have hp := (hv.peekMin_eq (by omega)).1
    obtain ⟨w₁, hr, hv₁, hperm, -⟩ := removeMin_of_peekMin watch hv hp
    have hlen := hperm.length_eq
    rw [List.length_cons, hv₁.length_toList, hv.length_toList] at hlen
    obtain ⟨es, w', hd⟩ := ih hv₁ (by omega)
    exact ⟨_, w', .take hp hr hd⟩

namespace Drains

/-- As many rounds as there are members to meet are enough. -/
theorem drainWithin_eq (hd : watch.Drains w es w') {rounds : Nat} (hle : es.length ≤ rounds) :
    watch.drainWithin rounds w = .ok (es, w') := by
  induction hd generalizing rounds with
  | done hp =>
    rw [drainWithin, hp]
    rfl
  | take hp hr _ ih =>
    obtain ⟨rounds, rfl⟩ := Nat.exists_eq_add_one_of_ne_zero (Nat.ne_of_gt
      (Nat.lt_of_lt_of_le (Nat.succ_pos _) hle))
    rw [drainWithin, hp]
    simp only [Checked.ok_bind, hr, ih (Nat.le_of_succ_le_succ hle)]
    rfl

theorem perm (hd : watch.Drains w es w') (hv : w.heap.Valid) : es.Perm w.heap.toList := by
  induction hd with
  | done hp => rw [toList_eq_nil_of_peekMin hv hp]
  | take hp hr _ ih =>
    obtain ⟨hv₁, hperm, -⟩ := cons_perm_of_removeMin hv hp hr
    exact ((ih hv₁).cons _).trans hperm

theorem sorted (hd : watch.Drains w es w') (hv : w.heap.Valid) :
    es.Pairwise (·.key ≤ ·.key) := by
  induction hd with
  | done => exact .nil
  | take hp hr hd ih =>
    obtain ⟨hv₁, hperm, hle⟩ := cons_perm_of_removeMin hv hp hr
    -- what is met later was there before
    refine .cons (fun e he => hle e (hperm.subset ?_)) (ih hv₁)
    exact List.mem_cons_of_mem _ ((hd.perm hv₁).subset he)

theorem length_eq (hd : watch.Drains w es w') (hv : w.heap.Valid) : es.length = w.heap.size := by
  rw [(hd.perm hv).length_eq, hv.length_toList]

end Drains

end Observer

/-! ## Sorted lists of the same entries -/

/-- Two sorted lists of the same entries show the same keys, and are the same if no key occurs
twice: then nothing but the key decides who comes first. -/
theorem Entry.map_eq_of_perm {es es' : List Entry} (hp : es.Perm es')
    (hs : es.Pairwise (·.key ≤ ·.key)) (hs' : es'.Pairwise (·.key ≤ ·.key)) :
    es.map (·.key) = es'.map (·.key) ∧ ((es.map (·.key)).Nodup → es = es') := by
  constructor
  · exact (hp.map _).eq_of_pairwise (fun _ _ _ _ => Int64.le_antisymm) (List.pairwise_map.mpr hs)
      (List.pairwise_map.mpr hs')
  · intro hnd
    refine hp.eq_of_pairwise (fun e e' he he' hle hle' => ?_) hs hs'
    exact List.inj_on_of_nodup_map hnd he (hp.mem_iff.mpr he') (Int64.le_antisymm hle hle')

/-- A reachable heap is drained by as many removals as it has members. None is turned down, and each
answers with the member that was looked at before it; what the drain meets are the members, in the
order of their keys. Another reachable heap that holds the same elements under the same keys shows
the same keys in its drain, and the same elements if no key occurs twice. -/
theorem Observer.drains_sorted {w : Watched σ} (watch : Observer σ) (hr : w.heap.Reachable) :
    ∃ members es w', w.heap.snapshot = .ok members ∧ watch.Drains w es w' ∧
      watch.drain w = .ok (es, w') ∧ es.length = w.heap.size ∧ es.Perm members ∧
      es.Pairwise (·.key ≤ ·.key) ∧
      ∀ {τ : Type} (watch' : Observer τ) {v v' : Watched τ} {es' : List Entry},
        v.heap.Reachable → (∀ id, v.heap.keyOf id = w.heap.keyOf id) → watch'.Drains v es' v' →
        es'.map (·.key) = es.map (·.key) ∧
          ((es.map (·.key)).Nodup → es'.map (·.id) = es.map (·.id)) := by
  have hv := hr.valid
  obtain ⟨es, w', hd⟩ := exists_drains watch hv
  have hlen := hd.length_eq hv
  refine ⟨w.heap.toList, es, w', hv.snapshot_eq, hd, hd.drainWithin_eq (Nat.le_of_eq hlen), hlen,
    hd.perm hv, hd.sorted hv, ?_⟩
  intro τ watch' v v' es' hr' hkeys hd'
  have hv' := hr'.valid
  have hlookup : w.heap.lookup = v.heap.lookup := by
    funext id
    have hkey := hkeys id
    rw [hv'.keyOf_eq, hv.keyOf_eq] at hkey
    exact (Except.ok.inj hkey).symm
  have hperm : es.Perm es' :=
    (hd.perm hv).trans (((hv.toList_perm_iff hv').mpr hlookup).trans (hd'.perm hv').symm)
  obtain ⟨hk, hid⟩ := Entry.map_eq_of_perm hperm (hd.sorted hv) (hd'.sorted hv')
  exact ⟨hk.symm, fun hnd => by rw [hid hnd]⟩

/-- The same three members, inserted in another order and into a heap with more room, lie in other
slots. -/
theorem Observer.drains_sorted_of_three :
    ∃ w v : Watched Unit, w.heap.Reachable ∧ v.heap.Reachable ∧
      w.heap.snapshot = .ok [⟨1, 0⟩, ⟨2, 1⟩, ⟨3, 2⟩] ∧
      v.heap.snapshot = .ok [⟨1, 0⟩, ⟨3, 2⟩, ⟨2, 1⟩] ∧
      ∃ es w' es' v', silent.Drains w es w' ∧ silent.Drains v es' v' ∧ es.length = 3 ∧
        es.Pairwise (·.key ≤ ·.key) ∧ es'.map (·.key) = es.map (·.key) ∧
        es'.map (·.id) = es.map (·.id) := by
  have hw : Observer.silent.performAll [.insert 1 0, .insert 2 1, .insert 3 2] ⟨.empty 3, ()⟩
      = .ok ([.ok none, .ok none, .ok none],
        ⟨⟨#[.sentinel, ⟨1, 0⟩, ⟨2, 1⟩, ⟨3, 2⟩], ⟨#[1, 2, 3]⟩, 3⟩, ()⟩) := by cbv
  have hv : Observer.silent.performAll [.insert 3 2, .insert 1 0, .insert 2 1] ⟨.empty 4, ()⟩
      = .ok ([.ok none, .ok none, .ok none],
        ⟨⟨#[.sentinel, ⟨1, 0⟩, ⟨3, 2⟩, ⟨2, 1⟩, .blank], ⟨#[1, 3, 2, 0]⟩, 3⟩, ()⟩) := by cbv
  have hrw := (Heap.Reachable.fresh 3 (by decide)).performAll (w := ⟨.empty 3, ()⟩) hw
  have hrv := (Heap.Reachable.fresh 4 (by decide)).performAll (w := ⟨.empty 4, ()⟩) hv
  have hkeys := (hrv.valid.toList_perm_iff hrw.valid).mp (by decide)
  obtain ⟨members, es, w', hsnap, hd, -, hlen, hperm, hsorted, hsame⟩ := drains_sorted silent hrw
  obtain ⟨es', v', hd'⟩ := exists_drains silent hrv.valid
  obtain ⟨hk, hid⟩ := hsame silent hrv
    (fun id => by rw [hrv.valid.keyOf_eq, hrw.valid.keyOf_eq, hkeys]) hd'
  rw [hrw.valid.snapshot_eq] at hsnap
  obtain rfl := Except.ok.inj hsnap
  have hnd := (hperm.map (·.key)).nodup_iff.mpr (by decide)
  exact ⟨_, _, hrw, hrv, by cbv, by cbv, es, w', es', v', hd, hd', hlen, hsorted, hk, hid hnd⟩

end AddressableHeap
