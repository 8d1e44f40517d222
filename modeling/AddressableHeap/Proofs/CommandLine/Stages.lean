import AddressableHeap.CommandLine.Report
import AddressableHeap.Proofs.Digest

/-!
# Demonstrations of a heap

The demonstration of a heap raises no fault, whatever the heap has room for: it ends when the heap is
empty, or with the first request that is turned down. Its observer sees what happens on the stage and
takes no part in it, so from the notes of one observer those of others can be made.
-/

namespace AddressableHeap.CommandLine.Stage

variable {watch watch' : Observer (Array Event)} {φ : Array Event → Array Event} {s : Stage}

/-! ## What an observer has to do with it -/

/-- The same stage under other notes. -/
def map (φ : Array Event → Array Event) (s : Stage) : Stage := ⟨s.heap.map φ, s.printed⟩

theorem printHeap_map (φ : Array Event → Array Event) (s : Stage) :
    printHeap (s.map φ) = map φ <$> printHeap s := by
  unfold printHeap
  rw [map_bind]
  rfl

theorem insertAll_map (hd : watch'.Digests φ watch) (ids : List Nat) (s : Stage) :
    insertAll watch' ids (s.map φ) = Prod.map id (map φ) <$> insertAll watch ids s := by
  induction ids generalizing s with
  | nil => rfl
  | cons id ids ih =>
    simp only [insertAll, map, Observer.insert, Observer.around_map hd, bind_map_left, map_bind]
    refine bind_congr ?_
    rintro ⟨reply, heap⟩
    cases reply with
    | error reason => rfl
    | ok _ => exact ih ⟨heap, s.printed⟩

theorem removeAll_map (hd : watch'.Digests φ watch) (ids : List Nat) (s : Stage) :
    removeAll watch' ids (s.map φ) = Prod.map id (map φ) <$> removeAll watch ids s := by
  induction ids generalizing s with
  | nil => rfl
  | cons id ids ih =>
    simp only [removeAll, map, Observer.perform_map hd, bind_map_left, map_bind]
    refine bind_congr ?_
    rintro ⟨reply, heap⟩
    cases reply with
    | error reason => rfl
    | ok gone =>
      have hprint := printHeap_map φ ⟨heap, s.printed⟩
      simp only [map] at hprint
      simp only [Prod.map, hprint, bind_map_left, map_bind]
      exact bind_congr fun s' => ih s'

theorem takeAll_of_isEmpty (watch : Observer (Array Event)) (rounds : Nat)
    (h0 : s.heap.heap.isEmpty = true) : takeAll watch rounds s = .ok (none, s) := by
  unfold takeAll
  rw [if_pos h0]
  rfl

theorem takeAll_map (hd : watch'.Digests φ watch) (rounds : Nat) (s : Stage) :
    takeAll watch' rounds (s.map φ) = Prod.map id (map φ) <$> takeAll watch rounds s := by
  induction rounds generalizing s with
  | zero =>
    by_cases h0 : s.heap.heap.isEmpty = true
    · have h0' : (s.map φ).heap.heap.isEmpty = true := h0
      rw [takeAll_of_isEmpty watch 0 h0, takeAll_of_isEmpty watch' 0 h0']
      rfl
    · have h0' : ¬ (s.map φ).heap.heap.isEmpty = true := h0
      unfold takeAll
      rw [if_neg h0, if_neg h0']
      rfl
  | succ rounds ih =>
    by_cases h0 : s.heap.heap.isEmpty = true
    · have h0' : (s.map φ).heap.heap.isEmpty = true := h0
      rw [takeAll_of_isEmpty watch _ h0, takeAll_of_isEmpty watch' _ h0']
      rfl
    · have h0' : ¬ (s.map φ).heap.heap.isEmpty = true := h0
      unfold takeAll
      rw [if_neg h0, if_neg h0']
      simp only [map, Observer.removeMin, Observer.around_map hd, bind_map_left, map_bind]
      refine bind_congr ?_
      rintro ⟨reply, heap⟩
      cases reply with
      | error reason => rfl
      | ok gone =>
        have hprint := printHeap_map φ ⟨heap, s.printed ++ [toString gone]⟩
        simp only [map] at hprint
        simp only [Prod.map, id_eq, hprint, bind_map_left, map_bind]
        exact bind_congr fun s' => ih s'

/-- Observers of a demonstration differ in their notes and in nothing else. -/
theorem demonstrate_map (hd : watch'.Digests φ watch) (s : Stage) :
    demonstrate watch' (s.map φ) = Prod.map id (map φ) <$> demonstrate watch s := by
  simp only [demonstrate, insertAll_map hd, bind_map_left, map_bind]
  refine bind_congr ?_
  rintro ⟨failure, s₁⟩
  cases failure with
  | some failure => rfl
  | none =>
    simp only [Prod.map, printHeap_map, bind_map_left, map_bind]
    refine bind_congr fun s₂ => ?_
    simp only [removeAll_map hd, bind_map_left]
    refine bind_congr ?_
    rintro ⟨failure, s₃⟩
    cases failure with
    | some failure => rfl
    | none => exact takeAll_map hd _ s₃

/-! ## Nothing goes wrong -/

theorem printHeap_total (hv : s.heap.heap.Valid) :
    ∃ s', printHeap s = .ok s' ∧ s'.heap.heap.Valid ∧ s'.heap.heap.size = s.heap.heap.size := by
  unfold printHeap Heap.text
  rw [hv.snapshot_eq]
  exact ⟨_, rfl, hv, rfl⟩

theorem insertAll_total (watch : Observer (Array Event)) (ids : List Nat)
    (hv : s.heap.heap.Valid) :
    ∃ failure s', insertAll watch ids s = .ok (failure, s') ∧ s'.heap.heap.Valid := by
  induction ids generalizing s with
  | nil => exact ⟨none, s, rfl, hv⟩
  | cons id ids ih =>
    obtain ⟨reply, h', he, hv', -⟩ := hv.insert_total (Int64.ofNat id) id
    have hins : watch.insert (Int64.ofNat id) id s.heap = _ := watch.around_eq_of_ok hv he hv'
    unfold insertAll
    simp only [hins, Checked.ok_bind]
    cases reply with
    | error reason => exact ⟨_, _, rfl, hv'⟩
    | ok _ => exact ih hv'

theorem removeAll_total (watch : Observer (Array Event)) (ids : List Nat)
    (hv : s.heap.heap.Valid) :
    ∃ failure s', removeAll watch ids s = .ok (failure, s') ∧ s'.heap.heap.Valid := by
  induction ids generalizing s with
  | nil => exact ⟨none, s, rfl, hv⟩
  | cons id ids ih =>
    obtain ⟨reply, w', hrem, -, hv', -⟩ := watch.perform_total hv (.remove id)
    unfold removeAll
    simp only [hrem, Checked.ok_bind]
    cases reply with
    | error reason => exact ⟨_, _, rfl, hv'⟩
    | ok _ =>
      obtain ⟨s', hprint, hv₁, -⟩ := printHeap_total (s := { s with heap := w' }) hv'
      simp only [hprint, Checked.ok_bind]
      exact ih hv₁

/-- As many rounds as members are enough. -/
theorem takeAll_total (watch : Observer (Array Event)) (rounds : Nat) (hv : s.heap.heap.Valid)
    (hrounds : s.heap.heap.size ≤ rounds) :
    ∃ failure s', takeAll watch rounds s = .ok (failure, s') := by
  induction rounds generalizing s with
  | zero =>
    exact ⟨none, s, takeAll_of_isEmpty watch 0 (hv.isEmpty_iff.mpr (Nat.le_zero.mp hrounds))⟩
  | succ rounds ih =>
    by_cases h0 : s.heap.heap.size = 0
    · exact ⟨none, s, takeAll_of_isEmpty watch _ (hv.isEmpty_iff.mpr h0)⟩
    · obtain ⟨h', he, hb⟩ := hv.removeMin_ok (Nat.one_le_iff_ne_zero.mpr h0)
      obtain ⟨w', hrem, hheap⟩ : ∃ w', watch.removeMin s.heap
          = .ok (.ok (s.heap.heap.entryAt 1).id, w') ∧ w'.heap = h' :=
        ⟨_, watch.around_eq_of_ok hv he hb.valid, rfl⟩
      rw [← hheap] at hb
      obtain ⟨s', hprint, hv', hsize⟩ := printHeap_total
        (s := ⟨w', s.printed ++ [toString (s.heap.heap.entryAt 1).id]⟩) hb.valid
      have hgone : s'.heap.heap.size = s.heap.heap.size - 1 := hsize.trans hb.size_eq
      have hless : s'.heap.heap.size ≤ rounds := by omega
      unfold takeAll
      rw [if_neg (mt hv.isEmpty_iff.mp h0)]
      simp only [hrem, Checked.ok_bind, hprint]
      exact ih hv' hless

/-- The demonstration of a heap ends, one way or another. -/
theorem demonstrate_total (watch : Observer (Array Event)) (hv : s.heap.heap.Valid) :
    ∃ failure s', demonstrate watch s = .ok (failure, s') := by
  obtain ⟨failure, s₁, hins, hv₁⟩ := insertAll_total watch [1, 2, 3, 4, 5, 6, 7, 8] hv
  unfold demonstrate
  simp only [hins, Checked.ok_bind]
  cases failure with
  | some failure => exact ⟨_, s₁, rfl⟩
  | none =>
    obtain ⟨s₂, hprint, hv₂, -⟩ := printHeap_total hv₁
    obtain ⟨failure, s₃, hrem, hv₃⟩ := removeAll_total watch [2, 5, 8] hv₂
    simp only [hprint, Checked.ok_bind, hrem]
    cases failure with
    | some failure => exact ⟨_, s₃, rfl⟩
    | none => exact takeAll_total watch _ hv₃ (Nat.le_refl _)

end AddressableHeap.CommandLine.Stage
