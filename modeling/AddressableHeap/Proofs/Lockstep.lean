import AddressableHeap.Proofs.Evolution
import AddressableHeap.Proofs.Heap.Alike
import Mathlib

/-!
# Heaps in lockstep

Two heaps go in lockstep if the same requests get the same answers from both, one after the other, and
no question tells them apart before, in between and after. What a heap will do is decided by its
capacity and its members in the order of their slots; what its history has left behind has no part in
it. And as long as nothing is turned down for want of room, not even the capacity has.
-/

namespace AddressableHeap

variable {σ τ : Type} {watch : Observer σ} {watch' : Observer τ} {w v : Watched σ} {w' : Watched τ}

/-- No question at all tells the two heaps apart. -/
structure Heap.Twins (h h' : Heap) : Prop extends h.LooksLike h' where
  capacity : h.capacity = h'.capacity
  outline : Checked.Concur h.outline h'.outline

/-- The heaps are the `same` now, and under these requests they go on to give the same answers and to
be the `same`. -/
def Watched.Lockstep (same : Heap → Heap → Prop) (watch : Observer σ) (watch' : Observer τ) :
    Watched σ → Watched τ → List Mutation → Prop
  | w, w', [] => same w.heap w'.heap
  | w, w', m :: ms => same w.heap w'.heap ∧ ∃ reply v v', watch.perform m w = .ok (reply, v) ∧
      watch'.perform m w' = .ok (reply, v') ∧ Lockstep same watch watch' v v' ms

/-! ## One request -/

theorem Heap.Alike.perform (ha : w.heap.Alike w'.heap) (watch : Observer σ) (watch' : Observer τ)
    {m : Mutation} (hm : AlikeAfter (w.heap.apply m) (w'.heap.apply m)) :
    ∃ reply v v', watch.perform m w = .ok (reply, v) ∧ watch'.perform m w' = .ok (reply, v') ∧
      v.heap.Alike v'.heap ∧ v.heap.capacity = w.heap.capacity ∧
      v'.heap.capacity = w'.heap.capacity := by
  obtain ⟨reply, k, k', he, he', hk⟩ := hm
  exact ⟨reply, _, _, watch.around_eq_of_ok ha.valid he hk.valid,
    watch'.around_eq_of_ok ha.valid' he' hk.valid', hk, (ha.valid.of_apply he).2,
    (ha.valid'.of_apply he').2⟩

theorem Observer.performAll_total (watch : Observer σ) (hv : w.heap.Valid) (ms : List Mutation) :
    ∃ replies v, watch.performAll ms w = .ok (replies, v) := by
  induction ms generalizing w with
  | nil => exact ⟨[], w, rfl⟩
  | cons m ms ih =>
    obtain ⟨reply, w₁, he, -, hv₁, -⟩ := watch.perform_total hv m
    obtain ⟨replies, v, he'⟩ := ih hv₁
    exact ⟨reply :: replies, v, performAll_cons he he'⟩

/-! ## Heaps of the same capacity -/

namespace Watched

theorem lockstep_of_alike (ha : w.heap.Alike w'.heap)
    (hc : w.heap.capacity = w'.heap.capacity) (ms : List Mutation) :
    w.Lockstep Heap.Twins watch watch' w' ms := by
  have htwins : w.heap.Twins w'.heap := ⟨ha.looksLike, hc, ha.outline hc⟩
  induction ms generalizing w w' with
  | nil => exact htwins
  | cons m ms ih =>
    obtain ⟨reply, v, v', he, he', hv, hcap, hcap'⟩ :=
      ha.perform watch watch' (ha.apply_of_eq hc m)
    have hcv : v.heap.capacity = v'.heap.capacity := by rw [hcap, hcap', hc]
    exact ⟨htwins, reply, v, v', he, he', ih hv hcv ⟨hv.looksLike, hcv, hv.outline hcv⟩⟩

/-- Whatever happened to two heaps of the same capacity before, if they show the same members in the
same order, they go in lockstep. A heap that has been cleared goes in lockstep with a new one. -/
theorem lockstep_of_snapshot_eq (watch : Observer σ) (hr : w.heap.Reachable) :
    (∀ (τ : Type) (watch' : Observer τ) (w' : Watched τ), w'.heap.Reachable →
      w.heap.capacity = w'.heap.capacity → w.heap.snapshot = w'.heap.snapshot →
      ∀ ms, w.Lockstep Heap.Twins watch watch' w' ms) ∧
    ∃ v, watch.perform .clear w = .ok (.ok none, v) ∧
      ∀ (τ : Type) (watch' : Observer τ) (seen : τ) (ms : List Mutation),
        v.Lockstep Heap.Twins watch watch' ⟨.empty w.heap.capacity, seen⟩ ms := by
  have hv := hr.valid
  constructor
  · intro τ watch' w' hr' hc hs ms
    have hv' := hr'.valid
    rw [hv.snapshot_eq, hv'.snapshot_eq, Except.ok.injEq] at hs
    exact lockstep_of_alike ⟨hv, hv', hs⟩ hc ms
  · have hnew := Heap.valid_empty hv.addressable
    refine ⟨_, watch.around_eq_of_ok hv rfl hv.clear.valid, fun τ watch' seen ms => ?_⟩
    -- an empty heap is left as it is when it is cleared
    have ha : w.heap.clear.Alike (Heap.empty w.heap.capacity) := hv.clear_alike hnew
    exact lockstep_of_alike ha (Heap.capacity_empty w.heap.capacity).symm ms

/-- Two heaps that hold element 0 alone, with different notes about elements 1 and 2 and different
entries behind the last slot. -/
theorem lockstep_of_snapshot_eq_of_leftovers :
    ∃ (w : Watched (Array Event)) (w' : Watched Unit), w.heap.index ≠ w'.heap.index ∧
      w.heap.entries ≠ w'.heap.entries ∧ w.heap.Reachable ∧ w'.heap.Reachable ∧
      w.heap.capacity = w'.heap.capacity ∧ w.heap.snapshot = w'.heap.snapshot ∧
      w.Lockstep Heap.Twins .transcript .silent w'
        [.insert 1 1, .remove 2, .update 9 0, .insert 0 2, .removeMin, .clear, .insert 7 2] ∧
      ∃ v, Observer.transcript.perform .clear w = .ok (.ok none, v) ∧
        v.Lockstep Heap.Twins .transcript .silent ⟨.empty 3, ()⟩
          [.remove 0, .insert 4 1, .update 5 2, .insert 4 0, .removeMin] := by
  have hrun : Observer.silent.performAll
      [.insert 5 0, .insert 3 1, .insert 4 2, .remove 2, .removeMin] ⟨.empty 3, ()⟩
      = .ok ([.ok none, .ok none, .ok none, .ok (some 2), .ok (some 1)],
        ⟨⟨#[.sentinel, ⟨5, 0⟩, ⟨3, 1⟩, ⟨4, 2⟩], ⟨#[1, 2, 3]⟩, 1⟩, ()⟩) := by cbv
  have hrun' : Observer.silent.performAll [.insert 9 1, .clear, .insert 5 0] ⟨.empty 3, ()⟩
      = .ok ([.ok none, .ok none, .ok none],
        ⟨⟨#[.sentinel, ⟨5, 0⟩, .blank, .blank], ⟨#[1, 1, 0]⟩, 1⟩, ()⟩) := by cbv
  have hr := (Heap.Reachable.fresh 3 (by decide)).performAll hrun
  have hr' := (Heap.Reachable.fresh 3 (by decide)).performAll hrun'
  refine ⟨⟨_, #[]⟩, ⟨_, ()⟩, ?_, ?_, hr, hr', rfl, by cbv, ?_, ?_⟩
  · decide
  · decide
  · exact (lockstep_of_snapshot_eq .transcript hr).1 Unit .silent ⟨_, ()⟩ hr' rfl (by cbv) _
  · obtain ⟨v, he, hv⟩ := (lockstep_of_snapshot_eq (w := ⟨_, #[]⟩) .transcript hr).2
    exact ⟨v, he, hv Unit .silent () _⟩

/-! ## Heaps of different capacity -/

/-- A heap goes in lockstep with a larger one as long as it turns nothing down for want of room. -/
theorem lockstep_of_roomy {ms : List Mutation} {replies : List Reply}
    (ha : w.heap.Alike w'.heap) (hle : w.heap.capacity ≤ w'.heap.capacity)
    (he : watch.performAll ms w = .ok (replies, v))
    (hroom : ∀ reason, .error reason ∈ replies → ¬ reason.Cramped) :
    w.Lockstep Heap.LooksLike watch watch' w' ms := by
  induction ms generalizing w w' replies with
  | nil => exact ha.looksLike
  | cons m ms ih =>
    simp only [Observer.performAll, Checked.bind_eq_ok] at he
    obtain ⟨⟨reply, w₁⟩, hm, ⟨rest, w₂⟩, hms, he⟩ := he
    obtain ⟨rfl, rfl⟩ := Prod.mk.inj (Except.ok.inj he)
    rcases ha.apply_of_le hle m with ⟨reason, happ, hcramped⟩ | hafter
    · -- this is the answer of the small heap, and there is none of its kind
      rw [Observer.of_around_eq_ok hm, Except.ok.injEq, Prod.mk.injEq] at happ
      exact absurd hcramped (hroom reason (happ.1 ▸ List.mem_cons_self ..))
    · obtain ⟨reply', v, v', hv, hv', halike, hcap, hcap'⟩ := ha.perform watch watch' hafter
      rw [hm, Except.ok.injEq, Prod.mk.injEq] at hv
      obtain ⟨rfl, rfl⟩ := hv
      refine ⟨ha.looksLike, reply, _, v', hm, hv', ih halike ?_ hms ?_⟩
      · rw [hcap, hcap']
        exact hle
      · exact fun reason hmem => hroom reason (List.mem_cons_of_mem _ hmem)

/-- Requests that an empty heap answers without ever turning one down for want of room are answered
in the same way by every larger one, and meanwhile the two look the same. -/
theorem lockstep_of_capacity_le (watch : Observer σ) (watch' : Observer τ) (seen : σ) (seen' : τ)
    {small large : Nat} (hle : small ≤ large) (hc : large + 1 < UInt64.size)
    (ms : List Mutation) :
    ∃ replies v, watch.performAll ms ⟨.empty small, seen⟩ = .ok (replies, v) ∧
      ((∀ reason, .error reason ∈ replies → ¬ reason.Cramped) →
        (⟨.empty small, seen⟩ : Watched σ).Lockstep Heap.LooksLike watch watch'
          ⟨.empty large, seen'⟩ ms) := by
  have hv := Heap.valid_empty (show small + 1 < UInt64.size by omega)
  obtain ⟨replies, v, he⟩ := watch.performAll_total (w := ⟨.empty small, seen⟩) hv ms
  have ha : (Heap.empty small).Alike (Heap.empty large) := hv.clear_alike (Heap.valid_empty hc)
  refine ⟨replies, v, he, lockstep_of_roomy ha ?_ he⟩
  rw [Heap.capacity_empty, Heap.capacity_empty]
  exact hle

/-- Elements 3 and 4 are out of range for one heap and merely absent from the other. -/
theorem lockstep_of_capacity_le_of_two :
    2 ≤ 5 ∧ 5 + 1 < UInt64.size ∧
      (⟨.empty 2, ()⟩ : Watched Unit).Lockstep Heap.LooksLike .silent .transcript ⟨.empty 5, #[]⟩
        [.insert 5 0, .insert (-3) 1, .update 7 3, .remove 4, .removeMin, .insert 2 1] := by
  refine ⟨by decide, by decide, ?_⟩
  obtain ⟨replies, v, he, hlock⟩ := lockstep_of_capacity_le .silent .transcript () #[]
    (show 2 ≤ 5 by decide) (by decide)
    [.insert 5 0, .insert (-3) 1, .update 7 3, .remove 4, .removeMin, .insert 2 1]
  have hreplies : Prod.fst <$> Observer.silent.performAll
      [.insert 5 0, .insert (-3) 1, .update 7 3, .remove 4, .removeMin, .insert 2 1]
      ⟨.empty 2, ()⟩ = .ok [.ok none, .ok none, .error (.unknown 3), .error (.unknown 4),
        .ok (some 1), .ok none] := by cbv
  rw [he] at hreplies
  obtain rfl := Except.ok.inj hreplies
  refine hlock fun reason hmem => ?_
  simp only [List.mem_cons, Except.error.injEq, reduceCtorEq, false_or, or_false,
    List.not_mem_nil] at hmem
  rcases hmem with rfl | rfl <;> exact id

end Watched

end AddressableHeap
