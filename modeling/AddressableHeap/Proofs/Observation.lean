import AddressableHeap.Observer
import AddressableHeap.Proofs.Heap.Answers

/-!
# Requests under observation

An observed request answers what the request itself answers and leaves the heap that it leaves. On a
valid heap the two snapshots that the observer is shown succeed, and are the members before and after.
-/

namespace AddressableHeap

variable {σ α : Type} {w w' : Watched σ} {m : Mutation}

namespace Observer

/-- The notes after a request: the observer is called before it, told of a rejection, and called after
it. -/
def told (watch : Observer σ) (m : Mutation) (former : List Entry) (reply : Except Rejection α)
    (members : List Entry) (seen : σ) : σ :=
  let seen := watch.react (.callback ⟨.before, m, former⟩) seen
  let seen := match reply with
    | .ok _ => seen
    | .error reason => watch.react (.notice (.rejected reason)) seen
  watch.react (.callback ⟨.after, m, members⟩) seen

/-- A request to a valid heap is carried out under observation. -/
theorem around_eq_of_ok (watch : Observer σ) {act : Heap → Checked (Except Rejection α × Heap)}
    {reply : Except Rejection α} {h' : Heap} (hv : w.heap.Valid)
    (he : act w.heap = .ok (reply, h')) (hv' : h'.Valid) :
    watch.around m act w
      = .ok (reply, ⟨h', watch.told m w.heap.toList reply h'.toList w.seen⟩) := by
  unfold around
  simp only [hv.snapshot_eq, Checked.ok_bind, he, hv'.snapshot_eq]
  rfl

/-- Observation changes neither the answer nor the heap. -/
theorem of_around_eq_ok {watch : Observer σ} {act : Heap → Checked (Except Rejection α × Heap)}
    {reply : Except Rejection α} (he : watch.around m act w = .ok (reply, w')) :
    act w.heap = .ok (reply, w'.heap) := by
  unfold around at he
  simp only [Checked.bind_eq_ok] at he
  obtain ⟨former, -, ⟨reply₁, h₁⟩, hact, members, -, he⟩ := he
  obtain ⟨rfl, rfl⟩ := Prod.mk.inj (Except.ok.inj he)
  exact hact

theorem perform_of_apply (watch : Observer σ) {reply : Reply} {h' : Heap} (hv : w.heap.Valid)
    (he : w.heap.apply m = .ok (reply, h')) :
    ∃ seen, watch.perform m w = .ok (reply, ⟨h', seen⟩) :=
  ⟨_, watch.around_eq_of_ok hv he (hv.of_apply he).1⟩

theorem perform_total (watch : Observer σ) (hv : w.heap.Valid) (m : Mutation) :
    ∃ reply w', watch.perform m w = .ok (reply, w') ∧ w.heap.apply m = .ok (reply, w'.heap) ∧
      w'.heap.Valid ∧ w'.heap.capacity = w.heap.capacity := by
  obtain ⟨reply, h', he, hv', hc⟩ := hv.apply_total m
  exact ⟨reply, _, watch.around_eq_of_ok hv he hv', he, hv', hc⟩

theorem performAll_cons {w₁ : Watched σ} {ms : List Mutation} {reply : Reply} {replies : List Reply}
    {watch : Observer σ} (he : watch.perform m w = .ok (reply, w₁))
    (he' : watch.performAll ms w₁ = .ok (replies, w')) :
    watch.performAll (m :: ms) w = .ok (reply :: replies, w') := by
  simp only [performAll, he, Checked.ok_bind, he']
  rfl

end Observer

end AddressableHeap
