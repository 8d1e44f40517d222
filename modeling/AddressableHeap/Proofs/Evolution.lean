import AddressableHeap.Proofs.Calls
import Mathlib.Data.List.Permutation

/-!
# How a heap can change

Whatever a search is run on, and whether it ends with a path, without one, or with a rejection, the
heap it leaves could have been made from the heap it was given by mutations alone, and is valid if that
heap was. The heaps that can be reached from an empty one by mutations and searches are therefore
valid.
-/

namespace AddressableHeap

variable {σ α : Type} {watch : Observer σ}

namespace Heap

variable {h h' h'' : Heap}

/-- Mutations can make the second heap out of the first. -/
def Evolves (h h' : Heap) : Prop := ∃ ms replies, h.applyAll ms = .ok (replies, h')

theorem applyAll_append {ms ms' : List Mutation} {replies replies' : List Reply}
    (he : h.applyAll ms = .ok (replies, h')) (he' : h'.applyAll ms' = .ok (replies', h'')) :
    h.applyAll (ms ++ ms') = .ok (replies ++ replies', h'') := by
  induction ms generalizing h replies with
  | nil =>
    obtain ⟨rfl, rfl⟩ := Prod.mk.inj (Except.ok.inj he)
    exact he'
  | cons m ms ih =>
    simp only [applyAll, Checked.bind_eq_ok] at he
    obtain ⟨⟨reply, h₁⟩, hm, ⟨rest, h₂⟩, hms, he⟩ := he
    obtain ⟨rfl, rfl⟩ := Prod.mk.inj (Except.ok.inj he)
    simp only [List.cons_append, applyAll, hm, Checked.ok_bind, ih hms]
    rfl

namespace Evolves

theorem refl (h : Heap) : h.Evolves h := ⟨[], [], rfl⟩

theorem trans (h₁ : h.Evolves h') (h₂ : h'.Evolves h'') : h.Evolves h'' := by
  obtain ⟨ms, replies, he⟩ := h₁
  obtain ⟨ms', replies', he'⟩ := h₂
  exact ⟨ms ++ ms', replies ++ replies', applyAll_append he he'⟩

theorem of_apply {m : Mutation} {reply : Reply} (he : h.apply m = .ok (reply, h')) :
    h.Evolves h' :=
  ⟨[m], [reply], by simp only [applyAll, he, Checked.ok_bind]; rfl⟩

theorem of_insert {key : Key} {id : Id} {reply : Except Rejection Unit}
    (he : h.insert key id = .ok (reply, h')) : h.Evolves h' :=
  of_apply (m := .insert key id) (by rw [apply, he]; rfl)

theorem of_update {key : Key} {id : Id} {reply : Except Rejection Unit}
    (he : h.update key id = .ok (reply, h')) : h.Evolves h' :=
  of_apply (m := .update key id) (by rw [apply, he]; rfl)

theorem of_removeMin {reply : Except Rejection Id} (he : h.removeMin = .ok (reply, h')) :
    h.Evolves h' :=
  of_apply (m := .removeMin) (by rw [apply, he]; rfl)

theorem valid (he : h.Evolves h') (hv : h.Valid) : h'.Valid ∧ h'.capacity = h.capacity := by
  obtain ⟨ms, replies, he⟩ := he
  induction ms generalizing h replies with
  | nil =>
    obtain ⟨-, rfl⟩ := Prod.mk.inj (Except.ok.inj he)
    exact ⟨hv, rfl⟩
  | cons m ms ih =>
    simp only [applyAll, Checked.bind_eq_ok] at he
    obtain ⟨⟨reply, h₁⟩, hm, ⟨rest, h₂⟩, hms, he⟩ := he
    obtain ⟨-, rfl⟩ := Prod.mk.inj (Except.ok.inj he)
    obtain ⟨hv₁, hc₁⟩ := hv.of_apply hm
    obtain ⟨hv₂, hc₂⟩ := ih hv₁ _ hms
    exact ⟨hv₂, hc₂.trans hc₁⟩

end Evolves

end Heap

/-- What calls have made of a heap, mutations can make of it. -/
theorem Heap.Serves.evolves {h h' : Heap} {calls : List Call} (hs : h.Serves calls h') :
    h.Evolves h' := by
  induction hs with
  | nil h => exact .refl h
  | cons he _ _ _ ih => exact (Heap.Evolves.of_apply he).trans ih

/-! ## The steps of a search -/

namespace Search

variable {g : Graph} {source target here : Nat} {s s' : Search σ}

theorem enter_evolves {key : Key} {node : Nat} {w w' : Watched σ} {reply : Except Rejection Unit}
    (he : enter watch key node w = .ok (reply, w')) : w.heap.Evolves w'.heap := by
  obtain ⟨calls, ht, -⟩ := enter_tells he
  exact ht.serves.evolves

theorem relax_evolves {edge : Edge} {reply : Except Rejection Unit}
    (he : relax watch here edge s = .ok (reply, s')) :
    s.frontier.heap.Evolves s'.frontier.heap := by
  obtain ⟨calls, ht, -⟩ := relax_tells he
  exact ht.serves.evolves

theorem step_evolves {verdict? : Option Verdict}
    (he : step watch g source target s = .ok (verdict?, s')) :
    s.frontier.heap.Evolves s'.frontier.heap := by
  obtain ⟨calls, ht, -⟩ := step_tells he
  exact ht.serves.evolves

end Search

/-- Whatever a search answers, its frontier has evolved from the heap it was given. -/
theorem Graph.shortestPathWith_evolves {g : Graph} {source target : Nat} {w w' : Watched σ}
    {answer : Except Failure (Option Path)}
    (he : g.shortestPathWith watch source target w = .ok (answer, w')) :
    w.heap.Evolves w'.heap := by
  obtain ⟨calls, ht, -⟩ := shortestPathWith_tells he
  exact ht.serves.evolves

/-! ## Using a heap -/

/-- What a heap can be used for. -/
inductive Use where
  | mutate (m : Mutation)
  | search (g : Graph) (source target : Nat)

/-- What a use answers. -/
inductive Answer where
  | reply (reply : Reply)
  | found (result : Except Graph.Failure (Option Path))

/-- Use a heap under observation. -/
def Observer.use (watch : Observer σ) : Use → Watched σ → Checked (Answer × Watched σ)
  | .mutate m, w => do
    let (reply, w) ← watch.perform m w
    pure (.reply reply, w)
  | .search g source target, w => do
    let (result, w) ← g.shortestPathWith watch source target w
    pure (.found result, w)

/-- Use a heap again and again and collect the answers. Neither a rejection nor a search that fails
ends the run. -/
def Observer.useAll (watch : Observer σ) : List Use → Watched σ → Checked (List Answer × Watched σ)
  | [], w => pure ([], w)
  | use :: uses, w => do
    let (answer, w) ← watch.use use w
    let (answers, w) ← watch.useAll uses w
    pure (answer :: answers, w)

/-- A heap that has evolved from an empty one whose slots can be addressed, by mutations and by
searches, whether these were turned down or not. -/
inductive Heap.Reachable : Heap → Prop where
  | fresh (capacity : Nat) : capacity + 1 < UInt64.size → Reachable (.empty capacity)
  | used {σ : Type} {watch : Observer σ} {use : Use} {w w' : Watched σ} {answer : Answer} :
      Reachable w.heap → watch.use use w = .ok (answer, w') → Reachable w'.heap

namespace Observer

variable {w w' : Watched σ} {use : Use} {uses : List Use}

theorem use_evolves {answer : Answer} (he : watch.use use w = .ok (answer, w')) :
    w.heap.Evolves w'.heap := by
  cases use with
  | mutate m =>
    simp only [Observer.use, Checked.bind_eq_ok] at he
    obtain ⟨⟨reply, w₁⟩, hm, he⟩ := he
    obtain ⟨-, rfl⟩ := Prod.mk.inj (Except.ok.inj he)
    exact .of_apply (of_around_eq_ok hm)
  | search g source target =>
    simp only [Observer.use, Checked.bind_eq_ok] at he
    obtain ⟨⟨result, w₁⟩, hs, he⟩ := he
    obtain ⟨-, rfl⟩ := Prod.mk.inj (Except.ok.inj he)
    exact Graph.shortestPathWith_evolves hs

/-- A run of uses makes nothing of a heap that mutations could not make. -/
theorem useAll_evolves {answers : List Answer} (he : watch.useAll uses w = .ok (answers, w')) :
    w.heap.Evolves w'.heap := by
  induction uses generalizing w answers with
  | nil =>
    obtain ⟨-, rfl⟩ := Prod.mk.inj (Except.ok.inj he)
    exact .refl _
  | cons use uses ih =>
    simp only [useAll, Checked.bind_eq_ok] at he
    obtain ⟨⟨answer, w₁⟩, huse, ⟨rest, w₂⟩, hrest, he⟩ := he
    obtain ⟨-, rfl⟩ := Prod.mk.inj (Except.ok.inj he)
    exact (use_evolves huse).trans (ih hrest)

end Observer

theorem Heap.Reachable.valid {h : Heap} (hr : h.Reachable) : h.Valid := by
  induction hr with
  | fresh capacity hc => exact valid_empty hc
  | used _ he ih => exact ((Observer.use_evolves he).valid ih).1

/-- A reachable heap remains reachable under requests. -/
theorem Heap.Reachable.performAll {w v : Watched σ} {ms : List Mutation} {replies : List Reply}
    (hr : w.heap.Reachable) (he : watch.performAll ms w = .ok (replies, v)) :
    v.heap.Reachable := by
  induction ms generalizing w replies with
  | nil =>
    obtain ⟨-, rfl⟩ := Prod.mk.inj (Except.ok.inj he)
    exact hr
  | cons m ms ih =>
    simp only [Observer.performAll, Checked.bind_eq_ok] at he
    obtain ⟨⟨reply, w₁⟩, hm, ⟨rest, w₂⟩, hms, he⟩ := he
    obtain ⟨-, rfl⟩ := Prod.mk.inj (Except.ok.inj he)
    have huse : watch.use (.mutate m) w = .ok (.reply reply, w₁) := by
      rw [Observer.use, hm]
      rfl
    exact ih (hr.used huse) hms

/-- Three elements were inserted and the least of them was removed. It is still to be seen behind the
last slot, and in the index. -/
theorem Heap.reachable_leftovers :
    (⟨#[.sentinel, ⟨4, 2⟩, ⟨5, 0⟩, ⟨3, 1⟩], ⟨#[2, 3, 1]⟩, 2⟩ : Heap).Reachable := by
  have hrun : Observer.silent.performAll [.insert 5 0, .insert 3 1, .insert 4 2, .removeMin]
      ⟨.empty 3, ()⟩ = .ok ([.ok none, .ok none, .ok none, .ok (some 1)],
        ⟨⟨#[.sentinel, ⟨4, 2⟩, ⟨5, 0⟩, ⟨3, 1⟩], ⟨#[2, 3, 1]⟩, 2⟩, ()⟩) := by cbv
  exact (Reachable.fresh 3 (by decide)).performAll hrun

end AddressableHeap
