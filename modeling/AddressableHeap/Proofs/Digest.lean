import AddressableHeap.Proofs.Evolution
import Mathlib.Control.Basic

/-!
# Observers only watch

If the notes of one observer can be made into the notes of another event by event, then so can their
notes of everything that is done under observation, from a single request to any use of a heap. This
is all in which the two differ: the answers and the heaps are the same, and so is the fault, should
there be one. Every observer stands in this relation to the one that notes down everything, and to
the one that notes down nothing.
-/

namespace AddressableHeap

variable {σ τ α : Type} {watch : Observer σ} {watch' : Observer τ} {φ : σ → τ}

/-- The same heap under other notes. -/
def Watched.map (φ : σ → τ) (w : Watched σ) : Watched τ := ⟨w.heap, φ w.seen⟩

theorem Watched.of_map_eq_ok {x : Checked (α × Watched σ)} {a : α} {v : Watched τ}
    (he : Prod.map id (Watched.map φ) <$> x = .ok (a, v)) :
    ∃ w, x = .ok (a, w) ∧ w.map φ = v := by
  cases x with
  | error fault => exact nomatch he
  | ok result =>
    obtain ⟨rfl, rfl⟩ := Prod.mk.inj (Except.ok.inj he)
    exact ⟨_, rfl, rfl⟩

def Search.map (φ : σ → τ) (s : Search σ) : Search τ := ⟨s.visits, s.frontier.map φ⟩

namespace Observer

/-- Digesting the notes of `watch` by `φ` gives the notes that `watch'` would have taken. -/
def Digests (watch' : Observer τ) (φ : σ → τ) (watch : Observer σ) : Prop :=
  ∀ event seen, φ (watch.react event seen) = watch'.react event (φ seen)

/-- Whoever knows all the events knows the notes of every observer. -/
theorem digests_transcript (watch : Observer σ) (seen : σ) :
    watch.Digests (fun events => watch.feed events.toList seen) transcript := by
  intro event events
  simp [transcript, feed]

theorem silent_digests (watch : Observer σ) : (silent : Observer Unit).Digests (fun _ => ()) watch :=
  fun _ _ => rfl

/-! ## Requests -/

theorem around_map (hd : watch'.Digests φ watch) (m : Mutation)
    (act : Heap → Checked (Except Rejection α × Heap)) (w : Watched σ) :
    watch'.around m act (w.map φ) = Prod.map id (Watched.map φ) <$> watch.around m act w := by
  unfold around
  simp only [map_bind, Watched.map]
  refine bind_congr fun former => bind_congr ?_
  rintro ⟨reply, heap⟩
  refine bind_congr fun members => ?_
  cases reply <;> simp [hd _ _, Prod.map, Watched.map]

theorem perform_map (hd : watch'.Digests φ watch) (m : Mutation) (w : Watched σ) :
    watch'.perform m (w.map φ) = Prod.map id (Watched.map φ) <$> watch.perform m w :=
  around_map hd ..

end Observer

/-! ## The steps of a search -/

namespace Search

theorem enter_map (hd : watch'.Digests φ watch) (key : Key) (node : Nat) (w : Watched σ) :
    enter watch' key node (w.map φ) = Prod.map id (Watched.map φ) <$> enter watch key node w := by
  unfold enter
  rw [map_bind]
  refine bind_congr fun found => ?_
  split
  · exact Observer.around_map hd ..
  · exact Observer.around_map hd ..

theorem relax_map (hd : watch'.Digests φ watch) (here : Nat) (edge : Edge) (s : Search σ) :
    relax watch' here edge (s.map φ) = Prod.map id (map φ) <$> relax watch here edge s := by
  unfold relax
  simp only [map_bind]
  refine bind_congr fun there => ?_
  split
  · rfl
  · simp only [map_bind]
    refine bind_congr fun visit => bind_congr fun distance => ?_
    split
    · simp only [map_bind]
      refine bind_congr fun visits => ?_
      have henter := enter_map hd (.ofDistance distance) edge.target
        ⟨s.frontier.heap, watch.react
          (.notice (.relaxed here edge.target distance there.distance)) s.frontier.seen⟩
      simp only [Watched.map, hd _ _] at henter
      simp only [map, Watched.map]
      rw [henter, bind_map_left]
      rfl
    · rfl

theorem relaxAll_map (hd : watch'.Digests φ watch) (here : Nat) (edges : List Edge)
    (s : Search σ) :
    relaxAll watch' here edges (s.map φ) = Prod.map id (map φ) <$> relaxAll watch here edges s := by
  induction edges generalizing s with
  | nil => rfl
  | cons edge edges ih =>
    simp only [relaxAll, relax_map hd, bind_map_left, map_bind]
    refine bind_congr ?_
    rintro ⟨reply, s₁⟩
    cases reply with
    | error reason => rfl
    | ok _ => exact ih s₁

theorem step_map (hd : watch'.Digests φ watch) (g : Graph) (source target : Nat) (s : Search σ) :
    step watch' g source target (s.map φ)
      = Prod.map id (map φ) <$> step watch g source target s := by
  unfold step Observer.removeMin
  simp only [map, Observer.around_map hd, bind_map_left, map_bind]
  refine bind_congr ?_
  rintro ⟨reply, w⟩
  cases reply with
  | error reason => rfl
  | ok here =>
    simp only [map_bind, Prod.map]
    refine bind_congr fun visit => bind_congr fun visits => ?_
    split
    · rw [map_bind]
      rfl
    · rw [map_bind]
      refine bind_congr fun edges => ?_
      have hrelax := relaxAll_map hd here edges ⟨visits, w⟩
      simp only [map] at hrelax
      rw [hrelax, bind_map_left, map_bind]
      refine bind_congr ?_
      rintro ⟨reply, s₁⟩
      cases reply <;> rfl

theorem run_map (hd : watch'.Digests φ watch) (g : Graph) (source target rounds : Nat)
    (s : Search σ) :
    run watch' g source target rounds (s.map φ)
      = Prod.map id (map φ) <$> run watch g source target rounds s := by
  induction rounds generalizing s with
  | zero =>
    unfold run
    by_cases h0 : s.frontier.heap.isEmpty = true
    · rw [if_pos h0, if_pos (show (s.map φ).frontier.heap.isEmpty = true from h0)]
      rfl
    · rw [if_neg h0, if_neg (show ¬ (s.map φ).frontier.heap.isEmpty = true from h0)]
      rfl
  | succ rounds ih =>
    unfold run
    by_cases h0 : s.frontier.heap.isEmpty = true
    · rw [if_pos h0, if_pos (show (s.map φ).frontier.heap.isEmpty = true from h0)]
      rfl
    · rw [if_neg h0, if_neg (show ¬ (s.map φ).frontier.heap.isEmpty = true from h0)]
      simp only [step_map hd, bind_map_left, map_bind]
      refine bind_congr ?_
      rintro ⟨verdict?, s₁⟩
      cases verdict? with
      | some verdict => rfl
      | none => exact ih s₁

end Search

/-! ## All uses -/

theorem Graph.shortestPathWith_map (hd : watch'.Digests φ watch) (g : Graph)
    (source target : Nat) (w : Watched σ) :
    g.shortestPathWith watch' source target (w.map φ)
      = Prod.map id (Watched.map φ) <$> g.shortestPathWith watch source target w := by
  unfold shortestPathWith
  split
  · rfl
  · split
    · rfl
    · simp only [Observer.perform_map hd, bind_map_left, map_bind, Observer.insert]
      refine bind_congr ?_
      rintro ⟨-, w₁⟩
      refine bind_congr fun visits => ?_
      simp only [Prod.map, Observer.around_map hd, bind_map_left]
      refine bind_congr ?_
      rintro ⟨reply, w₂⟩
      cases reply with
      | error reason => rfl
      | ok _ =>
        have hrun := Search.run_map hd g source target g.size ⟨visits, w₂⟩
        simp only [Search.map] at hrun
        simp only [Prod.map, hrun, bind_map_left, map_bind]
        rfl

/-- A search answers the same under every observer. -/
theorem Graph.shortestPathWith_eq_ok {g : Graph} {source target : Nat} {h : Heap} {seen : σ}
    {answer : Except Failure (Option Path)} {v : Watched σ}
    (he : g.shortestPathWith watch source target ⟨h, seen⟩ = .ok (answer, v))
    (watch' : Observer τ) (seen' : τ) :
    ∃ v', g.shortestPathWith watch' source target ⟨h, seen'⟩ = .ok (answer, v') ∧
      v'.heap = v.heap := by
  have hsilent := shortestPathWith_map watch.silent_digests g source target ⟨h, seen⟩
  have hsilent' := shortestPathWith_map watch'.silent_digests g source target ⟨h, seen'⟩
  rw [he] at hsilent
  obtain ⟨v', he', hv'⟩ := Watched.of_map_eq_ok (hsilent'.symm.trans hsilent)
  exact ⟨v', he', congrArg Watched.heap hv'⟩

namespace Observer

theorem use_map (hd : watch'.Digests φ watch) (use : Use) (w : Watched σ) :
    watch'.use use (w.map φ) = Prod.map id (Watched.map φ) <$> watch.use use w := by
  cases use with
  | mutate m =>
    simp only [Observer.use, perform_map hd, bind_map_left, map_bind]
    rfl
  | search g source target =>
    simp only [Observer.use, Graph.shortestPathWith_map hd, bind_map_left, map_bind]
    rfl

/-- Observers differ in their notes and in nothing else. -/
theorem useAll_map (hd : watch'.Digests φ watch) (uses : List Use) (w : Watched σ) :
    watch'.useAll uses (w.map φ) = Prod.map id (Watched.map φ) <$> watch.useAll uses w := by
  induction uses generalizing w with
  | nil => rfl
  | cons use uses ih =>
    simp only [useAll, use_map hd, bind_map_left, map_bind]
    refine bind_congr ?_
    rintro ⟨answer, w₁⟩
    simp only [Prod.map, ih, bind_map_left]
    rfl

end Observer

end AddressableHeap
