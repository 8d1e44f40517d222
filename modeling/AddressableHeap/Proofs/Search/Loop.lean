import AddressableHeap.Graph.Search
import AddressableHeap.Proofs.Observation

/-!
# The loop of a search

A search takes a node from its frontier in each round, until it has a verdict or the frontier is empty.
Rounds are counted so that the search ends; what it does in them is the same without a count. So what
holds of every round holds of a whole run by induction on the loop, where no count stands in the way.
-/

namespace AddressableHeap

variable {σ : Type} {watch : Observer σ} {g : Graph} {source target : Nat}

/-- Only an empty heap has no least member to give away. -/
theorem Observer.exists_ok_of_removeMin {w w' : Watched σ} {reply : Except Rejection Id}
    (hne : w.heap.isEmpty = false) (he : watch.removeMin w = .ok (reply, w')) :
    ∃ id, reply = .ok id := by
  have happly : w.heap.removeMin = .ok (reply, w'.heap) := of_around_eq_ok he
  unfold Heap.removeMin at happly
  rw [hne, if_neg Bool.false_ne_true] at happly
  rw [Checked.bind_eq_ok] at happly
  obtain ⟨h₁, -, happly⟩ := happly
  split at happly
  all_goals
    simp only [Checked.bind_eq_ok] at happly
    obtain ⟨h₂, -, gone, -, happly⟩ := happly
    exact ⟨gone, (Prod.mk.inj (Except.ok.inj happly)).1.symm⟩

namespace Search

variable {s s₁ s' : Search σ} {nodes : List Nat} {verdict : Verdict}

/-- From `s`, the search takes these nodes from the frontier, one in each round, and ends in `s'`
with a verdict. -/
inductive Loop (watch : Observer σ) (g : Graph) (source target : Nat) :
    Search σ → List Nat → Verdict → Search σ → Prop where
  /-- The frontier is empty. -/
  | idle {s : Search σ} : s.frontier.heap.isEmpty = true →
      Loop watch g source target s [] (.ok none) s
  /-- A round ends the search. -/
  | last {s s' : Search σ} {node : Nat} {w : Watched σ} {verdict : Verdict} :
      s.frontier.heap.isEmpty = false → watch.removeMin s.frontier = .ok (.ok node, w) →
      step watch g source target s = .ok (some verdict, s') →
      Loop watch g source target s [node] verdict s'
  /-- A round is followed by others. -/
  | round {s s₁ s' : Search σ} {node : Nat} {w : Watched σ} {nodes : List Nat}
      {verdict : Verdict} :
      s.frontier.heap.isEmpty = false → watch.removeMin s.frontier = .ok (.ok node, w) →
      step watch g source target s = .ok (none, s₁) →
      Loop watch g source target s₁ nodes verdict s' →
      Loop watch g source target s (node :: nodes) verdict s'

/-! ## The first round of a run -/

/-- With an empty frontier there is nothing to do, however many rounds are left. -/
theorem run_of_isEmpty (h0 : s.frontier.heap.isEmpty = true) (rounds : Nat) :
    run watch g source target rounds s = .ok (.ok none, s) := by
  unfold run
  rw [if_pos h0]
  rfl

theorem run_of_verdict (hne : s.frontier.heap.isEmpty = false)
    (hstep : step watch g source target s = .ok (some verdict, s')) (rounds : Nat) :
    run watch g source target (rounds + 1) s = .ok (verdict, s') := by
  unfold run
  rw [hne, if_neg Bool.false_ne_true, hstep]
  rfl

theorem run_of_none (hne : s.frontier.heap.isEmpty = false)
    (hstep : step watch g source target s = .ok (none, s₁)) (rounds : Nat) :
    run watch g source target (rounds + 1) s = run watch g source target rounds s₁ := by
  conv_lhs => unfold run
  rw [hne, if_neg Bool.false_ne_true, hstep]
  rfl

/-! ## Runs and loops -/

/-- To count as many rounds as nodes are taken, or more, makes no difference. -/
theorem Loop.run_eq (hl : Loop watch g source target s nodes verdict s') {rounds : Nat}
    (hle : nodes.length ≤ rounds) : run watch g source target rounds s = .ok (verdict, s') := by
  induction hl generalizing rounds with
  | idle h0 => exact run_of_isEmpty h0 rounds
  | last hne _ hstep =>
    rw [List.length_singleton] at hle
    obtain ⟨rounds, rfl⟩ : ∃ k, rounds = k + 1 := ⟨rounds - 1, by omega⟩
    exact run_of_verdict hne hstep rounds
  | round hne _ hstep _ ih =>
    rw [List.length_cons] at hle
    obtain ⟨rounds, rfl⟩ : ∃ k, rounds = k + 1 := ⟨rounds - 1, by omega⟩
    rw [run_of_none hne hstep]
    exact ih (Nat.le_of_succ_le_succ hle)

theorem exists_removeMin_of_step (hne : s.frontier.heap.isEmpty = false) {verdict? : Option Verdict}
    (hstep : step watch g source target s = .ok (verdict?, s')) :
    ∃ node w, watch.removeMin s.frontier = .ok (.ok node, w) := by
  unfold step at hstep
  simp only [Checked.bind_eq_ok] at hstep
  obtain ⟨⟨reply, w⟩, hrem, -⟩ := hstep
  obtain ⟨node, rfl⟩ := Observer.exists_ok_of_removeMin hne hrem
  exact ⟨node, w, hrem⟩

/-- What a run does within its rounds, the loop does. -/
theorem exists_loop {rounds : Nat} (hrun : run watch g source target rounds s = .ok (verdict, s')) :
    ∃ nodes, Loop watch g source target s nodes verdict s' := by
  induction rounds generalizing s with
  | zero =>
    unfold run at hrun
    split at hrun
    · rename_i h0
      obtain ⟨rfl, rfl⟩ := Prod.mk.inj (Except.ok.inj hrun)
      exact ⟨[], .idle h0⟩
    · cases hrun
  | succ rounds ih =>
    cases h0 : s.frontier.heap.isEmpty with
    | true =>
      rw [run_of_isEmpty h0] at hrun
      obtain ⟨rfl, rfl⟩ := Prod.mk.inj (Except.ok.inj hrun)
      exact ⟨[], .idle h0⟩
    | false =>
      unfold run at hrun
      rw [h0, if_neg Bool.false_ne_true] at hrun
      simp only [Checked.bind_eq_ok] at hrun
      obtain ⟨⟨verdict?, s₁⟩, hstep, hrun⟩ := hrun
      obtain ⟨node, w, hrem⟩ := exists_removeMin_of_step h0 hstep
      cases verdict? with
      | some verdict =>
        obtain ⟨rfl, rfl⟩ := Prod.mk.inj (Except.ok.inj hrun)
        exact ⟨[node], .last h0 hrem hstep⟩
      | none =>
        obtain ⟨nodes, hl⟩ := ih hrun
        exact ⟨node :: nodes, .round h0 hrem hstep hl⟩

end Search

end AddressableHeap
