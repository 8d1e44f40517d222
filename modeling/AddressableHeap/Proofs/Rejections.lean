import AddressableHeap.Proofs.Faultless

/-!
# What is turned down changes nothing

A request to a heap is granted or turned down, and what it is turned down with is a heap in the same state
as before: the members and what is left behind the last slot, the notes of the index, and the size. A
graph that turns an edge down is the same graph, and a search between ends that are not both nodes does
not touch the heap that it was given, so that no observer hears of it. Of two ends that are no nodes, the
first is reported.
-/

namespace AddressableHeap

variable {σ : Type}

theorem Observer.perform_rejects (watch : Observer σ) {w : Watched σ} (hv : w.heap.Valid)
    (m : Mutation) :
    ∃ reply w', watch.perform m w = .ok (reply, w') ∧ (reply.isOk = true ↔ w.heap.Grants m) ∧
      ∀ reason, reply = .error reason → w'.heap = w.heap := by
  obtain ⟨reply, w', he, happly, -⟩ := watch.perform_total hv m
  refine ⟨reply, w', he, hv.isOk_iff_grants happly, ?_⟩
  rintro reason rfl
  exact Heap.eq_of_apply_error happly

namespace Graph

variable {g g' : Graph} {source target : Nat}

/-- The end that is reported where an edge or a path is asked for and not both ends are nodes. -/
def missingEnd (g : Graph) (source target : Nat) : Nat := if g.size ≤ source then source else target

theorem of_addEdge_error {weight : UInt32} {failure : Failure}
    (he : g.addEdge source target weight = .ok (.error failure, g')) :
    failure = .noNode (g.missingEnd source target) g.size ∧ g' = g := by
  unfold missingEnd
  split
  · rename_i hs
    rw [addEdge_of_size_le_source hs] at he
    obtain ⟨hfailure, rfl⟩ := Prod.mk.inj (Except.ok.inj he)
    exact ⟨(Except.error.inj hfailure).symm, rfl⟩
  · rename_i hs
    have hs' := Nat.not_le.mp hs
    by_cases ht : g.size ≤ target
    · rw [addEdge_of_size_le_target hs' ht] at he
      obtain ⟨hfailure, rfl⟩ := Prod.mk.inj (Except.ok.inj he)
      exact ⟨(Except.error.inj hfailure).symm, rfl⟩
    · obtain ⟨g₁, hok, -⟩ := addEdge_ok weight hs' (Nat.not_le.mp ht)
      rw [hok] at he
      exact nomatch (Prod.mk.inj (Except.ok.inj he)).1

theorem addEdge_rejects (g : Graph) (source target : Nat) (weight : UInt32) :
    ∃ reply g', g.addEdge source target weight = .ok (reply, g') ∧
      (reply.isOk = true ↔ source < g.size ∧ target < g.size) ∧
      ∀ failure, reply = .error failure →
        failure = .noNode (g.missingEnd source target) g.size ∧ g' = g := by
  obtain ⟨reply, g', he, hgranted⟩ := g.addEdge_answers source target weight
  refine ⟨reply, g', he, hgranted, ?_⟩
  rintro failure rfl
  exact of_addEdge_error he

theorem shortestPathWith_rejects (watch : Observer σ) (w : Watched σ)
    (hends : ¬ (source < g.size ∧ target < g.size)) :
    g.shortestPathWith watch source target w
      = .ok (.error (.noNode (g.missingEnd source target) g.size), w) := by
  unfold missingEnd
  split
  · rename_i hs
    exact shortestPathWith_of_size_le_source watch target hs
  · rename_i hs
    have hs' := Nat.not_le.mp hs
    exact shortestPathWith_of_size_le_target watch hs' (Nat.not_lt.mp fun ht => hends ⟨hs', ht⟩)

end Graph

/-- Whatever a heap or a graph turns down, it is afterwards what it was before, in every part. A search
between ends that are not both nodes changes neither its heap, of whatever history, nor what an
observer has noted. -/
theorem rejections_change_nothing :
    (∀ {σ : Type} (watch : Observer σ) (w : Watched σ) (m : Mutation), w.heap.Reachable →
      ∃ reply w', watch.perform m w = .ok (reply, w') ∧ (reply.isOk = true ↔ w.heap.Grants m) ∧
        ∀ reason, reply = .error reason → w'.heap = w.heap) ∧
    (∀ (g : Graph) (source target : Nat) (weight : UInt32),
      ∃ reply g', g.addEdge source target weight = .ok (reply, g') ∧
        (reply.isOk = true ↔ source < g.size ∧ target < g.size) ∧
        ∀ failure, reply = .error failure →
          failure = .noNode (g.missingEnd source target) g.size ∧ g' = g) ∧
    ∀ {σ : Type} (g : Graph) (watch : Observer σ) (source target : Nat) (w : Watched σ),
      ¬ (source < g.size ∧ target < g.size) →
        g.shortestPathWith watch source target w
          = .ok (.error (.noNode (g.missingEnd source target) g.size), w) :=
  ⟨fun watch _ m hr => watch.perform_rejects hr.valid m, Graph.addEdge_rejects,
    fun _ watch _ _ w hends => Graph.shortestPathWith_rejects watch w hends⟩

/-- A heap that element 1 has left turns down its removal and the insertion of a member. A graph of two
nodes turns down an edge and a search to other nodes. -/
theorem rejections_change_nothing_of_leftovers :
    ∃ w : Watched (Array Event), w.heap.Reachable ∧ w.heap.index.find? 1 = some 3 ∧
      (∃ w', Observer.transcript.perform (.insert 9 0) w = .ok (.error (.duplicate 0), w') ∧
        w'.heap = w.heap) ∧
      (∃ w', Observer.transcript.perform (.remove 1) w = .ok (.error (.unknown 1), w') ∧
        w'.heap = w.heap) ∧
      (∃ g', (Graph.ofLabels ["A", "B"]).addEdge 1 7 3 = .ok (.error (.noNode 7 2), g') ∧
        g' = Graph.ofLabels ["A", "B"]) ∧
      ¬ (5 < (Graph.ofLabels ["A", "B"]).size ∧ 9 < (Graph.ofLabels ["A", "B"]).size) ∧
      (Graph.ofLabels ["A", "B"]).shortestPathWith .transcript 5 9 w
        = .ok (.error (.noNode 5 2), w) := by
  obtain ⟨hheap, hedge, hsearch⟩ := rejections_change_nothing
  have hr := Heap.reachable_leftovers
  refine ⟨⟨_, #[]⟩, hr, by decide, ?_, ?_, ?_, by decide,
    hsearch (Graph.ofLabels ["A", "B"]) .transcript 5 9 _ (by decide)⟩
  · obtain ⟨reply, w', he, -, hsame⟩ := hheap .transcript ⟨_, #[]⟩ (.insert 9 0) hr
    have hreply : Prod.fst <$> Observer.transcript.perform (.insert 9 0)
        ⟨⟨#[.sentinel, ⟨4, 2⟩, ⟨5, 0⟩, ⟨3, 1⟩], ⟨#[2, 3, 1]⟩, 2⟩, #[]⟩
        = .ok (.error (.duplicate 0)) := by cbv
    rw [he] at hreply
    obtain rfl := Except.ok.inj hreply
    exact ⟨w', he, hsame _ rfl⟩
  · obtain ⟨reply, w', he, -, hsame⟩ := hheap .transcript ⟨_, #[]⟩ (.remove 1) hr
    have hreply : Prod.fst <$> Observer.transcript.perform (.remove 1)
        ⟨⟨#[.sentinel, ⟨4, 2⟩, ⟨5, 0⟩, ⟨3, 1⟩], ⟨#[2, 3, 1]⟩, 2⟩, #[]⟩
        = .ok (.error (.unknown 1)) := by cbv
    rw [he] at hreply
    obtain rfl := Except.ok.inj hreply
    exact ⟨w', he, hsame _ rfl⟩
  · obtain ⟨reply, g', he, -, hsame⟩ := hedge (Graph.ofLabels ["A", "B"]) 1 7 3
    have hreply : Prod.fst <$> (Graph.ofLabels ["A", "B"]).addEdge 1 7 3
        = .ok (.error (.noNode 7 2)) := by cbv
    rw [he] at hreply
    obtain rfl := Except.ok.inj hreply
    exact ⟨g', he, (hsame _ rfl).2⟩

end AddressableHeap
