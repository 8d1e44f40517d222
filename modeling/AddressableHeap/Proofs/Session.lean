import AddressableHeap.Proofs.Heap.Audit
import AddressableHeap.Proofs.Search.Correctness

/-!
# Sessions

However a heap is used, by mutations and by searches that have it for their frontier, it is valid after
every use, and its examination reports no defect. No use raises a fault, as long as the graphs that are
searched were made by requests for edges and have not more than 2 ^ 31 nodes.
-/

namespace AddressableHeap

variable {σ : Type} {w : Watched σ} {use : Use} {uses : List Use}

namespace Graph

variable {g : Graph} {source target : Nat}

theorem shortestPathWith_of_size_le_source (watch : Observer σ) (target : Nat)
    (hs : g.size ≤ source) :
    g.shortestPathWith watch source target w = .ok (.error (.noNode source g.size), w) := by
  unfold shortestPathWith
  rw [if_pos hs]
  rfl

theorem shortestPathWith_of_size_le_target (watch : Observer σ) (hs : source < g.size)
    (ht : g.size ≤ target) :
    g.shortestPathWith watch source target w = .ok (.error (.noNode target g.size), w) := by
  unfold shortestPathWith
  rw [if_neg (Nat.not_le.mpr hs), if_pos ht]
  rfl

/-- A search always returns an answer. -/
theorem shortestPathWith_returns (watch : Observer σ) (source target : Nat) (hb : g.Built)
    (hn : g.size ≤ 2 ^ 31) (hv : w.heap.Valid) :
    ∃ answer w', g.shortestPathWith watch source target w = .ok (answer, w') := by
  by_cases hs : g.size ≤ source
  · exact ⟨_, w, shortestPathWith_of_size_le_source watch target hs⟩
  · rw [Nat.not_le] at hs
    by_cases ht : g.size ≤ target
    · exact ⟨_, w, shortestPathWith_of_size_le_target watch hs ht⟩
    · obtain ⟨verdict, w', he, -⟩ :=
        shortestPathWith_total watch (hb.searchable hn hs) (Nat.not_le.mp ht) hv
      exact ⟨_, w', he⟩

end Graph

/-- The graphs that may be searched. -/
def Use.Sound : Use → Prop
  | .mutate _ => True
  | .search g _ _ => g.Built ∧ g.size ≤ 2 ^ 31

namespace Observer

theorem use_total (watch : Observer σ) (hs : use.Sound) (hv : w.heap.Valid) :
    ∃ answer w', watch.use use w = .ok (answer, w') := by
  cases use with
  | mutate m =>
    obtain ⟨reply, w', he, -⟩ := watch.perform_total hv m
    exact ⟨.reply reply, w', by rw [Observer.use, he]; rfl⟩
  | search g source target =>
    obtain ⟨result, w', he⟩ := g.shortestPathWith_returns watch source target hs.1 hs.2 hv
    exact ⟨.found result, w', by rw [Observer.use, he]; rfl⟩

/-- A valid heap can be used again and again. -/
theorem useAll_total (watch : Observer σ) (hs : ∀ use ∈ uses, use.Sound) (hv : w.heap.Valid) :
    ∃ answers w', watch.useAll uses w = .ok (answers, w') := by
  induction uses generalizing w with
  | nil => exact ⟨[], w, rfl⟩
  | cons use uses ih =>
    obtain ⟨answer, w₁, he⟩ := watch.use_total (hs use (List.mem_cons_self ..)) hv
    obtain ⟨answers, w', he'⟩ := ih (fun use hmem => hs use (List.mem_cons_of_mem _ hmem))
      ((use_evolves he).valid hv).1
    refine ⟨answer :: answers, w', ?_⟩
    unfold useAll
    simp only [he, Checked.ok_bind, he']
    rfl

/-- However an empty heap is used, it remains valid, holds no element twice, and shows no defect when
it is examined; and it can be used in every such way. -/
theorem useAll_empty (watch : Observer σ) (seen : σ) {capacity : Nat}
    (hc : capacity + 1 < UInt64.size) (uses : List Use) :
    (∀ answers w, watch.useAll uses ⟨.empty capacity, seen⟩ = .ok (answers, w) →
      w.heap.capacity = capacity ∧ w.heap.Valid ∧ (w.heap.toList.map (·.id)).Nodup ∧
        w.heap.defect? = .ok none) ∧
    ((∀ use ∈ uses, use.Sound) →
      ∃ answers w, watch.useAll uses ⟨.empty capacity, seen⟩ = .ok (answers, w)) := by
  have hempty := Heap.valid_empty hc
  refine ⟨?_, fun hs => watch.useAll_total hs hempty⟩
  intro answers w he
  obtain ⟨hv, hcap⟩ := (useAll_evolves he).valid hempty
  exact ⟨hcap.trans (Heap.capacity_empty capacity), hv, hv.ids_nodup, hv.defect?_eq_none⟩

theorem useAll_empty_of_three :
    ∃ answers w, transcript.useAll [.mutate (.insert 5 1), .mutate (.remove 7),
        .search .diamond 0 4, .mutate .removeMin] ⟨.empty 3, #[]⟩ = .ok (answers, w) ∧
      w.heap.capacity = 3 ∧ w.heap.Valid ∧ (w.heap.toList.map (·.id)).Nodup ∧
        w.heap.defect? = .ok none := by
  have hall := useAll_empty transcript #[] (show 3 + 1 < UInt64.size by decide)
    [.mutate (.insert 5 1), .mutate (.remove 7), .search .diamond 0 4, .mutate .removeMin]
  have hsearch : (Use.search .diamond 0 4).Sound := ⟨Graph.built_diamond, by decide⟩
  obtain ⟨answers, w, he⟩ := hall.2 (by simpa [Use.Sound] using hsearch)
  exact ⟨answers, w, he, hall.1 answers w he⟩

end Observer

end AddressableHeap
