import AddressableHeap.Proofs.Search.Correctness

/-!
# The rounds of a search

A search takes nodes from its frontier until it has a verdict or the frontier is empty, and follows
the notes back until it meets the source. Neither has to be counted to come to an end. A node that
was taken is settled and does not get back into the frontier, so none is taken twice, whatever edges
weigh nothing or lead back to where they start; and the notes lead from node to settled node along a
trail, which meets no node twice and begins at the source.
-/

namespace AddressableHeap

variable {σ : Type} {watch : Observer σ} {g : Graph} {source target here node : Nat}

namespace Search

variable {s s' : Search σ} {nodes : List Nat} {verdict : Verdict}

namespace Loop

/-- No node is taken twice, and none that was settled before. -/
theorem fresh (hl : Loop watch g source target s nodes verdict s') (hg : g.Searchable source)
    (hu : Underway g source here [] s) :
    nodes.Nodup ∧ ∀ node ∈ nodes, node < g.size ∧ (s.notes node).settled = false := by
  induction hl generalizing here with
  | idle => exact ⟨List.nodup_nil, fun node h => absurd h List.not_mem_nil⟩
  | last hne hrem hstep =>
    obtain ⟨hopen, -⟩ := hu.outcome hg hne hrem hstep
    refine ⟨List.nodup_singleton _, fun node h => ?_⟩
    rw [List.mem_singleton.mp h]
    exact ⟨hu.lt_size hg hopen.2, hopen.1⟩
  | @round s s₁ s' node w nodes verdict hne hrem hstep _ ih =>
    obtain ⟨hopen, houtcome⟩ := hu.outcome hg hne hrem hstep
    cases houtcome with
    | settled _ hu₁ hself hother =>
      obtain ⟨hnodup, hall⟩ := ih hu₁
      -- the node of this round is settled in the rounds to come
      have hnew : ∀ i ∈ nodes, i ≠ node := fun i hi =>
        (Notes.ne_of_settled hself (hall i hi).2).symm
      refine ⟨List.nodup_cons.mpr ⟨fun h => hnew node h rfl, hnodup⟩, fun i hi => ?_⟩
      rcases List.mem_cons.mp hi with rfl | hi
      · exact ⟨hu.lt_size hg hopen.2, hopen.1⟩
      · rw [← hother i (hnew i hi)]
        exact hall i hi

/-- There are not more rounds than nodes. -/
theorem length_le (hl : Loop watch g source target s nodes verdict s') (hg : g.Searchable source)
    (hu : Underway g source here [] s) : nodes.length ≤ g.size := by
  obtain ⟨hnodup, hall⟩ := hl.fresh hg hu
  have hsub : nodes ⊆ List.range g.size := fun node h => List.mem_range.mpr (hall node h).1
  have := (List.subperm_of_subset hnodup hsub).length_le
  rwa [List.length_range] at this

end Loop

/-! ## How the loop ends -/

/-- How a search that took these nodes ends. -/
inductive Ends (g : Graph) (source target : Nat) (nodes : List Nat) :
    Verdict → Search σ → Prop where
  /-- The target was taken, and a path to it was found in that round. -/
  | found {p : Path} {s s' : Search σ} : target ∈ nodes → Finds g source target s p s' →
      Ends g source target nodes (.ok (some p)) s'
  /-- Nothing is left in the frontier, and the target was not taken. -/
  | exhausted {s' : Search σ} : target ∉ nodes → s'.frontier.heap.size = 0 →
      Ends g source target nodes (.ok none) s'
  /-- The heap turned a node down before the target was taken. -/
  | cramped {reason : Rejection} {s' : Search σ} : target ∉ nodes →
      Ends g source target nodes (.error reason) s'

theorem Ends.cons (he : Ends g source target nodes verdict s') (hne : node ≠ target) :
    Ends g source target (node :: nodes) verdict s' := by
  have hiff : target ∈ node :: nodes ↔ target ∈ nodes := by
    rw [List.mem_cons]
    exact or_iff_right hne.symm
  cases he with
  | found hmem hfinds => exact .found (hiff.mpr hmem) hfinds
  | exhausted hmem h0 => exact .exhausted (mt hiff.mp hmem) h0
  | cramped hmem => exact .cramped (mt hiff.mp hmem)

/-- A path is found if and only if the target is taken. -/
theorem Ends.mem_iff (he : Ends g source target nodes verdict s') :
    target ∈ nodes ↔ ∃ p, verdict = .ok (some p) := by
  cases he with
  | found hmem _ => exact iff_of_true hmem ⟨_, rfl⟩
  | exhausted hmem _ => simp [hmem]
  | cramped hmem => simp [hmem]

theorem Loop.ends (hl : Loop watch g source target s nodes verdict s') (hg : g.Searchable source)
    (hu : Underway g source here [] s) : Ends g source target nodes verdict s' := by
  induction hl generalizing here with
  | idle h0 => exact .exhausted List.not_mem_nil (hu.valid.isEmpty_iff.mp h0)
  | last hne hrem hstep =>
    obtain ⟨-, houtcome⟩ := hu.outcome hg hne hrem hstep
    cases houtcome with
    | found htarget hfinds => exact .found (List.mem_singleton.mpr htarget.symm) hfinds
    | cramped htarget _ => exact .cramped fun h => htarget (List.mem_singleton.mp h).symm
  | round hne hrem hstep _ ih =>
    obtain ⟨-, houtcome⟩ := hu.outcome hg hne hrem hstep
    cases houtcome with
    | settled htarget hu₁ _ _ => exact (ih hu₁).cons htarget

end Search

/-- Whatever a heap can hold and whatever happened to it before, a search with it comes to an end. It
takes no node twice, so it has at most as many rounds as there are nodes; it takes the target
exactly if it finds a path, and then the notes lead back from the target to the source in fewer
steps than there are nodes. Nothing is counted for that: a run that counts its rounds does the same
if it may have as many as nodes are taken. -/
theorem Graph.shortestPathWith_terminates (watch : Observer σ) {w : Watched σ} (hb : g.Built)
    (hn : g.size ≤ 2 ^ 31) (hs : source < g.size) (ht : target < g.size)
    (hr : w.heap.Reachable) :
    ∃ reply s, g.opening watch source w = .ok (reply, s) ∧
      (∀ reason, reply = .error reason → g.shortestPathWith watch source target w
        = .ok (.error (.frontier reason), s.frontier)) ∧
      (reply = .ok () →
        (∃ nodes verdict s', Search.Loop watch g source target s nodes verdict s') ∧
        ∀ nodes verdict s', Search.Loop watch g source target s nodes verdict s' →
          g.shortestPathWith watch source target w
            = .ok (verdict.mapError .frontier, s'.frontier) ∧
          (∀ rounds, nodes.length ≤ rounds →
            Search.run watch g source target rounds s = .ok (verdict, s')) ∧
          nodes.Nodup ∧ nodes.length ≤ g.size ∧
          (target ∈ nodes ↔ ∃ p, verdict = .ok (some p)) ∧
          ∀ p, verdict = .ok (some p) → ∃ before, LeadsBack s'.visits source target before ∧
            before.length ≤ g.size - 1 ∧ p.nodes = before ++ [target]) := by
  have hg : g.Searchable source := hb.searchable hn hs
  obtain ⟨w₁, reply, s, -, -, -, hopening, hnotes, -, hok⟩ := opening_total watch hg hr.valid
  refine ⟨reply, s, hopening, ?_, ?_⟩
  · rintro reason rfl
    exact shortestPathWith_of_opening_error hs ht hopening
  · rintro rfl
    obtain ⟨hu, -⟩ := hok rfl
    constructor
    · obtain ⟨verdict, s', hrun, -⟩ := Search.run_total watch hg ht (Search.unsettled g s).card hu
        (settled_start hnotes target) (Nat.le_refl _)
      obtain ⟨nodes, hl⟩ := Search.exists_loop hrun
      exact ⟨nodes, verdict, s', hl⟩
    · intro nodes verdict s' hl
      have hlen := hl.length_le hg hu
      have hends := hl.ends hg hu
      refine ⟨?_, fun rounds => hl.run_eq, (hl.fresh hg hu).1, hlen, hends.mem_iff, ?_⟩
      · rw [shortestPathWith_of_opening_ok hs ht hopening, hl.run_eq hlen]
        rfl
      · rintro p rfl
        cases hends with
        | found _ hfinds =>
          obtain ⟨before, hback, hlt, hp⟩ := hfinds.leadsBack
          exact ⟨before, hback, Nat.le_sub_one_of_lt hlt, hp⟩

/-- On a graph with an edge from a node to itself and a cycle, whose edges weigh nothing, and with a
heap that holds two former members, the target is taken, and the notes lead back from it. -/
theorem Graph.shortestPathWith_terminates_of_cycle :
    ∃ h g, h.Reachable ∧ h.size = 2 ∧
      (ofLabels ["A", "B", "C"]).addEdges [⟨0, 0, 0⟩, ⟨0, 1, 0⟩, ⟨1, 0, 0⟩, ⟨1, 2, 0⟩] = .ok g ∧
      ∃ s, g.opening Observer.silent 0 ⟨h, ()⟩ = .ok (.ok (), s) ∧ ∃ nodes s',
        Search.Loop Observer.silent g 0 2 s nodes (.ok (some ⟨0, [0, 1, 2]⟩)) s' ∧
        g.shortestPathWith Observer.silent 0 2 ⟨h, ()⟩
          = .ok (.ok (some ⟨0, [0, 1, 2]⟩), s'.frontier) ∧
        Search.run Observer.silent g 0 2 3 s = .ok (.ok (some ⟨0, [0, 1, 2]⟩), s') ∧
        nodes.Nodup ∧ nodes.length ≤ 3 ∧ 2 ∈ nodes ∧ LeadsBack s'.visits 0 2 [0, 1] := by
  have hr := Heap.reachable_leftovers
  have hb : (ofLabels ["A", "B", "C"]).addEdges [⟨0, 0, 0⟩, ⟨0, 1, 0⟩, ⟨1, 0, 0⟩, ⟨1, 2, 0⟩]
      = .ok ⟨#[⟨"A", #[⟨0, 0⟩, ⟨1, 0⟩]⟩, ⟨"B", #[⟨0, 0⟩, ⟨2, 0⟩]⟩, ⟨"C", #[]⟩]⟩ := by cbv
  obtain ⟨reply, s, hopening, -, hok⟩ := shortestPathWith_terminates (w := ⟨_, ()⟩) .silent
    ⟨_, _, hb⟩ (by decide) (show 0 < 3 by decide) (show 2 < 3 by decide) hr
  have hreply : (opening ⟨#[⟨"A", #[⟨0, 0⟩, ⟨1, 0⟩]⟩, ⟨"B", #[⟨0, 0⟩, ⟨2, 0⟩]⟩, ⟨"C", #[]⟩]⟩
      Observer.silent 0 ⟨⟨#[.sentinel, ⟨4, 2⟩, ⟨5, 0⟩, ⟨3, 1⟩], ⟨#[2, 3, 1]⟩, 2⟩, ()⟩).map (·.1)
      = .ok (.ok ()) := by cbv
  rw [hopening] at hreply
  obtain rfl := Except.ok.inj hreply
  obtain ⟨⟨nodes, verdict, s', hl⟩, hall⟩ := hok rfl
  obtain ⟨hsearch, hrun, hnodup, hlen, hiff, hback⟩ := hall nodes verdict s' hl
  have hanswer : (shortestPathWith
      ⟨#[⟨"A", #[⟨0, 0⟩, ⟨1, 0⟩]⟩, ⟨"B", #[⟨0, 0⟩, ⟨2, 0⟩]⟩, ⟨"C", #[]⟩]⟩
      Observer.silent 0 2 ⟨⟨#[.sentinel, ⟨4, 2⟩, ⟨5, 0⟩, ⟨3, 1⟩], ⟨#[2, 3, 1]⟩, 2⟩, ()⟩).map (·.1)
      = .ok (.ok (some ⟨0, [0, 1, 2]⟩)) := by decide +kernel
  rw [hsearch] at hanswer
  obtain rfl : verdict = .ok (some ⟨0, [0, 1, 2]⟩) :=
    Failure.mapError_frontier_inj (Except.ok.inj hanswer)
  obtain ⟨before, hleads, -, hnodes⟩ := hback _ rfl
  obtain rfl : [0, 1] = before :=
    List.append_cancel_right (show [0, 1] ++ [2] = before ++ [2] from hnodes)
  exact ⟨_, _, hr, rfl, hb, s, hopening, nodes, s', hl, hsearch, hrun 3 hlen, hnodup, hlen,
    hiff.mpr ⟨_, rfl⟩, hleads⟩

end AddressableHeap
