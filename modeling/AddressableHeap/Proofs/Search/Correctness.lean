import AddressableHeap.Proofs.Search.Steps

/-!
# Shortest paths are found

On a graph made by requests for edges that has not more than 2 ^ 31 nodes, a search between two nodes
returns a right answer. With a heap of its own it always succeeds; with the heap of somebody else it
can only fail because that heap is too small, whatever happened to it before.
-/

namespace AddressableHeap

variable {σ : Type} {watch : Observer σ} {g : Graph} {source target : Nat} {w : Watched σ}

namespace Search

/-- The notes before the first step: the source was found, and nothing else. -/
theorem notes_start (hs : source < g.size) :
    ∃ visits, Checked.set (Array.replicate g.size Visit.unreached) source Visit.start = .ok visits ∧
      visits.size = g.size ∧ Notes.ofArray visits
        = Function.update (fun _ => Visit.unreached) source Visit.start := by
  have hblank : Notes.ofArray (Array.replicate g.size Visit.unreached)
      = fun _ => Visit.unreached := by
    funext node
    by_cases h : node < g.size <;> simp [Notes.ofArray, h]
  have hs' : source < (Array.replicate g.size Visit.unreached).size := by simpa using hs
  obtain ⟨visits, he, hsize, hset⟩ := Notes.set_eq hs' Visit.start
  exact ⟨visits, he, by simpa using hsize, hblank ▸ hset⟩

/-- Before the first step, the heap holds the source alone. -/
theorem underway_start {visits : Array Visit} (hsize : visits.size = g.size)
    (hnotes : Notes.ofArray visits
      = Function.update (fun _ => Visit.unreached) source Visit.start)
    (hv : w.heap.Valid)
    (hlookup : w.heap.lookup = Function.update (fun _ => none) source (some 0)) :
    Underway g source source [] ⟨visits, w⟩ := by
  refine ⟨hsize, hv, ?_, ?_⟩
  · rw [notes_mk, hnotes, Function.comp_update, hlookup]
    rfl
  · rw [notes_mk, hnotes]
    exact .start g source

end Search

namespace Graph

/-! ## The opening -/

/-- What a search does before its first step: it empties the heap, notes the source, and asks the
heap to take it in. -/
def opening (g : Graph) (watch : Observer σ) (source : Nat) (frontier : Watched σ) :
    Checked (Except Rejection Unit × Search σ) := do
  let (_, frontier) ← watch.perform .clear frontier
  let visits ← Checked.set (Array.replicate g.size Visit.unreached) source Visit.start
  let (reply, frontier) ← watch.insert 0 source frontier
  pure (reply, ⟨visits, frontier⟩)

/-- Between two nodes, a search is its opening and a run of steps. -/
theorem shortestPathWith_eq_opening (watch : Observer σ) (w : Watched σ) (hs : source < g.size)
    (ht : target < g.size) :
    g.shortestPathWith watch source target w = (do
      let (reply, s) ← g.opening watch source w
      match reply with
      | .error reason => pure (.error (.frontier reason), s.frontier)
      | .ok () => do
        let (verdict, s) ← Search.run watch g source target g.size s
        pure (verdict.mapError .frontier, s.frontier)) := by
  unfold shortestPathWith opening
  rw [if_neg (Nat.not_le.mpr hs), if_neg (Nat.not_le.mpr ht)]
  refine ((bind_assoc _ _ _).trans (bind_congr fun cleared => ?_)).symm
  refine (bind_assoc _ _ _).trans (bind_congr fun visits => ?_)
  exact (bind_assoc _ _ _).trans (bind_congr fun entered => pure_bind _ _)

/-- A search whose opening fails fails. -/
theorem shortestPathWith_of_opening_error {reason : Rejection} {s : Search σ}
    (hs : source < g.size) (ht : target < g.size)
    (hopening : g.opening watch source w = .ok (.error reason, s)) :
    g.shortestPathWith watch source target w = .ok (.error (.frontier reason), s.frontier) := by
  rw [shortestPathWith_eq_opening watch w hs ht, hopening]
  rfl

/-- Behind its opening, a search is a run of steps. -/
theorem shortestPathWith_of_opening_ok {s : Search σ} (hs : source < g.size) (ht : target < g.size)
    (hopening : g.opening watch source w = .ok (.ok (), s)) :
    g.shortestPathWith watch source target w = (do
      let (verdict, s) ← Search.run watch g source target g.size s
      pure (verdict.mapError .frontier, s.frontier)) := by
  rw [shortestPathWith_eq_opening watch w hs ht, hopening]
  rfl

/-- The opening leaves a search under way in which the source was found, and nothing else, unless
the heap has no room for the source. -/
theorem opening_total (watch : Observer σ) (hg : g.Searchable source) (hv : w.heap.Valid) :
    ∃ w₁ reply s, watch.perform .clear w = .ok (.ok none, w₁) ∧
      w.heap.Becomes w₁.heap 0 (fun _ => none) ∧
      watch.insert 0 source w₁ = .ok (reply, s.frontier) ∧
      g.opening watch source w = .ok (reply, s) ∧
      s.notes = Function.update (fun _ => Visit.unreached) source Visit.start ∧
      (reply ≠ .ok () → w.heap.capacity < g.size) ∧
      (reply = .ok () → Search.Underway g source source [] s ∧
        s.frontier.heap.capacity = w.heap.capacity) := by
  have hb := hv.clear
  obtain ⟨visits, hset, hsize, hnotes⟩ := Search.notes_start hg.source_lt
  obtain ⟨w₁, hclear, hheap⟩ : ∃ w₁, watch.perform .clear w = .ok (.ok none, w₁) ∧
      w₁.heap = w.heap.clear := ⟨_, watch.around_eq_of_ok hv rfl hb.valid, rfl⟩
  rw [← hheap] at hb
  have hnone : w₁.heap.lookup source = none := by rw [hb.lookup_eq]
  have hinsert : watch.insert 0 source w₁ = Search.enter watch 0 source w₁ :=
    (Search.enter_of_none hb.valid hnone).symm
  unfold opening
  simp only [hclear, Checked.ok_bind, hset, hinsert]
  by_cases hcap : w₁.heap.capacity ≤ source
  · obtain ⟨reason, w₂, hent⟩ := Search.enter_error watch hb.valid 0 hcap
    rw [hent]
    refine ⟨w₁, .error reason, ⟨visits, w₂⟩, rfl, hb, hinsert ▸ hent, rfl, hnotes, fun _ => ?_,
      fun h => nomatch h⟩
    rw [hb.capacity_eq] at hcap
    exact Nat.lt_of_le_of_lt hcap hg.source_lt
  · obtain ⟨w₂, hent, hv₂, hlookup⟩ :=
      Search.enter_ok watch hb.valid 0 (Nat.not_le.mp hcap)
    rw [hb.lookup_eq] at hlookup
    rw [hent]
    refine ⟨w₁, .ok (), ⟨visits, w₂⟩, rfl, hb, hinsert ▸ hent, rfl, hnotes,
      fun h => absurd rfl h, fun _ => ⟨Search.underway_start hsize hnotes hv₂ hlookup, ?_⟩⟩
    rw [← hb.capacity_eq]
    exact ((Search.enter_evolves hent).valid hb.valid).2

/-- Nothing is settled before the first step. -/
theorem settled_start {s : Search σ}
    (hnotes : s.notes = Function.update (fun _ => Visit.unreached) source Visit.start)
    (node : Nat) : (s.notes node).settled = false := by
  rw [hnotes, Function.update_apply]
  split <;> rfl

/-! ## The answer -/

theorem Failure.mapError_frontier_inj {verdict verdict' : Verdict}
    (h : verdict.mapError Failure.frontier = verdict'.mapError Failure.frontier) :
    verdict = verdict' := by
  cases verdict with
  | ok found =>
    cases verdict' with
    | ok found' => exact congrArg Except.ok (Except.ok.inj h)
    | error reason' => exact nomatch h
  | error reason =>
    cases verdict' with
    | ok found' => exact nomatch h
    | error reason' => exact congrArg Except.error (Failure.frontier.inj (Except.error.inj h))

/-- A search between two nodes returns a right answer. -/
theorem shortestPathWith_total (watch : Observer σ) (hg : g.Searchable source)
    (ht : target < g.size) (hv : w.heap.Valid) :
    ∃ verdict w', g.shortestPathWith watch source target w
        = .ok (verdict.mapError .frontier, w') ∧
      Search.Right g source target w.heap.capacity verdict := by
  obtain ⟨w₁, reply, s, -, -, -, hopening, hnotes, herr, hok⟩ := opening_total watch hg hv
  cases reply with
  | error reason =>
    rw [shortestPathWith_of_opening_error hg.source_lt ht hopening]
    exact ⟨.error reason, s.frontier, rfl, herr (fun h => nomatch h)⟩
  | ok _ =>
    rw [shortestPathWith_of_opening_ok hg.source_lt ht hopening]
    obtain ⟨hu, hcap⟩ := hok rfl
    have hcard : (Search.unsettled g s).card ≤ g.size := by
      have := Finset.card_filter_le (Finset.range g.size)
        fun node => (s.notes node).settled = false
      rwa [Finset.card_range] at this
    obtain ⟨verdict, s', hrun, hright⟩ :=
      Search.run_total watch hg ht g.size hu (settled_start hnotes target) hcard
    simp only [hrun, Checked.ok_bind]
    exact ⟨verdict, s'.frontier, rfl, hcap ▸ hright⟩

theorem Built.searchable (hb : g.Built) (hn : g.size ≤ 2 ^ 31) (hs : source < g.size) :
    g.Searchable source := ⟨hb.closed, hn, hs⟩

/-! ## With a heap of its own -/

/-- Whatever labels and edges a graph of at most 2 ^ 31 nodes is made of, a search between two of its
nodes finds their distance over the edges that were granted, or finds that there is no way. -/
theorem shortestPath_exact (watch : Observer σ) (seen : σ) (labels : List String)
    (links : List Link) (hn : labels.length ≤ 2 ^ 31) (hs : source < labels.length)
    (ht : target < labels.length) :
    ∃ g, (ofLabels labels).addEdges links = .ok g ∧ g.size = labels.length ∧
      (∀ node, g.edgesFrom node = Link.granted labels.length node links) ∧
      ∃ answer seen', g.shortestPath watch source target seen = .ok (.ok answer, seen') ∧
        (answer = none ↔ ¬ g.Reaches source target) ∧
        (∀ p, answer = some p → g.IsDistance source target p.cost.toNat) ∧
        (source = target → ∃ p, answer = some p ∧ p.cost = 0) := by
  obtain ⟨g, he, hsize, hedges⟩ := exists_built labels links
  refine ⟨g, he, hsize, hedges, ?_⟩
  rw [← hsize] at hn hs ht
  have hg : g.Searchable source := Built.searchable ⟨labels, links, he⟩ hn hs
  have hv : (Heap.empty g.size).Valid := Heap.valid_empty (by rw [UInt64.size]; omega)
  obtain ⟨verdict, w', hsearch, hright⟩ :=
    shortestPathWith_total (w := ⟨.empty g.size, seen⟩) watch.deaf hg ht hv
  cases verdict with
  | error reason =>
    have hfull : (Heap.empty g.size).capacity < g.size := hright
    rw [Heap.capacity_empty] at hfull
    exact absurd hfull (Nat.lt_irrefl _)
  | ok answer =>
    refine ⟨answer, w'.seen, ?_, ?_, ?_, ?_⟩
    · unfold shortestPath
      rw [hsearch]
      rfl
    · cases answer with
      | none => exact iff_of_true rfl hright
      | some p =>
        exact iff_of_false (fun h => nomatch h) fun h => h ⟨p.nodes, _, hright.2.1⟩
    · rintro p rfl
      exact hright.1
    · rintro rfl
      cases answer with
      | none => exact absurd ⟨_, _, .here source⟩ hright
      | some p =>
        have hle := hright.1.2 _ _ (.here source)
        exact ⟨p, rfl, UInt64.toNat_inj.mp (Nat.eq_zero_of_le_zero hle)⟩

/-- One of the links asked for leads out of the graph and is turned down. -/
theorem shortestPath_exact_of_diamond :
    ∃ g, (ofLabels ["A", "B", "C", "D", "E"]).addEdges
        [⟨0, 1, 2⟩, ⟨0, 2, 10⟩, ⟨1, 3, 1⟩, ⟨3, 4, 4⟩, ⟨2, 4, 0⟩, ⟨3, 5, 1⟩, ⟨4, 4, 0⟩] = .ok g ∧
      g.size = 5 ∧
      (∀ node, g.edgesFrom node = Link.granted 5 node
        [⟨0, 1, 2⟩, ⟨0, 2, 10⟩, ⟨1, 3, 1⟩, ⟨3, 4, 4⟩, ⟨2, 4, 0⟩, ⟨3, 5, 1⟩, ⟨4, 4, 0⟩]) ∧
      ∃ seen', g.shortestPath Observer.transcript 0 4 #[]
          = .ok (.ok (some ⟨7, [0, 1, 3, 4]⟩), seen') ∧
        g.Reaches 0 4 ∧ g.IsDistance 0 4 7 := by
  obtain ⟨g, he, hsize, hedges, answer, seen', hsearch, hnone, hdistance, -⟩ :=
    shortestPath_exact .transcript #[] ["A", "B", "C", "D", "E"]
      [⟨0, 1, 2⟩, ⟨0, 2, 10⟩, ⟨1, 3, 1⟩, ⟨3, 4, 4⟩, ⟨2, 4, 0⟩, ⟨3, 5, 1⟩, ⟨4, 4, 0⟩]
      (by decide) (show 0 < 5 by decide) (show 4 < 5 by decide)
  have hanswer : (ofLabels ["A", "B", "C", "D", "E"]).addEdges
        [⟨0, 1, 2⟩, ⟨0, 2, 10⟩, ⟨1, 3, 1⟩, ⟨3, 4, 4⟩, ⟨2, 4, 0⟩, ⟨3, 5, 1⟩, ⟨4, 4, 0⟩]
      >>= (Prod.fst <$> ·.shortestPath Observer.transcript 0 4 #[])
        = .ok (.ok (some ⟨7, [0, 1, 3, 4]⟩)) := by decide +kernel
  rw [he, Checked.ok_bind, hsearch] at hanswer
  obtain rfl := Except.ok.inj (Except.ok.inj hanswer)
  refine ⟨g, he, hsize, hedges, seen', hsearch, ?_, hdistance _ rfl⟩
  exact not_not.mp fun h => nomatch hnone.mpr h

/-! ## With the heap of somebody else -/

theorem Walk.exists_cons {first last cost : Nat} {nodes : List Nat}
    (hw : g.Walk first last nodes cost) : ∃ rest, nodes = first :: rest := by
  cases hw with
  | here => exact ⟨_, rfl⟩
  | along _ _ => exact ⟨_, rfl⟩

theorem Walk.getLast?_eq {first last cost : Nat} {nodes : List Nat}
    (hw : g.Walk first last nodes cost) : nodes.getLast? = some last := by
  induction hw with
  | here node => rfl
  | along _ hw ih =>
    obtain ⟨rest, rfl⟩ := hw.exists_cons
    rw [List.getLast?_cons_cons, ih]

/-- The edges of a walk, one for each pair of neighbours, weigh what it costs. -/
theorem Walk.exists_weights {first last cost : Nat} {nodes : List Nat}
    (hw : g.Walk first last nodes cost) :
    ∃ weights : List UInt32,
      List.Forall₂ (fun pair weight => ⟨pair.2, weight⟩ ∈ g.edgesFrom pair.1)
        (nodes.zip nodes.tail) weights ∧
      (weights.map (·.toNat)).sum = cost := by
  induction hw with
  | here node => exact ⟨[], .nil, rfl⟩
  | @along first last edge nodes cost he hw ih =>
    obtain ⟨weights, hall, hsum⟩ := ih
    obtain ⟨rest, rfl⟩ := hw.exists_cons
    exact ⟨edge.weight :: weights, .cons he hall, by rw [List.map_cons, List.sum_cons, hsum]⟩

/-- Whatever happened to a heap before, a path that a search finds with it leads from the source to
the target, meets no node twice, and costs what edges between its neighbours weigh. -/
theorem shortestPathWith_genuine (watch : Observer σ) (hb : g.Built) (hn : g.size ≤ 2 ^ 31)
    (hs : source < g.size) (ht : target < g.size) (hr : w.heap.Reachable) :
    ∃ answer w', g.shortestPathWith watch source target w = .ok (answer, w') ∧
      ∀ p, answer = .ok (some p) →
        p.nodes.head? = some source ∧ p.nodes.getLast? = some target ∧ p.nodes.Nodup ∧
        ∃ weights : List UInt32,
          List.Forall₂ (fun pair weight => ⟨pair.2, weight⟩ ∈ g.edgesFrom pair.1)
            (p.nodes.zip p.nodes.tail) weights ∧
          (weights.map (·.toNat)).sum = p.cost.toNat := by
  obtain ⟨verdict, w', hsearch, hright⟩ :=
    shortestPathWith_total watch (hb.searchable hn hs) ht hr.valid
  refine ⟨_, w', hsearch, ?_⟩
  intro p hp
  cases verdict with
  | error reason => exact nomatch hp
  | ok answer =>
    obtain rfl : answer = some p := Except.ok.inj hp
    obtain ⟨-, hw, hnodup⟩ := hright
    obtain ⟨rest, hrest⟩ := hw.exists_cons
    exact ⟨by rw [hrest, List.head?_cons], hw.getLast?_eq, hnodup, hw.exists_weights⟩

theorem built_diamond : diamond.Built :=
  ⟨["A", "B", "C", "D", "E"], [⟨0, 1, 2⟩, ⟨0, 2, 10⟩, ⟨1, 3, 1⟩, ⟨3, 4, 4⟩, ⟨2, 4, 0⟩], rfl⟩

theorem shortestPathWith_genuine_of_diamond :
    ∃ w', diamond.shortestPathWith Observer.transcript 0 4 ⟨.empty 5, #[]⟩
        = .ok (.ok (some ⟨7, [0, 1, 3, 4]⟩), w') ∧
      [0, 1, 3, 4].head? = some 0 ∧ [0, 1, 3, 4].getLast? = some 4 ∧ [0, 1, 3, 4].Nodup ∧
      ∃ weights : List UInt32,
        List.Forall₂ (fun pair weight => ⟨pair.2, weight⟩ ∈ diamond.edgesFrom pair.1)
          [(0, 1), (1, 3), (3, 4)] weights ∧
        (weights.map (·.toNat)).sum = 7 := by
  obtain ⟨answer, w', hsearch, hgenuine⟩ := shortestPathWith_genuine (w := ⟨.empty 5, #[]⟩)
    .transcript built_diamond (by decide) (show 0 < 5 by decide) (show 4 < 5 by decide)
    (.fresh 5 (by decide))
  have hanswer : Prod.fst <$> diamond.shortestPathWith Observer.transcript 0 4 ⟨.empty 5, #[]⟩
      = .ok (.ok (some ⟨7, [0, 1, 3, 4]⟩)) := by decide +kernel
  rw [hsearch] at hanswer
  obtain rfl := Except.ok.inj hanswer
  exact ⟨w', hsearch, hgenuine _ rfl⟩

end Graph

end AddressableHeap
