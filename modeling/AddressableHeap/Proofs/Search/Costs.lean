import AddressableHeap.Proofs.Search.Course
import AddressableHeap.Proofs.Search.Moments

/-!
# Sums of weights

Whenever a search looks along an edge, it adds a weight to a distance. A search looks along many edges,
and they may lead round in circles, but the sum is the cost of a walk that meets no node twice: a trail
to a settled node, and an edge to a node that is not settled. Such a walk has fewer edges than there are
nodes. So no sum leaves its word, each is a key as it stands, and none can be taken for the mark of a
node that was not reached.
-/

namespace AddressableHeap

variable {σ : Type} {watch : Observer σ} {g : Graph} {source target here node : Nat}
variable {edge : Edge} {pending : List Edge} {visit : Visit} {notes : Notes}

/-- What is found in the array is what is noted. -/
theorem Notes.of_get_eq_ok {visits : Array Visit} (h : Checked.get visits node = .ok visit) :
    visit = ofArray visits node := by
  by_cases hlt : node < visits.size
  · exact Except.ok.inj (h.symm.trans (get_eq hlt))
  · rw [Checked.get, dif_neg hlt] at h
    cases h

namespace Notes

/-- A node was reached, or nothing is noted about it. -/
def Definite (notes : Notes) : Prop := ∀ node, notes node = .unreached ∨ (notes node).Reached

theorem Definite.update (hd : notes.Definite) (node : Nat) (hr : visit.Reached) :
    Definite (Function.update notes node visit) := by
  intro i
  by_cases hi : i = node
  · rw [hi, Function.update_self]
    exact .inr hr
  · rw [Function.update_of_ne hi]
    exact hd i

theorem definite_start (source : Nat) :
    Definite (Function.update (fun _ => Visit.unreached) source Visit.start) :=
  Definite.update (fun _ => .inl rfl) source (show Visit.start.dist < Visit.unreached.dist by decide)

end Notes

namespace Search

variable {s₀ s s' : Search σ}

/-- The distance that a search computes for the node that `edge` leads to, from what is noted about the
node that it leaves. -/
structure Candidate (g : Graph) (visit : Visit) (edge : Edge) (distance : UInt64) : Prop where
  /-- The sum does not leave its word. -/
  add_eq : Checked.add visit.distance edge.weight.toUInt64 = .ok distance
  toNat_eq : distance.toNat = visit.distance.toNat + edge.weight.toNat
  /-- It is not more than a walk that meets no node twice can cost. -/
  toNat_le : distance.toNat ≤ (g.size - 1) * (2 ^ 32 - 1)
  /-- The largest key does not have to stand for it. -/
  le_maxValue : distance ≤ Int64.maxValue.toUInt64
  toInt_ofDistance : (Key.ofDistance distance).toInt = distance.toNat
  /-- It is not the distance of a node that was not reached. -/
  lt_unreached : distance < Visit.unreached.distance

/-- What is noted about nodes is exact, and so are the keys in the frontier. -/
structure Exact (g : Graph) (source : Nat) (s : Search σ) : Prop where
  /-- There is a note for every node. -/
  visits_size : s.visits.size = g.size
  /-- Nothing is noted about a node, or what a walk to it costs. -/
  noted : ∀ node visit, Checked.get s.visits node = .ok visit → visit = .unreached ∨
    visit.distance.toNat ≤ (g.size - 1) * (2 ^ 32 - 1) ∧
      ∃ nodes, g.Walk source node nodes visit.distance.toNat
  /-- The key of a member of the frontier is the distance noted for it. -/
  keys : ∃ members, s.frontier.heap.snapshot = .ok members ∧ ∀ e ∈ members, ∃ visit,
    Checked.get s.visits e.id = .ok visit ∧ e.key.toInt = visit.distance.toNat

/-! ## Candidates -/

/-- If an edge leads to a node that is not settled, the trail to the node that it leaves and the edge
make up a trail. -/
theorem Underway.exists_candidate (hu : Underway g source here (edge :: pending) s)
    (hg : g.Searchable source) (hhere : (s.notes here).settled = true)
    (he : edge ∈ g.edgesFrom here) (hs : (s.notes edge.target).settled = false) :
    ∃ distance, Candidate g (s.notes here) edge distance := by
  have hr := hu.settling.reached here hhere
  obtain ⟨distance, hadd, hd⟩ := hu.add_ok hg hr edge.weight
  obtain ⟨before, ht⟩ := hu.settling.trail here hr
  have htrail := ht.relax hhere he hs (show Visit.via ⟨distance, some here, false⟩ = _ from rfl) hd
  have hle := htrail.dist_le hg.closed hg.source_lt
  rw [Function.update_self] at hle
  change distance.toNat ≤ _ at hle
  have hsum := Nat.le_trans hle hg.cost_le
  refine ⟨distance, hadd, hd, hle, ?_, ?_, ?_⟩
  · exact UInt64.le_iff_toNat_le.mpr (Nat.le_trans hsum (by decide))
  · exact Key.toInt_ofDistance_of_lt (Nat.lt_of_le_of_lt hsum (by decide))
  · exact UInt64.lt_iff_toNat_lt.mpr (Nat.lt_of_le_of_lt hsum (by decide))

/-! ## Notes and keys -/

theorem exact_of_settling (hg : g.Searchable source) (hsize : s.visits.size = g.size)
    (hi : Settling g source here pending s.notes) (hd : s.notes.Definite)
    (hv : s.frontier.heap.Valid) (hkeys : ∀ node key, s.frontier.heap.lookup node = some key →
      (s.notes node).frontierKey = some key) : s.Exact g source where
  visits_size := hsize
  noted := by
    intro node visit hget
    obtain rfl := Notes.of_get_eq_ok hget
    refine (hd node).imp_right fun hr => ?_
    obtain ⟨before, ht⟩ := hi.trail node hr
    exact ⟨hi.dist_le hg hr, _, ht.walk⟩
  keys := by
    refine ⟨_, hv.snapshot_eq, fun e he => ?_⟩
    obtain ⟨ho, hkey⟩ := Visit.open_of_frontierKey (hkeys _ _ (hv.lookup_of_mem he))
    obtain ⟨before, ht⟩ := hi.trail e.id ho.2
    have hlt := ht.lt_size hg.closed hg.source_lt e.id
      (List.mem_append_right _ (List.mem_singleton_self _))
    refine ⟨_, Notes.get_eq (hsize ▸ hlt), ?_⟩
    rw [hkey]
    exact Key.toInt_ofDistance_of_lt (hi.dist_lt hg ho.2)

theorem Underway.exact (hu : Underway g source here pending s) (hg : g.Searchable source)
    (hd : s.notes.Definite) : s.Exact g source := by
  refine exact_of_settling hg hu.visits_size hu.settling hd hu.valid fun node key hk => ?_
  rwa [hu.lookup_eq] at hk

theorem heap_eq_of_enter_error {w w' : Watched σ} {key : Key} {reason : Rejection}
    (hv : w.heap.Valid) (he : enter watch key node w = .ok (.error reason, w')) :
    w'.heap = w.heap := by
  cases hk : w.heap.lookup node with
  | none =>
    rw [enter_of_none hv hk] at he
    exact Heap.eq_of_insert_error (Observer.of_around_eq_ok he)
  | some former =>
    rw [enter_of_some hv hk] at he
    exact Heap.eq_of_update_error (Observer.of_around_eq_ok he)

/-- To look along an edge changes the note of one node at most, whether the frontier takes that node in
or turns it down. -/
theorem Underway.of_relax (hu : Underway g source here (edge :: pending) s)
    (hg : g.Searchable source) (hd : s.notes.Definite) (hhere : (s.notes here).settled = true)
    (he : edge ∈ g.edgesFrom here) {reply : Except Rejection Unit}
    (hrel : relax watch here edge s = .ok (reply, s')) :
    s'.visits.size = g.size ∧ Settling g source here pending s'.notes ∧ s'.notes.Definite ∧
      (∀ i, i ≠ edge.target → s'.notes i = s.notes i) ∧
      ∀ reason, reply = .error reason → s'.frontier.heap = s.frontier.heap := by
  rcases relax_cases watch hg hu hhere he with
    ⟨hskip, hi⟩ | ⟨distance, visits, hs, hless, hdist, hsize, hnotes, hact⟩
  · rw [hskip] at hrel
    obtain ⟨rfl, rfl⟩ := Prod.mk.inj (Except.ok.inj hrel)
    exact ⟨hu.visits_size, hi, hd, fun _ _ => rfl, fun reason h => by cases h⟩
  · rw [hact, Checked.bind_eq_ok] at hrel
    obtain ⟨⟨reply₁, w⟩, hent, hrel⟩ := hrel
    obtain ⟨rfl, rfl⟩ := Prod.mk.inj (Except.ok.inj hrel)
    rw [UInt64.lt_iff_toNat_lt] at hless
    rw [notes_mk, hnotes]
    refine ⟨hsize, ?_, hd.update _ (Visit.reached_of_lt hless), fun i hi => Function.update_of_ne hi .., ?_⟩
    · exact hu.settling.relax hhere he hs (hdist ▸ hless) hdist rfl rfl
    · rintro reason rfl
      generalize watch.react _ s.frontier.seen = seen at hent
      exact heap_eq_of_enter_error (w := ⟨s.frontier.heap, seen⟩) hu.valid hent

/-! ## At every moment, and at the end -/

theorem Takes.definite (ht : Takes watch s node visit s') (hg : g.Searchable source)
    (hu : Underway g source here [] s) (hd : s.notes.Definite) : s'.notes.Definite := by
  obtain ⟨-, hopen, hnotes, -⟩ := ht.underway hg hu
  rw [hnotes]
  exact hd.update node hopen.2

namespace Moment

theorem definite (hm : Moment watch g source target s₀ here pending s) (hg : g.Searchable source)
    (hu : Underway g source source [] s₀) (hd : s₀.notes.Definite) : s.notes.Definite := by
  induction hm with
  | start => exact hd
  | take hm ht _ _ ih => exact ht.definite hg (hm.underway hg hu).1 ih
  | look hm hrel ih =>
    obtain ⟨hu₁, hpending⟩ := hm.underway hg hu
    obtain ⟨he, hhere⟩ := hpending _ (List.mem_cons_self ..)
    exact (hu₁.of_relax hg ih hhere he hrel).2.2.1

theorem exact (hm : Moment watch g source target s₀ here pending s) (hg : g.Searchable source)
    (hu : Underway g source source [] s₀) (hd : s₀.notes.Definite) : s.Exact g source :=
  (hm.underway hg hu).1.exact hg (hm.definite hg hu hd)

end Moment

theorem Halts.exact {verdict : Verdict} (hh : Halts watch g source target s₀ verdict s')
    (hg : g.Searchable source) (hu : Underway g source source [] s₀) (hd : s₀.notes.Definite) :
    s'.Exact g source := by
  cases hh with
  | exhausted hm _ => exact hm.exact hg hu hd
  | found hm ht _ =>
    obtain ⟨hu₁, -⟩ := hm.underway hg hu
    obtain ⟨-, -, -, hu'⟩ := ht.underway hg hu₁
    exact hu'.exact hg (ht.definite hg hu₁ (hm.definite hg hu hd))
  | @refused here edge pending reason s s' hm hrel =>
    obtain ⟨hu₁, hpending⟩ := hm.underway hg hu
    obtain ⟨he, hhere⟩ := hpending edge (List.mem_cons_self ..)
    obtain ⟨hsize, hi, hd', hother, hheap⟩ :=
      hu₁.of_relax hg (hm.definite hg hu hd) hhere he hrel
    obtain ⟨reply, s₁, hrel₁, herror, -⟩ := relax_total watch hg hu₁ hhere he
    obtain ⟨rfl, rfl⟩ := Prod.mk.inj (Except.ok.inj (hrel.symm.trans hrel₁))
    have hfull := herror (fun h => by cases h)
    have hsame := hheap reason rfl
    refine exact_of_settling hg hsize hi hd' (hsame ▸ hu₁.valid) fun node key hk => ?_
    rw [hsame] at hk
    -- the node that was turned down is no member
    have hne : node ≠ edge.target := by
      rintro rfl
      exact Nat.not_lt.mpr hfull (hu₁.valid.lookup_lt hk)
    rw [hother node hne]
    rwa [hu₁.lookup_eq] at hk

end Search

namespace Graph

/-- At the opening of a search, too. -/
theorem opening_exact (watch : Observer σ) {w : Watched σ} (hg : g.Searchable source)
    (hv : w.heap.Valid) {reply : Except Rejection Unit} {s : Search σ}
    (hopening : g.opening watch source w = .ok (reply, s)) : s.Exact g source := by
  obtain ⟨w₁, reply₁, s₁, -, hb, hinsert, hopening₁, hnotes, -, hok⟩ := opening_total watch hg hv
  obtain ⟨rfl, rfl⟩ := Prod.mk.inj (Except.ok.inj (hopening.symm.trans hopening₁))
  have hd : s.notes.Definite := hnotes ▸ Notes.definite_start source
  cases reply with
  | ok _ => exact (hok rfl).1.exact hg hd
  | error reason =>
    have hheap : s.frontier.heap = w₁.heap :=
      Heap.eq_of_insert_error (Observer.of_around_eq_ok hinsert)
    have hi : Settling g source source [] s.notes := hnotes ▸ .start g source
    have hsize : s.visits.size = g.size := by
      simp only [opening, Checked.bind_eq_ok] at hopening
      obtain ⟨⟨reply₁, w₁⟩, -, visits, hset, ⟨reply₂, w₂⟩, -, hpure⟩ := hopening
      obtain ⟨-, rfl⟩ := Prod.mk.inj (Except.ok.inj hpure)
      rw [(Checked.size_of_set_eq_ok hset).2, Array.size_replicate]
    -- the frontier is as empty as it was
    refine Search.exact_of_settling hg hsize hi hd (hheap ▸ hb.valid) fun node key hk => ?_
    rw [hheap, hb.lookup_eq] at hk
    cases hk

/-- Whatever the weights of a graph of at most 2 ^ 31 nodes and whatever happened to a heap before, a
search computes with exact distances. At every moment at which an edge to an unsettled node is to be
looked along, the sum is computed without leaving its word, is at most what one edge less than there
are nodes can weigh, and is its own key. At every moment, and when the search ends, each member of the
frontier has the distance noted for it as its key, and only of nodes about which nothing is noted is
the distance the largest word. -/
theorem shortestPathWith_exact_costs (watch : Observer σ) {w : Watched σ} (hb : g.Built)
    (hn : g.size ≤ 2 ^ 31) (hs : source < g.size) (ht : target < g.size) (hr : w.heap.Reachable) :
    (((g.size - 1) * (2 ^ 32 - 1) : Nat) : Int) ≤ Int64.maxValue.toInt ∧
    ∃ reply s₀, g.opening watch source w = .ok (reply, s₀) ∧ s₀.Exact g source ∧
      (∀ reason, reply = .error reason → g.shortestPathWith watch source target w
        = .ok (.error (.frontier reason), s₀.frontier)) ∧
      (reply = .ok () →
        (∃ verdict s', Search.Halts watch g source target s₀ verdict s' ∧ s'.Exact g source ∧
          g.shortestPathWith watch source target w
            = .ok (verdict.mapError .frontier, s'.frontier)) ∧
        ∀ here pending s, Search.Moment watch g source target s₀ here pending s →
          s.Exact g source ∧ ∀ edge rest, pending = edge :: rest → ∃ visit there,
            Checked.get s.visits here = .ok visit ∧
            Checked.get s.visits edge.target = .ok there ∧
            (there.settled = false → ∃ distance, Search.Candidate g visit edge distance)) := by
  have hg : g.Searchable source := hb.searchable hn hs
  obtain ⟨w₁, reply, s₀, -, -, -, hopening, hnotes, -, hok⟩ := opening_total watch hg hr.valid
  refine ⟨?_, reply, s₀, hopening, opening_exact watch hg hr.valid hopening, ?_, ?_⟩
  · exact Int.ofNat_le.mpr (Nat.le_trans hg.cost_le (by decide))
  · rintro reason rfl
    exact shortestPathWith_of_opening_error hs ht hopening
  · rintro rfl
    obtain ⟨hu, -⟩ := hok rfl
    have hd : s₀.notes.Definite := hnotes ▸ Notes.definite_start source
    constructor
    · obtain ⟨verdict₁, w', hsearch, -⟩ := shortestPathWith_total watch hg ht hr.valid
      have hrun := hsearch
      rw [shortestPathWith_of_opening_ok hs ht hopening, Checked.bind_eq_ok] at hrun
      obtain ⟨⟨verdict, s'⟩, hrun, hanswer⟩ := hrun
      have hhalts := Search.Moment.start.of_run hrun
      exact ⟨verdict, s', hhalts, hhalts.exact hg hu hd, hsearch.trans hanswer.symm⟩
    · intro here pending s hm
      obtain ⟨hu₁, hpending⟩ := hm.underway hg hu
      refine ⟨hm.exact hg hu hd, ?_⟩
      rintro edge rest rfl
      obtain ⟨he, hhere⟩ := hpending edge (List.mem_cons_self ..)
      exact ⟨_, _, hu₁.get_eq (Graph.lt_size_of_mem_edgesFrom he), hu₁.get_eq (hg.closed _ _ he),
        hu₁.exists_candidate hg hhere he⟩

/-- On a graph with a cycle and an edge from a node to itself, all of the largest weight, and with a
heap that holds two former members. When the source is taken, an edge to another node is the first to
be looked along. -/
theorem shortestPathWith_exact_costs_of_heavy_cycle :
    ∃ h g, h.Reachable ∧ h.size = 2 ∧
      (ofLabels ["A", "B", "C"]).addEdges [⟨0, 1, 4294967295⟩, ⟨0, 0, 4294967295⟩,
        ⟨1, 0, 4294967295⟩, ⟨1, 2, 4294967295⟩] = .ok g ∧
      ∃ s₀, g.opening Observer.silent 0 ⟨h, ()⟩ = .ok (.ok (), s₀) ∧
        (∃ verdict s', Search.Halts Observer.silent g 0 2 s₀ verdict s' ∧ s'.Exact g 0 ∧
          g.shortestPathWith Observer.silent 0 2 ⟨h, ()⟩
            = .ok (verdict.mapError .frontier, s'.frontier)) ∧
        ∃ s visit distance, Search.Moment Observer.silent g 0 2 s₀ 0
            [⟨1, 4294967295⟩, ⟨0, 4294967295⟩] s ∧
          s.Exact g 0 ∧ Checked.get s.visits 0 = .ok visit ∧
          Search.Candidate g visit ⟨1, 4294967295⟩ distance := by
  have hr := Heap.reachable_leftovers
  have hb : (ofLabels ["A", "B", "C"]).addEdges [⟨0, 1, 4294967295⟩, ⟨0, 0, 4294967295⟩,
      ⟨1, 0, 4294967295⟩, ⟨1, 2, 4294967295⟩] = .ok ⟨#[⟨"A", #[⟨1, 4294967295⟩, ⟨0, 4294967295⟩]⟩,
        ⟨"B", #[⟨0, 4294967295⟩, ⟨2, 4294967295⟩]⟩, ⟨"C", #[]⟩]⟩ := by cbv
  obtain ⟨-, reply, s₀, hopening, -, -, hok⟩ := shortestPathWith_exact_costs (w := ⟨_, ()⟩)
    .silent ⟨_, _, hb⟩ (by decide) (show 0 < 3 by decide) (show 2 < 3 by decide) hr
  have hs₀ : (.ok (reply, s₀) : Checked _) = .ok (.ok (),
      ⟨#[.start, .unreached, .unreached],
        ⟨⟨#[.sentinel, ⟨0, 0⟩, ⟨5, 0⟩, ⟨3, 1⟩], ⟨#[1, 3, 1]⟩, 1⟩, ()⟩⟩) :=
    hopening.symm.trans (by cbv)
  obtain ⟨rfl, rfl⟩ := Prod.mk.inj (Except.ok.inj hs₀)
  obtain ⟨hhalts, hall⟩ := hok rfl
  have htakes : Search.Takes Observer.silent
      ⟨#[.start, .unreached, .unreached],
        ⟨⟨#[.sentinel, ⟨0, 0⟩, ⟨5, 0⟩, ⟨3, 1⟩], ⟨#[1, 3, 1]⟩, 1⟩, ()⟩⟩ 0 .start
      ⟨#[⟨0, none, true⟩, .unreached, .unreached],
        ⟨⟨#[.sentinel, ⟨0, 0⟩, ⟨5, 0⟩, ⟨3, 1⟩], ⟨#[1, 3, 1]⟩, 0⟩, ()⟩⟩ :=
    ⟨by cbv, by cbv, by cbv, by cbv⟩
  obtain ⟨hexact, hcandidate⟩ := hall 0 [⟨1, 4294967295⟩, ⟨0, 4294967295⟩] _
    (.take .start htakes (by decide) rfl)
  obtain ⟨visit, there, hget, hthere, hsum⟩ := hcandidate _ _ rfl
  obtain rfl : Visit.unreached = there := Except.ok.inj hthere
  obtain ⟨distance, hd⟩ := hsum rfl
  exact ⟨_, _, hr, rfl, hb, _, hopening, hhalts, _, visit, distance,
    .take .start htakes (by decide) rfl, hexact, hget, hd⟩

end Graph

end AddressableHeap
