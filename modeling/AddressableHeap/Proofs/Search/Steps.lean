import AddressableHeap.Proofs.Evolution
import AddressableHeap.Proofs.Search.Frontier
import Mathlib.Data.Finset.Card
import Mathlib.Data.Finset.Range

/-!
# The steps of a search

A search under way stays under way: to look along an edge raises no fault and takes the excuse of that
edge away, and a step settles one more node or ends the search with a right verdict. As every step
settles a node, there are not more steps than nodes. A request is turned down only by a heap that is
too small for some node.
-/

namespace AddressableHeap.Search

variable {σ : Type} {g : Graph} {source target here node : Nat} {edge : Edge}
variable {pending edges : List Edge} {s s' : Search σ}

/-! ## Looking along edges -/

namespace Underway

theorem add_ok (hu : Underway g source here pending s) (hg : g.Searchable source)
    (hr : (s.notes node).Reached) (weight : UInt32) :
    ∃ distance, Checked.add (s.notes node).distance weight.toUInt64 = .ok distance ∧
      distance.toNat = (s.notes node).dist + weight.toNat := by
  have hlt := hu.settling.dist_add_lt hg hr weight
  have hsum : (s.notes node).distance.toNat + weight.toUInt64.toNat < 2 ^ 63 := by
    rwa [UInt32.toNat_toUInt64]
  have hadd : ((s.notes node).distance + weight.toUInt64).toNat
      = (s.notes node).dist + weight.toNat := by
    rw [UInt64.toNat_add, Nat.mod_eq_of_lt (by omega), UInt32.toNat_toUInt64]
    rfl
  exact ⟨_, Checked.add_eq_ok (Nat.lt_trans hsum (by decide)), hadd⟩

/-- The search after a shorter way to a node was noted and the node was entered. -/
theorem enter (hu : Underway g source here (edge :: pending) s)
    (hhere : (s.notes here).settled = true) (he : edge ∈ g.edgesFrom here)
    (hs : (s.notes edge.target).settled = false) {distance : UInt64}
    (hlt : distance.toNat < (s.notes edge.target).dist)
    (hd : distance.toNat = (s.notes here).dist + edge.weight.toNat)
    (hsize : s'.visits.size = g.size)
    (hnotes : s'.notes = Function.update s.notes edge.target ⟨distance, some here, false⟩)
    (hv : s'.frontier.heap.Valid)
    (hlookup : s'.frontier.heap.lookup
      = Function.update s.frontier.heap.lookup edge.target (some (.ofDistance distance))) :
    Underway g source here pending s' := by
  have hopen : (⟨distance, some here, false⟩ : Visit).Open :=
    ⟨rfl, Visit.reached_of_lt hlt⟩
  refine ⟨hsize, hv, ?_, ?_⟩
  · rw [hlookup, hnotes, Function.comp_update, Visit.frontierKey_of_open hopen, hu.lookup_eq]
  · rw [hnotes]
    exact hu.settling.relax hhere he hs (hd ▸ hlt) hd rfl rfl

end Underway

/-- To look along an edge is to do nothing where it needs no excuse, and else to note a shorter way and
enter the node that it leads to. -/
theorem relax_cases (watch : Observer σ) (hg : g.Searchable source)
    (hu : Underway g source here (edge :: pending) s) (hhere : (s.notes here).settled = true)
    (he : edge ∈ g.edgesFrom here) :
    (relax watch here edge s = .ok (.ok (), s) ∧ Settling g source here pending s.notes) ∨
    ∃ distance visits, (s.notes edge.target).settled = false ∧
      distance < (s.notes edge.target).distance ∧
      distance.toNat = (s.notes here).dist + edge.weight.toNat ∧ visits.size = g.size ∧
      Notes.ofArray visits = Function.update s.notes edge.target ⟨distance, some here, false⟩ ∧
      relax watch here edge s = (do
        let (reply, frontier) ← enter watch (.ofDistance distance) edge.target
          ⟨s.frontier.heap, watch.react
            (.notice (.relaxed here edge.target distance (s.notes edge.target).distance))
            s.frontier.seen⟩
        pure (reply, ⟨visits, frontier⟩)) := by
  have htarget := hg.closed _ _ he
  have hlt := Graph.lt_size_of_mem_edgesFrom he
  unfold relax
  simp only [hu.get_eq htarget, Checked.ok_bind]
  cases hs : (s.notes edge.target).settled with
  | true =>
    -- no settled node is further away than the one that the edge leaves
    exact .inl ⟨rfl, hu.settling.skip_settled hs⟩
  | false =>
    obtain ⟨distance, hadd, hd⟩ := hu.add_ok hg (hu.settling.reached here hhere) edge.weight
    simp only [hu.get_eq hlt, Checked.ok_bind, hadd, Bool.false_eq_true, if_false]
    by_cases hless : distance < (s.notes edge.target).distance
    · obtain ⟨visits, hset, hsize, hnotes⟩ := hu.set_eq htarget ⟨distance, some here, false⟩
      refine .inr ⟨distance, visits, trivial, hless, hd, hsize, hnotes, ?_⟩
      rw [if_pos hless, hset]
      rfl
    · rw [if_neg hless]
      rw [UInt64.not_lt, UInt64.le_iff_toNat_le, hd] at hless
      exact .inl ⟨rfl, hu.settling.skip hless⟩

/-- To look along an edge takes its excuse away and settles nothing, unless the heap is too small for
the node that the edge leads to. -/
theorem relax_total (watch : Observer σ) (hg : g.Searchable source)
    (hu : Underway g source here (edge :: pending) s) (hhere : (s.notes here).settled = true)
    (he : edge ∈ g.edgesFrom here) :
    ∃ reply s', relax watch here edge s = .ok (reply, s') ∧
      (reply ≠ .ok () → s.frontier.heap.capacity ≤ edge.target) ∧
      (reply = .ok () → Underway g source here pending s' ∧
        ∀ node, (s'.notes node).settled = (s.notes node).settled) := by
  rcases relax_cases watch hg hu hhere he with
    ⟨hrel, hi⟩ | ⟨distance, visits, hs, hless, hd, hsize, hnotes, hrel⟩
  · refine ⟨.ok (), s, hrel, fun h => absurd rfl h, fun _ => ⟨?_, fun _ => rfl⟩⟩
    exact ⟨hu.visits_size, hu.valid, hu.lookup_eq, hi⟩
  · rw [hrel]
    rw [UInt64.lt_iff_toNat_lt] at hless
    -- what the observer notes about the way has no part in what follows
    generalize watch.react _ s.frontier.seen = seen
    by_cases hcap : s.frontier.heap.capacity ≤ edge.target
    · obtain ⟨reason, w', hent⟩ := enter_error (w := ⟨s.frontier.heap, seen⟩) watch hu.valid
        (.ofDistance distance) hcap
      simp only [hent, Checked.ok_bind]
      exact ⟨_, _, rfl, fun _ => hcap, fun h => nomatch h⟩
    · obtain ⟨w', hent, hv, hlookup⟩ := enter_ok (w := ⟨s.frontier.heap, seen⟩) watch hu.valid
        (.ofDistance distance) (Nat.not_le.mp hcap)
      simp only [hent, Checked.ok_bind]
      refine ⟨_, _, rfl, fun h => absurd rfl h, fun _ => ⟨?_, fun node => ?_⟩⟩
      · exact hu.enter hhere he hs hless hd hsize hnotes hv hlookup
      · rw [notes_mk, hnotes, Function.update_apply]
        split
        · rename_i hn
          rw [hn, hs]
        · rfl

/-- To look along edges takes the excuses of all of them away, unless the heap is too small. -/
theorem relaxAll_total (watch : Observer σ) (hg : g.Searchable source)
    (hu : Underway g source here edges s) (hhere : (s.notes here).settled = true)
    (he : ∀ edge ∈ edges, edge ∈ g.edgesFrom here) :
    ∃ reply s', relaxAll watch here edges s = .ok (reply, s') ∧
      (reply ≠ .ok () → s.frontier.heap.capacity < g.size) ∧
      (reply = .ok () → Underway g source here [] s' ∧
        ∀ node, (s'.notes node).settled = (s.notes node).settled) := by
  induction edges generalizing s with
  | nil => exact ⟨_, s, rfl, fun h => absurd rfl h, fun _ => ⟨hu, fun _ => rfl⟩⟩
  | cons edge edges ih =>
    obtain ⟨reply, s₁, hrel, herr, hok⟩ :=
      relax_total watch hg hu hhere (he edge (List.mem_cons_self ..))
    simp only [relaxAll, hrel, Checked.ok_bind]
    cases reply with
    | error reason =>
      refine ⟨_, s₁, rfl, ?_, ?_⟩
      · intro h
        exact Nat.lt_of_le_of_lt (herr h) (hg.closed _ _ (he edge (List.mem_cons_self ..)))
      · intro h
        cases h
    | ok _ =>
      obtain ⟨hu₁, hsettled₁⟩ := hok rfl
      obtain ⟨reply, s', hrest, herr', hok'⟩ := ih hu₁ ((hsettled₁ here).trans hhere)
        fun edge hmem => he edge (List.mem_cons_of_mem _ hmem)
      refine ⟨reply, s', hrest, ?_, ?_⟩
      · intro h
        rw [← ((relax_evolves hrel).valid hu.valid).2]
        exact herr' h
      · intro h
        obtain ⟨hu', hsettled'⟩ := hok' h
        exact ⟨hu', fun node => (hsettled' node).trans (hsettled₁ node)⟩

/-! ## Settling a node -/

/-- What a verdict says is right: a path is a shortest one and meets no node twice, the absence of a
path means that there is no way, and a rejection means that the heap has no room for some node. -/
def Right (g : Graph) (source target capacity : Nat) : Verdict → Prop
  | .error _ => capacity < g.size
  | .ok none => ¬ g.Reaches source target
  | .ok (some p) => g.IsDistance source target p.cost.toNat ∧
      g.Walk source target p.nodes p.cost.toNat ∧ p.nodes.Nodup

/-- A nearest node was taken from the heap and is noted as settled. -/
theorem Underway.settle (hu : Underway g source here [] s) (hopen : (s.notes node).Open)
    (hmin : ∀ next, (s.notes next).Open → (s.notes node).dist ≤ (s.notes next).dist)
    (hsize : s'.visits.size = g.size)
    (hnotes : s'.notes = Function.update s.notes node { s.notes node with settled := true })
    (hv : s'.frontier.heap.Valid)
    (hlookup : s'.frontier.heap.lookup
      = Function.update (Visit.frontierKey ∘ s.notes) node none) :
    Underway g source node (g.edgesFrom node) s' := by
  refine ⟨hsize, hv, ?_, ?_⟩
  · rw [hlookup, hnotes, Function.comp_update, Visit.frontierKey_of_settled rfl]
  · rw [hnotes]
    exact hu.settling.settle hopen hmin

/-- When the target is taken from the heap, the notes lead back from it along a shortest path. -/
theorem Underway.retrace_ok (hu : Underway g source here [] s) (hg : g.Searchable source)
    (hopen : (s.notes node).Open)
    (hmin : ∀ next, (s.notes next).Open → (s.notes node).dist ≤ (s.notes next).dist)
    {visits : Array Visit} (hsize : visits.size = g.size)
    (hnotes : Notes.ofArray visits
      = Function.update s.notes node { s.notes node with settled := true }) :
    ∃ before, LeadsBack visits source node before ∧ before.length < g.size ∧
      retrace visits source (visits.size - 1) node [node] = .ok (before ++ [node]) ∧
      Right g source node s.frontier.heap.capacity
        (.ok (some ⟨(s.notes node).distance, before ++ [node]⟩)) := by
  obtain ⟨before, ht⟩ := hu.settling.trail node hopen.2
  have hlen := ht.length_lt hg.closed hg.source_lt
  have ht' : Trail g source (.ofArray visits) node before := by
    rw [hnotes]
    exact ht.settle node
  have hback : LeadsBack visits source node before := by
    refine ht'.leadsBack fun i hi => ?_
    rw [hsize]
    exact ht.lt_size hg.closed hg.source_lt i hi
  exact ⟨before, hback, hlen, hback.retrace_eq (by omega) [node],
    hu.settling.isDistance hg hopen hmin, ht.walk, ht.nodup⟩

/-- The step from `s` to `s'` takes the target, a nearest node of the frontier, and finds the path
`p` by following the notes back from it. -/
structure Finds (g : Graph) (source target : Nat) (s : Search σ) (p : Path) (s' : Search σ) :
    Prop where
  underway : ∃ here, Underway g source here [] s
  isOpen : (s.notes target).Open
  nearest : ∀ next, (s.notes next).Open → (s.notes target).dist ≤ (s.notes next).dist
  /-- The edges that leave the target are not looked along any more. -/
  after : Underway g source target (g.edgesFrom target) s'
  notes_eq : s'.notes = Function.update s.notes target { s.notes target with settled := true }
  cost_eq : p.cost = (s.notes target).distance
  leadsBack : ∃ before, LeadsBack s'.visits source target before ∧ before.length < g.size ∧
    p.nodes = before ++ [target]
  right : Right g source target s.frontier.heap.capacity (.ok (some p))

/-- A step settles a nearest node of the frontier. If it is the target, the search ends with the path
that leads to it, and else the edges of the node are looked along. -/
theorem step_cases (watch : Observer σ) (hg : g.Searchable source)
    (hu : Underway g source here [] s) (hne : s.frontier.heap.size ≠ 0) (target : Nat) :
    ∃ node w visits, watch.removeMin s.frontier = .ok (.ok node, w) ∧ (s.notes node).Open ∧
      (∀ next, (s.notes next).Open → (s.notes node).dist ≤ (s.notes next).dist) ∧
      Notes.ofArray visits
        = Function.update s.notes node { s.notes node with settled := true } ∧
      Underway g source node (g.edgesFrom node) ⟨visits, w⟩ ∧
      (node = target ∧ (∃ nodes, step watch g source target s
          = .ok (some (.ok (some ⟨(s.notes node).distance, nodes⟩)), ⟨visits, w⟩) ∧
          Finds g source target s ⟨(s.notes node).distance, nodes⟩ ⟨visits, w⟩) ∨
        node ≠ target ∧ step watch g source target s = (do
          let (reply, s') ← relaxAll watch node (g.edgesFrom node) ⟨visits, w⟩
          match reply with
          | .error reason => pure (some (.error reason), s')
          | .ok () => pure (none, s'))) := by
  obtain ⟨node, w, hrem, hopen, hmin, hv, hlookup⟩ := hu.removeMin_ok watch hg hne
  have hlt := hu.lt_size hg hopen.2
  obtain ⟨visits, hset, hsize, hnotes⟩ :=
    hu.set_eq hlt { s.notes node with settled := true }
  have hu₁ : Underway g source node (g.edgesFrom node) ⟨visits, w⟩ :=
    hu.settle hopen hmin hsize hnotes hv hlookup
  refine ⟨node, w, visits, hrem, hopen, hmin, hnotes, hu₁, ?_⟩
  unfold step
  simp only [hrem, Checked.ok_bind, hu.get_eq hlt, hset]
  by_cases htarget : node = target
  · subst htarget
    obtain ⟨before, hback, hlen, hret, hright⟩ := hu.retrace_ok hg hopen hmin hsize hnotes
    rw [if_pos rfl, hret]
    exact .inl ⟨rfl, before ++ [node], rfl, ⟨_, hu⟩, hopen, hmin, hu₁, hnotes, rfl,
      ⟨before, hback, hlen, rfl⟩, hright⟩
  · rw [if_neg htarget, Graph.neighbors_eq hlt]
    exact .inr ⟨htarget, rfl⟩

/-- How a step that takes `node` can end. -/
inductive Outcome (g : Graph) (source target node : Nat) (s : Search σ) :
    Option Verdict → Search σ → Prop where
  /-- The node is the target, and the path to it is found. -/
  | found {p : Path} {s' : Search σ} : node = target → Finds g source target s p s' →
      Outcome g source target node s (some (.ok (some p))) s'
  /-- The heap is too small for a node that an edge leads to. -/
  | cramped {reason : Rejection} {s' : Search σ} : node ≠ target →
      s.frontier.heap.capacity < g.size → Outcome g source target node s (some (.error reason)) s'
  /-- The search goes on, with one more node settled. -/
  | settled {s' : Search σ} : node ≠ target → Underway g source node [] s' →
      (s'.notes node).settled = true →
      (∀ i, i ≠ node → (s'.notes i).settled = (s.notes i).settled) →
      Outcome g source target node s none s'

/-- A step takes a node that was not settled, and ends in one of three ways. -/
theorem step_outcome (watch : Observer σ) (hg : g.Searchable source)
    (hu : Underway g source here [] s) (hne : s.frontier.heap.size ≠ 0) (target : Nat) :
    ∃ node w verdict? s', watch.removeMin s.frontier = .ok (.ok node, w) ∧
      step watch g source target s = .ok (verdict?, s') ∧ (s.notes node).Open ∧
      Outcome g source target node s verdict? s' := by
  obtain ⟨node, w, visits, hrem, hopen, -, hnotes, hu₁, hcase⟩ := step_cases watch hg hu hne target
  rcases hcase with ⟨htarget, nodes, hstep, hfinds⟩ | ⟨htarget, hstep⟩
  · exact ⟨node, w, _, _, hrem, hstep, hopen, .found htarget hfinds⟩
  · have hcap : w.heap.capacity = s.frontier.heap.capacity :=
      ((Heap.Evolves.of_removeMin (Observer.of_around_eq_ok hrem)).valid hu.valid).2
    have hself : (notes ⟨visits, w⟩ node).settled = true := by
      rw [notes_mk, hnotes, Function.update_self]
    obtain ⟨reply, s', hrel, herr, hok⟩ :=
      relaxAll_total watch hg hu₁ hself fun _ => id
    rw [hstep]
    simp only [Checked.ok_bind, hrel]
    cases reply with
    | error reason =>
      exact ⟨node, w, _, s', hrem, rfl, hopen, .cramped htarget (hcap ▸ herr (by simp))⟩
    | ok _ =>
      obtain ⟨hu', hsettled⟩ := hok rfl
      refine ⟨node, w, none, s', hrem, rfl, hopen, .settled htarget hu' ?_ ?_⟩
      · rw [hsettled, hself]
      · intro i hi
        rw [hsettled, notes_mk, hnotes, Function.update_of_ne hi]

/-- A round takes a node that was found and not settled, and ends as steps do. -/
theorem Underway.outcome (hu : Underway g source here [] s) (hg : g.Searchable source)
    (hne : s.frontier.heap.isEmpty = false) {watch : Observer σ} {w : Watched σ}
    (hrem : watch.removeMin s.frontier = .ok (.ok node, w)) {verdict? : Option Verdict}
    (hstep : step watch g source target s = .ok (verdict?, s')) :
    (s.notes node).Open ∧ Outcome g source target node s verdict? s' := by
  have h0 := hu.valid.isEmpty_eq_false_iff.mp hne
  obtain ⟨node', w', verdict?', s₁, hrem', hstep', hopen, houtcome⟩ :=
    step_outcome watch hg hu h0 target
  obtain ⟨hnode, -⟩ := Prod.mk.inj (Except.ok.inj (hrem.symm.trans hrem'))
  obtain ⟨rfl, rfl⟩ := Prod.mk.inj (Except.ok.inj (hstep.symm.trans hstep'))
  obtain rfl := Except.ok.inj hnode
  exact ⟨hopen, houtcome⟩

/-! ## A whole search -/

def unsettled (g : Graph) (s : Search σ) : Finset Nat :=
  (Finset.range g.size).filter fun node => (s.notes node).settled = false

theorem mem_unsettled : node ∈ unsettled g s ↔ node < g.size ∧ (s.notes node).settled = false := by
  rw [unsettled, Finset.mem_filter, Finset.mem_range]

/-- The node that a round settles was counted before it and is not counted after it. -/
theorem card_unsettled_lt (hlt : node < g.size) (hnode : (s.notes node).settled = false)
    (hself : (s'.notes node).settled = true)
    (hother : ∀ i, i ≠ node → (s'.notes i).settled = (s.notes i).settled) :
    (unsettled g s').card < (unsettled g s).card := by
  refine Finset.card_lt_card ((Finset.ssubset_iff_of_subset ?_).mpr ⟨node, ?_, ?_⟩)
  · intro i hi
    rw [mem_unsettled] at hi ⊢
    rw [← hother i (Notes.ne_of_settled hself hi.2).symm]
    exact hi
  · exact mem_unsettled.mpr ⟨hlt, hnode⟩
  · rw [mem_unsettled, hself]
    exact fun h => nomatch h.2

/-- As many rounds as nodes are not settled are enough for a right verdict. -/
theorem run_total (watch : Observer σ) (hg : g.Searchable source) (ht : target < g.size)
    (rounds : Nat) (hu : Underway g source here [] s) (hs : (s.notes target).settled = false)
    (hrounds : (unsettled g s).card ≤ rounds) :
    ∃ verdict s', run watch g source target rounds s = .ok (verdict, s') ∧
      Right g source target s.frontier.heap.capacity verdict := by
  induction rounds generalizing s here with
  | zero =>
    have hmem : target ∈ unsettled g s := mem_unsettled.mpr ⟨ht, hs⟩
    exact absurd (Finset.card_pos.mpr ⟨target, hmem⟩) (by omega)
  | succ rounds ih =>
    cases h0 : s.frontier.heap.isEmpty with
    | true =>
      refine ⟨_, s, run_of_isEmpty h0 _, ?_⟩
      rintro ⟨nodes, cost, hw⟩
      obtain ⟨next, ho, -⟩ := hu.settling.exists_open hg hw hs
      exact hu.not_open (hu.valid.isEmpty_iff.mp h0) next ho
    | false =>
      obtain ⟨node, w, verdict?, s₁, -, hstep, hopen, houtcome⟩ :=
        step_outcome watch hg hu (hu.valid.isEmpty_eq_false_iff.mp h0) target
      cases houtcome with
      | found _ hfinds => exact ⟨_, s₁, run_of_verdict h0 hstep rounds, hfinds.right⟩
      | cramped _ hcap => exact ⟨_, s₁, run_of_verdict h0 hstep rounds, hcap⟩
      | settled hne hu₁ hself hother =>
        have hless := card_unsettled_lt (hu.lt_size hg hopen.2) hopen.1 hself hother
        obtain ⟨verdict, s', hrun, hright⟩ :=
          ih hu₁ ((hother target hne.symm).trans hs) (by omega)
        refine ⟨verdict, s', (run_of_none h0 hstep rounds).trans hrun, ?_⟩
        rw [← ((step_evolves hstep).valid hu.valid).2]
        exact hright

end AddressableHeap.Search
