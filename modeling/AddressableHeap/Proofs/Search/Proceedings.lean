import AddressableHeap.Proofs.Search.Course
import AddressableHeap.Proofs.Search.Rounds

/-!
# The proceedings of a search

What a search between two nodes does to its frontier can be told act by act, and every observer is told
the same. The heap is emptied and asked to take in the source, and from then on the nearest nodes are
taken from it, in the order of their distance, and shorter ways are entered as they are found.
-/

namespace AddressableHeap.Graph

variable {σ : Type} {watch : Observer σ} {g : Graph} {source target : Nat} {h h' : Heap}
variable {acts : List Act} {answer : Except Failure (Option Path)}

/-- A search with the heap `h` consists of these acts, which take the heap to `h'`, and every observer
is told of them and of nothing else. -/
structure Proceeds (g : Graph) (source target : Nat) (h : Heap) (acts : List Act)
    (answer : Except Failure (Option Path)) (h' : Heap) : Prop where
  serves : h.Serves (acts.map Act.call) h'
  observed : ∀ {σ : Type} (watch : Observer σ) (seen : σ),
    g.shortestPathWith watch source target ⟨h, seen⟩
      = .ok (answer, ⟨h', watch.feed (acts.flatMap Act.events) seen⟩)

/-- What the acts of a whole search are like. -/
structure Proceedings (g : Graph) (source target : Nat) (acts : List Act) (verdict : Verdict) :
    Prop where
  /-- The heap is emptied and asked to take in the source, and then the search takes its course. -/
  opening : ∃ clear entry rest last, acts = ⟨none, clear⟩ :: ⟨none, entry⟩ :: rest ∧
    clear.mutation = .clear ∧ entry.mutation = .insert 0 source ∧ Course none rest last
  account : ∃ notes, Account g source acts notes
  concluded : Concluded g source target acts verdict

/-- A search between two nodes performs its proceedings. Unless it fails, it ends as the loop of a
search ends, with an account of its acts. -/
theorem shortestPathWith_performs {w w' : Watched σ} (hg : g.Searchable source)
    (ht : target < g.size) (hv : w.heap.Valid)
    (he : g.shortestPathWith watch source target w = .ok (answer, w')) :
    ∃ acts verdict, watch.Performs w acts w' ∧ answer = verdict.mapError .frontier ∧
      g.Proceedings source target acts verdict ∧
      ∀ found, verdict = .ok found → ∃ nodes s, s.frontier = w' ∧
        Account g source acts s.notes ∧ Search.Ends g source target nodes verdict s := by
  obtain ⟨w₁, reply, s, hclear, hb, hins, hopening, hnotes, -, hok⟩ := opening_total watch hg hv
  obtain ⟨members₁, hp₁⟩ := Observer.clear_performs hv hclear
  obtain ⟨members₂, hp₂⟩ := Observer.insert_performs hb.valid hins
  have hp := hp₁.trans hp₂
  have hstart : Account g source
      [⟨none, ⟨.clear, w.heap.toList, .ok none, members₁⟩⟩,
        ⟨none, ⟨.insert 0 source, w₁.heap.toList, reply.map fun _ => none, members₂⟩⟩]
      (Function.update (fun _ => Visit.unreached) source Visit.start) :=
    .start g rfl rfl
  cases reply with
  | ok _ =>
    obtain ⟨hu, -⟩ := hok rfl
    rw [shortestPathWith_of_opening_ok hg.source_lt ht hopening, Checked.bind_eq_ok] at he
    obtain ⟨⟨verdict, s'⟩, hrun, he⟩ := he
    obtain ⟨rfl, rfl⟩ := Prod.mk.inj (Except.ok.inj he)
    rw [← hnotes] at hstart
    obtain ⟨acts, last, hadv, hconcluded⟩ := Search.run_advances hg hu hstart hrun none
    obtain ⟨nodes, hl⟩ := Search.exists_loop hrun
    exact ⟨_, verdict, hp.trans hadv.performs, rfl,
      ⟨⟨_, _, acts, last, rfl, rfl, rfl, hadv.course⟩, ⟨_, hadv.account⟩, hconcluded⟩,
      fun found _ => ⟨nodes, s', rfl, hadv.account, hl.ends hg hu⟩⟩
  | error reason =>
    rw [shortestPathWith_of_opening_error hg.source_lt ht hopening] at he
    obtain ⟨rfl, rfl⟩ := Prod.mk.inj (Except.ok.inj he)
    have hnone : w₁.heap.lookup source = none := by rw [hb.lookup_eq]
    have hcramped : reason.Cramped := by
      rcases hb.valid.insert_new_cases hnone (Observer.of_around_eq_ok hins) with
        ⟨hok, -⟩ | ⟨reason', hreason, hcramped⟩
      · exact nomatch hok
      · rw [Except.error.inj hreason]
        exact hcramped
    exact ⟨_, .error reason, hp, rfl,
      ⟨⟨_, _, [], none, rfl, rfl, rfl, .nil none⟩, ⟨_, hstart⟩, hcramped⟩,
      fun found h => nomatch h⟩

/-- A search between two nodes can be told act by act, and by how it ends. -/
theorem exists_proceeds_ending (hg : g.Searchable source) (ht : target < g.size) (hv : h.Valid) :
    ∃ acts verdict h', g.Proceeds source target h acts (verdict.mapError .frontier) h' ∧
      g.Proceedings source target acts verdict ∧
      Search.Right g source target h.capacity verdict ∧
      ∀ found, verdict = .ok found → ∃ nodes, ∃ s : Search (Array Event), s.frontier.heap = h' ∧
        Account g source acts s.notes ∧ Search.Ends g source target nodes verdict s := by
  obtain ⟨verdict, ⟨h', log⟩, he, hright⟩ :=
    shortestPathWith_total (w := ⟨h, #[]⟩) .transcript hg ht hv
  obtain ⟨acts, verdict', hp, hverdict, hproc, hends⟩ := shortestPathWith_performs hg ht hv he
  obtain rfl := Failure.mapError_frontier_inj hverdict
  refine ⟨acts, verdict, h', ⟨hp.serves, ?_⟩, hproc, hright, ?_⟩
  · intro σ watch seen
    -- the log of this search holds all the events, and another observer is fed with them
    have hlog : log.toList = acts.flatMap Act.events := by
      have hseen : log = Observer.transcript.feed (acts.flatMap Act.events) #[] := hp.seen
      rw [hseen, Observer.feed_transcript]
      rfl
    have hmap := shortestPathWith_map (watch.digests_transcript seen) g source target ⟨h, #[]⟩
    rw [he] at hmap
    rw [← hlog]
    exact hmap
  · intro found hfound
    obtain ⟨nodes, s, hs, ha, hend⟩ := hends found hfound
    exact ⟨nodes, s, by rw [hs], ha, hend⟩

theorem exists_proceeds (hg : g.Searchable source) (ht : target < g.size) (hv : h.Valid) :
    ∃ acts verdict h', g.Proceeds source target h acts (verdict.mapError .frontier) h' ∧
      g.Proceedings source target acts verdict ∧
      Search.Right g source target h.capacity verdict := by
  obtain ⟨acts, verdict, h', hproceeds, hproc, hright, -⟩ := exists_proceeds_ending hg ht hv
  exact ⟨acts, verdict, h', hproceeds, hproc, hright⟩

/-! ## The order in which nodes are taken -/

/-- A search with a heap that has room for every node takes nodes from its root, each at its distance
from the source and no nearer one after it. If it finds a path, the target is the last one taken, and
all that are nearer than it were taken before. If it finds none, the nodes that can be reached are
taken, and no others. -/
theorem shortestPathWith_settles (hb : g.Built) (hn : g.size ≤ 2 ^ 31) (hs : source < g.size)
    (ht : target < g.size) (hr : h.Reachable) (hroom : g.size ≤ h.capacity) :
    ∃ acts found h', g.Proceeds source target h acts (.ok found) h' ∧
      (∀ act ∈ acts, act.call.mutation = .removeMin →
        ∃ e, act.taken? = some e ∧ act.call.reply = .ok (some e.id)) ∧
      (∀ e ∈ Act.takings acts, ∃ distance, g.IsDistance source e.id distance ∧
        e.key.toInt = distance) ∧
      (Act.takings acts).Pairwise (fun e e' => e.key ≤ e'.key) ∧
      ((Act.takings acts).map (·.id)).Nodup ∧
      (∀ p, found = some p → ∃ before last, Act.takings acts = before ++ [last] ∧
        last.id = target ∧ last.key.toInt = (p.cost.toNat : Int) ∧
        ∀ node distance, g.IsDistance source node distance → distance < p.cost.toNat →
          node ∈ before.map (·.id)) ∧
      (found = none → ∀ node, node ∈ (Act.takings acts).map (·.id) ↔ g.Reaches source node) := by
  obtain ⟨acts, verdict, h', hproceeds, hproc, hright⟩ :=
    exists_proceeds (hb.searchable hn hs) ht hr.valid
  obtain ⟨clear, entry, rest, last, rfl, hclear, hentry, hcourse⟩ := hproc.opening
  obtain ⟨notes, ha⟩ := hproc.account
  have hconcluded := hproc.concluded
  cases verdict with
  | error reason => exact absurd hroom (Nat.not_le.mpr hright)
  | ok found =>
    refine ⟨_, found, h', hproceeds, ?_, ?_, ha.sorted, ha.takings_nodup, ?_, ?_⟩
    · intro act hmem hm
      rcases List.mem_cons.mp hmem with rfl | hmem
      · exact nomatch hclear.symm.trans hm
      · rcases List.mem_cons.mp hmem with rfl | hmem
        · exact nomatch hentry.symm.trans hm
        · obtain ⟨here, hsettles⟩ := hcourse.settles_of_removeMin hmem hm
          obtain ⟨key, hroot⟩ := hsettles.root
          refine ⟨⟨key, here⟩, ?_, hsettles.reply⟩
          rw [Act.taken?, hm]
          exact hroot
    · intro e hmem
      exact ⟨_, ha.exact e hmem, ha.key_eq e hmem⟩
    · rintro p rfl
      exact hconcluded
    · rintro rfl node
      refine ⟨?_, hconcluded node⟩
      intro hmem
      obtain ⟨e, he, rfl⟩ := List.mem_map.mp hmem
      obtain ⟨⟨nodes, hw⟩, -⟩ := ha.exact e he
      exact ⟨nodes, _, hw⟩

/-- A graph in which the way over a node in between is shorter than the edge that leads there at once. -/
def detour : Graph := ⟨#[⟨"A", #[⟨2, 10⟩, ⟨1, 1⟩]⟩, ⟨"B", #[⟨2, 2⟩]⟩, ⟨"C", #[]⟩]⟩

theorem addEdges_detour :
    (ofLabels ["A", "B", "C"]).addEdges [⟨0, 2, 10⟩, ⟨0, 1, 1⟩, ⟨1, 2, 2⟩] = .ok detour := rfl

theorem built_detour : detour.Built := ⟨_, _, addEdges_detour⟩

/-- With a heap that holds two former members, and a node to which a shorter way is found while it is in
the frontier. -/
theorem shortestPathWith_settles_of_detour :
    ∃ h g, h.Reachable ∧ h.size = 2 ∧
      (ofLabels ["A", "B", "C"]).addEdges [⟨0, 2, 10⟩, ⟨0, 1, 1⟩, ⟨1, 2, 2⟩] = .ok g ∧
      ∃ acts h', g.Proceeds 0 2 h acts (.ok (some ⟨3, [0, 1, 2]⟩)) h' ∧
        (∀ act ∈ acts, act.call.mutation = .removeMin →
          ∃ e, act.taken? = some e ∧ act.call.reply = .ok (some e.id)) ∧
        (∀ e ∈ Act.takings acts, ∃ distance, g.IsDistance 0 e.id distance ∧
          e.key.toInt = distance) ∧
        (Act.takings acts).Pairwise (fun e e' => e.key ≤ e'.key) ∧
        ((Act.takings acts).map (·.id)).Nodup ∧
        ∃ before last, Act.takings acts = before ++ [last] ∧ last.id = 2 ∧ last.key.toInt = 3 ∧
          ∀ node distance, g.IsDistance 0 node distance → distance < 3 →
            node ∈ before.map (·.id) := by
  have hr := Heap.reachable_leftovers
  obtain ⟨acts, found, h', hproceeds, hroot, hexact, hsorted, hnodup, hlast, -⟩ :=
    shortestPathWith_settles built_detour (by decide) (show 0 < 3 by decide) (show 2 < 3 by decide)
      hr (by decide)
  have hanswer : (detour.shortestPathWith Observer.silent 0 2
      ⟨⟨#[.sentinel, ⟨4, 2⟩, ⟨5, 0⟩, ⟨3, 1⟩], ⟨#[2, 3, 1]⟩, 2⟩, ()⟩).map (·.1)
      = .ok (.ok (some ⟨3, [0, 1, 2]⟩)) := by decide +kernel
  rw [hproceeds.observed] at hanswer
  obtain rfl := Except.ok.inj (Except.ok.inj hanswer)
  exact ⟨_, _, hr, rfl, addEdges_detour, acts, h', hproceeds, hroot, hexact, hsorted, hnodup,
    hlast _ rfl⟩

/-! ## What is asked of the frontier -/

/-- Whatever a heap can hold and whatever happened to it before, a search empties it, asks it to take in
the source at distance 0, and then takes nearest nodes and enters shorter ways, each of which it notes
right before. No element is to be taken in twice, a key is only changed to a smaller one, and the search
fails for want of room or not at all. -/
theorem shortestPathWith_disciplined (hb : g.Built) (hn : g.size ≤ 2 ^ 31) (hs : source < g.size)
    (ht : target < g.size) (hr : h.Reachable) :
    ∃ clear entry rest last answer h',
      g.Proceeds source target h (⟨none, clear⟩ :: ⟨none, entry⟩ :: rest) answer h' ∧
      clear.mutation = .clear ∧ entry.mutation = .insert 0 source ∧ Course none rest last ∧
      (Act.offers (⟨none, clear⟩ :: ⟨none, entry⟩ :: rest)).Nodup ∧
      (∀ act ∈ rest, ∀ key node, act.call.mutation = .update key node →
        ∃ former, ⟨former, node⟩ ∈ act.call.former ∧ key < former) ∧
      (∀ here node distance former, (Event.notice (.relaxed here node distance former)).record
        = ⟨.debug, s!"relax {here} -> {node}: {distance} (was {former})"⟩) ∧
      ∀ failure, answer = .error failure → ∃ reason, failure = .frontier reason ∧ reason.Cramped := by
  obtain ⟨acts, verdict, h', hproceeds, hproc, -⟩ :=
    exists_proceeds (hb.searchable hn hs) ht hr.valid
  obtain ⟨clear, entry, rest, last, rfl, hclear, hentry, hcourse⟩ := hproc.opening
  obtain ⟨notes, ha⟩ := hproc.account
  refine ⟨clear, entry, rest, last, _, h', hproceeds, hclear, hentry, hcourse, ha.offers_nodup,
    fun act hmem key node => hcourse.lt_of_update hmem, fun _ _ _ _ => rfl, ?_⟩
  rintro failure hfailure
  cases verdict with
  | ok found => exact nomatch hfailure
  | error reason => exact ⟨reason, (Except.error.inj hfailure).symm, hproc.concluded⟩

/-- On the same graph. The node to which a shorter way is found has its key changed. -/
theorem shortestPathWith_disciplined_of_detour :
    ∃ g, (ofLabels ["A", "B", "C"]).addEdges [⟨0, 2, 10⟩, ⟨0, 1, 1⟩, ⟨1, 2, 2⟩] = .ok g ∧
      ∃ clear entry rest last h',
        g.Proceeds 0 2 (.empty 3) (⟨none, clear⟩ :: ⟨none, entry⟩ :: rest)
          (.ok (some ⟨3, [0, 1, 2]⟩)) h' ∧
        clear.mutation = .clear ∧ entry.mutation = .insert 0 0 ∧ Course none rest last ∧
        (Act.offers (⟨none, clear⟩ :: ⟨none, entry⟩ :: rest)).Nodup ∧
        (∃ act ∈ rest, act.call.mutation = .update 3 2 ∧ act.call.former = [⟨10, 2⟩]) ∧
        (∀ act ∈ rest, ∀ key node, act.call.mutation = .update key node →
          ∃ former, ⟨former, node⟩ ∈ act.call.former ∧ key < former) ∧
        ∀ here node distance former, (Event.notice (.relaxed here node distance former)).record
          = ⟨.debug, s!"relax {here} -> {node}: {distance} (was {former})"⟩ := by
  obtain ⟨clear, entry, rest, last, answer, h', hproceeds, hclear, hentry, hcourse, honce, hlower,
      hrecord, -⟩ :=
    shortestPathWith_disciplined built_detour (by decide) (show 0 < 3 by decide)
      (show 2 < 3 by decide) (.fresh 3 (by decide))
  have hrun : (detour.shortestPathWith Observer.transcript 0 2 ⟨.empty 3, #[]⟩).map
      (Prod.map id fun w => decide (.callback ⟨.before, .update 3 2, [⟨10, 2⟩]⟩ ∈ w.seen.toList))
      = .ok (.ok (some ⟨3, [0, 1, 2]⟩), true) := by decide +kernel
  rw [hproceeds.observed] at hrun
  obtain ⟨rfl, hseen⟩ := Prod.mk.inj (Except.ok.inj hrun)
  have hbegun := of_decide_eq_true hseen
  rw [Observer.feed_transcript] at hbegun
  obtain ⟨act, hact, hmem⟩ := List.mem_flatMap.mp hbegun
  obtain ⟨hmutation, hformer⟩ := Act.of_before_mem hmem
  have hrest : act ∈ rest := by
    rcases List.mem_cons.mp hact with rfl | hact
    · exact nomatch hclear.symm.trans hmutation
    · rcases List.mem_cons.mp hact with rfl | hact
      · exact nomatch hentry.symm.trans hmutation
      · exact hact
  exact ⟨_, addEdges_detour, clear, entry, rest, last, h', hproceeds, hclear, hentry, hcourse, honce,
    ⟨act, hrest, hmutation, hformer⟩, hlower, hrecord⟩

end AddressableHeap.Graph
