import AddressableHeap.Proofs.Faultless
import AddressableHeap.Proofs.Search.Proceedings
import Mathlib

/-!
# What a search leaves in its frontier

A search that finds a path stops in the middle of its work. What it leaves in its heap are the nodes
at the border of its way: those that were not taken and that an edge leads to from one that was, the
target apart, whose edges nobody looked along. Each lies under the least that a way through a taken
node costs, and none is nearer than the target. A search that finds no path leaves nothing. Of what
the heap held before, nothing is left in either case, unless the search took it in anew.
-/

namespace AddressableHeap

variable {σ : Type} {g : Graph} {source target here node : Nat} {acts : List Act} {key : Key}

/-! ## How members are gained -/

namespace Heap

variable {h h' : Heap} {id : Id}

/-- A request that is about one element makes no other one a member. -/
theorem Becomes.member {size : Nat} {changed : Id} {key? : Option Key}
    (hb : h.Becomes h' size (Function.update h.lookup changed key?))
    (hk : h'.lookup id = some key) :
    (∃ former, h.lookup id = some former) ∨ id = changed ∧ key? = some key := by
  rw [hb.lookup_eq, Function.update_apply] at hk
  split at hk
  · rename_i hid
    exact .inr ⟨hid, hk⟩
  · exact .inl ⟨key, hk⟩

/-- Of the requests, only an insertion gains a member. -/
theorem Valid.member_of_apply (hv : h.Valid) {m : Mutation} {reply : Reply}
    (he : h.apply m = .ok (reply, h')) (hk : h'.lookup id = some key) :
    (∃ former, h.lookup id = some former) ∨ ∃ key, m = .insert key id := by
  have hgrants := hv.isOk_iff_grants he
  cases reply with
  | error reason =>
    rw [eq_of_apply_error he] at hk
    exact .inl ⟨key, hk⟩
  | ok answer =>
    have hgranted := hgrants.mp rfl
    cases m with
    | insert key' id' =>
      obtain ⟨h₁, he₁, hb⟩ := hv.insert_ok key' hgranted.1 hgranted.2
      rw [apply, he₁] at he
      obtain ⟨-, rfl⟩ := Prod.mk.inj (Except.ok.inj he)
      rcases hb.member hk with hmember | ⟨rfl, -⟩
      · exact .inl hmember
      · exact .inr ⟨key', rfl⟩
    | update key' id' =>
      obtain ⟨former, hformer⟩ := hgranted
      obtain ⟨h₁, he₁, hb⟩ := hv.update_ok key' hformer
      rw [apply, he₁] at he
      obtain ⟨-, rfl⟩ := Prod.mk.inj (Except.ok.inj he)
      rcases hb.member hk with hmember | ⟨rfl, -⟩
      · exact .inl hmember
      · exact .inl ⟨former, hformer⟩
    | removeMin =>
      obtain ⟨h₁, he₁, hb⟩ := hv.removeMin_ok hgranted
      rw [apply, he₁] at he
      obtain ⟨-, rfl⟩ := Prod.mk.inj (Except.ok.inj he)
      exact .inl ((hb.member hk).resolve_right fun h => Option.some_ne_none _ h.2.symm)
    | remove id' =>
      obtain ⟨former, hformer⟩ := hgranted
      obtain ⟨h₁, he₁, hb⟩ := hv.remove_ok hformer
      rw [apply, he₁] at he
      obtain ⟨-, rfl⟩ := Prod.mk.inj (Except.ok.inj he)
      exact .inl ((hb.member hk).resolve_right fun h => Option.some_ne_none _ h.2.symm)
    | clear =>
      obtain ⟨-, rfl⟩ := Prod.mk.inj (Except.ok.inj he)
      rw [hv.clear.lookup_eq] at hk
      cases hk

/-- What is a member after some calls was a member before them, or a call was to take it in. -/
theorem Serves.member {calls : List Call} (hs : h.Serves calls h') (hv : h.Valid)
    (hk : h'.lookup id = some key) : (∃ former, h.lookup id = some former) ∨
      ∃ call ∈ calls, ∃ key, call.mutation = .insert key id := by
  induction hs with
  | nil h => exact .inl ⟨key, hk⟩
  | cons he _ _ _ ih =>
    rcases ih (hv.of_apply he).1 hk with ⟨former, hformer⟩ | ⟨call, hmem, hcall⟩
    · rcases hv.member_of_apply he hformer with hmember | hinsert
      · exact .inl hmember
      · exact .inr ⟨_, List.mem_cons_self .., hinsert⟩
    · exact .inr ⟨call, List.mem_cons_of_mem _ hmem, hcall⟩

end Heap

namespace Act

theorem mem_offers_iff : node ∈ offers acts ↔
    ∃ act ∈ acts, ∃ key, act.call.mutation = .insert key node := by
  rw [offers, List.mem_filterMap]
  refine exists_congr fun act => and_congr_right fun _ => ?_
  unfold offered?
  split
  · rename_i key id hm
    rw [hm]
    constructor
    · intro h
      exact ⟨key, by rw [Option.some.inj h]⟩
    · rintro ⟨key', h⟩
      rw [(Mutation.insert.inj h).2]
  · rename_i hm
    refine iff_of_false (Option.some_ne_none _).symm ?_
    rintro ⟨key, h⟩
    exact hm key node h

/-! ## The removals of a search -/

/-- The element that the heap answers with when it is asked for its least member. -/
def removed? (act : Act) : Option Id :=
  match act.call.mutation, act.call.reply with
  | .removeMin, .ok id? => id?
  | _, _ => none

/-- The elements that the heap gives away as its least members, in order. -/
def removals (acts : List Act) : List Id := acts.filterMap removed?

end Act

/-- The heap gives away what lies at its root. -/
theorem Course.removed?_eq {a b : Option Nat} {act : Act} (hc : Course a acts b)
    (hmem : act ∈ acts) : act.removed? = act.taken?.map (·.id) := by
  rcases hc.settles_or_relaxes hmem with ⟨here, hs⟩ | ⟨here, hr⟩
  · obtain ⟨key, hroot⟩ := hs.root
    rw [Act.removed?, Act.taken?, hs.mutation, hs.reply]
    exact (congrArg (Option.map (·.id)) hroot).symm
  · cases hr <;> rfl

theorem Graph.Proceedings.removals_eq {verdict : Verdict}
    (hp : g.Proceedings source target acts verdict) :
    Act.removals acts = (Act.takings acts).map (·.id) := by
  obtain ⟨clear, entry, rest, last, rfl, hclear, hentry, hcourse⟩ := hp.opening
  rw [Act.removals, Act.takings, List.map_filterMap]
  refine List.filterMap_congr fun act hmem => ?_
  rcases List.mem_cons.mp hmem with rfl | hmem
  · simp only [Act.removed?, Act.taken?, hclear, Option.map_none]
  · rcases List.mem_cons.mp hmem with rfl | hmem
    · simp only [Act.removed?, Act.taken?, hentry, Option.map_none]
    · exact hcourse.removed?_eq hmem

/-! ## The members at the end -/

theorem Graph.IsDistance.unique {first last distance distance' : Nat}
    (h : g.IsDistance first last distance) (h' : g.IsDistance first last distance') :
    distance = distance' := by
  obtain ⟨⟨nodes, hw⟩, hle⟩ := h
  obtain ⟨⟨nodes', hw'⟩, hle'⟩ := h'
  exact Nat.le_antisymm (hle _ _ hw') (hle' _ _ hw)

/-- What a search that took the nodes `taken` and found the path `p` leaves in its heap. -/
structure Graph.Leaves (g : Graph) (source target : Nat) (taken : List Nat) (p : Path) (h : Heap) :
    Prop where
  /-- The members are the nodes that were not taken and that an edge leads to from a node that was,
  other than the target. -/
  contains_iff : ∀ node, h.contains node = .ok true ↔
    node ∉ taken ∧ ∃ here ∈ taken, here ≠ target ∧ ∃ edge ∈ g.edgesFrom here, edge.target = node
  /-- The key of a member is the least that a shortest way to such a node and an edge from there
  cost together, and not less than the path. -/
  key_isLeast : ∀ node key, h.keyOf node = .ok (some key) → ∃ cost : Nat, key.toInt = cost ∧
    IsLeast {c | ∃ here ∈ taken, here ≠ target ∧ ∃ distance, g.IsDistance source here distance ∧
      ∃ edge ∈ g.edgesFrom here, edge.target = node ∧ c = distance + edge.weight.toNat} cost ∧
    p.cost.toNat ≤ cost

namespace Search

variable {pending : List Edge} {s s' : Search σ} {p : Path}

/-! ### In terms of the notes -/

namespace Underway

theorem contains_iff (hu : Underway g source here pending s) :
    s.frontier.heap.contains node = .ok true ↔ (s.notes node).Open := by
  rw [hu.valid.contains_eq, Except.ok.injEq, hu.lookup_eq, Function.comp_apply,
    Option.isSome_iff_exists]
  constructor
  · rintro ⟨key, hkey⟩
    exact (Visit.open_of_frontierKey hkey).1
  · intro ho
    exact ⟨_, Visit.frontierKey_of_open ho⟩

theorem open_of_keyOf (hu : Underway g source here pending s) (hg : g.Searchable source)
    (hk : s.frontier.heap.keyOf node = .ok (some key)) :
    (s.notes node).Open ∧ key.toInt = (s.notes node).dist := by
  rw [hu.valid.keyOf_eq, Except.ok.injEq, hu.lookup_eq, Function.comp_apply] at hk
  obtain ⟨ho, rfl⟩ := Visit.open_of_frontierKey hk
  exact ⟨ho, Key.toInt_ofDistance_of_lt (hu.settling.dist_lt hg ho.2)⟩

end Underway

namespace Finds

theorem settled_iff (hf : Finds g source target s p s') :
    (s'.notes node).settled = true ↔ node = target ∨ (s.notes node).settled = true := by
  rw [hf.notes_eq, Function.update_apply]
  split
  · rename_i hn
    exact iff_of_true rfl (.inl hn)
  · rename_i hn
    exact (or_iff_right hn).symm

theorem notes_of_ne (hf : Finds g source target s p s') (hn : node ≠ target) :
    s'.notes node = s.notes node := by
  rw [hf.notes_eq, Function.update_of_ne hn]

/-- The source is settled, since the way to the target begins there. -/
theorem source_settled (hf : Finds g source target s p s') :
    (s'.notes source).settled = true := by
  obtain ⟨here, hu⟩ := hf.underway
  obtain ⟨before, ht⟩ := hu.settling.trail target hf.isOpen.2
  rw [hf.settled_iff]
  rcases List.mem_append.mp ht.source_mem with hmem | hmem
  · exact .inr (ht.settled source hmem)
  · exact .inl (List.mem_singleton.mp hmem)

theorem ne_of_open (hf : Finds g source target s p s') (ho : (s'.notes node).Open) :
    node ≠ target :=
  (Notes.ne_of_settled (hf.settled_iff.mpr (.inl rfl)) ho.1).symm

/-- A node of the frontier was found along an edge from a settled node other than the target. -/
theorem exists_edge (hf : Finds g source target s p s') (ho : (s'.notes node).Open) :
    ∃ here, (s'.notes here).settled = true ∧ here ≠ target ∧
      ∃ edge ∈ g.edgesFrom here, edge.target = node ∧
        (s'.notes node).dist = (s'.notes here).dist + edge.weight.toNat := by
  obtain ⟨last, hu⟩ := hf.underway
  have hne : node ≠ source := (Notes.ne_of_settled hf.source_settled ho.1).symm
  have hn := hf.ne_of_open ho
  rw [hf.notes_of_ne hn] at ho ⊢
  obtain ⟨here, hs, edge, he, htarget, hd⟩ := hu.settling.exists_edge ho.2 hne
  -- the target was not settled before its own round
  have hhere : here ≠ target := Notes.ne_of_settled hs hf.isOpen.1
  refine ⟨here, hf.settled_iff.mpr (.inr hs), hhere, edge, he, htarget, ?_⟩
  rw [hf.notes_of_ne hhere, hd]

/-- An edge from a settled node other than the target leads to a settled node, or into the frontier
at no greater distance. -/
theorem open_of_edge (hf : Finds g source target s p s') (hg : g.Searchable source)
    (hs : (s'.notes here).settled = true) (hhere : here ≠ target) {edge : Edge}
    (he : edge ∈ g.edgesFrom here) (ht : ¬ (s'.notes edge.target).settled = true) :
    (s'.notes edge.target).Open ∧
      (s'.notes edge.target).dist ≤ (s'.notes here).dist + edge.weight.toNat := by
  obtain ⟨last, hu⟩ := hf.underway
  have hs' := (hf.settled_iff.mp hs).resolve_left hhere
  have hn : edge.target ≠ target := fun h => ht (hf.settled_iff.mpr (.inl h))
  rw [Bool.not_eq_true] at ht
  rw [hf.notes_of_ne hn] at ht ⊢
  rw [hf.notes_of_ne hhere]
  exact hu.settling.open_of_edge hg hs' he ht

/-- No node of the frontier is nearer than the target. -/
theorem cost_le (hf : Finds g source target s p s') (ho : (s'.notes node).Open) :
    p.cost.toNat ≤ (s'.notes node).dist := by
  have hn := hf.ne_of_open ho
  rw [hf.notes_of_ne hn] at ho ⊢
  rw [hf.cost_eq]
  exact hf.nearest node ho

/-! ### In terms of the nodes taken -/

theorem leaves (hf : Finds g source target s p s') (hg : g.Searchable source)
    (ha : Account g source acts s'.notes) :
    g.Leaves source target ((Act.takings acts).map (·.id)) p s'.frontier.heap := by
  have hexact : ∀ here ∈ (Act.takings acts).map (·.id),
      g.IsDistance source here (s'.notes here).dist := by
    intro here hmem
    obtain ⟨e, he, rfl⟩ := List.mem_map.mp hmem
    exact ha.exact e he
  constructor
  case contains_iff =>
    intro node
    rw [hf.after.contains_iff, ← ha.settled_iff]
    constructor
    · intro ho
      obtain ⟨here, hs, hhere, edge, he, htarget, -⟩ := hf.exists_edge ho
      refine ⟨?_, here, (ha.settled_iff here).mp hs, hhere, edge, he, htarget⟩
      rw [ho.1]
      exact Bool.false_ne_true
    · rintro ⟨hnot, here, hmem, hhere, edge, he, rfl⟩
      exact (hf.open_of_edge hg ((ha.settled_iff here).mpr hmem) hhere he hnot).1
  case key_isLeast =>
    intro node key hk
    obtain ⟨ho, hkey⟩ := hf.after.open_of_keyOf hg hk
    refine ⟨_, hkey, ⟨?_, ?_⟩, hf.cost_le ho⟩
    · obtain ⟨here, hs, hhere, edge, he, htarget, hd⟩ := hf.exists_edge ho
      have hmem := (ha.settled_iff here).mp hs
      exact ⟨here, hmem, hhere, _, hexact here hmem, edge, he, htarget, hd⟩
    · rintro c ⟨here, hmem, hhere, distance, hdistance, edge, he, rfl, rfl⟩
      rw [hdistance.unique (hexact here hmem)]
      refine (hf.open_of_edge hg ((ha.settled_iff here).mpr hmem) hhere he ?_).2
      rw [ho.1]
      exact Bool.false_ne_true

end Finds

end Search

namespace Graph

variable {h h' : Heap} {found : Option Path}

/-- What is a member after a search was taken in by it. -/
theorem Proceedings.mem_offers {verdict : Verdict} (hp : g.Proceedings source target acts verdict)
    (hs : h.Serves (acts.map Act.call) h') (hv : h.Valid) (hk : h'.lookup node = some key) :
    node ∈ Act.offers acts := by
  obtain ⟨clear, entry, rest, last, rfl, hclear, -⟩ := hp.opening
  rw [List.map_cons] at hs
  cases hs with
  | cons he _ _ hs =>
    rw [hclear] at he
    obtain ⟨-, rfl⟩ := Prod.mk.inj (Except.ok.inj he)
    rcases hs.member hv.clear.valid hk with ⟨former, hformer⟩ | ⟨call, hmem, hinsert⟩
    · -- the heap was emptied first
      rw [hv.clear.lookup_eq] at hformer
      cases hformer
    · obtain ⟨act, hact, rfl⟩ := List.mem_map.mp hmem
      exact Act.mem_offers_iff.mpr ⟨act, List.mem_cons_of_mem _ hact, hinsert⟩

/-- A search with a heap that has room for every node empties it of what it held before. If it finds
no path, the heap is empty in the end. If it finds one, the members are the nodes that were not
taken and that an edge leads to from a node that was taken, other than the target; each lies under
the least that such an edge and a shortest way to where it starts cost together, which is not less
than what the path costs. -/
theorem shortestPathWith_leaves (hb : g.Built) (hn : g.size ≤ 2 ^ 31) (hs : source < g.size)
    (ht : target < g.size) (hr : h.Reachable) (hroom : g.size ≤ h.capacity) :
    ∃ acts found h', g.Proceeds source target h acts (.ok found) h' ∧
      (found = none → h'.snapshot = .ok []) ∧
      (∀ p, found = some p → g.Leaves source target (Act.removals acts) p h') ∧
      ∀ node, h'.contains node = .ok true → node ∈ Act.offers acts := by
  have hg : g.Searchable source := hb.searchable hn hs
  obtain ⟨acts, verdict, h', hproceeds, hproc, hright, hends⟩ :=
    exists_proceeds_ending hg ht hr.valid
  have hv' := (hproceeds.serves.evolves.valid hr.valid).1
  cases verdict with
  | error reason => exact absurd hroom (Nat.not_le.mpr hright)
  | ok found =>
    obtain ⟨nodes, s, rfl, ha, hend⟩ := hends found rfl
    refine ⟨acts, found, s.frontier.heap, hproceeds, ?_, ?_, ?_⟩
    · rintro rfl
      cases hend with
      | exhausted _ h0 =>
        rw [hv'.snapshot_eq, Except.ok.injEq, List.eq_nil_iff_length_eq_zero, hv'.length_toList, h0]
    · rintro p rfl
      cases hend with
      | found _ hfinds =>
        rw [hproc.removals_eq]
        exact hfinds.leaves hg ha
    · intro node hmember
      rw [hv'.contains_eq, Except.ok.injEq, Option.isSome_iff_exists] at hmember
      obtain ⟨key, hk⟩ := hmember
      exact hproc.mem_offers hproceeds.serves hr.valid hk

/-- With a heap that holds two former members. The search stops before it looks along the edge that
would lower the key of the last node. -/
theorem shortestPathWith_leaves_of_detour :
    ∃ h g, h.Reachable ∧ h.size = 2 ∧
      (ofLabels ["A", "B", "C"]).addEdges [⟨0, 2, 10⟩, ⟨0, 1, 1⟩, ⟨1, 2, 2⟩] = .ok g ∧
      ∃ acts h', g.Proceeds 0 1 h acts (.ok (some ⟨1, [0, 1]⟩)) h' ∧
        h'.snapshot = .ok [⟨10, 2⟩] ∧ g.Leaves 0 1 (Act.removals acts) ⟨1, [0, 1]⟩ h' := by
  have hr := Heap.reachable_leftovers
  obtain ⟨acts, found, h', hproceeds, -, hleaves, -⟩ :=
    shortestPathWith_leaves built_detour (by decide) (show 0 < 3 by decide) (show 1 < 3 by decide)
      hr (by decide)
  have hrun : detour.shortestPathWith Observer.silent 0 1
      ⟨⟨#[.sentinel, ⟨4, 2⟩, ⟨5, 0⟩, ⟨3, 1⟩], ⟨#[2, 3, 1]⟩, 2⟩, ()⟩
      = .ok (.ok (some ⟨1, [0, 1]⟩),
        ⟨⟨#[.sentinel, ⟨10, 2⟩, ⟨1, 1⟩, ⟨3, 1⟩], ⟨#[1, 2, 1]⟩, 1⟩, ()⟩) := by cbv
  rw [hproceeds.observed .silent (), Except.ok.injEq, Prod.mk.injEq] at hrun
  obtain ⟨hfound, hheap⟩ := hrun
  obtain rfl := Except.ok.inj hfound
  obtain ⟨rfl, -⟩ := Watched.mk.inj hheap
  exact ⟨_, _, hr, rfl, addEdges_detour, acts, _, hproceeds, by cbv, hleaves _ rfl⟩

end Graph

end AddressableHeap
