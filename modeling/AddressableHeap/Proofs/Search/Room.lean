import AddressableHeap.Proofs.Digest
import AddressableHeap.Proofs.Heap.Alike
import AddressableHeap.Proofs.Search.Correctness
import Mathlib

/-!
# Room in the frontier

On a frontier of any capacity a search does what it does on one of its own that has room for every
node, up to the first node for which there is no place. Which node that is and how it is turned down
can be read off the search with a frontier of its own: off the nodes that arrive there, in order, and
off how many were there before them.
-/

namespace AddressableHeap

variable {σ α : Type}

/-- A heap was asked to take in an element, and held so many until then. -/
structure Arrival where
  id : Id
  held : Nat
  deriving DecidableEq, Repr

namespace Arrival

/-- How the arrival is turned down by a heap that has no place for the element. -/
def rejection (capacity : Nat) (x : Arrival) : Rejection :=
  if x.held = capacity then .full capacity else .outOfRange x.id capacity

theorem find?_eq_none {c : Nat} {found : List Arrival} (hall : ∀ x ∈ found, x.id < c) :
    found.find? (c ≤ ·.id) = none := by
  rw [List.find?_eq_none]
  intro x hmem
  simpa using hall x hmem

end Arrival

/-- The arrivals that an event tells of. -/
def Event.arrivals : Event → List Arrival
  | .callback ⟨.before, .insert _ id, members⟩ => [⟨id, members.length⟩]
  | _ => []

namespace Observer

/-- Takes note of the arrivals. -/
def arrivals : Observer (List Arrival) := ⟨fun event seen => seen ++ event.arrivals⟩

theorem arrivals_notice (n : Notice) (seen : List Arrival) :
    arrivals.react (.notice n) seen = seen := List.append_nil seen

variable {w w' : Watched (List Arrival)} {reply : Except Rejection α}

theorem insert_arrivals {key : Key} {id : Id} {reply : Except Rejection Unit}
    (hv : w.heap.Valid) (he : arrivals.insert key id w = .ok (reply, w')) :
    w'.seen = w.seen ++ [⟨id, w.heap.size⟩] := by
  unfold insert around at he
  simp only [Checked.bind_eq_ok, hv.snapshot_eq] at he
  obtain ⟨former, hformer, ⟨reply₁, h₁⟩, -, members, -, he⟩ := he
  obtain ⟨rfl, rfl⟩ := Prod.mk.inj (Except.ok.inj he)
  obtain rfl := Except.ok.inj hformer
  cases reply₁ <;> simp [arrivals, Event.arrivals, hv.length_toList]

theorem around_arrivals {m : Mutation} {act : Heap → Checked (Except Rejection α × Heap)}
    (hm : ∀ key id, m ≠ .insert key id) (he : arrivals.around m act w = .ok (reply, w')) :
    w'.seen = w.seen := by
  unfold around at he
  simp only [Checked.bind_eq_ok] at he
  obtain ⟨former, -, ⟨reply₁, h₁⟩, -, members, -, he⟩ := he
  obtain ⟨rfl, rfl⟩ := Prod.mk.inj (Except.ok.inj he)
  cases m with
  | insert key id => exact absurd rfl (hm key id)
  | _ => cases reply₁ <;> simp [arrivals, Event.arrivals]

theorem feed_arrivals (events : List Event) (seen : List Arrival) :
    arrivals.feed events seen = seen ++ events.flatMap Event.arrivals := by
  induction events generalizing seen with
  | nil => exact (List.append_nil seen).symm
  | cons event events ih => exact (ih _).trans (List.append_assoc ..)

/-- Arrivals that were noted stay noted. -/
theorem Tells.exists_append {calls : List Call} (ht : arrivals.Tells w calls w') :
    ∃ new, w'.seen = w.seen ++ new := by
  obtain ⟨-, events, hseen, -⟩ := ht
  exact ⟨_, hseen.trans (feed_arrivals events w.seen)⟩

end Observer

/-! ## Two frontiers side by side -/

/-- A frontier of a search's own that has room for `n` nodes, and another one of capacity `c`, with the
same nodes in them. -/
structure Watched.Paired (n c : Nat) (w : Watched (List Arrival)) (w' : Watched σ) : Prop where
  alike : w.heap.Alike w'.heap
  room : n ≤ w.heap.capacity
  capacity_eq : w'.heap.capacity = c

/-- With the frontiers `w` and `w'`, two searches are still side by side and `agree`, or there was no
place for a node in the second one and that search has `failed`. On the own frontier the notes were
`seen` before. -/
def Watched.Parted (n c : Nat) (seen : List Arrival) (w : Watched (List Arrival)) (w' : Watched σ)
    (agree : Prop) (failed : Rejection → Prop) : Prop :=
  ∃ new, w.seen = seen ++ new ∧
    ((∀ x ∈ new, x.id < c) ∧ w.Paired n c w' ∧ agree ∨
      ∃ x, new.find? (c ≤ ·.id) = some x ∧ w'.heap.size = x.held ∧ failed (x.rejection c))

namespace Watched

variable {n c : Nat} {seen new : List Arrival} {agree agree' : Prop}
  {failed failed' : Rejection → Prop} {w v : Watched (List Arrival)} {w' v' : Watched σ}

theorem Parted.together (hseen : w.seen = seen) (hp : w.Paired n c w') (ha : agree) :
    w.Parted n c seen w' agree failed :=
  ⟨[], by rw [hseen, List.append_nil], .inl ⟨fun _ hmem => absurd hmem List.not_mem_nil, hp, ha⟩⟩

theorem Parted.imp (hp : w.Parted n c seen w' agree failed) (ha : agree → agree')
    (hf : ∀ reason, failed reason → failed' reason) : w.Parted n c seen w' agree' failed' := by
  obtain ⟨new, hseen, ⟨hnew, hpair, hagree⟩ | ⟨x, hfind, hheld, hfailed⟩⟩ := hp
  · exact ⟨new, hseen, .inl ⟨hnew, hpair, ha hagree⟩⟩
  · exact ⟨new, hseen, .inr ⟨x, hfind, hheld, hf _ hfailed⟩⟩

/-- What follows on arrivals for which there was place. -/
theorem Parted.after (hp : w.Parted n c (seen ++ new) w' agree failed) (hnew : ∀ x ∈ new, x.id < c) :
    w.Parted n c seen w' agree failed := by
  obtain ⟨rest, hseen, hrest⟩ := hp
  refine ⟨new ++ rest, by rw [hseen, List.append_assoc], ?_⟩
  rcases hrest with ⟨hlt, hpair, ha⟩ | ⟨x, hfind, hheld, hf⟩
  · refine .inl ⟨fun x hmem => ?_, hpair, ha⟩
    rcases List.mem_append.mp hmem with hmem | hmem
    · exact hnew x hmem
    · exact hlt x hmem
  · refine .inr ⟨x, ?_, hheld, hf⟩
    rw [List.find?_append, Arrival.find?_eq_none hnew, hfind]
    rfl

/-- Once the second search has failed, it does not matter what the first one goes on to do. -/
theorem parted_of_failed {x : Arrival} {rest : List Arrival} (hseen : w.seen = seen ++ new ++ rest)
    (hfind : new.find? (c ≤ ·.id) = some x) (hheld : w'.heap.size = x.held)
    (hf : failed (x.rejection c)) : w.Parted n c seen w' agree failed := by
  refine ⟨new ++ rest, by rw [hseen, List.append_assoc], .inr ⟨x, ?_, hheld, hf⟩⟩
  rw [List.find?_append, hfind]
  rfl

namespace Paired

theorem evolves (hp : w.Paired n c w') (ha : v.heap.Alike v'.heap)
    (hev : w.heap.Evolves v.heap) (hev' : w'.heap.Evolves v'.heap) : v.Paired n c v' := by
  refine ⟨ha, ?_, ?_⟩
  · rw [(hev.valid hp.alike.valid).2]
    exact hp.room
  · rw [(hev'.valid hp.alike.valid').2]
    exact hp.capacity_eq

/-- The same request to both, which is no arrival. -/
theorem around {m : Mutation} {act : Heap → Checked (Except Rejection α × Heap)}
    {reply : Except Rejection α} (hp : w.Paired n c w') (watch : Observer σ)
    (hm : ∀ key id, m ≠ .insert key id)
    (hact : ∀ {h h' : Heap} {reply}, act h = .ok (reply, h') → h.Evolves h')
    (hboth : Heap.AlikeAfter (act w.heap) (act w'.heap))
    (he : Observer.arrivals.around m act w = .ok (reply, v)) :
    v.seen = w.seen ∧ ∃ v', watch.around m act w' = .ok (reply, v') ∧ v.Paired n c v' := by
  obtain ⟨reply', k, k', hk, hk', ha⟩ := hboth
  have hown := Observer.of_around_eq_ok he
  rw [hk, Except.ok.injEq, Prod.mk.injEq] at hown
  obtain ⟨rfl, rfl⟩ := hown
  exact ⟨Observer.around_arrivals hm he, _, watch.around_eq_of_ok hp.alike.valid' hk' ha.valid',
    hp.evolves ha (hact hk) (hact hk')⟩

/-- An arrival at both. -/
theorem insert {key : Key} {node : Nat} {reply : Except Rejection Unit} (hp : w.Paired n c w')
    (watch : Observer σ) (hn : w.heap.lookup node = none) (hlt : node < n)
    (he : Observer.arrivals.insert key node w = .ok (reply, v)) :
    ∃ reply' v', watch.insert key node w' = .ok (reply', v') ∧
      v.Parted n c w.seen v' (reply' = reply) (reply' = .error ·) := by
  have hseen := Observer.insert_arrivals hp.alike.valid he
  rcases Nat.lt_or_ge node c with hid | hid
  · obtain ⟨reply', k, k', hk, hk', ha⟩ := hp.alike.insert_new key
      (Nat.lt_of_lt_of_le hlt hp.room) (hp.capacity_eq ▸ hid) hn
    have hown := Observer.of_around_eq_ok he
    rw [hk, Except.ok.injEq, Prod.mk.injEq] at hown
    obtain ⟨rfl, rfl⟩ := hown
    exact ⟨_, _, watch.around_eq_of_ok hp.alike.valid' hk' ha.valid', _, hseen,
      .inl ⟨by simpa using hid, hp.evolves ha (.of_insert hk) (.of_insert hk'), rfl⟩⟩
  · have hrejected : w'.heap.insert key node
        = .ok (.error (Arrival.rejection c ⟨node, w.heap.size⟩), w'.heap) := by
      unfold Arrival.rejection
      rw [← hp.capacity_eq] at hid ⊢
      rw [hp.alike.size_eq]
      split
      · rename_i hs
        exact Heap.Valid.insert_full hs
      · rename_i hs
        exact Heap.Valid.insert_outOfRange hs hid
    exact ⟨_, _, watch.around_eq_of_ok hp.alike.valid' hrejected hp.alike.valid', _, hseen,
      .inr ⟨_, by simpa using hid, hp.alike.size_eq.symm, rfl⟩⟩

end Paired

end Watched

/-! ## Two searches side by side -/

namespace Search

variable {n c : Nat} {g : Graph} {source target here : Nat} {visits : Array Visit}
  {w v : Watched (List Arrival)} {w' : Watched σ} {t : Search (List Arrival)}

theorem enter_parted {key : Key} {node : Nat} {reply : Except Rejection Unit}
    (hp : w.Paired n c w') (watch : Observer σ) (hlt : node < n)
    (he : enter .arrivals key node w = .ok (reply, v)) :
    ∃ reply' v', enter watch key node w' = .ok (reply', v') ∧
      v.Parted n c w.seen v' (reply' = reply) (reply' = .error ·) := by
  unfold enter at he ⊢
  rw [hp.alike.valid.contains_eq, Checked.ok_bind] at he
  rw [hp.alike.valid'.contains_eq, Checked.ok_bind, ← hp.alike.lookup_eq]
  cases hk : w.heap.lookup node with
  | none =>
    rw [hk] at he
    exact hp.insert watch hk hlt he
  | some former =>
    rw [hk] at he
    obtain ⟨hseen, v', hv', hpair⟩ := hp.around watch (by simp) .of_update
      (hp.alike.update key node) he
    exact ⟨reply, v', hv', .together hseen hpair rfl⟩

theorem relax_parted {edge : Edge} {reply : Except Rejection Unit} (hp : w.Paired n c w')
    (hn : visits.size = n) (watch : Observer σ)
    (he : relax .arrivals here edge ⟨visits, w⟩ = .ok (reply, t)) :
    ∃ reply' t', relax watch here edge ⟨visits, w'⟩ = .ok (reply', t') ∧
      t.frontier.Parted n c w.seen t'.frontier
        (reply' = reply ∧ t'.visits = t.visits ∧ t.visits.size = n) (reply' = .error ·) := by
  unfold relax at he ⊢
  simp only [Checked.bind_eq_ok] at he
  obtain ⟨there, hthere, he⟩ := he
  simp only [hthere, Checked.ok_bind]
  by_cases hs : there.settled = true
  · rw [if_pos hs] at he ⊢
    obtain ⟨rfl, rfl⟩ := Prod.mk.inj (Except.ok.inj he)
    exact ⟨_, _, rfl, .together rfl hp ⟨rfl, rfl, hn⟩⟩
  · rw [if_neg hs] at he ⊢
    simp only [Checked.bind_eq_ok] at he
    obtain ⟨visit, hvisit, distance, hdistance, he⟩ := he
    simp only [hvisit, hdistance, Checked.ok_bind]
    by_cases hless : distance < there.distance
    · rw [if_pos hless] at he ⊢
      simp only [Checked.bind_eq_ok] at he
      obtain ⟨visits₁, hset, ⟨reply₁, frontier⟩, hent, he⟩ := he
      obtain ⟨rfl, rfl⟩ := Prod.mk.inj (Except.ok.inj he)
      obtain ⟨hlt, hsize⟩ := Checked.size_of_set_eq_ok hset
      rw [Observer.arrivals_notice] at hent
      generalize watch.react _ w'.seen = seen'
      have hp₁ : w.Paired n c ⟨w'.heap, seen'⟩ := ⟨hp.alike, hp.room, hp.capacity_eq⟩
      obtain ⟨reply', v', hent', hparted⟩ := enter_parted hp₁ watch (hn ▸ hlt) hent
      simp only [hset, hent', Checked.ok_bind]
      exact ⟨_, _, rfl, hparted.imp (fun h => ⟨h, rfl, hsize.trans hn⟩) fun _ => id⟩
    · rw [if_neg hless] at he ⊢
      obtain ⟨rfl, rfl⟩ := Prod.mk.inj (Except.ok.inj he)
      exact ⟨_, _, rfl, .together rfl hp ⟨rfl, rfl, hn⟩⟩

theorem relaxAll_parted {edges : List Edge} {reply : Except Rejection Unit}
    (hp : w.Paired n c w') (hn : visits.size = n) (watch : Observer σ)
    (he : relaxAll .arrivals here edges ⟨visits, w⟩ = .ok (reply, t)) :
    ∃ reply' t', relaxAll watch here edges ⟨visits, w'⟩ = .ok (reply', t') ∧
      t.frontier.Parted n c w.seen t'.frontier
        (reply' = reply ∧ t'.visits = t.visits ∧ t.visits.size = n) (reply' = .error ·) := by
  induction edges generalizing visits w w' with
  | nil =>
    obtain ⟨rfl, rfl⟩ := Prod.mk.inj (Except.ok.inj he)
    exact ⟨_, _, rfl, .together rfl hp ⟨rfl, rfl, hn⟩⟩
  | cons edge edges ih =>
    simp only [relaxAll, Checked.bind_eq_ok] at he
    obtain ⟨⟨reply₁, s₁⟩, hrel, he⟩ := he
    obtain ⟨reply₁', ⟨visits₁, w₁'⟩, hrel', hparted⟩ := relax_parted hp hn watch hrel
    simp only [relaxAll, hrel', Checked.ok_bind]
    obtain ⟨new, hseen, ⟨hnew, hpair, rfl, rfl, hn₁⟩ | ⟨x, hfind, hheld, rfl⟩⟩ := hparted
    · cases reply₁' with
      | error reason =>
        obtain ⟨rfl, rfl⟩ := Prod.mk.inj (Except.ok.inj he)
        exact ⟨_, _, rfl, new, hseen, .inl ⟨hnew, hpair, rfl, rfl, hn₁⟩⟩
      | ok _ =>
        obtain ⟨reply', t', he', hparted⟩ := ih hpair hn₁ he
        rw [hseen] at hparted
        exact ⟨reply', t', he', hparted.after hnew⟩
    · -- whether the first search goes on or not, it forgets no arrival
      obtain ⟨rest, hrest⟩ : ∃ rest, t.frontier.seen = s₁.frontier.seen ++ rest := by
        cases reply₁ with
        | error reason =>
          obtain ⟨rfl, rfl⟩ := Prod.mk.inj (Except.ok.inj he)
          exact ⟨[], (List.append_nil _).symm⟩
        | ok _ =>
          obtain ⟨calls, ht, -⟩ := relaxAll_tells he
          exact ht.exists_append
      rw [hseen] at hrest
      exact ⟨_, _, rfl, Watched.parted_of_failed hrest hfind hheld rfl⟩

theorem step_parted {verdict? : Option Verdict} (hp : w.Paired n c w') (hn : visits.size = n)
    (watch : Observer σ) (he : step .arrivals g source target ⟨visits, w⟩ = .ok (verdict?, t)) :
    ∃ verdict?' t', step watch g source target ⟨visits, w'⟩ = .ok (verdict?', t') ∧
      t.frontier.Parted n c w.seen t'.frontier
        (verdict?' = verdict? ∧ t'.visits = t.visits ∧ t.visits.size = n)
        fun reason => verdict?' = some (.error reason) := by
  unfold step at he ⊢
  simp only [Checked.bind_eq_ok] at he
  obtain ⟨⟨reply, w₁⟩, hrem, he⟩ := he
  obtain ⟨hseen, w₁', hrem', hp₁⟩ := hp.around watch (by simp) .of_removeMin hp.alike.removeMin hrem
  have hrem₁ : watch.removeMin w' = .ok (reply, w₁') := hrem'
  simp only [hrem₁, Checked.ok_bind]
  cases reply with
  | error reason =>
    obtain ⟨rfl, rfl⟩ := Prod.mk.inj (Except.ok.inj he)
    exact ⟨_, _, rfl, .together hseen hp₁ ⟨rfl, rfl, hn⟩⟩
  | ok here =>
    simp only [Checked.bind_eq_ok] at he
    obtain ⟨visit, hvisit, visits₁, hset, he⟩ := he
    have hn₁ := (Checked.size_of_set_eq_ok hset).2.trans hn
    simp only [hvisit, hset, Checked.ok_bind]
    by_cases htarget : here = target
    · rw [if_pos htarget] at he ⊢
      simp only [Checked.bind_eq_ok] at he
      obtain ⟨nodes, hnodes, he⟩ := he
      obtain ⟨rfl, rfl⟩ := Prod.mk.inj (Except.ok.inj he)
      simp only [hnodes, Checked.ok_bind]
      exact ⟨_, _, rfl, .together hseen hp₁ ⟨rfl, rfl, hn₁⟩⟩
    · rw [if_neg htarget] at he ⊢
      simp only [Checked.bind_eq_ok] at he
      obtain ⟨edges, hedges, ⟨reply₂, s₂⟩, hrel, he⟩ := he
      obtain ⟨reply₂', s₂', hrel', hparted⟩ := relaxAll_parted hp₁ hn₁ watch hrel
      simp only [hedges, hrel', Checked.ok_bind]
      rw [hseen] at hparted
      obtain ⟨new, hnew, ⟨hlt, hpair, rfl, hagree⟩ | ⟨x, hfind, hheld, rfl⟩⟩ := hparted
      · cases reply₂' with
        | error reason =>
          obtain ⟨rfl, rfl⟩ := Prod.mk.inj (Except.ok.inj he)
          exact ⟨_, _, rfl, new, hnew, .inl ⟨hlt, hpair, rfl, hagree⟩⟩
        | ok _ =>
          obtain ⟨rfl, rfl⟩ := Prod.mk.inj (Except.ok.inj he)
          exact ⟨_, _, rfl, new, hnew, .inl ⟨hlt, hpair, rfl, hagree⟩⟩
      · refine ⟨_, _, rfl, new, ?_, .inr ⟨x, hfind, hheld, rfl⟩⟩
        cases reply₂ with
        | error reason =>
          obtain ⟨rfl, rfl⟩ := Prod.mk.inj (Except.ok.inj he)
          exact hnew
        | ok _ =>
          obtain ⟨rfl, rfl⟩ := Prod.mk.inj (Except.ok.inj he)
          exact hnew

theorem run_parted {rounds : Nat} {verdict : Verdict} (hp : w.Paired n c w')
    (hn : visits.size = n) (watch : Observer σ)
    (he : run .arrivals g source target rounds ⟨visits, w⟩ = .ok (verdict, t)) :
    ∃ verdict' t', run watch g source target rounds ⟨visits, w'⟩ = .ok (verdict', t') ∧
      t.frontier.Parted n c w.seen t'.frontier (verdict' = verdict) (verdict' = .error ·) := by
  have hempty : w'.heap.isEmpty = w.heap.isEmpty := hp.alike.looksLike.isEmpty.symm
  induction rounds generalizing visits w w' with
  | zero =>
    unfold run at he ⊢
    rw [hempty]
    by_cases h0 : w.heap.isEmpty = true
    · rw [if_pos h0] at he ⊢
      obtain ⟨rfl, rfl⟩ := Prod.mk.inj (Except.ok.inj he)
      exact ⟨_, _, rfl, .together rfl hp rfl⟩
    · rw [if_neg h0] at he
      cases he
  | succ rounds ih =>
    unfold run at he ⊢
    rw [hempty]
    by_cases h0 : w.heap.isEmpty = true
    · rw [if_pos h0] at he ⊢
      obtain ⟨rfl, rfl⟩ := Prod.mk.inj (Except.ok.inj he)
      exact ⟨_, _, rfl, .together rfl hp rfl⟩
    · rw [if_neg h0] at he ⊢
      simp only [Checked.bind_eq_ok] at he
      obtain ⟨⟨verdict?, s₁⟩, hstep, he⟩ := he
      obtain ⟨verdict?', ⟨visits₁, w₁'⟩, hstep', hparted⟩ := step_parted hp hn watch hstep
      simp only [hstep', Checked.ok_bind]
      obtain ⟨new, hseen, ⟨hnew, hpair, rfl, rfl, hn₁⟩ | ⟨x, hfind, hheld, rfl⟩⟩ := hparted
      · cases verdict?' with
        | some verdict =>
          obtain ⟨rfl, rfl⟩ := Prod.mk.inj (Except.ok.inj he)
          exact ⟨_, _, rfl, new, hseen, .inl ⟨hnew, hpair, rfl⟩⟩
        | none =>
          obtain ⟨verdict', t', he', hparted⟩ := ih hpair hn₁ he hpair.alike.looksLike.isEmpty.symm
          rw [hseen] at hparted
          exact ⟨verdict', t', he', hparted.after hnew⟩
      · obtain ⟨rest, hrest⟩ : ∃ rest, t.frontier.seen = s₁.frontier.seen ++ rest := by
          cases verdict? with
          | some verdict =>
            obtain ⟨rfl, rfl⟩ := Prod.mk.inj (Except.ok.inj he)
            exact ⟨[], (List.append_nil _).symm⟩
          | none =>
            obtain ⟨calls, ht, -⟩ := run_tells he
            exact ht.exists_append
        rw [hseen] at hrest
        exact ⟨_, _, rfl, Watched.parted_of_failed hrest hfind hheld rfl⟩

end Search

/-! ## With the heap of somebody else -/

namespace Graph

variable {g : Graph} {source target : Nat} {w : Watched σ}

/-- The heap of a search's own and another one, after both were emptied. -/
theorem exists_clear_paired {n : Nat} {v : Watched (List Arrival)} {reply : Reply}
    (hown : (Heap.empty n).Valid) (hv : w.heap.Valid) (watch : Observer σ)
    (he : Observer.arrivals.perform .clear ⟨.empty n, []⟩ = .ok (reply, v)) :
    v.seen = [] ∧ v.heap.lookup = (fun _ => none) ∧
      ∃ w', watch.perform .clear w = .ok (.ok none, w') ∧ v.Paired n w.heap.capacity w' := by
  obtain ⟨-, hheap⟩ := Prod.mk.inj (Except.ok.inj (Observer.of_around_eq_ok he))
  have hclear := hown.clear
  refine ⟨Observer.around_arrivals (by simp) he, ?_, _,
    watch.around_eq_of_ok hv rfl hv.clear.valid, ?_, ?_, rfl⟩
  · rw [← hheap, hclear.lookup_eq]
  · rw [← hheap]
    exact hown.clear_alike hv
  · rw [← hheap, hclear.capacity_eq, Heap.capacity_empty]

theorem shortestPathWith_parted {v : Watched (List Arrival)}
    {answer : Except Failure (Option Path)} (hs : source < g.size) (ht : target < g.size)
    (hown : (Heap.empty g.size).Valid) (hv : w.heap.Valid) (watch : Observer σ)
    (he : g.shortestPathWith .arrivals source target ⟨.empty g.size, []⟩ = .ok (answer, v)) :
    ∃ answer' w', g.shortestPathWith watch source target w = .ok (answer', w') ∧
      v.Parted g.size w.heap.capacity [] w' (answer' = answer)
        fun reason => answer' = .error (.frontier reason) := by
  unfold shortestPathWith at he ⊢
  rw [if_neg (Nat.not_le.mpr hs), if_neg (Nat.not_le.mpr ht)] at he ⊢
  simp only [Checked.bind_eq_ok] at he
  obtain ⟨⟨reply₁, w₁⟩, hclear, visits, hset, ⟨reply₂, w₂⟩, hins, he⟩ := he
  have hn : visits.size = g.size := by simpa using (Checked.size_of_set_eq_ok hset).2
  obtain ⟨hseen₁, hnone, w₁', hclear', hp₁⟩ := exists_clear_paired hown hv watch hclear
  obtain ⟨reply₂', w₂', hins', hparted⟩ := hp₁.insert watch (congrFun hnone source) hs hins
  simp only [hclear', hset, hins', Checked.ok_bind]
  rw [hseen₁] at hparted
  obtain ⟨new, hseen, ⟨hnew, hpair, rfl⟩ | ⟨x, hfind, hheld, rfl⟩⟩ := hparted
  · cases reply₂' with
    | error reason =>
      obtain ⟨rfl, rfl⟩ := Prod.mk.inj (Except.ok.inj he)
      exact ⟨_, _, rfl, new, hseen, .inl ⟨hnew, hpair, rfl⟩⟩
    | ok _ =>
      simp only [Checked.bind_eq_ok] at he
      obtain ⟨⟨verdict, s⟩, hrun, he⟩ := he
      obtain ⟨rfl, rfl⟩ := Prod.mk.inj (Except.ok.inj he)
      obtain ⟨verdict', s', hrun', hparted⟩ := Search.run_parted hpair hn watch hrun
      simp only [hrun', Checked.ok_bind]
      rw [hseen] at hparted
      refine ⟨_, _, rfl, (hparted.after hnew).imp ?_ ?_⟩
      · rintro rfl
        rfl
      · rintro reason rfl
        rfl
  · obtain ⟨rest, hrest⟩ : ∃ rest, v.seen = w₂.seen ++ rest := by
      cases reply₂ with
      | error reason =>
        obtain ⟨rfl, rfl⟩ := Prod.mk.inj (Except.ok.inj he)
        exact ⟨[], (List.append_nil _).symm⟩
      | ok _ =>
        simp only [Checked.bind_eq_ok] at he
        obtain ⟨⟨verdict, s⟩, hrun, he⟩ := he
        obtain ⟨rfl, rfl⟩ := Prod.mk.inj (Except.ok.inj he)
        obtain ⟨calls, htells, -⟩ := Search.run_tells hrun
        exact htells.exists_append
    rw [hseen] at hrest
    exact ⟨_, _, rfl, Watched.parted_of_failed hrest hfind hheld rfl⟩

/-- The nodes that arrive in the frontier of a search's own, in order. -/
def arrivals (g : Graph) (source target : Nat) : Checked (List Arrival) := do
  let (_, frontier) ← g.shortestPathWith .arrivals source target ⟨.empty g.size, []⟩
  pure frontier.seen

theorem valid_own (hn : g.size ≤ 2 ^ 31) : (Heap.empty g.size).Valid :=
  Heap.valid_empty (by rw [UInt64.size]; omega)

/-- A search's own frontier turns nothing down. -/
theorem exists_own (watch : Observer σ) (seen : σ) (hb : g.Built) (hn : g.size ≤ 2 ^ 31)
    (hs : source < g.size) (ht : target < g.size) :
    ∃ found v, g.shortestPathWith watch source target ⟨.empty g.size, seen⟩
      = .ok (.ok found, v) := by
  obtain ⟨verdict, v, he, hright⟩ := shortestPathWith_total (w := ⟨.empty g.size, seen⟩) watch
    (hb.searchable hn hs) ht (valid_own hn)
  cases verdict with
  | ok found => exact ⟨found, v, he⟩
  | error reason =>
    have hfull : (Heap.empty g.size).capacity < g.size := hright
    rw [Heap.capacity_empty] at hfull
    exact absurd hfull (Nat.lt_irrefl _)

/-- On a frontier that has room for every node that arrives, a search answers what it answers with a
frontier of its own. Else it fails at the first node for which there is no place. -/
theorem shortestPathWith_frontier (watch : Observer σ) {τ : Type} (watch' : Observer τ) (seen : τ)
    (hb : g.Built) (hn : g.size ≤ 2 ^ 31) (hs : source < g.size) (ht : target < g.size)
    (hr : w.heap.Reachable) :
    ∃ answer seen' found answer' w',
      g.shortestPath watch' source target seen = .ok (answer, seen') ∧
      g.arrivals source target = .ok found ∧ (∀ x ∈ found, x.id < g.size) ∧
      g.shortestPathWith watch source target w = .ok (answer', w') ∧
      ((∀ x ∈ found, x.id < w.heap.capacity) → answer' = answer) ∧
      (g.size ≤ w.heap.capacity → answer' = answer) ∧
      ∀ x, found.find? (w.heap.capacity ≤ ·.id) = some x →
        w'.heap.size = x.held ∧ x.held ≤ w.heap.capacity ∧
          answer' = .error (.frontier (x.rejection w.heap.capacity)) := by
  have hown := valid_own hn
  obtain ⟨path, v, he⟩ := exists_own .arrivals [] hb hn hs ht
  obtain ⟨v₂, he₂, -⟩ := shortestPathWith_eq_ok he watch'.deaf seen
  obtain ⟨answer', w', he', found, hfound, hparted⟩ :=
    shortestPathWith_parted hs ht hown hr.valid watch he
  have hsize : ∀ x ∈ found, x.id < g.size := by
    -- compared with itself, a frontier of its own has a place for every node
    obtain ⟨answer₁, v₁, he₁, new, hnew, ⟨hlt, -, -⟩ | ⟨x, -, -, rfl⟩⟩ :=
      shortestPathWith_parted (w := ⟨.empty g.size, []⟩) hs ht hown hown .arrivals he
    · rw [hfound] at hnew
      rw [List.append_cancel_left hnew]
      simpa only [Heap.capacity_empty] using hlt
    · rw [he] at he₁
      exact nomatch (Prod.mk.inj (Except.ok.inj he₁)).1
  have hsame (hall : ∀ x ∈ found, x.id < w.heap.capacity) : answer' = .ok path := by
    rcases hparted with ⟨-, -, rfl⟩ | ⟨x, hfind, -, -⟩
    · rfl
    · rw [Arrival.find?_eq_none hall] at hfind
      exact nomatch hfind
  refine ⟨.ok path, v₂.seen, found, answer', w', ?_, ?_, hsize, he', hsame, ?_, ?_⟩
  · unfold shortestPath
    rw [he₂]
    rfl
  · unfold arrivals
    rw [he]
    exact congrArg Except.ok hfound
  · intro hroom
    exact hsame fun x hmem => Nat.lt_of_lt_of_le (hsize x hmem) hroom
  · intro x hx
    rcases hparted with ⟨hlt, -, -⟩ | ⟨y, hfind, hheld, rfl⟩
    · rw [Arrival.find?_eq_none hlt] at hx
      exact nomatch hx
    · obtain rfl : y = x := Option.some.inj (hfind.symm.trans hx)
      obtain ⟨hv', hcap⟩ := (shortestPathWith_evolves he').valid hr.valid
      refine ⟨hheld, ?_, rfl⟩
      rw [← hheld, ← hcap]
      exact hv'.size_le

/-- A frontier with two former members, and without a place for node 3. -/
theorem shortestPathWith_frontier_of_three :
    ∃ w : Watched (Array Event), w.heap.Reachable ∧ w.heap.size = 2 ∧ w.heap.capacity = 3 ∧
      diamond.arrivals 0 4 = .ok [⟨0, 0⟩, ⟨1, 0⟩, ⟨2, 1⟩, ⟨3, 1⟩, ⟨4, 1⟩] ∧
      ∃ answer' w', diamond.shortestPathWith .transcript 0 4 w = .ok (answer', w') ∧
        w'.heap.size = 1 ∧ answer' = .error (.frontier (.outOfRange 3 3)) := by
  have hrun : Observer.silent.performAll [.insert 5 0, .insert 3 1, .insert 4 2, .removeMin]
      ⟨.empty 3, ()⟩ = .ok ([.ok none, .ok none, .ok none, .ok (some 1)],
        ⟨⟨#[.sentinel, ⟨4, 2⟩, ⟨5, 0⟩, ⟨3, 1⟩], ⟨#[2, 3, 1]⟩, 2⟩, ()⟩) := by cbv
  have hr := (Heap.Reachable.fresh 3 (by decide)).performAll hrun
  have hfound : diamond.arrivals 0 4 = .ok [⟨0, 0⟩, ⟨1, 0⟩, ⟨2, 1⟩, ⟨3, 1⟩, ⟨4, 1⟩] := by cbv
  obtain ⟨answer, seen, found, answer', w', -, hfound', -, he, -, -, hfails⟩ :=
    shortestPathWith_frontier (w := ⟨_, #[]⟩) .transcript .silent () built_diamond (by decide)
      (show 0 < diamond.size by decide) (show 4 < diamond.size by decide) hr
  rw [hfound] at hfound'
  obtain rfl := Except.ok.inj hfound'
  obtain ⟨hsize, -, hanswer⟩ := hfails ⟨3, 1⟩ (by decide)
  exact ⟨_, hr, rfl, rfl, hfound, answer', w', he, hsize, hanswer⟩

end Graph

end AddressableHeap
