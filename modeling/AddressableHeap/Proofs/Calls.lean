import AddressableHeap.Proofs.Search.Loop

/-!
# The calls that are made of a heap

A search has no access to its frontier but through requests under observation. So whatever becomes of
the heap, a sequence of calls has made of it, and of each of them the observer was told twice, before
and after. A call that is turned down is the last one, and the search passes the rejection on.
-/

namespace AddressableHeap

variable {σ α : Type} {watch : Observer σ}

/-- A mutation that was asked of a heap, and the answer. -/
structure Call where
  mutation : Mutation
  /-- The members when the mutation was asked for. -/
  former : List Entry
  reply : Reply
  /-- The members when the answer was given. -/
  members : List Entry

namespace Call

/-- What an observer is told of a call. -/
def callbacks (call : Call) : List Callback :=
  [⟨.before, call.mutation, call.former⟩, ⟨.after, call.mutation, call.members⟩]

/-- The reply is the rejection that the last call was turned down with, or no call was turned down. -/
inductive Reported : List Call → Except Rejection α → Prop where
  | nil (a : α) : Reported [] (.ok a)
  | last {call : Call} {reason : Rejection} :
      call.reply = .error reason → Reported [call] (.error reason)
  | cons {call : Call} {calls : List Call} {answer : Option Id} {reply : Except Rejection α} :
      call.reply = .ok answer → Reported calls reply → Reported (call :: calls) reply

theorem reported_singleton {call : Call} {reply : Except Rejection α} {f : α → Option Id}
    (h : call.reply = reply.map f) : Reported [call] reply := by
  cases reply with
  | ok a => exact .cons h (.nil a)
  | error reason => exact .last h

namespace Reported

variable {β : Type} {calls calls' : List Call} {a : α} {reply : Except Rejection α}
  {reply' : Except Rejection β}

theorem append (h : Reported calls (.ok a)) (h' : Reported calls' reply') :
    Reported (calls ++ calls') reply' := by
  generalize hr : Except.ok a = reply at h
  induction h with
  | nil => exact h'
  | last => exact nomatch hr
  | cons hc _ ih => exact .cons hc (ih hr)

theorem map (h : Reported calls reply) (f : α → β) : Reported calls (reply.map f) := by
  induction h with
  | nil a => exact .nil (f a)
  | last hc => exact .last hc
  | cons hc _ ih => exact .cons hc ih

end Reported

end Call

/-- The first heap becomes the second one by these calls. -/
inductive Heap.Serves : Heap → List Call → Heap → Prop where
  | nil (h : Heap) : Serves h [] h
  | cons {h h₁ h' : Heap} {call : Call} {calls : List Call} :
      h.apply call.mutation = .ok (call.reply, h₁) → h.snapshot = .ok call.former →
      h₁.snapshot = .ok call.members → Serves h₁ calls h' → Serves h (call :: calls) h'

theorem Heap.Serves.append {h h₁ h' : Heap} {calls calls' : List Call} (hs : h.Serves calls h₁)
    (hs' : h₁.Serves calls' h') : h.Serves (calls ++ calls') h' := by
  induction hs with
  | nil => exact hs'
  | cons he hf hm _ ih => exact .cons he hf hm (ih hs')

/-- What an observer is told by an event, if the event is a call of the observer. -/
def Event.callback? : Event → Option Callback
  | .callback c => some c
  | .notice _ => none

namespace Observer

/-- The notes after a sequence of events. -/
def feed (watch : Observer σ) (events : List Event) (seen : σ) : σ :=
  events.foldl (fun seen event => watch.react event seen) seen

theorem feed_append (events events' : List Event) (seen : σ) :
    watch.feed (events ++ events') seen = watch.feed events' (watch.feed events seen) :=
  List.foldl_append

/-- The heap was changed by these calls, and the observer was told of each of them, in order, and of
no other call. -/
structure Tells (watch : Observer σ) (w : Watched σ) (calls : List Call) (w' : Watched σ) :
    Prop where
  serves : w.heap.Serves calls w'.heap
  seen : ∃ events, w'.seen = watch.feed events w.seen ∧
    events.filterMap Event.callback? = calls.flatMap Call.callbacks

namespace Tells

variable {w w₁ w' : Watched σ} {calls calls' : List Call}

theorem refl (w : Watched σ) : watch.Tells w [] w := ⟨.nil w.heap, [], rfl, rfl⟩

theorem trans (h : watch.Tells w calls w₁) (h' : watch.Tells w₁ calls' w') :
    watch.Tells w (calls ++ calls') w' := by
  obtain ⟨hs, events, hseen, hcalls⟩ := h
  obtain ⟨hs', events', hseen', hcalls'⟩ := h'
  refine ⟨hs.append hs', events ++ events', ?_, ?_⟩
  · rw [hseen', hseen, feed_append]
  · rw [List.filterMap_append, List.flatMap_append, hcalls, hcalls']

/-- A notice is not about a call. -/
theorem of_notice {n : Notice} {h : Heap} {seen : σ}
    (ht : watch.Tells ⟨h, watch.react (.notice n) seen⟩ calls w') :
    watch.Tells ⟨h, seen⟩ calls w' := by
  obtain ⟨hs, events, hseen, hcalls⟩ := ht
  exact ⟨hs, .notice n :: events, hseen, hcalls⟩

end Tells

variable {w w' : Watched σ} {m : Mutation}

/-- A request under observation is a call. -/
theorem around_tells {act : Heap → Checked (Except Rejection α × Heap)}
    {reply : Except Rejection α} {f : α → Option Id} (he : watch.around m act w = .ok (reply, w'))
    (happly : w.heap.apply m = .ok (reply.map f, w'.heap)) :
    ∃ call : Call, call.mutation = m ∧ call.reply = reply.map f ∧ watch.Tells w [call] w' := by
  unfold around at he
  simp only [Checked.bind_eq_ok] at he
  obtain ⟨former, hformer, ⟨reply₁, h₁⟩, -, members, hmembers, he⟩ := he
  obtain ⟨rfl, rfl⟩ := Prod.mk.inj (Except.ok.inj he)
  refine ⟨⟨m, former, _, members⟩, rfl, rfl, .cons happly hformer hmembers (.nil _), ?_⟩
  cases reply₁ with
  | ok a => exact ⟨[.callback ⟨.before, m, former⟩, .callback ⟨.after, m, members⟩], rfl, rfl⟩
  | error reason =>
    exact ⟨[.callback ⟨.before, m, former⟩, .notice (.rejected reason),
      .callback ⟨.after, m, members⟩], rfl, rfl⟩

theorem perform_tells {reply : Reply} (he : watch.perform m w = .ok (reply, w')) :
    ∃ call : Call, call.mutation = m ∧ call.reply = reply ∧ watch.Tells w [call] w' := by
  have hid : reply.map id = reply := by cases reply <;> rfl
  obtain ⟨call, hm, hr, ht⟩ := around_tells (f := id) he (by rw [of_around_eq_ok he, hid])
  exact ⟨call, hm, hr.trans hid, ht⟩

theorem insert_tells {key : Key} {id : Id} {reply : Except Rejection Unit}
    (he : watch.insert key id w = .ok (reply, w')) :
    ∃ call : Call, call.mutation = .insert key id ∧ call.reply = reply.map (fun _ => none) ∧
      watch.Tells w [call] w' :=
  around_tells he (by rw [Heap.apply, of_around_eq_ok he]; rfl)

theorem update_tells {key : Key} {id : Id} {reply : Except Rejection Unit}
    (he : watch.update key id w = .ok (reply, w')) :
    ∃ call : Call, call.mutation = .update key id ∧ call.reply = reply.map (fun _ => none) ∧
      watch.Tells w [call] w' :=
  around_tells he (by rw [Heap.apply, of_around_eq_ok he]; rfl)

theorem removeMin_tells {reply : Except Rejection Id}
    (he : watch.removeMin w = .ok (reply, w')) :
    ∃ call : Call, call.mutation = .removeMin ∧ call.reply = reply.map some ∧
      watch.Tells w [call] w' :=
  around_tells he (by rw [Heap.apply, of_around_eq_ok he]; rfl)

end Observer

/-! ## The calls of a search -/

namespace Search

variable {g : Graph} {source target here : Nat} {s s' : Search σ}

theorem enter_tells {key : Key} {node : Nat} {w w' : Watched σ} {reply : Except Rejection Unit}
    (he : enter watch key node w = .ok (reply, w')) :
    ∃ calls, watch.Tells w calls w' ∧ Call.Reported calls reply := by
  unfold enter at he
  rw [Checked.bind_eq_ok] at he
  obtain ⟨found, -, he⟩ := he
  split at he
  · obtain ⟨call, -, hr, ht⟩ := Observer.update_tells he
    exact ⟨[call], ht, Call.reported_singleton hr⟩
  · obtain ⟨call, -, hr, ht⟩ := Observer.insert_tells he
    exact ⟨[call], ht, Call.reported_singleton hr⟩

theorem relax_tells {edge : Edge} {reply : Except Rejection Unit}
    (he : relax watch here edge s = .ok (reply, s')) :
    ∃ calls, watch.Tells s.frontier calls s'.frontier ∧ Call.Reported calls reply := by
  unfold relax at he
  simp only [Checked.bind_eq_ok] at he
  obtain ⟨there, -, he⟩ := he
  split at he
  · obtain ⟨rfl, rfl⟩ := Prod.mk.inj (Except.ok.inj he)
    exact ⟨[], .refl _, Call.Reported.nil ()⟩
  · simp only [Checked.bind_eq_ok] at he
    obtain ⟨visit, -, distance, -, he⟩ := he
    split at he
    · simp only [Checked.bind_eq_ok] at he
      obtain ⟨visits, -, ⟨reply₁, frontier⟩, hent, he⟩ := he
      obtain ⟨rfl, rfl⟩ := Prod.mk.inj (Except.ok.inj he)
      obtain ⟨calls, ht, hr⟩ := enter_tells hent
      exact ⟨calls, ht.of_notice, hr⟩
    · obtain ⟨rfl, rfl⟩ := Prod.mk.inj (Except.ok.inj he)
      exact ⟨[], .refl _, Call.Reported.nil ()⟩

theorem relaxAll_tells {edges : List Edge} {reply : Except Rejection Unit}
    (he : relaxAll watch here edges s = .ok (reply, s')) :
    ∃ calls, watch.Tells s.frontier calls s'.frontier ∧ Call.Reported calls reply := by
  induction edges generalizing s with
  | nil =>
    obtain ⟨rfl, rfl⟩ := Prod.mk.inj (Except.ok.inj he)
    exact ⟨[], .refl _, Call.Reported.nil ()⟩
  | cons edge edges ih =>
    simp only [relaxAll, Checked.bind_eq_ok] at he
    obtain ⟨⟨reply₁, s₁⟩, hrel, he⟩ := he
    obtain ⟨calls, ht, hr⟩ := relax_tells hrel
    cases reply₁ with
    | error reason =>
      obtain ⟨rfl, rfl⟩ := Prod.mk.inj (Except.ok.inj he)
      exact ⟨calls, ht, hr⟩
    | ok _ =>
      obtain ⟨calls', ht', hr'⟩ := ih he
      exact ⟨calls ++ calls', ht.trans ht', hr.append hr'⟩

theorem step_tells {verdict? : Option Verdict}
    (he : step watch g source target s = .ok (verdict?, s')) :
    ∃ calls, watch.Tells s.frontier calls s'.frontier ∧
      Call.Reported calls (verdict?.getD (.ok none)) := by
  unfold step at he
  simp only [Checked.bind_eq_ok] at he
  obtain ⟨⟨reply, frontier⟩, hrem, he⟩ := he
  obtain ⟨call, -, hr, ht⟩ := Observer.removeMin_tells hrem
  have hrep := Call.reported_singleton hr
  cases reply with
  | error reason =>
    obtain ⟨rfl, rfl⟩ := Prod.mk.inj (Except.ok.inj he)
    exact ⟨[call], ht, hrep.map fun _ => none⟩
  | ok here =>
    simp only [Checked.bind_eq_ok] at he
    obtain ⟨visit, -, visits, -, he⟩ := he
    split at he
    · simp only [Checked.bind_eq_ok] at he
      obtain ⟨nodes, -, he⟩ := he
      obtain ⟨rfl, rfl⟩ := Prod.mk.inj (Except.ok.inj he)
      exact ⟨[call], ht, hrep.map fun _ => some (Path.mk visit.distance nodes)⟩
    · simp only [Checked.bind_eq_ok] at he
      obtain ⟨edges, -, ⟨reply₂, s₂⟩, hrel, he⟩ := he
      obtain ⟨calls, ht', hr'⟩ := relaxAll_tells hrel
      have hall := hrep.append hr'
      cases reply₂ with
      | error reason =>
        obtain ⟨rfl, rfl⟩ := Prod.mk.inj (Except.ok.inj he)
        exact ⟨[call] ++ calls, ht.trans ht', hall.map fun _ => none⟩
      | ok _ =>
        obtain ⟨rfl, rfl⟩ := Prod.mk.inj (Except.ok.inj he)
        exact ⟨[call] ++ calls, ht.trans ht', hall.map fun _ => none⟩

theorem run_tells {rounds : Nat} {verdict : Verdict}
    (he : run watch g source target rounds s = .ok (verdict, s')) :
    ∃ calls, watch.Tells s.frontier calls s'.frontier ∧ Call.Reported calls verdict := by
  obtain ⟨nodes, hl⟩ := exists_loop he
  clear he
  induction hl with
  | idle _ => exact ⟨[], .refl _, Call.Reported.nil none⟩
  | last _ _ hstep => exact step_tells hstep
  | round _ _ hstep _ ih =>
    obtain ⟨calls, ht, hr⟩ := step_tells hstep
    obtain ⟨calls', ht', hr'⟩ := ih
    exact ⟨calls ++ calls', ht.trans ht', hr.append hr'⟩

end Search

namespace Graph

variable {g : Graph} {source target : Nat} {w w' : Watched σ} {answer : Except Failure (Option Path)}

/-- The calls of a search: none if an end is not a node, else those that empty the heap and enter the
source, and more behind them. -/
def SearchCalls (g : Graph) (source target : Nat) (answer : Except Failure (Option Path))
    (calls : List Call) : Prop :=
  if source < g.size ∧ target < g.size then
    ∃ opening entry rest, ∃ verdict : Verdict, calls = opening :: entry :: rest ∧
      opening.mutation = .clear ∧ entry.mutation = .insert 0 source ∧
      Call.Reported calls verdict ∧ answer = verdict.mapError .frontier
  else calls = []

theorem shortestPathWith_tells
    (he : g.shortestPathWith watch source target w = .ok (answer, w')) :
    ∃ calls, watch.Tells w calls w' ∧ g.SearchCalls source target answer calls := by
  unfold shortestPathWith at he
  unfold SearchCalls
  split at he
  · rename_i hs
    obtain ⟨rfl, rfl⟩ := Prod.mk.inj (Except.ok.inj he)
    exact ⟨[], .refl _, by simp [Nat.not_lt.mpr hs]⟩
  · split at he
    · rename_i ht
      obtain ⟨rfl, rfl⟩ := Prod.mk.inj (Except.ok.inj he)
      exact ⟨[], .refl _, by simp [Nat.not_lt.mpr ht]⟩
    · rename_i hs ht
      simp only [Nat.not_le.mp hs, Nat.not_le.mp ht, and_self, if_true]
      simp only [Checked.bind_eq_ok] at he
      obtain ⟨⟨reply₁, w₁⟩, hclear, visits, -, ⟨reply₂, w₂⟩, hins, he⟩ := he
      obtain ⟨opening, hm₁, hr₁, ht₁⟩ := Observer.perform_tells hclear
      obtain ⟨entry, hm₂, hr₂, ht₂⟩ := Observer.insert_tells hins
      have hboth := ht₁.trans ht₂
      -- emptying a heap is not turned down
      have hopening : Call.Reported [opening] (.ok none : Reply) := by
        obtain ⟨rfl, -⟩ := Prod.mk.inj (Except.ok.inj (Observer.of_around_eq_ok hclear))
        exact Call.reported_singleton (f := id) hr₁
      have hrep := hopening.append (Call.reported_singleton hr₂)
      cases reply₂ with
      | error reason =>
        obtain ⟨rfl, rfl⟩ := Prod.mk.inj (Except.ok.inj he)
        exact ⟨_, hboth, opening, entry, [], .error reason, rfl, hm₁, hm₂,
          hrep.map fun _ => none, rfl⟩
      | ok _ =>
        simp only [Checked.bind_eq_ok] at he
        obtain ⟨⟨verdict, s⟩, hrun, he⟩ := he
        obtain ⟨rfl, rfl⟩ := Prod.mk.inj (Except.ok.inj he)
        obtain ⟨calls, ht₃, hr₃⟩ := Search.run_tells hrun
        exact ⟨_, hboth.trans ht₃, opening, entry, calls, verdict, rfl, hm₁, hm₂,
          hrep.append hr₃, rfl⟩

end Graph

end AddressableHeap
