import AddressableHeap.Proofs.Digest
import AddressableHeap.Proofs.Session

/-!
# What observers get to know

Observers make no difference, and from what they are told the history of a heap can be written down:
the calls that were made of it, each with the members before and after. The account has no gaps, and
whoever carries out its mutations again on an empty heap sees the same account come out.
-/

namespace AddressableHeap

variable {σ : Type} {watch : Observer σ}

/-! ## What a sequence of calls tells -/

namespace Call

/-- The events of a call: a rejection is noted between the callbacks. -/
def events (call : Call) : List Event :=
  .callback ⟨.before, call.mutation, call.former⟩ ::
    match call.reply with
    | .ok _ => [.callback ⟨.after, call.mutation, call.members⟩]
    | .error reason =>
      [.notice (.rejected reason), .callback ⟨.after, call.mutation, call.members⟩]

theorem callbacks_events (call : Call) : call.events.filterMap Event.callback? = call.callbacks := by
  unfold events
  cases call.reply <;> rfl

/-- The lines of a log that trace a call. -/
def records (call : Call) : List LogRecord :=
  [⟨.trace, s!"<< {call.mutation.text} [{Entry.listText call.former}]"⟩,
    ⟨.trace, s!">> {call.mutation.text} [{Entry.listText call.members}]"⟩]

end Call

namespace Heap.Serves

variable {h h' : Heap} {calls : List Call}

/-- A call that was turned down left the members as they were. -/
theorem members_eq (hs : h.Serves calls h') {call : Call} (hmem : call ∈ calls)
    {reason : Rejection} (hr : call.reply = .error reason) : call.members = call.former := by
  induction hs with
  | nil => exact absurd hmem List.not_mem_nil
  | cons he hf hm _ ih =>
    rcases List.mem_cons.mp hmem with rfl | hmem
    · rw [hr] at he
      rw [eq_of_apply_error he, hf] at hm
      exact (Except.ok.inj hm).symm
    · exact ih hmem

/-- Between two calls nothing happens. -/
theorem linked (hs : h.Serves calls h') :
    calls.IsChain fun call next => call.members = next.former := by
  induction hs with
  | nil => exact .nil
  | cons _ _ hm hs ih =>
    cases hs with
    | nil => exact .singleton _
    | cons _ hf _ _ => exact .cons_cons (Except.ok.inj (hm.symm.trans hf)) ih

/-- The mutations of the calls can be carried out again, under any observer. -/
theorem performAll (hs : h.Serves calls h') (watch : Observer σ) (seen : σ) :
    watch.performAll (calls.map Call.mutation) ⟨h, seen⟩
      = .ok (calls.map Call.reply, ⟨h', watch.feed (calls.flatMap Call.events) seen⟩) := by
  induction hs generalizing seen with
  | nil => rfl
  | @cons h h₁ h' call calls he hf hm _ ih =>
    have hcall : watch.perform call.mutation ⟨h, seen⟩
        = .ok (call.reply, ⟨h₁, watch.feed call.events seen⟩) := by
      unfold Observer.perform Observer.around Call.events
      simp only [hf, he, hm, Checked.ok_bind]
      cases call.reply <;> rfl
    simp only [List.map_cons, Observer.performAll, hcall, Checked.ok_bind, ih, List.flatMap_cons,
      Observer.feed_append]
    rfl

end Heap.Serves

/-! ## The calls of all uses -/

namespace Use

/-- A use of a heap makes these calls: a mutation is one call, and a search makes its own. -/
inductive Makes : Use → Answer → List Call → Prop where
  | mutate (call : Call) : Makes (.mutate call.mutation) (.reply call.reply) [call]
  | search {g : Graph} {source target : Nat} {result : Except Graph.Failure (Option Path)}
      {calls : List Call} :
      g.SearchCalls source target result calls → Makes (.search g source target) (.found result) calls

/-- Uses make these calls, one after the other. -/
inductive MakeAll : List Use → List Answer → List Call → Prop where
  | nil : MakeAll [] [] []
  | cons {use : Use} {uses : List Use} {answer : Answer} {answers : List Answer}
      {calls calls' : List Call} :
      use.Makes answer calls → MakeAll uses answers calls' →
      MakeAll (use :: uses) (answer :: answers) (calls ++ calls')

end Use

namespace Observer

variable {w w' : Watched σ} {use : Use} {uses : List Use}

theorem use_tells {answer : Answer} (he : watch.use use w = .ok (answer, w')) :
    ∃ calls, watch.Tells w calls w' ∧ use.Makes answer calls := by
  cases use with
  | mutate m =>
    simp only [Observer.use, Checked.bind_eq_ok] at he
    obtain ⟨⟨reply, w₁⟩, hm, he⟩ := he
    obtain ⟨rfl, rfl⟩ := Prod.mk.inj (Except.ok.inj he)
    obtain ⟨call, rfl, rfl, ht⟩ := perform_tells hm
    exact ⟨[call], ht, .mutate call⟩
  | search g source target =>
    simp only [Observer.use, Checked.bind_eq_ok] at he
    obtain ⟨⟨result, w₁⟩, hs, he⟩ := he
    obtain ⟨rfl, rfl⟩ := Prod.mk.inj (Except.ok.inj he)
    obtain ⟨calls, ht, hc⟩ := Graph.shortestPathWith_tells hs
    exact ⟨calls, ht, .search hc⟩

theorem useAll_tells {answers : List Answer} (he : watch.useAll uses w = .ok (answers, w')) :
    ∃ calls, watch.Tells w calls w' ∧ Use.MakeAll uses answers calls := by
  induction uses generalizing w answers with
  | nil =>
    obtain ⟨rfl, rfl⟩ := Prod.mk.inj (Except.ok.inj he)
    exact ⟨[], .refl _, .nil⟩
  | cons use uses ih =>
    simp only [useAll, Checked.bind_eq_ok] at he
    obtain ⟨⟨answer, w₁⟩, huse, ⟨rest, w₂⟩, hrest, he⟩ := he
    obtain ⟨rfl, rfl⟩ := Prod.mk.inj (Except.ok.inj he)
    obtain ⟨calls, ht, hc⟩ := use_tells huse
    obtain ⟨calls', ht', hc'⟩ := ih hrest
    exact ⟨calls ++ calls', ht.trans ht', .cons hc hc'⟩

end Observer

/-! ## The log -/

/-- The lines of a log that trace mutations. -/
def traced (events : List Event) : List LogRecord :=
  (events.map Event.record).filter (·.level = .trace)

theorem traced_eq_map (events : List Event) :
    traced events = (events.filterMap Event.callback?).map fun c => ⟨.trace, c.message⟩ := by
  induction events with
  | nil => rfl
  | cons event events ih =>
    cases event with
    | callback c => exact congrArg (⟨.trace, c.message⟩ :: ·) ih
    | notice n => exact ih

theorem traced_of_callbacks {events : List Event} {calls : List Call}
    (hc : events.filterMap Event.callback? = calls.flatMap Call.callbacks) :
    traced events = calls.flatMap Call.records := by
  rw [traced_eq_map, hc, List.map_flatMap]
  rfl

namespace Observer

theorem feed_transcript (events : List Event) (former : Array Event) :
    (transcript.feed events former).toList = former.toList ++ events := by
  induction events generalizing former with
  | nil => simp [feed]
  | cons event events ih =>
    have hstep : transcript.feed (event :: events) former
        = transcript.feed events (former.push event) := rfl
    rw [hstep, ih]
    simp

/-- Who is deaf to the calls traces nothing. -/
theorem traced_feed_deaf (events : List Event) (former : Array Event) :
    traced (transcript.deaf.feed events former).toList = traced former.toList := by
  induction events generalizing former with
  | nil => rfl
  | cons event events ih =>
    cases event with
    | callback c => exact ih former
    | notice n =>
      have hstep : transcript.deaf.feed (.notice n :: events) former
          = transcript.deaf.feed events (former.push (.notice n)) := rfl
      rw [hstep, ih]
      simp [traced, Event.record]

end Observer

/-! ## The account -/

/-- An account of the uses of a heap that was empty at first. -/
structure Chronicle (capacity : Nat) (uses : List Use) (answers : List Answer) (h : Heap)
    (calls : List Call) (events : List Event) : Prop where
  /-- The uses made these calls and no others. -/
  made : Use.MakeAll uses answers calls
  /-- The calls took the empty heap to the last one, and their members are those of the heap before
  and after each. -/
  serves : (Heap.empty capacity).Serves calls h
  /-- A call that was turned down left the members as they were. -/
  unmoved : ∀ call ∈ calls, ∀ reason, call.reply = .error reason → call.members = call.former
  linked : calls.IsChain fun call next => call.members = next.former
  /-- Every observer got to know the same events, and nothing else depended on it. -/
  observed : ∀ {σ : Type} (watch : Observer σ) (seen : σ),
    watch.useAll uses ⟨.empty capacity, seen⟩ = .ok (answers, ⟨h, watch.feed events seen⟩)
  /-- It was called before and after each of the calls. -/
  callbacks : events.filterMap Event.callback? = calls.flatMap Call.callbacks
  /-- The mutations of the account make another heap of the same capacity go through the same states:
  its observer is called with the same members, and its last state is the same. -/
  replayed : ∃ replayed,
    Observer.transcript.performAll (calls.map Call.mutation) ⟨.empty capacity, #[]⟩
      = .ok (calls.map Call.reply, ⟨h, replayed⟩) ∧
    replayed.toList.filterMap Event.callback? = events.filterMap Event.callback?
  logged : ∃ log, Tracing.log.observer.useAll uses ⟨.empty capacity, #[]⟩ = .ok (answers, ⟨h, log⟩) ∧
    traced log.toList = calls.flatMap Call.records
  unlogged : ∃ log, Tracing.off.observer.useAll uses ⟨.empty capacity, #[]⟩ = .ok (answers, ⟨h, log⟩) ∧
    traced log.toList = []

theorem Chronicle.of_useAll {capacity : Nat} {uses : List Use} {answers : List Answer} {h : Heap}
    (he : Observer.silent.useAll uses ⟨.empty capacity, ()⟩ = .ok (answers, ⟨h, ()⟩)) :
    ∃ calls events, Chronicle capacity uses answers h calls events := by
  have hsilent := Observer.useAll_map (Observer.silent_digests Observer.transcript) uses
    ⟨.empty capacity, #[]⟩
  obtain ⟨⟨k, log⟩, hrun, hk⟩ := Watched.of_map_eq_ok (hsilent.symm.trans he)
  obtain rfl : k = h := congrArg Watched.heap hk
  obtain ⟨calls, ⟨hserves, events, hlog, hcalls⟩, hmade⟩ := Observer.useAll_tells hrun
  simp only at hserves hlog
  have hevents : log.toList = events := by
    rw [hlog, Observer.feed_transcript]
    rfl
  have hobserved {σ : Type} (watch : Observer σ) (seen : σ) :
      watch.useAll uses ⟨.empty capacity, seen⟩ = .ok (answers, ⟨k, watch.feed events seen⟩) := by
    have hmap := Observer.useAll_map (watch.digests_transcript seen) uses ⟨.empty capacity, #[]⟩
    rw [hrun] at hmap
    rw [← hevents]
    exact hmap
  refine ⟨calls, events, hmade, hserves, fun _ hmem _ => hserves.members_eq hmem, hserves.linked,
    hobserved, hcalls, ⟨_, hserves.performAll .transcript #[], ?_⟩, ⟨_, hobserved _ _, ?_⟩,
    _, hobserved _ _, ?_⟩
  · rw [Observer.feed_transcript, hcalls, List.nil_append, List.filterMap_flatMap]
    simp only [Call.callbacks_events]
  · exact (congrArg traced (Observer.feed_transcript events #[])).trans (traced_of_callbacks hcalls)
  · exact Observer.traced_feed_deaf events #[]

/-- Observers make no difference to the answers, the heap or the fault, if there is one. What they get
to know is the account of the uses, and there is one whenever the graphs may be searched. -/
theorem Observer.useAll_chronicle {capacity : Nat} (hc : capacity + 1 < UInt64.size)
    (uses : List Use) :
    (∀ (σ : Type) (watch : Observer σ) (seen : σ),
      Prod.map id Watched.heap <$> watch.useAll uses ⟨.empty capacity, seen⟩
        = Prod.map id Watched.heap <$> silent.useAll uses ⟨.empty capacity, ()⟩) ∧
    (∀ answers h, silent.useAll uses ⟨.empty capacity, ()⟩ = .ok (answers, ⟨h, ()⟩) →
      ∃ calls events, Chronicle capacity uses answers h calls events) ∧
    ((∀ use ∈ uses, use.Sound) →
      ∃ answers h, silent.useAll uses ⟨.empty capacity, ()⟩ = .ok (answers, ⟨h, ()⟩)) := by
  refine ⟨fun σ watch seen => ?_, fun answers h => Chronicle.of_useAll, fun hs => ?_⟩
  · have hmap := useAll_map watch.silent_digests uses ⟨.empty capacity, seen⟩
    rw [show (⟨.empty capacity, ()⟩ : Watched Unit)
      = Watched.map (fun _ => ()) ⟨.empty capacity, seen⟩ from rfl, hmap]
    cases watch.useAll uses ⟨.empty capacity, seen⟩ <;> rfl
  · obtain ⟨answers, w, he⟩ :=
      silent.useAll_total hs (w := ⟨.empty capacity, ()⟩) (Heap.valid_empty hc)
    exact ⟨answers, w.heap, he⟩

/-- With requests that are turned down, and a search that ends because its frontier has no room for
node 3. -/
theorem Observer.useAll_chronicle_of_three :
    ∃ answers h calls events, Chronicle 3 [.mutate (.insert 5 1), .mutate (.insert 4 1),
      .mutate .removeMin, .mutate .removeMin, .search .diamond 0 4, .mutate (.update (-2) 1)]
      answers h calls events := by
  obtain ⟨-, haccount, hreturns⟩ := useAll_chronicle (show 3 + 1 < UInt64.size by decide)
    [.mutate (.insert 5 1), .mutate (.insert 4 1), .mutate .removeMin, .mutate .removeMin,
      .search .diamond 0 4, .mutate (.update (-2) 1)]
  have hsearch : (Use.search .diamond 0 4).Sound := ⟨Graph.built_diamond, by decide⟩
  obtain ⟨answers, h, he⟩ := hreturns (by simpa [Use.Sound] using hsearch)
  exact ⟨answers, h, haccount answers h he⟩

end AddressableHeap
