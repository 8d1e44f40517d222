import AddressableHeap.Event

/-!
# Observed heaps

An observer keeps a state of its own and brings it up to date with every event. It is handed events
and nothing else, so it cannot touch the heap. A heap under observation is a heap together with what
its observer has seen.
-/

namespace AddressableHeap

variable {σ α : Type}

/-- How to take note of an event, for notes of type `σ`. -/
structure Observer (σ : Type) where
  /-- The notes after an event. -/
  react : Event → σ → σ

namespace Observer

/-- Takes note of nothing. -/
def silent : Observer σ := ⟨fun _ seen => seen⟩

/-- Takes note of everything, in order. -/
def transcript : Observer (Array Event) := ⟨fun event seen => seen.push event⟩

/-- Leaves the calls around mutations unanswered, and is otherwise like `watch`. -/
def deaf (watch : Observer σ) : Observer σ where
  react
    | .callback _, seen => seen
    | .notice n, seen => watch.react (.notice n) seen

end Observer

/-- Whether a log contains the calls around mutations, or notices alone. -/
inductive Tracing where
  | off
  | log
  deriving DecidableEq, Repr

namespace Tracing

/-- Tracing as switched on or off by a flag. -/
def ofFlag (enabled : Bool) : Tracing := if enabled then .log else .off

def name : Tracing → String
  | .off => "Off"
  | .log => "Log"

/-- The observer whose notes are the events that get into the log. -/
def observer : Tracing → Observer (Array Event)
  | .off => Observer.transcript.deaf
  | .log => Observer.transcript

end Tracing

/-- A heap under observation. -/
structure Watched (σ : Type) where
  heap : Heap
  /-- What its observer has noted so far. -/
  seen : σ

namespace Observer

/-- Do something to a heap under observation that is announced as mutation `m`: the observer is
called before and after it, and a rejection is noted in between. -/
def around (watch : Observer σ) (m : Mutation) (act : Heap → Checked (Except Rejection α × Heap))
    (w : Watched σ) : Checked (Except Rejection α × Watched σ) := do
  let ⟨heap, seen⟩ := w
  let members ← heap.snapshot
  let seen := watch.react (.callback ⟨.before, m, members⟩) seen
  let (reply, heap) ← act heap
  let seen := match reply with
    | .ok _ => seen
    | .error reason => watch.react (.notice (.rejected reason)) seen
  let members ← heap.snapshot
  let seen := watch.react (.callback ⟨.after, m, members⟩) seen
  pure (reply, ⟨heap, seen⟩)

/-- Carry out a mutation under observation. -/
def perform (watch : Observer σ) (m : Mutation) (w : Watched σ) : Checked (Reply × Watched σ) :=
  watch.around m (·.apply m) w

/-- Make `id` a member under `key`, under observation. -/
def insert (watch : Observer σ) (key : Key) (id : Id) (w : Watched σ) :
    Checked (Except Rejection Unit × Watched σ) :=
  watch.around (.insert key id) (·.insert key id) w

/-- Change the key of the member `id`, under observation. -/
def update (watch : Observer σ) (key : Key) (id : Id) (w : Watched σ) :
    Checked (Except Rejection Unit × Watched σ) :=
  watch.around (.update key id) (·.update key id) w

/-- Remove the member with the least key, under observation. -/
def removeMin (watch : Observer σ) (w : Watched σ) : Checked (Except Rejection Id × Watched σ) :=
  watch.around .removeMin (·.removeMin) w

/-- Carry out mutations one after the other under observation and collect the replies. A rejection
does not end the run. -/
def performAll (watch : Observer σ) : List Mutation → Watched σ → Checked (List Reply × Watched σ)
  | [], w => pure ([], w)
  | m :: ms, w => do
    let (reply, w) ← watch.perform m w
    let (replies, w) ← watch.performAll ms w
    pure (reply :: replies, w)

/-- Remove the least member again and again, at most `rounds` times, until none is left, and collect
the members in the order in which they go. -/
def drainWithin (watch : Observer σ) : Nat → Watched σ → Checked (List Entry × Watched σ)
  | rounds, w => do
    match ← w.heap.peekMin with
    | none => pure ([], w)
    | some least =>
      match rounds with
      | 0 => throw .unfinished
      | rounds + 1 => do
        let (_, w) ← watch.removeMin w
        let (rest, w) ← watch.drainWithin rounds w
        pure (least :: rest, w)

/-- Empty a heap by removing the least member again and again. Every round removes one. -/
def drain (watch : Observer σ) (w : Watched σ) : Checked (List Entry × Watched σ) :=
  watch.drainWithin w.heap.size w

end Observer

end AddressableHeap
