import AddressableHeap.Mutation

/-!
# Events

What there is to tell about a run: an observer is called before and after every mutation, and
notices tell of a rejection or of a shorter way that a search has found. Events can be written as log
records, a notice at the level of debugging and a callback at the level of tracing.
-/

namespace AddressableHeap

/-- Which side of a mutation a callback reports. -/
inductive Moment where
  /-- The mutation is about to be carried out. -/
  | before
  /-- The mutation has been carried out or turned down. -/
  | after
  deriving DecidableEq, Repr

/-- What an observer is told when it is called. -/
structure Callback where
  moment : Moment
  mutation : Mutation
  /-- The members at this moment, in the order of their slots. -/
  members : List Entry
  deriving DecidableEq, Repr

/-- The message that a callback is written as: `<<` or `>>`, the mutation, and the members. -/
def Callback.message (c : Callback) : String :=
  let mark := match c.moment with
    | .before => "<<"
    | .after => ">>"
  s!"{mark} {c.mutation.text} [{Entry.listText c.members}]"

/-- Something worth noting that is no mutation. -/
inductive Notice where
  | rejected (reason : Rejection)
  /-- A search found a way to `target` through `source` of length `distance`, which is shorter
  than `former`, the shortest known until then. -/
  | relaxed (source target : Nat) (distance former : UInt64)
  deriving DecidableEq, Repr

/-- The message that a notice is written as. -/
def Notice.message : Notice → String
  | .rejected (.full _) => "insert rejected: heap full"
  | .rejected (.outOfRange id _) => s!"insert rejected: element {id} out of range"
  | .rejected (.duplicate id) => s!"insert rejected: element {id} already present"
  | .rejected (.unknown id) => s!"element {id} is not in the heap"
  | .rejected .empty => "remove_min rejected: heap empty"
  | .relaxed source target distance former =>
    s!"relax {source} -> {target}: {distance} (was {former})"

/-- Something that happened in a run. -/
inductive Event where
  | callback (c : Callback)
  | notice (n : Notice)
  deriving DecidableEq, Repr

/-! ## Log records -/

/-- How detailed a log record is, the least detailed first. Errors and warnings come before these
levels, and nothing is recorded at those. -/
inductive Level where
  | info
  | debug
  | trace
  deriving DecidableEq, Repr

namespace Level

def name : Level → String
  | .info => "INFO"
  | .debug => "DEBUG"
  | .trace => "TRACE"

/-- The place of a level among all levels of a log, of which errors and warnings are the first two. -/
def rank : Level → Nat
  | .info => 3
  | .debug => 4
  | .trace => 5

end Level

/-- The most detailed level that gets through. -/
inductive Threshold where
  | warn
  | info
  | debug
  | trace
  deriving DecidableEq, Repr

/-- The place of a threshold among the levels of a log. -/
def Threshold.rank : Threshold → Nat
  | .warn => 2
  | .info => 3
  | .debug => 4
  | .trace => 5

/-- Whether what is recorded at this level gets through. -/
def Level.enabled (level : Level) (max : Threshold) : Bool := level.rank ≤ max.rank

/-- A line of a log. -/
structure LogRecord where
  level : Level
  message : String
  deriving DecidableEq, Repr

/-- The log record that an event is written as. -/
def Event.record : Event → LogRecord
  | .callback c => ⟨.trace, c.message⟩
  | .notice n => ⟨.debug, n.message⟩

end AddressableHeap
