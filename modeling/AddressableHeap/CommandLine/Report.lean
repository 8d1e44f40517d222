import AddressableHeap.CommandLine.Invocation
import AddressableHeap.Graph.Search
import AddressableHeap.Settings

/-!
# Demonstrations

What the demonstration program does for each command, as data: the lines it prints, the log it
keeps at full detail, and how it failed if it did. How much of the log is shown is decided last, and
nothing else depends on it.
-/

namespace AddressableHeap.CommandLine

/-- How a demonstration failed. -/
structure Failure where
  message : String
  /-- Why, if there is more to say. -/
  cause : Option String
  deriving DecidableEq, Repr

/-- The lines under which a failure is reported. -/
def Failure.lines (f : Failure) : List String :=
  match f.cause with
  | none => ["Error: " ++ f.message]
  | some cause => ["Error: " ++ f.message, "", "Caused by:", "    " ++ cause]

/-- What a demonstration leaves behind. -/
structure Report where
  log : List LogRecord
  printed : List String
  failure : Option Failure
  deriving DecidableEq, Repr

/-! ## Filling and emptying a heap -/

/-- A demonstration that works on a heap whose events are logged. -/
structure Stage where
  heap : Watched (Array Event)
  printed : List String

namespace Stage

/-- Print the members of the heap. -/
def printHeap (s : Stage) : Checked Stage := do
  let line ← s.heap.heap.text
  pure { s with printed := s.printed ++ [line] }

/-- Insert elements one after the other, each under its own number as the key. -/
def insertAll (watch : Observer (Array Event)) : List Nat → Stage → Checked (Option Failure × Stage)
  | [], s => pure (none, s)
  | id :: ids, s => do
    let (reply, heap) ← watch.insert (Int64.ofNat id) id s.heap
    match reply with
    | .error reason => pure (some ⟨s!"inserting element {id}", reason.message⟩, { s with heap })
    | .ok () => insertAll watch ids { s with heap }

/-- Remove elements one after the other, and print the heap after each. -/
def removeAll (watch : Observer (Array Event)) : List Nat → Stage → Checked (Option Failure × Stage)
  | [], s => pure (none, s)
  | id :: ids, s => do
    let (reply, heap) ← watch.perform (.remove id) s.heap
    match reply with
    | .error reason => pure (some ⟨s!"removing element {id}", reason.message⟩, { s with heap })
    | .ok _ => removeAll watch ids (← printHeap { s with heap })

/-- Remove the least member until none is left, in at most `rounds` rounds, and print it and the
heap each time. -/
def takeAll (watch : Observer (Array Event)) : Nat → Stage → Checked (Option Failure × Stage)
  | rounds, s => do
    if s.heap.heap.isEmpty then pure (none, s)
    else
      match rounds with
      | 0 => throw .unfinished
      | rounds + 1 => do
        let (reply, heap) ← watch.removeMin s.heap
        match reply with
        | .error reason => pure (some ⟨reason.message, none⟩, { s with heap })
        | .ok id =>
          takeAll watch rounds (← printHeap { heap, printed := s.printed ++ [toString id] })

/-- Insert the elements 1 to 8, remove three of them, and remove the rest in order. -/
def demonstrate (watch : Observer (Array Event)) (s : Stage) :
    Checked (Option Failure × Stage) := do
  let (failure, s) ← insertAll watch [1, 2, 3, 4, 5, 6, 7, 8] s
  match failure with
  | some failure => pure (some failure, s)
  | none => do
    let (failure, s) ← removeAll watch [2, 5, 8] (← printHeap s)
    match failure with
    | some failure => pure (some failure, s)
    | none => takeAll watch s.heap.heap.size s

end Stage

/-- The demonstration of a heap of a given capacity. -/
def sampleReport (capacity : Nat) (trace : Bool) : Checked Report := do
  let settings : Settings := { capacity, trace }
  let (failure, s) ← Stage.demonstrate settings.tracing.observer ⟨⟨settings.heap, #[]⟩, []⟩
  pure {
    log := ⟨.info, s!"running sample driver with capacity {capacity}"⟩
      :: s.heap.seen.toList.map Event.record
    printed := s.printed
    failure }

/-! ## Finding a path -/

/-- The report of a demonstration that found no node with a label. -/
def noNode (label : String) : Report := ⟨[], [], some ⟨s!"Node {label} not found", none⟩⟩

/-- The demonstration of a search between two labelled nodes of the diamond. -/
def pathReport (source target : String) (trace : Bool) : Checked Report := do
  let g := Graph.diamond
  match g.find? source, g.find? target with
  | none, _ => pure (noNode source)
  | some _, none => pure (noNode target)
  | some a, some b => do
    let settings : Settings := { capacity := g.size, trace }
    let (answer, frontier) ←
      g.shortestPathWith settings.tracing.observer a b ⟨settings.heap, #[]⟩
    let log := frontier.seen.toList.map Event.record
    match answer with
    | .error failure => pure ⟨log, [], some ⟨failure.message, none⟩⟩
    | .ok none => pure ⟨log, [s!"No path from {source} to {target}"], none⟩
    | .ok (some path) => do
      let nodes ← g.pathText path.nodes
      pure ⟨log, [s!"Shortest {source}->{target}: cost {path.cost}, path {nodes}"], none⟩

/-! ## What is shown -/

/-- The report of a command. -/
def Command.report (command : Command) (trace : Bool) : Checked Report :=
  match command with
  | .sample capacity => sampleReport capacity trace
  | .path source target => pathReport source target trace

/-- The line that shows a log record: the level, flush right in five columns, and the message. -/
def recordLine (r : LogRecord) : String :=
  let name := r.level.name
  "[" ++ "".pushn ' ' (5 - name.length) ++ name ++ "] " ++ r.message

/-- The threshold that is set when more detail was asked for so many times. -/
def threshold : UInt8 → Threshold
  | 0 => .warn
  | 1 => .info
  | 2 => .debug
  | _ => .trace

/-- The records of a log that the logger is given: those of the levels up to the threshold. -/
def passedOn (max : Threshold) (log : List LogRecord) : List LogRecord :=
  log.filter fun r => r.level.rank ≤ max.rank

/-- What the logger writes when it is given a record: it looks at the threshold once more. -/
def written? (max : Threshold) (r : LogRecord) : Option String :=
  if r.level.enabled max then some (recordLine r) else none

/-- The lines that a log leaves on the error channel under a threshold. -/
def shownLines (max : Threshold) (log : List LogRecord) : List String :=
  (passedOn max log).filterMap (written? max)

/-- What a process leaves behind: a code and the lines on both of its channels. -/
structure Exit where
  /-- 0 for success, 1 for a failure, 2 for a command line that cannot be read, 101 for a fault. -/
  code : Nat
  output : List String
  errors : List String
  deriving DecidableEq, Repr

/-- How a report is shown. -/
def Report.exit (r : Report) (max : Threshold) : Exit where
  code := if r.failure.isSome then 1 else 0
  output := r.printed
  errors := shownLines max r.log ++ (r.failure.map Failure.lines).getD []

/-- Do what a command line asks for. -/
def Invocation.exit (i : Invocation) : Checked Exit := do
  let report ← i.command.report i.trace
  pure (report.exit (threshold i.verbosity))

/-- The end of a process that hit a fault. -/
def faultExit (fault : Fault) : Exit := ⟨101, [], [fault.message]⟩

/-- The end of a process whose command line cannot be read. -/
def usageExit : Exit := ⟨2, [], [
  "error: the command line cannot be read",
  "",
  "Usage: sample [--capacity N] | path [--from LABEL] [--to LABEL]",
  "Flags: --trace, -v, --verbose"]⟩

/-- Run the program on the words of a command line, as `read?` reads them. -/
def runWith (read? : List String → Option Invocation) (words : List String) : Exit :=
  match read? words with
  | none => usageExit
  | some i =>
    match i.exit with
    | .error fault => faultExit fault
    | .ok exit => exit

/-- Run the program on the words of a command line. -/
def run : List String → Exit := runWith Invocation.ofWords?

end AddressableHeap.CommandLine
