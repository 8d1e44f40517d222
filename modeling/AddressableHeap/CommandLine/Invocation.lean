/-!
# Command lines

The demonstration program is told what to do by words: flags, the name of a command, and the options
of that command, each with a value. A command line that does not follow this grammar has no reading.

* Flags stand before or behind the name of the command: `--trace`, at most once in either place, and
  `--verbose` or `-v`, which may be repeated, also as `-vvv`.
* An option is written `--name value` or `--name=value`, behind the name of the command, and at most
  once. A value that is a word of its own must not look like an option.
* The word `--` may end the command line behind the name of the command.
-/

namespace AddressableHeap.CommandLine

/-- What the program is to demonstrate. -/
inductive Command where
  /-- Filling and emptying a heap of this capacity. -/
  | sample (capacity : Nat)
  /-- Finding a shortest path between two nodes with these labels. -/
  | path (source target : String)
  deriving DecidableEq, Repr

/-- A command line that has been read. -/
structure Invocation where
  trace : Bool
  /-- How often more detail was asked for. -/
  verbosity : UInt8
  command : Command
  deriving DecidableEq, Repr

/-! ## Flags -/

/-- A word that is complete in itself. -/
inductive Flag where
  | trace
  /-- Ask for more detail, so many times. -/
  | verbose (times : Nat)
  deriving DecidableEq, Repr

/-- The flag that a word is. -/
def Flag.ofWord? (word : String) : Option Flag :=
  if word = "--trace" then some .trace
  else if word = "--verbose" then some (.verbose 1)
  else
    match word.toList with
    | '-' :: 'v' :: letters =>
      if letters.all (· == 'v') then some (.verbose (letters.length + 1)) else none
    | _ => none

/-- How often flags ask for more detail. -/
def Flag.verbosity : List Flag → Nat
  | [] => 0
  | .trace :: flags => verbosity flags
  | .verbose times :: flags => times + verbosity flags

/-- The flags before the name of the command, and the words from there on. -/
def leadingFlags : List String → List Flag × List String
  | [] => ([], [])
  | word :: words =>
    match Flag.ofWord? word with
    | none => ([], word :: words)
    | some flag =>
      let (flags, rest) := leadingFlags words
      (flag :: flags, rest)

/-! ## Options -/

/-- An option that was given a value. -/
structure Assignment where
  name : String
  value : String
  deriving DecidableEq, Repr

/-- The value in the word `--name=value`. -/
def inlineValue? (name word : String) : Option String :=
  String.ofList <$> List.isPrefixOf? ("--" ++ name ++ "=").toList word.toList

/-- Whether a word looks like an option and so cannot be a value. A single dash can. -/
def looksLikeOption (word : String) : Bool :=
  match word.toList with
  | '-' :: _ :: _ => true
  | _ => false

/-- The option among `names` that a word sets. -/
def Assignment.ofWord? (names : List String) (word : String) : Option Assignment :=
  names.findSome? fun name => (⟨name, ·⟩) <$> inlineValue? name word

/-- The option among `names` that a word announces. -/
def announced? (names : List String) (word : String) : Option String :=
  names.find? fun name => word == "--" ++ name

/-- The flags and the options among `names` behind the name of a command. -/
def arguments? (names : List String) : List String → Option (List Flag × List Assignment)
  | [] => some ([], [])
  | word :: words =>
    match Flag.ofWord? word, Assignment.ofWord? names word, announced? names word with
    | some flag, _, _ => do
      let (flags, assignments) ← arguments? names words
      pure (flag :: flags, assignments)
    | none, some assignment, _ => do
      let (flags, assignments) ← arguments? names words
      pure (flags, assignment :: assignments)
    | none, none, some name =>
      match words with
      | [] => none
      | value :: words =>
        if looksLikeOption value then none
        else do
          let (flags, assignments) ← arguments? names words
          pure (flags, ⟨name, value⟩ :: assignments)
    | none, none, none => if word = "--" ∧ words = [] then some ([], []) else none

/-- The value of an option, or `otherwise` if it is not set. It must not be set twice. -/
def valueOf? (name otherwise : String) (assignments : List Assignment) : Option String :=
  match assignments.filter (·.name == name) with
  | [] => some otherwise
  | [assignment] => some assignment.value
  | _ => none

/-- The number that a text of decimal digits stands for, if it fits into 64 bits. A single plus sign
may stand in front. -/
def number? (text : String) : Option Nat :=
  let digits := match text.toList with
    | '+' :: digits => digits
    | digits => digits
  if digits ≠ [] ∧ digits.all Char.isDigit then
    let value := digits.foldl (fun n digit => 10 * n + (digit.toNat - '0'.toNat)) 0
    if value < UInt64.size then some value else none
  else none

/-! ## The whole line -/

/-- How often flags before and behind the name of a command ask for more detail. Flags behind the name
that do so take the place of those before it. -/
def Flag.verbosityOf (before behind : List Flag) : Nat :=
  if verbosity behind = 0 then verbosity before else verbosity behind

/-- Put a command together with the flags before and behind its name. More detail is counted up to the
largest number that there is room for. -/
def Invocation.ofParts? (before behind : List Flag) (command : Command) : Option Invocation :=
  if before.count .trace ≤ 1 ∧ behind.count .trace ≤ 1 then
    some {
      trace := before.contains .trace || behind.contains .trace
      verbosity := .ofNat (min (Flag.verbosityOf before behind) 255)
      command }
  else none

/-- Read a command line. -/
def Invocation.ofWords? (words : List String) : Option Invocation :=
  match leadingFlags words with
  | (before, "sample" :: words) => do
    let (behind, assignments) ← arguments? ["capacity"] words
    let capacity ← valueOf? "capacity" "10" assignments
    Invocation.ofParts? before behind (.sample (← number? capacity))
  | (before, "path" :: words) => do
    let (behind, assignments) ← arguments? ["from", "to"] words
    let source ← valueOf? "from" "A" assignments
    let target ← valueOf? "to" "E" assignments
    Invocation.ofParts? before behind (.path source target)
  | _ => none

end AddressableHeap.CommandLine
