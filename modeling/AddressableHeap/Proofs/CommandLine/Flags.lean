import AddressableHeap.CommandLine.Invocation

/-!
# What the flags of a command line ask for

A flag is a word of its own, and it can stand before or behind the name of the command. So what the
flags ask for can be told from the words alone, whatever else a command line is read as: tracing if the
flag for it stands anywhere, and more detail as often as the flags behind the name say, or those before
it if there are none behind. This is what is relied on of a reader of command lines, and the grammar
keeps it.
-/

namespace AddressableHeap.CommandLine

variable {words rest : List String} {word : String} {names : List String}

/-- The flags before the name of the command. -/
def flagsBefore (words : List String) : List Flag := (leadingFlags words).1

/-- The flags behind the name of the command. -/
def flagsBehind (words : List String) : List Flag := (leadingFlags words).2.filterMap Flag.ofWord?

/-- How often the flags of a command line ask for more detail, wherever they stand. -/
def verboseFlags (words : List String) : Nat := Flag.verbosity (words.filterMap Flag.ofWord?)

/-- How often a command line asks for more detail: as often as the flags behind the name of the command
do, or those before it if those behind do not. -/
def verbosityOf (words : List String) : Nat :=
  Flag.verbosityOf (flagsBefore words) (flagsBehind words)

/-- A reader of command lines that finds the flags: it counts those that ask for more detail as far as
there is room for the number, and finds the one that asks for tracing wherever it stands. -/
structure ReadsFlags (read? : List String → Option Invocation) : Prop where
  verbosity : ∀ {words : List String} {i : Invocation}, read? words = some i →
    i.verbosity.toNat = min (verbosityOf words) 255
  trace : ∀ {words : List String} {i : Invocation}, read? words = some i →
    (i.trace = true ↔ "--trace" ∈ words)

/-! ## Flags as words -/

theorem Flag.ofWord?_eq_trace_iff : Flag.ofWord? word = some .trace ↔ word = "--trace" := by
  unfold Flag.ofWord?
  constructor
  · intro h
    split at h
    · assumption
    · split at h
      · cases h
      · split at h
        · split at h <;> cases h
        · cases h
  · rintro rfl
    rfl

/-- A word that could be a value is no flag. -/
theorem Flag.ofWord?_eq_none (h : looksLikeOption word = false) : Flag.ofWord? word = none := by
  unfold Flag.ofWord?
  split
  · subst word
    exact absurd h (by decide)
  · split
    · subst word
      exact absurd h (by decide)
    · split
      · rename_i heq
        rw [looksLikeOption, heq] at h
        cases h
      · rfl

theorem trace_mem_iff : Flag.trace ∈ words.filterMap Flag.ofWord? ↔ "--trace" ∈ words := by
  simp [List.mem_filterMap, Flag.ofWord?_eq_trace_iff]

/-! ## Where flags stand -/

theorem filterMap_eq_append (words : List String) :
    words.filterMap Flag.ofWord? = flagsBefore words ++ flagsBehind words := by
  induction words with
  | nil => rfl
  | cons word words ih =>
    unfold flagsBefore flagsBehind at *
    cases h : Flag.ofWord? word with
    | none => simp only [leadingFlags, h, List.nil_append]
    | some flag => simp only [leadingFlags, h, List.filterMap_cons_some h, ih, List.cons_append]

theorem Flag.verbosity_append (before behind : List Flag) :
    verbosity (before ++ behind) = verbosity before + verbosity behind := by
  induction before with
  | nil => simp [verbosity]
  | cons flag before ih =>
    cases flag with
    | trace => exact ih
    | verbose times => simp [verbosity, ih, Nat.add_assoc]

/-- Flags that stand in one place are all counted. -/
theorem verbosityOf_eq_verboseFlags
    (h : Flag.verbosity (flagsBefore words) = 0 ∨ Flag.verbosity (flagsBehind words) = 0) :
    verbosityOf words = verboseFlags words := by
  unfold verboseFlags verbosityOf Flag.verbosityOf
  rw [filterMap_eq_append, Flag.verbosity_append]
  split <;> omega

/-! ## The grammar -/

/-- The flags behind the name of a command are the words that are flags. -/
theorem flags_eq_of_arguments? {flags : List Flag} {assignments : List Assignment}
    (h : arguments? names words = some (flags, assignments)) :
    flags = words.filterMap Flag.ofWord? := by
  fun_induction arguments? names words generalizing flags assignments with
  | case1 =>
    cases h
    rfl
  | case2 word words flag hflag ih =>
    obtain ⟨⟨behind, rest⟩, hrest, h⟩ := Option.bind_eq_some_iff.mp h
    cases h
    rw [List.filterMap_cons_some hflag, ← ih hrest]
  | case3 word words assignment _ hflag ih =>
    obtain ⟨⟨behind, rest⟩, hrest, h⟩ := Option.bind_eq_some_iff.mp h
    cases h
    rw [List.filterMap_cons_none hflag, ← ih hrest]
  | case4 => cases h
  | case5 => cases h
  | case6 word name _ _ hflag value words hvalue ih =>
    obtain ⟨⟨behind, rest⟩, hrest, h⟩ := Option.bind_eq_some_iff.mp h
    cases h
    have hnone := Flag.ofWord?_eq_none (Bool.eq_false_iff.mpr hvalue)
    rw [List.filterMap_cons_none hflag, List.filterMap_cons_none hnone, ← ih hrest]
  | case7 word words _ _ hflag hend =>
    obtain ⟨rfl, rfl⟩ := hend
    cases h
    rw [List.filterMap_cons_none hflag, List.filterMap_nil]
  | case8 => cases h

theorem ofParts?_eq_some {before behind : List Flag} {command : Command} {i : Invocation}
    (h : Invocation.ofParts? before behind command = some i) :
    i = ⟨before.contains .trace || behind.contains .trace,
      .ofNat (min (Flag.verbosityOf before behind) 255), command⟩ := by
  unfold Invocation.ofParts? at h
  split at h
  · exact (Option.some.inj h).symm
  · cases h

/-- What is read behind the name of a command goes together with the flags before it. -/
theorem ofParts?_of_arguments? {before behind : List Flag} {assignments : List Assignment}
    {name : String} {command : Command} {i : Invocation}
    (hlead : leadingFlags words = (before, name :: rest)) (hname : Flag.ofWord? name = none)
    (hargs : arguments? names rest = some (behind, assignments))
    (h : Invocation.ofParts? before behind command = some i) :
    Invocation.ofParts? (flagsBefore words) (flagsBehind words) i.command = some i := by
  have hbehind : flagsBehind words = behind := by
    rw [flagsBehind, hlead, List.filterMap_cons_none hname, flags_eq_of_arguments? hargs]
  rw [hbehind, flagsBefore, hlead, congrArg Invocation.command (ofParts?_eq_some h)]
  exact h

theorem ofParts?_of_ofWords? {i : Invocation} (h : Invocation.ofWords? words = some i) :
    Invocation.ofParts? (flagsBefore words) (flagsBehind words) i.command = some i := by
  unfold Invocation.ofWords? at h
  split at h
  · rename_i before words hlead
    obtain ⟨⟨behind, assignments⟩, hargs, h⟩ := Option.bind_eq_some_iff.mp h
    obtain ⟨text, -, h⟩ := Option.bind_eq_some_iff.mp h
    obtain ⟨capacity, -, h⟩ := Option.bind_eq_some_iff.mp h
    exact ofParts?_of_arguments? hlead (by decide) hargs h
  · rename_i before words hlead
    obtain ⟨⟨behind, assignments⟩, hargs, h⟩ := Option.bind_eq_some_iff.mp h
    obtain ⟨source, -, h⟩ := Option.bind_eq_some_iff.mp h
    obtain ⟨target, -, h⟩ := Option.bind_eq_some_iff.mp h
    exact ofParts?_of_arguments? hlead (by decide) hargs h
  · cases h

/-- The grammar finds the flags. -/
theorem readsFlags_ofWords? : ReadsFlags Invocation.ofWords? where
  verbosity := by
    intro words i h
    have hcount : (UInt8.ofNat (min (verbosityOf words) 255)).toNat = min (verbosityOf words) 255 :=
      UInt8.toNat_ofNat_of_lt' (Nat.lt_succ_of_le (Nat.min_le_right ..))
    rw [ofParts?_eq_some (ofParts?_of_ofWords? h)]
    exact hcount
  trace := by
    intro words i h
    rw [ofParts?_eq_some (ofParts?_of_ofWords? h), ← trace_mem_iff, filterMap_eq_append,
      List.mem_append]
    simp

end AddressableHeap.CommandLine
