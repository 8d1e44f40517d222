import AddressableHeap.Proofs.CommandLine.Flags
import AddressableHeap.Proofs.CommandLine.Stages
import AddressableHeap.Proofs.Search.Correctness
import Mathlib

/-!
# How much detail is shown

The flags of a command line ask for more or less of the log and for nothing else. Whether mutations are
traced decides whether the log has lines about them, and how much detail is asked for decides which of
its lines are shown. What is printed, how the program ends and how a failure is reported depends on
neither. Nothing of this depends on how command lines are read, as long as the flags are found.
-/

namespace AddressableHeap

open CommandLine

variable {g : Graph} {r : Report}

/-! ## Paths can be written -/

/-- A walk that starts at a node meets only nodes. -/
theorem Graph.Walk.lt_size {first last cost : Nat} {nodes : List Nat} (hg : g.Closed)
    (hw : g.Walk first last nodes cost) (hf : first < g.size) : ∀ node ∈ nodes, node < g.size := by
  induction hw with
  | here node =>
    intro i hmem
    rwa [List.mem_singleton.mp hmem]
  | along he _ ih =>
    intro i hmem
    rcases List.mem_cons.mp hmem with rfl | hmem
    · exact hf
    · exact ih (hg _ _ he) i hmem

theorem Graph.pathText_total {nodes : List Nat} (hall : ∀ node ∈ nodes, node < g.size) :
    ∃ text, g.pathText nodes = .ok text := by
  obtain ⟨labels, he⟩ : ∃ labels, nodes.mapM g.label = .ok labels := by
    induction nodes with
    | nil => exact ⟨[], rfl⟩
    | cons node nodes ih =>
      obtain ⟨labels, he⟩ := ih fun node hmem => hall node (List.mem_cons_of_mem _ hmem)
      have hn : node < g.nodes.size := hall node (List.mem_cons_self ..)
      refine ⟨g.nodes[node].label :: labels, ?_⟩
      rw [List.mapM_cons, he, label, Checked.get_eq_ok hn]
      rfl
  unfold pathText
  rw [he]
  exact ⟨_, rfl⟩

theorem Graph.lt_size_of_find? {label : String} {node : Nat} (h : g.find? label = some node) :
    node < g.size := by
  obtain ⟨hlt, -⟩ := Array.findIdx?_eq_some_iff_getElem.mp h
  exact hlt

/-! ## Reports -/

/-- The events that get into a log without the calls around mutations. -/
def quiet (events : Array Event) : Array Event := events.filter (·.callback?.isNone)

theorem off_digests : Tracing.off.observer.Digests quiet Tracing.log.observer := by
  intro event events
  cases event with
  | callback c => simp [quiet, Tracing.observer, Observer.transcript, Observer.deaf, Event.callback?]
  | notice n => simp [quiet, Tracing.observer, Observer.transcript, Observer.deaf, Event.callback?]

theorem record_quiet (events : Array Event) :
    (quiet events).toList.map Event.record
      = (events.toList.map Event.record).filter (·.level ≠ .trace) := by
  rw [quiet, Array.toList_filter, List.filter_map]
  refine congrArg _ (List.filter_congr ?_)
  intro event _
  cases event with
  | callback c => rfl
  | notice n => rfl

namespace CommandLine

/-- A report whose log does not have the lines about mutations. -/
def Report.untraced (r : Report) : Report := { r with log := r.log.filter (·.level ≠ .trace) }

theorem sampleReport_untraced (capacity : Nat) :
    sampleReport capacity false = Report.untraced <$> sampleReport capacity true := by
  have hmap := Stage.demonstrate_map off_digests ⟨⟨.empty capacity, #[]⟩, []⟩
  simp only [sampleReport, Settings.tracing, Settings.heap, Tracing.ofFlag, if_true, if_false,
    map_bind, Bool.false_eq_true]
  rw [show (⟨⟨.empty capacity, #[]⟩, []⟩ : Stage) = Stage.map quiet ⟨⟨.empty capacity, #[]⟩, []⟩
    from rfl, hmap, bind_map_left]
  refine bind_congr ?_
  rintro ⟨failure, s⟩
  have hlog := record_quiet s.heap.seen
  simp only [Prod.map, Stage.map, Watched.map, hlog]
  rfl

theorem pathReport_untraced (source target : String) :
    pathReport source target false = Report.untraced <$> pathReport source target true := by
  cases hs : Graph.diamond.find? source with
  | none =>
    simp only [pathReport, hs]
    rfl
  | some a =>
    cases ht : Graph.diamond.find? target with
    | none =>
      simp only [pathReport, hs, ht]
      rfl
    | some b =>
      have hmap := Graph.shortestPathWith_map off_digests Graph.diamond a b
        ⟨.empty Graph.diamond.size, #[]⟩
      simp only [pathReport, hs, ht, Settings.tracing, Settings.heap, Tracing.ofFlag, if_true,
        if_false, map_bind, Bool.false_eq_true]
      rw [show (⟨.empty Graph.diamond.size, #[]⟩ : Watched (Array Event))
        = Watched.map quiet ⟨.empty Graph.diamond.size, #[]⟩ from rfl, hmap, bind_map_left]
      refine bind_congr ?_
      rintro ⟨answer, w⟩
      have hlog := record_quiet w.seen
      simp only [Prod.map, Watched.map, hlog]
      rcases answer with failure | _ | path
      · rfl
      · rfl
      · simp only [id_eq, map_bind]
        rfl

/-- The commands that the program can carry out: every search, and the demonstration of a heap whose
slots can be addressed. -/
def Command.Allocatable : Command → Prop
  | .sample capacity => capacity + 1 < UInt64.size
  | .path _ _ => True

theorem pathReport_total (source target : String) (trace : Bool) :
    ∃ r, pathReport source target trace = .ok r := by
  cases hs : Graph.diamond.find? source with
  | none =>
    simp only [pathReport, hs]
    exact ⟨_, rfl⟩
  | some a =>
    cases ht : Graph.diamond.find? target with
    | none =>
      simp only [pathReport, hs, ht]
      exact ⟨_, rfl⟩
    | some b =>
      have ha := Graph.lt_size_of_find? hs
      have hg := Graph.built_diamond.searchable (by decide) ha
      have hv : (Heap.empty Graph.diamond.size).Valid := Heap.valid_empty (by decide)
      obtain ⟨verdict, w, hsearch, hright⟩ := Graph.shortestPathWith_total
        (w := ⟨.empty Graph.diamond.size, #[]⟩) (Tracing.ofFlag trace).observer hg
        (Graph.lt_size_of_find? ht) hv
      simp only [pathReport, hs, ht, Settings.tracing, Settings.heap, hsearch, Checked.ok_bind]
      rcases verdict with reason | _ | path
      · exact ⟨_, rfl⟩
      · exact ⟨_, rfl⟩
      · obtain ⟨text, htext⟩ := Graph.pathText_total (hright.2.1.lt_size hg.closed ha)
        simp only [Except.mapError, htext, Checked.ok_bind]
        exact ⟨_, rfl⟩

theorem sampleReport_total {capacity : Nat} (hc : capacity + 1 < UInt64.size) (trace : Bool) :
    ∃ r, sampleReport capacity trace = .ok r := by
  obtain ⟨failure, s, he⟩ := Stage.demonstrate_total (s := ⟨⟨.empty capacity, #[]⟩, []⟩)
    (Tracing.ofFlag trace).observer (Heap.valid_empty hc)
  simp only [sampleReport, Settings.tracing, Settings.heap, he, Checked.ok_bind]
  exact ⟨_, rfl⟩

/-- The report of a command without tracing is its report with tracing, but for the lines about
mutations. -/
theorem Command.exists_report {command : Command} (hc : command.Allocatable) :
    ∃ r, command.report true = .ok r ∧ command.report false = .ok r.untraced := by
  cases command with
  | sample capacity =>
    obtain ⟨r, he⟩ := sampleReport_total hc true
    refine ⟨r, he, ?_⟩
    rw [Command.report, sampleReport_untraced, he]
    rfl
  | path source target =>
    obtain ⟨r, he⟩ := pathReport_total source target true
    refine ⟨r, he, ?_⟩
    rw [Command.report, pathReport_untraced, he]
    rfl

/-! ## What is shown -/

/-- The levels that are shown when more detail was asked for so many times. -/
def shownLevels : Nat → List Level
  | 0 => []
  | 1 => [.info]
  | 2 => [.info, .debug]
  | _ => [.info, .debug, .trace]

theorem shownLevels_of_three_le {verbosity : Nat} (h : 3 ≤ verbosity) :
    shownLevels verbosity = [.info, .debug, .trace] := by
  obtain ⟨n, rfl⟩ := Nat.exists_eq_add_of_le' h
  rfl

theorem enabled_threshold_iff (level : Level) (verbosity : UInt8) :
    level.enabled (threshold verbosity) = true ↔ level ∈ shownLevels verbosity.toNat := by
  unfold threshold
  split
  · cases level <;> decide
  · cases level <;> decide
  · cases level <;> decide
  · rename_i h0 h1 h2
    have hthree : 3 ≤ verbosity.toNat := by
      have h0' := mt UInt8.toNat_inj.mp h0
      have h1' := mt UInt8.toNat_inj.mp h1
      have h2' := mt UInt8.toNat_inj.mp h2
      simp only [UInt8.reduceToNat] at h0' h1' h2'
      omega
    rw [shownLevels_of_three_le hthree]
    cases level <;> decide

/-- The lines that are shown are those of the levels that were asked for. The logger, which looks at the
threshold once more, leaves out nothing that it is given. -/
theorem shownLines_threshold (verbosity : UInt8) (log : List LogRecord) :
    shownLines (threshold verbosity) log
      = (log.filter (·.level ∈ shownLevels verbosity.toNat)).map recordLine := by
  have hpassed : passedOn (threshold verbosity) log
      = log.filter (·.level ∈ shownLevels verbosity.toNat) := by
    refine List.filter_congr ?_
    intro record _
    exact decide_eq_decide.mpr (decide_eq_true_iff.symm.trans (enabled_threshold_iff ..))
  rw [shownLines, hpassed, ← List.filterMap_eq_map]
  refine List.filterMap_congr ?_
  intro record hmem
  have henabled := (enabled_threshold_iff record.level verbosity).mpr
    (of_decide_eq_true (List.mem_filter.mp hmem).2)
  exact if_pos henabled

/-- To count no further than there is room for makes no difference to what is shown. -/
theorem shownLevels_min (verbosity : Nat) : shownLevels (min verbosity 255) = shownLevels verbosity := by
  rcases Nat.le_total verbosity 255 with h | h
  · rw [Nat.min_eq_left h]
  · rw [Nat.min_eq_right h, shownLevels_of_three_le (Nat.le_trans (by decide) h)]
    rfl

/-- A command has one report, whatever the flags are: the one that it has under tracing. They decide which
lines of its log are shown: those of the levels that were asked for, and those of tracing only if it is
switched on. More detail was asked for as often as there are flags for it, if they stand in one place;
of flags in two places, before and behind the name of the command, those behind count. -/
theorem run_eq_of_flags {read? : List String → Option Invocation} (hread : ReadsFlags read?)
    {command : Command} (hc : command.Allocatable) :
    ∃ r, command.report true = .ok r ∧
      ∀ words i, read? words = some i → i.command = command →
        runWith read? words = {
          code := if r.failure.isSome then 1 else 0
          output := r.printed
          errors := (r.log.filter fun record =>
              record.level ∈ shownLevels (verbosityOf words) ∧
                (record.level = .trace → "--trace" ∈ words)).map recordLine
            ++ (r.failure.map Failure.lines).getD [] } ∧
        (Flag.verbosity (flagsBefore words) = 0 ∨ Flag.verbosity (flagsBehind words) = 0 →
          verbosityOf words = verboseFlags words) := by
  obtain ⟨r, htraced, huntraced⟩ := Command.exists_report hc
  refine ⟨r, htraced, fun words i hwords hcommand => ⟨?_, verbosityOf_eq_verboseFlags⟩⟩
  subst hcommand
  have hreport : i.command.report i.trace
      = .ok { r with log := r.log.filter fun record => record.level = .trace → "--trace" ∈ words } := by
    simp only [← hread.trace hwords]
    cases i.trace with
    | true => simpa using htraced
    | false => simpa [Report.untraced] using huntraced
  unfold runWith
  simp only [hwords, Invocation.exit, hreport, Checked.ok_bind]
  simp only [pure, Except.pure, Report.exit, shownLines_threshold, hread.verbosity hwords,
    shownLevels_min, List.filter_filter, Bool.decide_and]

/-- A heap that has no room for the elements it is to be filled with, with no detail, with some and with
the most. -/
theorem run_eq_of_flags_of_three :
    (Command.sample 3).Allocatable ∧ ReadsFlags Invocation.ofWords? ∧
      run ["sample", "--capacity", "3"] = {
        code := 1
        output := []
        errors := [
          "Error: inserting element 3",
          "",
          "Caused by:",
          "    element 3 is outside the heap's id range [0, 3)"] } ∧
      run ["sample", "-v", "--capacity", "3", "--verbose"] = {
        code := 1
        output := []
        errors := [
          "[ INFO] running sample driver with capacity 3",
          "[DEBUG] insert rejected: element 3 out of range",
          "Error: inserting element 3",
          "",
          "Caused by:",
          "    element 3 is outside the heap's id range [0, 3)"] } ∧
      run ["--trace", "-vvv", "sample", "--capacity=3"] = {
        code := 1
        output := []
        errors := [
          "[ INFO] running sample driver with capacity 3",
          "[TRACE] << INSERT (1, 1) []",
          "[TRACE] >> INSERT (1, 1) [(1, 1)]",
          "[TRACE] << INSERT (2, 2) [(1, 1)]",
          "[TRACE] >> INSERT (2, 2) [(1, 1) (2, 2)]",
          "[TRACE] << INSERT (3, 3) [(1, 1) (2, 2)]",
          "[DEBUG] insert rejected: element 3 out of range",
          "[TRACE] >> INSERT (3, 3) [(1, 1) (2, 2)]",
          "Error: inserting element 3",
          "",
          "Caused by:",
          "    element 3 is outside the heap's id range [0, 3)"] } := by
  have hc : (Command.sample 3).Allocatable := show 3 + 1 < UInt64.size by decide
  obtain ⟨r, hreport, hrun⟩ := run_eq_of_flags readsFlags_ofWords? hc
  have hr : (Command.sample 3).report true = .ok {
      log := [
        ⟨.info, "running sample driver with capacity 3"⟩,
        ⟨.trace, "<< INSERT (1, 1) []"⟩,
        ⟨.trace, ">> INSERT (1, 1) [(1, 1)]"⟩,
        ⟨.trace, "<< INSERT (2, 2) [(1, 1)]"⟩,
        ⟨.trace, ">> INSERT (2, 2) [(1, 1) (2, 2)]"⟩,
        ⟨.trace, "<< INSERT (3, 3) [(1, 1) (2, 2)]"⟩,
        ⟨.debug, "insert rejected: element 3 out of range"⟩,
        ⟨.trace, ">> INSERT (3, 3) [(1, 1) (2, 2)]"⟩]
      printed := []
      failure := some ⟨"inserting element 3",
        some "element 3 is outside the heap's id range [0, 3)"⟩ } := by decide +kernel
  cases hreport.symm.trans hr
  have hnone : Invocation.ofWords? ["sample", "--capacity", "3"]
      = some ⟨false, 0, .sample 3⟩ := by decide +kernel
  have hsome : Invocation.ofWords? ["sample", "-v", "--capacity", "3", "--verbose"]
      = some ⟨false, 2, .sample 3⟩ := by decide +kernel
  have hfull : Invocation.ofWords? ["--trace", "-vvv", "sample", "--capacity=3"]
      = some ⟨true, 3, .sample 3⟩ := by decide +kernel
  refine ⟨hc, readsFlags_ofWords?, ?_, ?_, ?_⟩
  · exact (hrun _ _ hnone rfl).1.trans (by decide +kernel)
  · exact (hrun _ _ hsome rfl).1.trans (by decide +kernel)
  · exact (hrun _ _ hfull rfl).1.trans (by decide +kernel)

/-- Flags on both sides of the name of the command do not add up: of these three, the two behind it
count, and nothing of what is traced is shown. The same number of flags on one side shows it. -/
theorem run_of_flags_in_two_places :
    Invocation.ofWords? ["--trace", "-v", "path", "-vv"] = some ⟨true, 2, .path "A" "E"⟩ ∧
      Invocation.ofWords? ["--trace", "-vvv", "path"] = some ⟨true, 3, .path "A" "E"⟩ ∧
      verboseFlags ["--trace", "-v", "path", "-vv"] = 3 ∧
      verboseFlags ["--trace", "-vvv", "path"] = 3 ∧
      (run ["--trace", "-v", "path", "-vv"]).errors = [
        "[DEBUG] relax 0 -> 1: 2 (was 18446744073709551615)",
        "[DEBUG] relax 0 -> 2: 10 (was 18446744073709551615)",
        "[DEBUG] relax 1 -> 3: 3 (was 18446744073709551615)",
        "[DEBUG] relax 3 -> 4: 7 (was 18446744073709551615)"] ∧
      "[TRACE] << CLEAR []" ∈ (run ["--trace", "-vvv", "path"]).errors := by
  decide +kernel

end CommandLine

end AddressableHeap
