import AddressableHeap.Proofs.Heap.Alike
import AddressableHeap.Proofs.Search.Acts

/-!
# What the acts of a search account for

The notes of a search can be told from its acts: the nodes that the heap was asked to take in are those
that were found, and the nodes that were taken from its root are those that are settled. They were taken
in the order of their distance, each at its distance from the source. When the target is taken, all
nearer nodes were taken before it, and when nothing is left to take, all nodes that can be reached were.
-/

namespace AddressableHeap

variable {g : Graph} {source target here node : Nat} {acts : List Act} {act : Act} {notes : Notes}

/-- What the acts so far have to do with the notes. -/
structure Account (g : Graph) (source : Nat) (acts : List Act) (notes : Notes) : Prop where
  /-- A node that the heap was asked to take in was found. -/
  offered : ∀ node ∈ Act.offers acts, (notes node).Reached
  /-- The heap was not asked twice to take in the same node. -/
  offers_nodup : (Act.offers acts).Nodup
  /-- The nodes that were taken are the settled ones. -/
  settled_iff : ∀ node, (notes node).settled = true ↔ node ∈ (Act.takings acts).map (·.id)
  /-- No node was taken twice. -/
  takings_nodup : ((Act.takings acts).map (·.id)).Nodup
  /-- A node was taken at the distance that is noted for it. -/
  key_eq : ∀ e ∈ Act.takings acts, e.key.toInt = (notes e.id).dist
  /-- This is its distance from the source. -/
  exact : ∀ e ∈ Act.takings acts, g.IsDistance source e.id (notes e.id).dist
  /-- No node was taken before a nearer one. -/
  sorted : (Act.takings acts).Pairwise fun e e' => e.key ≤ e'.key

namespace Account

/-- At first the source was offered, and nothing was taken. -/
theorem start (g : Graph) (hoffers : Act.offers acts = [source]) (htakings : Act.takings acts = []) :
    Account g source acts
      (Function.update (fun _ => Visit.unreached) source Visit.start) := by
  constructor
  case offered =>
    intro node hmem
    rw [hoffers, List.mem_singleton] at hmem
    rw [hmem, Function.update_self]
    exact (show (0 : Nat) < Visit.unreached.dist by decide)
  case offers_nodup =>
    rw [hoffers]
    exact List.nodup_singleton source
  case settled_iff =>
    intro node
    rw [htakings, Function.update_apply]
    split <;> simp [Visit.start, Visit.unreached]
  case takings_nodup =>
    rw [htakings]
    exact List.nodup_nil
  case key_eq =>
    intro e hmem
    rw [htakings] at hmem
    exact absurd hmem List.not_mem_nil
  case exact =>
    intro e hmem
    rw [htakings] at hmem
    exact absurd hmem List.not_mem_nil
  case sorted =>
    rw [htakings]
    exact List.Pairwise.nil

/-- A nearest node of the frontier is taken. -/
theorem settle (ha : Account g source acts notes) (hi : Settling g source here [] notes)
    (hg : g.Searchable source) (hopen : (notes node).Open)
    (hmin : ∀ next, (notes next).Open → (notes node).dist ≤ (notes next).dist) {key : Key}
    (htaken : act.taken? = some ⟨key, node⟩) (hkey : key.toInt = (notes node).dist)
    (hoffered : act.offered? = none) :
    Account g source (acts ++ [act])
      (Function.update notes node { notes node with settled := true }) := by
  set notes' := Function.update notes node { notes node with settled := true } with hnotes
  have hdist : ∀ i, (notes' i).dist = (notes i).dist := Notes.dist_settle notes node
  have htakings : Act.takings (acts ++ [act]) = Act.takings acts ++ [⟨key, node⟩] := by
    rw [Act.takings_concat, htaken, Option.toList_some]
  have hoffers : Act.offers (acts ++ [act]) = Act.offers acts := by
    rw [Act.offers_concat, hoffered, Option.toList_none, List.append_nil]
  have hnew : node ∉ (Act.takings acts).map (·.id) := by
    intro hmem
    exact Notes.ne_of_settled ((ha.settled_iff node).mpr hmem) hopen.1 rfl
  constructor
  case offered =>
    intro i hmem
    rw [hoffers] at hmem
    unfold Visit.Reached
    rw [hdist]
    exact ha.offered i hmem
  case offers_nodup =>
    rw [hoffers]
    exact ha.offers_nodup
  case settled_iff =>
    intro i
    rw [htakings, List.map_append, List.mem_append, ← ha.settled_iff]
    by_cases hn : i = node
    · simp [hn, hnotes]
    · simp [hn, hnotes]
  case takings_nodup =>
    rw [htakings, List.map_append, List.map_singleton, ← List.concat_eq_append]
    exact ha.takings_nodup.concat hnew
  case key_eq =>
    intro e hmem
    rw [htakings, List.mem_append, List.mem_singleton] at hmem
    rw [hdist]
    rcases hmem with hmem | rfl
    · exact ha.key_eq e hmem
    · exact hkey
  case exact =>
    intro e hmem
    rw [htakings, List.mem_append, List.mem_singleton] at hmem
    rw [hdist]
    rcases hmem with hmem | rfl
    · exact ha.exact e hmem
    · exact hi.isDistance hg hopen hmin
  case sorted =>
    rw [htakings, List.pairwise_append]
    refine ⟨ha.sorted, List.pairwise_singleton _ _, ?_⟩
    intro e hmem e' hmem'
    rw [List.mem_singleton] at hmem'
    have hsettled := (ha.settled_iff e.id).mpr (List.mem_map_of_mem hmem)
    have hahead := hi.ahead e.id node hsettled hopen
    have he := ha.key_eq e hmem
    rw [hmem', Int64.le_iff_toInt_le, hkey, he]
    exact Int.ofNat_le.mpr hahead

/-- A shorter way to a node that is not settled is noted, and the node is offered to the heap if no way
to it was known. -/
theorem relax (ha : Account g source acts notes) (hs : (notes node).settled = false) {visit : Visit}
    (hreached : visit.Reached) (hset : visit.settled = false) (htaken : act.taken? = none)
    (hoffered : act.offered? = none ∨ act.offered? = some node ∧ ¬ (notes node).Reached) :
    Account g source (acts ++ [act]) (Function.update notes node visit) := by
  set notes' := Function.update notes node visit with hnotes
  have htakings : Act.takings (acts ++ [act]) = Act.takings acts := by
    rw [Act.takings_concat, htaken, Option.toList_none, List.append_nil]
  have htakennode : ∀ e ∈ Act.takings acts, notes' e.id = notes e.id := by
    intro e hmem
    have hsettled := (ha.settled_iff e.id).mpr (List.mem_map_of_mem hmem)
    exact Function.update_of_ne (Notes.ne_of_settled hsettled hs) visit notes
  have hreaches : ∀ i, (notes i).Reached → (notes' i).Reached := by
    intro i hi
    by_cases hn : i = node
    · rw [hn, hnotes, Function.update_self]
      exact hreached
    · rwa [hnotes, Function.update_of_ne hn]
  have hself : (notes' node).Reached := by
    rw [hnotes, Function.update_self]
    exact hreached
  constructor
  case offered =>
    intro i hmem
    rw [Act.offers_concat, List.mem_append, Option.mem_toList] at hmem
    rcases hmem with hmem | hmem
    · exact hreaches i (ha.offered i hmem)
    · rcases hoffered with hnone | ⟨hsome, -⟩
      · exact nomatch hnone.symm.trans hmem
      · rw [Option.some.inj (hmem.symm.trans hsome)]
        exact hself
  case offers_nodup =>
    rw [Act.offers_concat]
    rcases hoffered with hnone | ⟨hsome, hnot⟩
    · rw [hnone, Option.toList_none, List.append_nil]
      exact ha.offers_nodup
    · have hnew : node ∉ Act.offers acts := by
        intro hmem
        exact hnot (ha.offered node hmem)
      rw [hsome, Option.toList_some, ← List.concat_eq_append]
      exact ha.offers_nodup.concat hnew
  case settled_iff =>
    intro i
    rw [htakings, ← ha.settled_iff]
    by_cases hn : i = node
    · rw [hn, hnotes, Function.update_self, hset, hs]
    · rw [hnotes, Function.update_of_ne hn]
  case takings_nodup =>
    rw [htakings]
    exact ha.takings_nodup
  case key_eq =>
    intro e hmem
    rw [htakings] at hmem
    rw [htakennode e hmem]
    exact ha.key_eq e hmem
  case exact =>
    intro e hmem
    rw [htakings] at hmem
    rw [htakennode e hmem]
    exact ha.exact e hmem
  case sorted =>
    rw [htakings]
    exact ha.sorted

end Account

/-! ## How a search is concluded -/

/-- What the acts of a whole search have to do with its verdict: a rejection is one for want of room,
without a path every node that can be reached was taken, and with a path the target was taken last and
after every nearer node. -/
def Concluded (g : Graph) (source target : Nat) (acts : List Act) : Verdict → Prop
  | .error reason => reason.Cramped
  | .ok none => ∀ node, g.Reaches source node → node ∈ (Act.takings acts).map (·.id)
  | .ok (some p) => ∃ before last, Act.takings acts = before ++ [last] ∧ last.id = target ∧
      last.key.toInt = (p.cost.toNat : Int) ∧
      ∀ node distance, g.IsDistance source node distance → distance < p.cost.toNat →
        node ∈ before.map (·.id)

namespace Account

/-- When a node is next to be taken, all nearer ones were taken. -/
theorem taken_of_lt (ha : Account g source acts notes) (hi : Settling g source here [] notes)
    (hg : g.Searchable source)
    (hmin : ∀ next, (notes next).Open → (notes target).dist ≤ (notes next).dist) {distance : Nat}
    (hd : g.IsDistance source node distance) (hlt : distance < (notes target).dist) :
    node ∈ (Act.takings acts).map (·.id) := by
  rw [← ha.settled_iff]
  by_contra hs
  rw [Bool.not_eq_true] at hs
  obtain ⟨⟨nodes, hw⟩, -⟩ := hd
  obtain ⟨next, hopen, hle⟩ := hi.exists_open hg hw hs
  have hleast := hmin next hopen
  omega

/-- When there is no node to be taken any more, all that can be reached were taken. -/
theorem taken_of_reaches (ha : Account g source acts notes)
    (hi : Settling g source here [] notes) (hg : g.Searchable source)
    (hnone : ∀ next, ¬ (notes next).Open) (hr : g.Reaches source node) :
    node ∈ (Act.takings acts).map (·.id) := by
  rw [← ha.settled_iff]
  by_contra hs
  rw [Bool.not_eq_true] at hs
  obtain ⟨nodes, cost, hw⟩ := hr
  obtain ⟨next, hopen, -⟩ := hi.exists_open hg hw hs
  exact hnone next hopen

end Account

end AddressableHeap
