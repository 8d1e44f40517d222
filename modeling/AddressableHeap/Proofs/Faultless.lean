import AddressableHeap.Proofs.Session

/-!
# No fault is ever raised

Every question to a reachable heap is answered, every mutation is carried out or turned down, and every
search returns. So no array is ever addressed outside its bounds, and no size or slot leaves its word.
What does not fit, be it an element, a node or a request to an empty heap, is turned down or answered
with nothing.
-/

namespace AddressableHeap

namespace Heap

variable {h : Heap} {id : Id}

/-! ## Children -/

/-- Whatever is in the slots of a heap, a slot that is no leaf has a child among them, and the choice
of a child finds one. -/
theorem smallerChild_within {slot : Slot} (hroom : h.last.toNat < h.entries.size)
    (hl : slot ≤ h.last) (hn : Tree.isLeaf slot h.last = false) :
    (Tree.leftChild slot).toNat = 2 * slot.toNat ∧
      ∃ child, h.smallerChild slot = .ok child ∧
        (child = Tree.leftChild slot ∨ child = Tree.rightChild slot) ∧ child ≤ h.last := by
  have hle : 2 * slot.toNat ≤ h.last.toNat := by
    rw [← Nat.not_lt, ← Tree.isLeaf_iff hl, hn]
    exact Bool.false_ne_true
  have hleft := Tree.toNat_leftChild_of_le hle
  refine ⟨hleft, ?_⟩
  unfold smallerChild
  by_cases hlt : Tree.leftChild slot < h.last
  · have hlt' := UInt64.lt_iff_toNat_lt.mp hlt
    have hsum : (Tree.leftChild slot).toNat + (1 : UInt64).toNat < UInt64.size :=
      Nat.lt_of_le_of_lt hlt' h.last.toNat_lt
    have hright : (Tree.leftChild slot + 1).toNat = (Tree.leftChild slot).toNat + 1 := by
      rw [UInt64.toNat_add]
      exact Nat.mod_eq_of_lt hsum
    have hbound : (Tree.leftChild slot + 1).toNat < h.entries.size := by omega
    simp only [if_pos hlt, Checked.add_eq_ok hsum, Checked.ok_bind, Checked.get_eq_ok hbound,
      Checked.get_eq_ok (Nat.lt_trans hlt' hroom)]
    refine ⟨_, rfl, ?_, ?_⟩
    · split
      · exact .inr rfl
      · exact .inl rfl
    · rw [UInt64.le_iff_toNat_le]
      split <;> omega
  · rw [if_neg hlt]
    exact ⟨_, rfl, .inl rfl, UInt64.le_iff_toNat_le.mpr (hleft ▸ hle)⟩

/-! ## Questions and requests -/

/-- The mutations that a heap carries out. All others it turns down. -/
def Grants (h : Heap) : Mutation → Prop
  | .insert _ id => id < h.capacity ∧ h.lookup id = none
  | .update _ id | .remove id => ∃ key, h.lookup id = some key
  | .removeMin => 1 ≤ h.size
  | .clear => True

/-- No question and no request ends in a fault. -/
structure Faultless (h : Heap) : Prop where
  /-- There is an address for the slot behind the last. -/
  next : h.size + 1 < UInt64.size
  /-- Only the numbers below the capacity are those of members. -/
  inRange : ∀ id, h.capacity ≤ id → h.lookup id = none
  locate : ∀ id, ∃ slot?, h.locate id = .ok slot? ∧ (slot? = none ↔ h.lookup id = none) ∧
    ∀ slot, slot? = some slot → 1 ≤ slot.toNat ∧ slot.toNat ≤ h.size
  contains : ∀ id, h.contains id = .ok (h.lookup id).isSome
  keyOf : ∀ id, h.keyOf id = .ok (h.lookup id)
  peekMin : ∃ least?, h.peekMin = .ok least? ∧ (least? = none ↔ h.size = 0)
  snapshot : h.snapshot = .ok h.toList
  text : ∃ text, h.text = .ok text
  outline : ∃ outline, h.outline = .ok outline
  audit : h.defect? = .ok none
  perform : ∀ {σ : Type} (watch : Observer σ) (seen : σ) (m : Mutation),
    ∃ reply w', watch.perform m ⟨h, seen⟩ = .ok (reply, w') ∧
      (reply.isOk = true ↔ h.Grants m)

namespace Valid

/-- A request that is not granted is turned down, and a request that is granted is not. -/
theorem isOk_iff_grants (hv : h.Valid) {m : Mutation} {reply : Reply} {h' : Heap}
    (he : h.apply m = .ok (reply, h')) : reply.isOk = true ↔ h.Grants m := by
  cases m with
  | insert key id =>
    by_cases hg : h.Grants (.insert key id)
    · obtain ⟨k, hinsert, -⟩ := hv.insert_ok key hg.1 hg.2
      rw [apply, hinsert] at he
      cases he
      exact iff_of_true rfl hg
    · obtain ⟨reason, hrefused⟩ := hv.insert_refused key hg
      rw [apply, hrefused] at he
      cases he
      exact iff_of_false Bool.false_ne_true hg
  | update key id =>
    cases hk : h.lookup id with
    | none =>
      rw [apply, hv.update_unknown hk] at he
      cases he
      refine iff_of_false Bool.false_ne_true ?_
      rintro ⟨former, hg⟩
      exact Option.some_ne_none _ (hg.symm.trans hk)
    | some former =>
      obtain ⟨k, hupdate, -⟩ := hv.update_ok key hk
      rw [apply, hupdate] at he
      cases he
      exact iff_of_true rfl ⟨former, hk⟩
  | removeMin =>
    by_cases h0 : h.size = 0
    · rw [apply, hv.removeMin_empty h0] at he
      cases he
      exact iff_of_false Bool.false_ne_true (Nat.not_le.mpr (Nat.lt_one_iff.mpr h0))
    · have h1 := Nat.one_le_iff_ne_zero.mpr h0
      obtain ⟨k, hremove, -⟩ := hv.removeMin_ok h1
      rw [apply, hremove] at he
      cases he
      exact iff_of_true rfl h1
  | remove id =>
    cases hk : h.lookup id with
    | none =>
      rw [apply, hv.remove_unknown hk] at he
      cases he
      refine iff_of_false Bool.false_ne_true ?_
      rintro ⟨former, hg⟩
      exact Option.some_ne_none _ (hg.symm.trans hk)
    | some former =>
      obtain ⟨k, hremove, -⟩ := hv.remove_ok hk
      rw [apply, hremove] at he
      cases he
      exact iff_of_true rfl ⟨former, hk⟩
  | clear =>
    cases he
    exact iff_of_true rfl trivial

theorem faultless (hv : h.Valid) : h.Faultless := by
  constructor
  case next => exact Nat.lt_of_le_of_lt (Nat.succ_le_succ hv.size_le) hv.addressable
  case inRange =>
    intro id hid
    rw [Option.eq_none_iff_forall_ne_some]
    exact fun key hk => absurd (hv.lookup_lt hk) (Nat.not_lt.mpr hid)
  case locate => exact hv.locate_total
  case contains => exact hv.contains_eq
  case keyOf => exact hv.keyOf_eq
  case peekMin =>
    by_cases h0 : h.size = 0
    · exact ⟨none, hv.peekMin_eq_none h0, iff_of_true rfl h0⟩
    · obtain ⟨hpeek, -⟩ := hv.peekMin_eq (Nat.one_le_iff_ne_zero.mpr h0)
      exact ⟨_, hpeek, iff_of_false (Option.some_ne_none _) h0⟩
  case snapshot => exact hv.snapshot_eq
  case text => exact ⟨_, by rw [Heap.text, hv.snapshot_eq]; rfl⟩
  case outline => exact ⟨_, by rw [Heap.outline, hv.snapshot_eq]; rfl⟩
  case audit => exact hv.defect?_eq_none
  case perform =>
    intro σ watch seen m
    obtain ⟨reply, w', he, happly, -⟩ := watch.perform_total (w := ⟨h, seen⟩) hv m
    exact ⟨reply, w', he, hv.isOk_iff_grants happly⟩

end Valid

end Heap

/-! ## Edges and searches -/

namespace Graph

variable {g : Graph}

/-- A request for an edge is granted if both of its ends are nodes, and is turned down if not. -/
theorem addEdge_answers (g : Graph) (source target : Nat) (weight : UInt32) :
    ∃ reply g', g.addEdge source target weight = .ok (reply, g') ∧
      (reply.isOk = true ↔ source < g.size ∧ target < g.size) := by
  by_cases hs : g.size ≤ source
  · exact ⟨_, g, addEdge_of_size_le_source hs,
      iff_of_false Bool.false_ne_true fun h => Nat.not_lt.mpr hs h.1⟩
  · rw [Nat.not_le] at hs
    by_cases ht : g.size ≤ target
    · exact ⟨_, g, addEdge_of_size_le_target hs ht,
        iff_of_false Bool.false_ne_true fun h => Nat.not_lt.mpr ht h.2⟩
    · rw [Nat.not_le] at ht
      obtain ⟨g', hadd, -⟩ := addEdge_ok weight hs ht
      exact ⟨_, g', hadd, iff_of_true rfl ⟨hs, ht⟩⟩

/-- A search returns, and if an end is not a node it says so. -/
theorem shortestPathWith_answers {σ : Type} (watch : Observer σ) (source target : Nat)
    {w : Watched σ} (hb : g.Built) (hn : g.size ≤ 2 ^ 31) (hv : w.heap.Valid) :
    ∃ answer w', g.shortestPathWith watch source target w = .ok (answer, w') ∧
      (g.size ≤ source → answer = .error (.noNode source g.size)) ∧
      (source < g.size → g.size ≤ target → answer = .error (.noNode target g.size)) := by
  obtain ⟨answer, w', he⟩ := g.shortestPathWith_returns watch source target hb hn hv
  refine ⟨answer, w', he, ?_, ?_⟩
  · intro hs
    rw [shortestPathWith_of_size_le_source watch target hs] at he
    exact (Prod.mk.inj (Except.ok.inj he)).1.symm
  · intro hs ht
    rw [shortestPathWith_of_size_le_target watch hs ht] at he
    exact (Prod.mk.inj (Except.ok.inj he)).1.symm

end Graph

/-! ## Everything -/

/-- Whatever was done to a heap, no question, request or search that it is used for ends in a fault, and
what does not fit is turned down. On its way to the leaves a heap never looks for a child behind its last
slot. A graph can be made of any labels and any requests for edges, and if it has not more than 2 ^ 31
nodes, it can be searched from anywhere to anywhere with any such heap. -/
theorem faultless_of_reachable :
    (∀ h : Heap, h.Reachable → h.Faultless) ∧
    (∀ (h : Heap) (slot : Slot), h.last.toNat < h.entries.size → slot ≤ h.last →
      Tree.isLeaf slot h.last = false → (Tree.leftChild slot).toNat = 2 * slot.toNat ∧
        ∃ child, h.smallerChild slot = .ok child ∧
          (child = Tree.leftChild slot ∨ child = Tree.rightChild slot) ∧ child ≤ h.last) ∧
    ∀ (labels : List String) (links : List Graph.Link),
      ∃ g, (Graph.ofLabels labels).addEdges links = .ok g ∧ g.size = labels.length ∧
        (∀ source target weight, ∃ reply g',
          g.addEdge source target weight = .ok (reply, g') ∧
            (reply.isOk = true ↔ source < g.size ∧ target < g.size)) ∧
        (labels.length ≤ 2 ^ 31 → ∀ {σ : Type} (watch : Observer σ) (source target : Nat)
          (w : Watched σ), w.heap.Reachable →
            ∃ answer w', g.shortestPathWith watch source target w = .ok (answer, w') ∧
              (g.size ≤ source → answer = .error (.noNode source g.size)) ∧
              (source < g.size → g.size ≤ target →
                answer = .error (.noNode target g.size))) := by
  refine ⟨fun h hr => hr.valid.faultless,
    fun h slot hroom hl hn => h.smallerChild_within hroom hl hn, ?_⟩
  intro labels links
  obtain ⟨g, he, hsize, -⟩ := Graph.exists_built labels links
  refine ⟨g, he, hsize, g.addEdge_answers, ?_⟩
  intro hn σ watch source target w hr
  exact Graph.shortestPathWith_answers watch source target ⟨labels, links, he⟩ (hsize ▸ hn) hr.valid

/-- A heap that three elements were inserted into and one was taken from, and a search with it that leads
to no node. -/
theorem faultless_of_reachable_of_three :
    ∃ w : Watched (Array Event), w.heap.Reachable ∧ w.heap.size = 2 ∧ w.heap.Faultless ∧
      (∃ child, w.heap.smallerChild Tree.root = .ok child ∧ child ≤ w.heap.last) ∧
      ∃ g, (Graph.ofLabels ["A", "B"]).addEdges [⟨0, 1, 3⟩, ⟨0, 7, 1⟩] = .ok g ∧
        ∃ w', g.shortestPathWith .transcript 0 9 w = .ok (.error (.noNode 9 2), w') := by
  have hr := Heap.reachable_leftovers
  obtain ⟨hheap, hchild, hgraph⟩ := faultless_of_reachable
  obtain ⟨-, child, hsmaller, -, hle⟩ :=
    hchild ⟨#[.sentinel, ⟨4, 2⟩, ⟨5, 0⟩, ⟨3, 1⟩], ⟨#[2, 3, 1]⟩, 2⟩ Tree.root (by decide) (by decide)
      (by decide)
  obtain ⟨g, hbuilt, hsize, -, hsearch⟩ := hgraph ["A", "B"] [⟨0, 1, 3⟩, ⟨0, 7, 1⟩]
  have hsize' : g.size = 2 := hsize
  obtain ⟨answer, w', he, -, htarget⟩ := hsearch (by decide) .transcript 0 9 ⟨_, #[]⟩ hr
  have hanswer := htarget (hsize' ▸ by decide) (hsize' ▸ by decide)
  rw [hanswer, hsize'] at he
  exact ⟨_, hr, rfl, hheap _ hr, ⟨child, hsmaller, hle⟩, g, hbuilt, w', he⟩

end AddressableHeap
