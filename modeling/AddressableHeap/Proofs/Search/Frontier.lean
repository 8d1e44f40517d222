import AddressableHeap.Proofs.Observation
import AddressableHeap.Proofs.Search.Settling
import Mathlib.Algebra.Ring.Int.Defs
import Mathlib.Logic.Function.Basic

/-!
# The frontier of a search

Between two steps the heap of a search holds exactly the nodes that were found and not settled, under
the distances noted for them. So the heap need not be looked at to say which node comes next: it is a
nearest one. A node that the heap is too small for cannot be entered.
-/

namespace AddressableHeap

variable {σ : Type} {g : Graph} {source here node : Nat} {pending : List Edge} {key : Key}

/-! ## Distances as keys -/

/-- The key of a distance is the distance, or the largest key if that is smaller. -/
theorem Key.toInt_ofDistance (distance : UInt64) :
    (Key.ofDistance distance).toInt = min (distance.toNat : Int) (2 ^ 63 - 1) := by
  have hmax : Int64.maxValue.toUInt64.toNat = 2 ^ 63 - 1 := by decide
  unfold Key.ofDistance
  split
  · rename_i h
    rw [UInt64.le_iff_toNat_le, hmax] at h
    have hlt : 2 * distance.toBitVec.toNat < 2 ^ 64 := by
      have : distance.toBitVec.toNat = distance.toNat := rfl
      omega
    have : distance.toInt64.toInt = distance.toNat := BitVec.toInt_eq_toNat_of_lt hlt
    rw [this]
    omega
  · rename_i h
    rw [UInt64.le_iff_toNat_le, hmax] at h
    have : Int64.maxValue.toInt = 2 ^ 63 - 1 := by decide
    rw [this]
    omega

/-- Keys are in the order of distances as long as these fit into 63 bits. -/
theorem Key.le_of_ofDistance_le {a b : UInt64} (ha : a.toNat < 2 ^ 63)
    (h : Key.ofDistance a ≤ Key.ofDistance b) : a.toNat ≤ b.toNat := by
  rw [Int64.le_iff_toInt_le, Key.toInt_ofDistance, Key.toInt_ofDistance] at h
  omega

/-! ## The nodes of the frontier -/

namespace Visit

instance (visit : Visit) : Decidable visit.Open :=
  inferInstanceAs (Decidable (visit.settled = false ∧ visit.dist < unreached.dist))

/-- The key under which a node is in the frontier. -/
def frontierKey (visit : Visit) : Option Key :=
  if visit.Open then some (.ofDistance visit.distance) else none

theorem frontierKey_of_open {visit : Visit} (h : visit.Open) :
    visit.frontierKey = some (.ofDistance visit.distance) := if_pos h

theorem frontierKey_of_settled {visit : Visit} (h : visit.settled = true) :
    visit.frontierKey = none := by
  refine if_neg ?_
  intro ho
  rw [ho.1] at h
  exact nomatch h

theorem open_of_frontierKey {visit : Visit} (h : visit.frontierKey = some key) :
    visit.Open ∧ key = .ofDistance visit.distance := by
  unfold frontierKey at h
  split at h
  · rename_i ho
    exact ⟨ho, (Option.some.inj h).symm⟩
  · exact nomatch h

end Visit

namespace Search

def notes (s : Search σ) : Notes := .ofArray s.visits

theorem notes_mk (visits : Array Visit) (w : Watched σ) :
    notes ⟨visits, w⟩ = .ofArray visits := rfl

/-- A search that settled `here` last and has still to look along the edges `pending`. -/
structure Underway (g : Graph) (source here : Nat) (pending : List Edge) (s : Search σ) : Prop where
  /-- There is a note for every node. -/
  visits_size : s.visits.size = g.size
  /-- The heap is in order. -/
  valid : s.frontier.heap.Valid
  /-- The heap holds the nodes of the frontier under their distances. -/
  lookup_eq : s.frontier.heap.lookup = Visit.frontierKey ∘ s.notes
  /-- The notes are those of a search that settles nodes in the order of their distance. -/
  settling : Settling g source here pending s.notes

/-! ## Entering a node -/

variable {watch : Observer σ} {w : Watched σ} {s : Search σ}

theorem enter_of_some (hv : w.heap.Valid) {former : Key} (hk : w.heap.lookup node = some former) :
    enter watch key node w = watch.update key node w := by
  unfold enter
  rw [hv.contains_eq, hk]
  rfl

theorem enter_of_none (hv : w.heap.Valid) (hk : w.heap.lookup node = none) :
    enter watch key node w = watch.insert key node w := by
  unfold enter
  rw [hv.contains_eq, hk]
  rfl

/-- A node that the heap is large enough for is entered, or its key is changed. -/
theorem enter_ok (watch : Observer σ) (hv : w.heap.Valid) (key : Key)
    (hn : node < w.heap.capacity) :
    ∃ w', enter watch key node w = .ok (.ok (), w') ∧ w'.heap.Valid ∧
      w'.heap.lookup = Function.update w.heap.lookup node (some key) := by
  cases hk : w.heap.lookup node with
  | none =>
    obtain ⟨h', he, hb⟩ := hv.insert_ok key hn hk
    rw [enter_of_none hv hk]
    exact ⟨_, watch.around_eq_of_ok hv he hb.valid, hb.valid, hb.lookup_eq⟩
  | some former =>
    obtain ⟨h', he, hb⟩ := hv.update_ok key hk
    rw [enter_of_some hv hk]
    exact ⟨_, watch.around_eq_of_ok hv he hb.valid, hb.valid, hb.lookup_eq⟩

/-- A node that the heap is too small for is turned down. -/
theorem enter_error (watch : Observer σ) (hv : w.heap.Valid) (key : Key)
    (hn : w.heap.capacity ≤ node) :
    ∃ reason w', enter watch key node w = .ok (.error reason, w') := by
  have hk : w.heap.lookup node = none := by
    rw [Option.eq_none_iff_forall_ne_some]
    exact fun former hk => absurd (hv.lookup_lt hk) (Nat.not_lt.mpr hn)
  rw [enter_of_none hv hk]
  by_cases hs : w.heap.size = w.heap.capacity
  · exact ⟨_, _, watch.around_eq_of_ok hv (Heap.Valid.insert_full hs) hv⟩
  · exact ⟨_, _, watch.around_eq_of_ok hv (Heap.Valid.insert_outOfRange hs hn) hv⟩

/-! ## Taking the nearest node -/

namespace Underway

theorem get_eq (hu : Underway g source here pending s) (hn : node < g.size) :
    Checked.get s.visits node = .ok (s.notes node) :=
  Notes.get_eq (hu.visits_size ▸ hn)

theorem set_eq (hu : Underway g source here pending s) (hn : node < g.size) (visit : Visit) :
    ∃ visits, Checked.set s.visits node visit = .ok visits ∧ visits.size = g.size ∧
      Notes.ofArray visits = Function.update s.notes node visit := by
  obtain ⟨visits, he, hsize, hset⟩ := Notes.set_eq (hu.visits_size ▸ hn) visit
  exact ⟨visits, he, hsize.trans hu.visits_size, hset⟩

theorem lt_size (hu : Underway g source here pending s) (hg : g.Searchable source)
    (hr : (s.notes node).Reached) : node < g.size := by
  obtain ⟨before, ht⟩ := hu.settling.trail node hr
  exact ht.lt_size hg.closed hg.source_lt node (List.mem_append_right _ (List.mem_singleton_self _))

theorem not_open (hu : Underway g source here pending s) (h0 : s.frontier.heap.size = 0)
    (node : Nat) : ¬ (s.notes node).Open := by
  intro ho
  have hnone : s.frontier.heap.lookup node = none := by
    rw [hu.valid.lookup_eq_none_iff]
    intro i h1 hl
    omega
  rw [hu.lookup_eq, Function.comp_apply, Visit.frontierKey_of_open ho] at hnone
  exact nomatch hnone

/-- The heap gives away a nearest node of the frontier. -/
theorem removeMin_ok (watch : Observer σ) (hu : Underway g source here pending s)
    (hg : g.Searchable source) (hne : s.frontier.heap.size ≠ 0) :
    ∃ node w, watch.removeMin s.frontier = .ok (.ok node, w) ∧ (s.notes node).Open ∧
      (∀ next, (s.notes next).Open → (s.notes node).dist ≤ (s.notes next).dist) ∧ w.heap.Valid ∧
      w.heap.lookup = Function.update (Visit.frontierKey ∘ s.notes) node none := by
  have hv := hu.valid
  have h1 := Nat.one_le_iff_ne_zero.mpr hne
  obtain ⟨h', he, hb⟩ := hv.removeMin_ok h1
  obtain ⟨-, hmem, hle⟩ := hv.peekMin_eq h1
  have hkey : ∀ node key, s.frontier.heap.lookup node = some key ↔
      (s.notes node).frontierKey = some key := by
    intro node key
    rw [hu.lookup_eq, Function.comp_apply]
  obtain ⟨hopen, hroot⟩ := Visit.open_of_frontierKey ((hkey _ _).mp (hv.lookup_of_mem hmem))
  -- the member at the root is a node of the frontier, and all others are members too
  refine ⟨_, _, watch.around_eq_of_ok hv he hb.valid, hopen, ?_, hb.valid, ?_⟩
  · intro next ho
    have hnext := hle _ (hv.lookup_eq_some_iff.mp
      ((hkey next _).mpr (Visit.frontierKey_of_open ho)))
    rw [hroot] at hnext
    exact Key.le_of_ofDistance_le (hu.settling.dist_lt hg hopen.2) hnext
  · rw [hb.lookup_eq, hu.lookup_eq]

end Underway

end Search

end AddressableHeap
