import AddressableHeap.Entry
import Mathlib.Logic.Function.Basic

/-!
# Layouts

A layout says which entry lies in which slot, and nothing else: there is no array, no bound, no index
and no word. On layouts the walks of an entry through the tree are plain functions on numbers. The
heap on its array computes the same walks (`AddressableHeap.Proofs.Heap.Walks`), so that what is shown
about layouts holds of heaps.

No walk looks at slot 0 or at a slot behind the last one.
-/

namespace AddressableHeap

/-- Which entry lies in which slot. -/
abbrev Layout := Nat → Entry

namespace Layout

/-- Exchange the entries in slots `a` and `b`. -/
def swap (f : Layout) (a b : Nat) : Layout := fun slot =>
  if slot = a then f b else if slot = b then f a else f slot

def put (f : Layout) (slot : Nat) (entry : Entry) : Layout := Function.update f slot entry

def setKey (f : Layout) (slot : Nat) (key : Key) : Layout := f.put slot ⟨key, (f slot).id⟩

/-- Move the entry in `slot` towards the root as long as its key is below that of its parent. The
slot it ends in comes with the layout. -/
def rise (f : Layout) (slot : Nat) : Nat × Layout :=
  if 2 ≤ slot ∧ (f slot).key < (f (slot / 2)).key then (f.swap slot (slot / 2)).rise (slot / 2)
  else (slot, f)
termination_by slot

/-- The child of `slot` with the smaller key, the first one if their keys are the same. -/
def smallerChild (f : Layout) (last slot : Nat) : Nat :=
  if 2 * slot < last ∧ (f (2 * slot + 1)).key < (f (2 * slot)).key then 2 * slot + 1 else 2 * slot

theorem le_smallerChild (f : Layout) (last slot : Nat) : 2 * slot ≤ f.smallerChild last slot := by
  unfold smallerChild
  split <;> omega

theorem smallerChild_le {f : Layout} {last slot : Nat} (h : 2 * slot ≤ last) :
    f.smallerChild last slot ≤ last := by
  unfold smallerChild
  split <;> omega

theorem smallerChild_div_two (f : Layout) (last slot : Nat) :
    f.smallerChild last slot / 2 = slot := by
  unfold smallerChild
  split <;> omega

/-- Move the entry in `slot` towards the leaves as long as a child among the slots up to `last` has a
smaller key. The slot it ends in comes with the layout. -/
def sink (f : Layout) (last slot : Nat) : Nat × Layout :=
  if 1 ≤ slot ∧ 2 * slot ≤ last then
    if (f slot).key ≤ (f (f.smallerChild last slot)).key then (slot, f)
    else (f.swap slot (f.smallerChild last slot)).sink last (f.smallerChild last slot)
  else (slot, f)
termination_by last - slot
decreasing_by
  have := le_smallerChild f last slot
  omega

/-- Bring the entry in `slot` to its level: down, or up if it did not move down. -/
def settle (f : Layout) (last slot : Nat) : Nat × Layout :=
  if (f.sink last slot).1 = slot then (f.sink last slot).2.rise slot else f.sink last slot

/-! ## Requests -/

def insert (f : Layout) (last : Nat) (entry : Entry) : Layout :=
  ((f.put (last + 1) entry).rise (last + 1)).2

/-- Change the key in `slot`, and move the entry to its level. -/
def rekey (f : Layout) (last slot : Nat) (key : Key) : Layout :=
  if key < (f slot).key then ((f.setKey slot key).rise slot).2
  else if (f slot).key < key then ((f.setKey slot key).sink last slot).2
  else f.setKey slot key

/-- Exchange the entry in `slot` with the one in slot `last`, give up slot `last`, and move the entry
now in `slot` to its level. -/
def remove (f : Layout) (last slot : Nat) : Layout :=
  if slot < last then ((f.swap slot last).settle (last - 1) slot).2 else f.swap slot last

/-! ## Exchanges -/

theorem swap_left (f : Layout) (a b : Nat) : f.swap a b a = f b := by simp [swap]

theorem swap_right (f : Layout) (a b : Nat) : f.swap a b b = f a := by
  unfold swap
  split <;> simp_all

theorem swap_of_ne (f : Layout) {a b slot : Nat} (ha : slot ≠ a) (hb : slot ≠ b) :
    f.swap a b slot = f slot := by simp [swap, ha, hb]

theorem swap_self (f : Layout) (a : Nat) : f.swap a a = f := by
  funext slot
  by_cases h : slot = a <;> simp [swap, h]

@[simp] theorem put_same (f : Layout) (slot : Nat) (entry : Entry) :
    f.put slot entry slot = entry := by simp [put]

theorem put_of_ne (f : Layout) {slot other : Nat} (entry : Entry) (h : other ≠ slot) :
    f.put slot entry other = f other := by simp [put, h]

/-! ## Where a walk leads, and what it leaves alone -/

/-- A walk towards the root changes no slot behind the one it starts from, and not slot 0. -/
theorem rise_frame {f : Layout} {slot other : Nat} (h : other = 0 ∨ slot < other) :
    (f.rise slot).2 other = f other := by
  induction f, slot using rise.induct with
  | case1 f slot hc ih =>
    rw [rise, if_pos hc, ih (by omega)]
    exact swap_of_ne f (by omega) (by omega)
  | case2 f slot hc => rw [rise, if_neg hc]

theorem sink_bounds {f : Layout} {last slot : Nat} (h : slot ≤ last) :
    slot ≤ (f.sink last slot).1 ∧ (f.sink last slot).1 ≤ last := by
  induction f, slot using sink.induct last with
  | case1 f slot hc hle =>
    rw [sink, if_pos hc, if_pos hle]
    exact ⟨Nat.le_refl _, h⟩
  | case2 f slot hc hle ih =>
    rw [sink, if_pos hc, if_neg hle]
    have := ih (smallerChild_le hc.2)
    have := le_smallerChild f last slot
    omega
  | case3 f slot hc =>
    rw [sink, if_neg hc]
    exact ⟨Nat.le_refl _, h⟩

/-- A walk towards the leaves changes no slot before the one it starts from, and none behind the
last. -/
theorem sink_frame {f : Layout} {last slot other : Nat} (h : other < slot ∨ last < other) :
    (f.sink last slot).2 other = f other := by
  induction f, slot using sink.induct last with
  | case1 f slot hc hle => rw [sink, if_pos hc, if_pos hle]
  | case2 f slot hc hle ih =>
    have hc1 := le_smallerChild f last slot
    have hc2 := smallerChild_le (f := f) hc.2
    rw [sink, if_pos hc, if_neg hle, ih (by omega)]
    exact swap_of_ne f (by omega) (by omega)
  | case3 f slot hc => rw [sink, if_neg hc]

/-- An entry that did not get away from its slot on a walk towards the leaves has not moved. -/
theorem sink_eq_self {f : Layout} {last slot : Nat} (h : (f.sink last slot).1 = slot) :
    (f.sink last slot).2 = f := by
  rw [sink] at h ⊢
  split
  · rename_i hc
    rw [if_pos hc] at h
    split
    · rfl
    · rename_i hle
      rw [if_neg hle] at h
      have := sink_bounds (f := f.swap slot (f.smallerChild last slot)) (smallerChild_le (f := f) hc.2)
      have := le_smallerChild f last slot
      omega
  · rfl

theorem settle_frame {f : Layout} {last slot other : Nat} (h1 : 1 ≤ slot) (hl : slot ≤ last)
    (h : other = 0 ∨ last < other) : (f.settle last slot).2 other = f other := by
  unfold settle
  split
  · rw [rise_frame (by omega), sink_frame (by omega)]
  · exact sink_frame (by omega)

theorem settle_root (f : Layout) (last : Nat) : f.settle last 1 = f.sink last 1 := by
  unfold settle
  split
  · rename_i h
    rw [rise, if_neg (by omega)]
    exact Prod.ext h.symm rfl
  · rfl

end Layout

end AddressableHeap
