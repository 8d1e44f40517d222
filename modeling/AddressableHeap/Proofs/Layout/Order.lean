import AddressableHeap.Proofs.Layout.Basic
import Mathlib.Tactic.Push

/-!
# How a walk brings the order back

A request leaves one slot, the hole, whose entry may be out of order with its neighbours, while all
other entries are in order and the children of the hole are in order with its parent. A walk towards
the root keeps this and moves the hole up, a walk towards the leaves moves it down, and both end where
the hole is closed.
-/

namespace AddressableHeap.Layout

variable {f g : Layout} {last hole slot : Nat}

/-- No key in the slots up to `last` is below that of its parent. -/
def Ordered (f : Layout) (last : Nat) : Prop :=
  ∀ slot, 2 ≤ slot → slot ≤ last → (f (slot / 2)).key ≤ (f slot).key

/-- The order up to `last`, except for the entry in `hole`. -/
structure OrderedBut (f : Layout) (last hole : Nat) : Prop where
  /-- Neighbours off the hole are in order. -/
  off : ∀ slot, 2 ≤ slot → slot ≤ last → slot ≠ hole → slot / 2 ≠ hole →
    (f (slot / 2)).key ≤ (f slot).key
  /-- The children of the hole are in order with its parent. -/
  across : ∀ slot, slot ≤ last → 2 ≤ hole → slot / 2 = hole →
    (f (hole / 2)).key ≤ (f slot).key

def Above (f : Layout) (hole : Nat) : Prop := 2 ≤ hole → (f (hole / 2)).key ≤ (f hole).key

def Below (f : Layout) (last hole : Nat) : Prop :=
  ∀ slot, 2 ≤ slot → slot ≤ last → slot / 2 = hole → (f hole).key ≤ (f slot).key

theorem Ordered.mono {m : Nat} (ho : f.Ordered last) (h : m ≤ last) : f.Ordered m :=
  fun slot h2 hl => ho slot h2 (by omega)

theorem Ordered.root_le (ho : f.Ordered last) :
    ∀ slot, 1 ≤ slot → slot ≤ last → (f 1).key ≤ (f slot).key := by
  intro slot
  induction slot using Nat.strongRecOn with
  | _ slot ih =>
    intro h1 hl
    by_cases h2 : 2 ≤ slot
    · exact Int64.le_trans (ih (slot / 2) (by omega) (by omega) (by omega)) (ho slot h2 hl)
    · have : slot = 1 := by omega
      rw [this]
      exact Int64.le_refl _

/-- Where the entry in the hole is in order with all its neighbours, there is no hole. -/
theorem OrderedBut.ordered (ho : f.OrderedBut last hole) (ha : f.Above hole)
    (hb : f.Below last hole) : f.Ordered last := by
  intro slot h2 hl
  by_cases hs : slot = hole
  · subst hs
    exact ha h2
  · by_cases hp : slot / 2 = hole
    · have := hb slot h2 hl hp
      rwa [← hp] at this
    · exact ho.off slot h2 hl hs hp

/-- An entry that is not in order with its children is in order with its parent. -/
theorem OrderedBut.above (ho : f.OrderedBut last hole) (hb : ¬ f.Below last hole) :
    f.Above hole := by
  unfold Below at hb
  push Not at hb
  obtain ⟨slot, _, hl, hp, hlt⟩ := hb
  intro h2
  have := ho.across slot hl h2 hp
  grind

/-- Whatever is put into one slot of an ordered layout makes no more than a hole of it. -/
theorem Ordered.put (ho : f.Ordered last) (slot : Nat) (entry : Entry) :
    (f.put slot entry).OrderedBut last slot := by
  constructor
  · intro other h2 hl hs hp
    rw [put_of_ne f entry hs, put_of_ne f entry hp]
    exact ho other h2 hl
  · intro other hl h2 hp
    rw [put_of_ne f entry (by omega), put_of_ne f entry (by omega)]
    have h₁ := ho slot h2 (by omega)
    have h₂ := ho other (by omega) hl
    rw [hp] at h₂
    exact Int64.le_trans h₁ h₂

theorem OrderedBut.congr (ho : f.OrderedBut last hole) (h : ∀ i, 1 ≤ i → i ≤ last → g i = f i) :
    g.OrderedBut last hole := by
  constructor
  · intro slot h2 hl hs hp
    rw [h slot (by omega) hl, h (slot / 2) (by omega) (by omega)]
    exact ho.off slot h2 hl hs hp
  · intro slot hl h2 hp
    rw [h slot (by omega) hl, h (hole / 2) (by omega) (by omega)]
    exact ho.across slot hl h2 hp

/-! ## Towards the root -/

/-- Exchanging the entry in the hole with a parent of larger key moves the hole to the parent. -/
theorem OrderedBut.swap_parent (ho : f.OrderedBut last hole) (h2 : 2 ≤ hole) (hl : hole ≤ last)
    (hlt : (f hole).key < (f (hole / 2)).key) :
    (f.swap hole (hole / 2)).OrderedBut last (hole / 2) ∧
      (f.swap hole (hole / 2)).Below last (hole / 2) := by
  obtain ⟨off, across⟩ := ho
  constructor
  · constructor
    · intro slot h2' hl' hs hp
      simp only [swap]
      grind
    · intro slot hl' _ hp
      simp only [swap]
      grind
  · intro slot _ hl' hp
    simp only [swap]
    grind

/-- A walk towards the root closes a hole whose entry is in order with its children. -/
theorem ordered_rise (ho : f.OrderedBut last slot) (hb : f.Below last slot) (hl : slot ≤ last) :
    (f.rise slot).2.Ordered last := by
  induction f, slot using rise.induct with
  | case1 f slot hc ih =>
    rw [rise, if_pos hc]
    obtain ⟨ho', hb'⟩ := ho.swap_parent hc.1 hl hc.2
    exact ih ho' hb' (by omega)
  | case2 f slot hc =>
    rw [rise, if_neg hc]
    exact ho.ordered (fun h2 => Int64.not_lt.mp fun h => hc ⟨h2, h⟩) hb

/-! ## Towards the leaves -/

theorem smallerChild_key_le (hl : slot ≤ last) :
    (f (f.smallerChild last (slot / 2))).key ≤ (f slot).key := by
  unfold smallerChild
  have : slot = 2 * (slot / 2) ∨ slot = 2 * (slot / 2) + 1 := by omega
  grind

/-- An entry is in order with its children if it is in order with the smaller one. -/
theorem below_iff (h1 : 1 ≤ slot) : f.Below last slot ↔
    (2 * slot ≤ last → (f slot).key ≤ (f (f.smallerChild last slot)).key) := by
  constructor
  · intro hb hl
    have := le_smallerChild f last slot
    exact hb _ (by omega) (smallerChild_le hl) (smallerChild_div_two f last slot)
  · intro h other h2 hl hp
    have := smallerChild_key_le (f := f) hl
    rw [hp] at this
    exact Int64.le_trans (h (by omega)) this

/-- Exchanging the entry in the hole with its smaller child, if that has a smaller key, moves the hole
to the child. -/
theorem OrderedBut.swap_child (ho : f.OrderedBut last hole) (h1 : 1 ≤ hole) (hl : 2 * hole ≤ last)
    (hlt : (f (f.smallerChild last hole)).key < (f hole).key) :
    (f.swap hole (f.smallerChild last hole)).OrderedBut last (f.smallerChild last hole) ∧
      (f.swap hole (f.smallerChild last hole)).Above (f.smallerChild last hole) := by
  have hle := le_smallerChild f last hole
  have hmax := smallerChild_le (f := f) hl
  have hpar := smallerChild_div_two f last hole
  have hmin : ∀ slot, 2 ≤ slot → slot ≤ last → slot / 2 = hole →
      (f (f.smallerChild last hole)).key ≤ (f slot).key := by
    intro slot h2 hl' hp
    have := smallerChild_key_le (f := f) hl'
    rwa [hp] at this
  generalize f.smallerChild last hole = child at *
  obtain ⟨off, across⟩ := ho
  constructor
  · constructor
    · intro slot h2 hl' hs hp
      simp only [swap]
      grind
    · intro slot hl' h2 hp
      simp only [swap]
      grind
  · intro h2
    simp only [swap]
    grind

/-- A walk towards the leaves closes a hole whose entry is in order with its parent. -/
theorem ordered_sink (ho : f.OrderedBut last slot) (ha : f.Above slot) (h1 : 1 ≤ slot) :
    (f.sink last slot).2.Ordered last := by
  induction f, slot using sink.induct last with
  | case1 f slot hc hle =>
    rw [sink, if_pos hc, if_pos hle]
    exact ho.ordered ha ((below_iff h1).mpr fun _ => hle)
  | case2 f slot hc hle ih =>
    rw [sink, if_pos hc, if_neg hle]
    obtain ⟨ho', ha'⟩ := ho.swap_child h1 hc.2 (Int64.not_le.mp hle)
    have := le_smallerChild f last slot
    exact ih ho' ha' (by omega)
  | case3 f slot hc =>
    rw [sink, if_neg hc]
    exact ho.ordered ha ((below_iff h1).mpr fun hl => absurd ⟨h1, hl⟩ hc)

/-! ## Either way -/

/-- The entry in a slot moves towards the leaves unless it is in order with its children. -/
theorem sink_fst_eq_iff (h1 : 1 ≤ slot) : (f.sink last slot).1 = slot ↔ f.Below last slot := by
  rw [below_iff h1, sink]
  by_cases hl : 2 * slot ≤ last
  · rw [if_pos ⟨h1, hl⟩]
    split
    · rename_i hle
      exact iff_of_true rfl fun _ => hle
    · rename_i hle
      have := sink_bounds (f := f.swap slot (f.smallerChild last slot)) (smallerChild_le (f := f) hl)
      have := le_smallerChild f last slot
      exact iff_of_false (by omega) fun h => hle (h hl)
  · rw [if_neg fun hc => hl hc.2]
    exact iff_of_true rfl fun h => absurd h hl

/-- Settling closes a hole, whatever its entry. -/
theorem ordered_settle (ho : f.OrderedBut last slot) (h1 : 1 ≤ slot) (hl : slot ≤ last) :
    (f.settle last slot).2.Ordered last := by
  unfold settle
  split
  · rename_i hs
    rw [sink_eq_self hs]
    exact ordered_rise ho ((sink_fst_eq_iff h1).mp hs) hl
  · rename_i hs
    exact ordered_sink ho (ho.above fun hb => hs ((sink_fst_eq_iff h1).mpr hb)) h1

/-! ## Requests -/

theorem ordered_insert (ho : f.Ordered last) (entry : Entry) :
    (f.insert last entry).Ordered (last + 1) := by
  have hb : (f.put (last + 1) entry).OrderedBut (last + 1) (last + 1) := by
    refine ⟨fun slot h2 hl hs hp => ?_, fun slot hl h2 hp => by omega⟩
    rw [put_of_ne f entry hs, put_of_ne f entry hp]
    exact ho slot h2 (by omega)
  exact ordered_rise hb (fun slot h2 hl hp => by omega) (Nat.le_refl _)

/-- A key that is not lowered is in order with the parent. -/
theorem Ordered.above_setKey (ho : f.Ordered last) (hl : slot ≤ last) {key : Key}
    (hle : (f slot).key ≤ key) : (f.setKey slot key).Above slot := by
  intro h2
  rw [setKey, put_same, put_of_ne f _ (by omega)]
  exact Int64.le_trans (ho slot h2 hl) hle

/-- A key that is not raised is in order with the children. -/
theorem Ordered.below_setKey (ho : f.Ordered last) {key : Key} (hle : key ≤ (f slot).key) :
    (f.setKey slot key).Below last slot := by
  intro other h2 hl hp
  have hchild := ho other h2 hl
  rw [hp] at hchild
  rw [setKey, put_same, put_of_ne f _ (by omega)]
  exact Int64.le_trans hle hchild

theorem ordered_rekey (ho : f.Ordered last) (h1 : 1 ≤ slot) (hl : slot ≤ last) (key : Key) :
    (f.rekey last slot key).Ordered last := by
  have hb : (f.setKey slot key).OrderedBut last slot := ho.put slot _
  unfold rekey
  split
  · rename_i hlt
    exact ordered_rise hb (ho.below_setKey (Int64.le_of_lt hlt)) hl
  · rename_i hlt
    have habove := ho.above_setKey hl (Int64.not_lt.mp hlt)
    split
    · exact ordered_sink hb habove h1
    · rename_i hgt
      exact hb.ordered habove (ho.below_setKey (Int64.not_lt.mp hgt))

/-- The last entry makes a hole of the slot that it is put into. -/
theorem Ordered.swap_last (ho : f.Ordered last) (hlt : slot < last) :
    (f.swap slot last).OrderedBut (last - 1) slot := by
  refine ((ho.mono (Nat.sub_le last 1)).put slot (f last)).congr ?_
  intro i _ hi
  by_cases his : i = slot
  · rw [his, swap_left, put_same]
  · rw [swap_of_ne f his (by omega), put_of_ne f _ his]

theorem ordered_remove (ho : f.Ordered last) (h1 : 1 ≤ slot) (hl : slot ≤ last) :
    (f.remove last slot).Ordered (last - 1) := by
  unfold remove
  split
  · rename_i hlt
    exact ordered_settle (ho.swap_last hlt) h1 (by omega)
  · have : slot = last := by omega
    rw [this, swap_self]
    exact ho.mono (Nat.sub_le last 1)

end AddressableHeap.Layout
