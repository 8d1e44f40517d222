import AddressableHeap.Proofs.Layout.Members
import AddressableHeap.Proofs.Layout.Order

/-!
# What lies behind the last slot does not matter

A walk looks at occupied slots and at no others. So two layouts with the same members in the same
slots remain such under every request, and a walk ends in the same slot of both, whatever there is
in slot 0 and behind the last slot.
-/

namespace AddressableHeap.Layout

variable {f g : Layout} {last slot : Nat}

/-- The two layouts have the same entries in the slots up to `last`. -/
def Agree (last : Nat) (f g : Layout) : Prop := ∀ i, 1 ≤ i → i ≤ last → f i = g i

theorem agree_iff : Agree last f g ↔ f.members last = g.members last := by
  constructor
  · exact members_congr
  · intro h i h1 hl
    have hi : i ∈ List.range' 1 last := List.mem_range'_1.mpr ⟨h1, by omega⟩
    exact List.map_inj_left.mp h i hi

namespace Agree

theorem mono {m : Nat} (h : Agree last f g) (hm : m ≤ last) : Agree m f g :=
  fun i h1 hl => h i h1 (by omega)

theorem ordered (h : Agree last f g) (ho : f.Ordered last) : g.Ordered last := by
  intro slot h2 hl
  rw [← h slot (by omega) hl, ← h (slot / 2) (by omega) (by omega)]
  exact ho slot h2 hl

theorem put (h : Agree last f g) (slot : Nat) (entry : Entry) :
    Agree last (f.put slot entry) (g.put slot entry) := by
  intro i h1 hl
  by_cases hi : i = slot
  · simp [hi]
  · simp [put_of_ne, hi, h i h1 hl]

theorem swap {a b : Nat} (h : Agree last f g) (ha : 1 ≤ a) (ha' : a ≤ last) (hb : 1 ≤ b)
    (hb' : b ≤ last) : Agree last (f.swap a b) (g.swap a b) := by
  intro i h1 hl
  simp only [Layout.swap, h a ha ha', h b hb hb', h i h1 hl]

/-! ## Walks -/

theorem rise (h : Agree last f g) (h1 : 1 ≤ slot) (hl : slot ≤ last) :
    (f.rise slot).1 = (g.rise slot).1 ∧ Agree last (f.rise slot).2 (g.rise slot).2 := by
  induction f, slot using rise.induct generalizing g with
  | case1 f slot hc ih =>
    have hc' : 2 ≤ slot ∧ (g slot).key < (g (slot / 2)).key := by
      rw [← h slot h1 hl, ← h (slot / 2) (by omega) (by omega)]
      exact hc
    rw [Layout.rise.eq_1 f, if_pos hc, Layout.rise.eq_1 g, if_pos hc']
    exact ih (h.swap h1 hl (by omega) (by omega)) (by omega) (by omega)
  | case2 f slot hc =>
    have hc' : ¬ (2 ≤ slot ∧ (g slot).key < (g (slot / 2)).key) := by
      rintro ⟨h2, hlt⟩
      rw [← h slot h1 hl, ← h (slot / 2) (by omega) (by omega)] at hlt
      exact hc ⟨h2, hlt⟩
    rw [Layout.rise, if_neg hc, Layout.rise, if_neg hc']
    exact ⟨rfl, h⟩

theorem smallerChild (h : Agree last f g) (h1 : 1 ≤ slot) (hl : 2 * slot ≤ last) :
    f.smallerChild last slot = g.smallerChild last slot := by
  unfold Layout.smallerChild
  by_cases hlt : 2 * slot < last
  · rw [h (2 * slot) (by omega) hl, h (2 * slot + 1) (by omega) hlt]
  · rw [if_neg fun hc => hlt hc.1, if_neg fun hc => hlt hc.1]

theorem sink (h : Agree last f g) (h1 : 1 ≤ slot) (hl : slot ≤ last) :
    (f.sink last slot).1 = (g.sink last slot).1 ∧
      Agree last (f.sink last slot).2 (g.sink last slot).2 := by
  induction f, slot using sink.induct last generalizing g with
  | case1 f slot hc hle =>
    have hchild := h.smallerChild h1 hc.2
    have hb := smallerChild_le (f := f) hc.2
    have hle' : (g slot).key ≤ (g (g.smallerChild last slot)).key := by
      rw [← hchild, ← h slot h1 hl, ← h _ (by have := le_smallerChild f last slot; omega) hb]
      exact hle
    rw [Layout.sink, if_pos hc, if_pos hle, Layout.sink, if_pos hc, if_pos hle']
    exact ⟨rfl, h⟩
  | case2 f slot hc hle ih =>
    have hchild := h.smallerChild h1 hc.2
    have ha := le_smallerChild f last slot
    have hb := smallerChild_le (f := f) hc.2
    have hle' : ¬ (g slot).key ≤ (g (g.smallerChild last slot)).key := by
      rw [← hchild, ← h slot h1 hl, ← h _ (by omega) hb]
      exact hle
    rw [Layout.sink.eq_1 f, if_pos hc, if_neg hle, Layout.sink.eq_1 g, if_pos hc, if_neg hle',
      ← hchild]
    exact ih (h.swap h1 hl (by omega) hb) (by omega) hb
  | case3 f slot hc =>
    rw [Layout.sink, if_neg hc, Layout.sink, if_neg hc]
    exact ⟨rfl, h⟩

theorem settle (h : Agree last f g) (h1 : 1 ≤ slot) (hl : slot ≤ last) :
    (f.settle last slot).1 = (g.settle last slot).1 ∧
      Agree last (f.settle last slot).2 (g.settle last slot).2 := by
  obtain ⟨hs, ha⟩ := h.sink h1 hl
  unfold Layout.settle
  by_cases he : (g.sink last slot).1 = slot
  · rw [if_pos (hs.trans he), if_pos he]
    exact ha.rise h1 hl
  · rw [if_neg fun hc => he (hs.symm.trans hc), if_neg he]
    exact ⟨hs, ha⟩

/-! ## Requests -/

theorem insert (h : Agree last f g) (entry : Entry) :
    Agree (last + 1) (f.insert last entry) (g.insert last entry) := by
  have hput : Agree (last + 1) (f.put (last + 1) entry) (g.put (last + 1) entry) := by
    intro i h1 hl
    by_cases hi : i = last + 1
    · simp [hi]
    · simp [put_of_ne, hi, h i h1 (by omega)]
  exact (hput.rise (by omega) (Nat.le_refl _)).2

theorem rekey (h : Agree last f g) (key : Key) (h1 : 1 ≤ slot) (hl : slot ≤ last) :
    Agree last (f.rekey last slot key) (g.rekey last slot key) := by
  have hset : Agree last (f.setKey slot key) (g.setKey slot key) := by
    unfold Layout.setKey
    rw [h slot h1 hl]
    exact h.put slot _
  unfold Layout.rekey
  rw [h slot h1 hl]
  split
  · exact (hset.rise h1 hl).2
  · split
    · exact (hset.sink h1 hl).2
    · exact hset

theorem remove (h : Agree last f g) (h1 : 1 ≤ slot) (hl : slot ≤ last) :
    Agree (last - 1) (f.remove last slot) (g.remove last slot) := by
  have hswap := (h.swap h1 hl (by omega) (Nat.le_refl _)).mono (Nat.sub_le last 1)
  unfold Layout.remove
  by_cases hlt : slot < last
  · rw [if_pos hlt, if_pos hlt]
    exact (hswap.settle h1 (by omega)).2
  · rw [if_neg hlt, if_neg hlt]
    exact hswap

end Agree

end AddressableHeap.Layout
