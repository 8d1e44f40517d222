import AddressableHeap.Proofs.Layout.Agreement

/-!
# There and back

A walk carries one entry along a branch of the tree and moves every entry that it passes one place the
other way. Where the key of every entry is above that of its parent, the way back is the same way. An
entry that was carried towards the root, under whatever key, and has its own key again, finds the
entries that it passed in front of it: each of them has become the smaller child. An entry that was
carried towards the leaves finds them in front of it as parents with larger keys. It comes to rest in
the slot where it was before, and all others with it.
-/

namespace AddressableHeap.Layout

variable {f g : Layout} {last slot hole : Nat}

/-! ## Exchanges -/

theorem swap_swap (f : Layout) (a b : Nat) : (f.swap a b).swap b a = f := by
  rw [swap_eq_comp, swap_eq_comp, Equiv.swap_comm b a, Function.comp_assoc, ← Equiv.coe_trans,
    Equiv.swap_swap]
  rfl

/-- It makes no difference whether an entry is replaced before it is exchanged or after. -/
theorem swap_put (f : Layout) (a b : Nat) (entry : Entry) :
    (f.put a entry).swap a b = (f.swap a b).put b entry := by
  funext i
  by_cases hb : i = b
  · rw [hb, swap_right, put_same, put_same]
  · rw [put_of_ne _ _ hb]
    by_cases ha : i = a
    · subst ha
      rw [swap_left, swap_left, put_of_ne f _ (Ne.symm hb)]
    · rw [swap_of_ne _ ha hb, swap_of_ne _ ha hb, put_of_ne f _ ha]

theorem put_put (f : Layout) (slot : Nat) (entry entry' : Entry) :
    (f.put slot entry).put slot entry' = f.put slot entry' := Function.update_idem ..

theorem put_eq_self (f : Layout) (slot : Nat) : f.put slot (f slot) = f :=
  Function.update_eq_self slot f

/-! ## Where every walk ends at once -/

theorem Ordered.rise_eq (ho : f.Ordered last) (hl : slot ≤ last) : f.rise slot = (slot, f) := by
  rw [rise, if_neg]
  rintro ⟨h2, hlt⟩
  exact Int64.not_lt.mpr (ho slot h2 hl) hlt

theorem Ordered.sink_eq (ho : f.Ordered last) (h1 : 1 ≤ slot) : f.sink last slot = (slot, f) := by
  have hbelow : f.Below last slot := by
    rintro other h2 hl rfl
    exact ho other h2 hl
  have hstay := (sink_fst_eq_iff h1).mpr hbelow
  exact Prod.ext hstay (sink_eq_self hstay)

/-! ## Keys above those of their parents -/

/-- Every key in the slots up to `last` is above that of its parent. -/
def StrictlyOrdered (f : Layout) (last : Nat) : Prop :=
  ∀ slot, 2 ≤ slot → slot ≤ last → (f (slot / 2)).key < (f slot).key

/-- Where no key is held twice, no entry of an ordered layout is tied with its parent. -/
theorem Ordered.strictlyOrdered (ho : f.Ordered last)
    (hnd : ((f.members last).map (·.key)).Nodup) : f.StrictlyOrdered last := by
  intro slot h2 hl
  refine Int64.lt_of_le_of_ne (ho slot h2 hl) ?_
  intro he
  rw [members, List.map_map] at hnd
  have hinj := List.inj_on_of_nodup_map hnd (List.mem_range'_1.mpr ⟨by omega, by omega⟩)
    (List.mem_range'_1.mpr ⟨by omega, by omega⟩) he
  omega

namespace StrictlyOrdered

theorem ordered (hs : f.StrictlyOrdered last) : f.Ordered last :=
  fun slot h2 hl => Int64.le_of_lt (hs slot h2 hl)

theorem congr (hs : f.StrictlyOrdered last) (h : Agree last f g) : g.StrictlyOrdered last := by
  intro slot h2 hl
  rw [← h slot (by omega) hl, ← h (slot / 2) (by omega) (by omega)]
  exact hs slot h2 hl

end StrictlyOrdered

/-! ## Towards the root and back -/

/-- The entry in `slot` of `f` was exchanged with its parent again and again, and lies in `hole` of
`g`. -/
inductive Lifted (f : Layout) (slot : Nat) : Nat → Layout → Prop where
  | here : Lifted f slot slot f
  | up {hole : Nat} {g : Layout} :
      2 ≤ hole → Lifted f slot hole g → Lifted f slot (hole / 2) (g.swap hole (hole / 2))

namespace Lifted

/-- A walk towards the root lifts the entry. -/
theorem rise (hg : Lifted f slot hole g) : Lifted f slot (g.rise hole).1 (g.rise hole).2 := by
  induction g, hole using Layout.rise.induct with
  | case1 g hole hc ih =>
    rw [Layout.rise, if_pos hc]
    exact ih (hg.up hc.1)
  | case2 g hole hc =>
    rw [Layout.rise, if_neg hc]
    exact hg

/-- Another entry would have been lifted in the same way. -/
theorem put (hg : Lifted f slot hole g) (entry : Entry) :
    Lifted (f.put slot entry) slot hole (g.put hole entry) := by
  induction hg with
  | here => exact .here
  | up h2 _ ih =>
    rw [← swap_put]
    exact ih.up h2

theorem bounds (hg : Lifted f slot hole g) (h1 : 1 ≤ slot) : 1 ≤ hole ∧ hole ≤ slot := by
  induction hg with
  | here => exact ⟨h1, Nat.le_refl slot⟩
  | up h2 _ ih => omega

theorem apply_hole (hg : Lifted f slot hole g) : g hole = f slot := by
  induction hg with
  | here => rfl
  | up _ _ ih => rw [swap_right, ih]

/-- Above the children of the slot where the entry is now, nothing else has changed. -/
theorem apply_of_ne (hg : Lifted f slot hole g) {i : Nat} (hi : i < 2 * hole) (hn : i ≠ hole) :
    g i = f i := by
  induction hg with
  | here => rfl
  | up h2 _ ih =>
    rw [swap_of_ne _ (by omega) hn]
    exact ih (by omega) (by omega)

/-- Behind the slot where the entry was, nothing has changed. -/
theorem apply_of_lt (hg : Lifted f slot hole g) (h1 : 1 ≤ slot) {i : Nat} (hi : slot < i) :
    g i = f i := by
  induction hg with
  | here => rfl
  | up h2 hg ih =>
    have hb := hg.bounds h1
    rw [swap_of_ne _ (by omega) (by omega), ih]

theorem key_le (hg : Lifted f slot hole g) (hs : f.StrictlyOrdered last) (h1 : 1 ≤ slot)
    (hl : slot ≤ last) : (f hole).key ≤ (f slot).key := by
  induction hg with
  | here => exact Int64.le_refl _
  | up h2 hg ih =>
    have hb := hg.bounds h1
    exact Int64.le_trans (Int64.le_of_lt (hs _ h2 (by omega))) ih

/-- The entry that was passed last is the smaller child of the one that passed it. -/
theorem smallerChild_eq (hg : Lifted f slot hole g) (hs : f.StrictlyOrdered last) (h2 : 2 ≤ hole)
    (hl : hole ≤ last) : (g.swap hole (hole / 2)).smallerChild last (hole / 2) = hole := by
  have hpassed : g.swap hole (hole / 2) hole = f (hole / 2) := by
    rw [swap_left, hg.apply_of_ne (by omega) (by omega)]
  have hsibling : ∀ i, i / 2 = hole / 2 → i ≠ hole → i ≤ last →
      (f (hole / 2)).key < (g.swap hole (hole / 2) i).key := by
    intro i hi hn hil
    rw [swap_of_ne g hn (by omega), hg.apply_of_ne (by omega) hn, ← hi]
    exact hs i (by omega) hil
  have hparity : hole = 2 * (hole / 2) ∨ hole = 2 * (hole / 2) + 1 := by omega
  unfold smallerChild
  rcases hparity with hleft | hright
  · rw [if_neg, ← hleft]
    rintro ⟨hlt, hkey⟩
    rw [← hleft, hpassed] at hkey
    exact Int64.not_lt.mpr (Int64.le_of_lt (hsibling _ (by omega) (by omega) (by omega))) hkey
  · rw [if_pos, ← hright]
    rw [← hright, hpassed]
    exact ⟨by omega, hsibling _ (by omega) (by omega) (by omega)⟩

/-- A lifted entry sinks back to where it was. -/
theorem sink_eq (hg : Lifted f slot hole g) (hs : f.StrictlyOrdered last) (h1 : 1 ≤ slot)
    (hl : slot ≤ last) : g.sink last hole = (slot, f) := by
  -- the first step of the way back takes back the last step of the way there
  induction hg with
  | here => exact hs.ordered.sink_eq h1
  | @up hole g h2 hg ih =>
    have hb := hg.bounds h1
    have hchild := hg.smallerChild_eq hs h2 (by omega)
    have hlt : (f (hole / 2)).key < (f slot).key := by
      have hparent := hs hole h2 (by omega)
      have hkey := hg.key_le hs h1 hl
      exact Int64.lt_of_lt_of_le hparent hkey
    have hmoves : ¬ (g.swap hole (hole / 2) (hole / 2)).key ≤ (g.swap hole (hole / 2) hole).key := by
      rw [swap_right, swap_left, hg.apply_hole, hg.apply_of_ne (by omega) (by omega)]
      exact Int64.not_le.mpr hlt
    rw [sink, if_pos ⟨by omega, by omega⟩, hchild, if_neg hmoves, swap_swap]
    exact ih

/-- It does not move on from there. -/
theorem settle_eq (hg : Lifted f slot hole g) (hs : f.StrictlyOrdered last) (h1 : 1 ≤ slot)
    (hl : slot ≤ last) : g.settle last hole = (slot, f) := by
  unfold settle
  rw [hg.sink_eq hs h1 hl]
  split
  · rename_i hstay
    change f.rise hole = (slot, f)
    rw [← hstay]
    exact hs.ordered.rise_eq hl
  · rfl

end Lifted

/-! ## Towards the leaves and back -/

/-- The entry in `slot` of `f` was exchanged with a child among the slots up to `last` again and again,
and lies in `hole` of `g`. -/
inductive Lowered (f : Layout) (last slot : Nat) : Nat → Layout → Prop where
  | here : Lowered f last slot slot f
  | down {hole : Nat} {g : Layout} : 1 ≤ hole → 2 * hole ≤ last → Lowered f last slot hole g →
      Lowered f last slot (g.smallerChild last hole) (g.swap hole (g.smallerChild last hole))

namespace Lowered

/-- A walk towards the leaves lowers the entry. -/
theorem sink (hg : Lowered f last slot hole g) :
    Lowered f last slot (g.sink last hole).1 (g.sink last hole).2 := by
  induction g, hole using Layout.sink.induct last with
  | case1 g hole hc hle =>
    rw [Layout.sink, if_pos hc, if_pos hle]
    exact hg
  | case2 g hole hc hle ih =>
    rw [Layout.sink, if_pos hc, if_neg hle]
    exact ih (hg.down hc.1 hc.2)
  | case3 g hole hc =>
    rw [Layout.sink, if_neg hc]
    exact hg

/-- Another entry would have been lowered in the same way. -/
theorem put (hg : Lowered f last slot hole g) (entry : Entry) :
    Lowered (f.put slot entry) last slot hole (g.put hole entry) := by
  induction hg with
  | here => exact .here
  | @down hole g h1 hl _ ih =>
    have hchild : (g.put hole entry).smallerChild last hole = g.smallerChild last hole := by
      unfold smallerChild
      rw [put_of_ne g _ (by omega), put_of_ne g _ (by omega)]
    have hdown := ih.down h1 hl
    rwa [hchild, swap_put] at hdown

theorem bounds (hg : Lowered f last slot hole g) (hl : slot ≤ last) :
    slot ≤ hole ∧ hole ≤ last := by
  induction hg with
  | here => exact ⟨Nat.le_refl slot, hl⟩
  | @down hole g _ h2 _ ih =>
    have hc1 := le_smallerChild g last hole
    have hc2 := smallerChild_le (f := g) h2
    omega

theorem apply_hole (hg : Lowered f last slot hole g) : g hole = f slot := by
  induction hg with
  | here => rfl
  | down _ _ _ ih => rw [swap_right, ih]

/-- Behind the slot where the entry is now, nothing has changed. -/
theorem apply_of_lt (hg : Lowered f last slot hole g) {i : Nat} (hi : hole < i) : g i = f i := by
  induction hg with
  | here => rfl
  | @down hole g h1 _ _ ih =>
    have hc := le_smallerChild g last hole
    rw [swap_of_ne g (by omega) (by omega)]
    exact ih (by omega)

theorem key_le (hg : Lowered f last slot hole g) (hs : f.StrictlyOrdered last) :
    (f slot).key ≤ (f hole).key := by
  induction hg with
  | here => exact Int64.le_refl _
  | @down hole g h1 h2 _ ih =>
    have hc1 := le_smallerChild g last hole
    have hparent := hs _ (by omega) (smallerChild_le (f := g) h2)
    rw [smallerChild_div_two] at hparent
    exact Int64.le_trans ih (Int64.le_of_lt hparent)

/-- A lowered entry rises back to where it was. -/
theorem rise_eq (hg : Lowered f last slot hole g) (hs : f.StrictlyOrdered last) (hl : slot ≤ last) :
    g.rise hole = (slot, f) := by
  induction hg with
  | here => exact hs.ordered.rise_eq hl
  | @down hole g _ h2 hg ih =>
    have hc1 := le_smallerChild g last hole
    have hc2 := smallerChild_le (f := g) h2
    have hparent := smallerChild_div_two g last hole
    generalize g.smallerChild last hole = child at hc1 hc2 hparent ⊢
    have hlt : (f slot).key < (f child).key := by
      have hchild := hs child (by omega) hc2
      rw [hparent] at hchild
      exact Int64.lt_of_le_of_lt (hg.key_le hs) hchild
    have hmoves : 2 ≤ child ∧
        (g.swap hole child child).key < (g.swap hole child (child / 2)).key := by
      rw [hparent, swap_right, swap_left, hg.apply_hole, hg.apply_of_lt (by omega)]
      exact ⟨by omega, hlt⟩
    rw [rise, if_pos hmoves, hparent, swap_swap]
    exact ih

end Lowered

/-! ## Requests -/

/-- A key that was changed can be changed back, and every entry is in its slot again. -/
theorem exists_rekey_rekey (hs : f.StrictlyOrdered last) (h1 : 1 ≤ slot) (hl : slot ≤ last)
    (key : Key) : ∃ hole, 1 ≤ hole ∧ hole ≤ last ∧
      f.rekey last slot key hole = ⟨key, (f slot).id⟩ ∧
      (f.rekey last slot key).rekey last hole (f slot).key = f := by
  have hback : (f.setKey slot key).put slot (f slot) = f := by
    rw [setKey, put_put, put_eq_self]
  have hentry : f.setKey slot key slot = ⟨key, (f slot).id⟩ := put_same ..
  by_cases hlt : key < (f slot).key
  · have hrekey : f.rekey last slot key = ((f.setKey slot key).rise slot).2 := if_pos hlt
    have hg : Lifted (f.setKey slot key) slot _ _ := Lifted.here.rise
    have hb := hg.bounds h1
    have hhole := hg.apply_hole.trans hentry
    have hreturn := (hback ▸ hg.put (f slot)).sink_eq hs h1 hl
    refine ⟨_, hb.1, Nat.le_trans hb.2 hl, by rw [hrekey, hhole], ?_⟩
    rw [hrekey, rekey, hhole, if_neg (Int64.not_lt.mpr (Int64.le_of_lt hlt)), if_pos hlt, setKey,
      hhole]
    exact congrArg Prod.snd hreturn
  · by_cases hgt : (f slot).key < key
    · have hrekey : f.rekey last slot key = ((f.setKey slot key).sink last slot).2 :=
        (if_neg hlt).trans (if_pos hgt)
      have hg : Lowered (f.setKey slot key) last slot _ _ := Lowered.here.sink
      have hb := hg.bounds hl
      have hhole := hg.apply_hole.trans hentry
      have hreturn := (hback ▸ hg.put (f slot)).rise_eq hs hl
      refine ⟨_, Nat.le_trans h1 hb.1, hb.2, by rw [hrekey, hhole], ?_⟩
      rw [hrekey, rekey, hhole, if_pos hgt, setKey, hhole]
      exact congrArg Prod.snd hreturn
    · obtain rfl : (f slot).key = key :=
        Int64.le_antisymm (Int64.not_lt.mp hlt) (Int64.not_lt.mp hgt)
      have hsame : f.rekey last slot (f slot).key = f := by
        rw [rekey, if_neg hlt, if_neg hgt]
        exact put_eq_self f slot
      exact ⟨slot, h1, hl, by rw [hsame], by rw [hsame, hsame]⟩

/-- The entry behind the last slot replaces a lifted one, and goes the way back in its place. -/
theorem Lifted.settle_swap (hg : Lifted f slot hole g) (h1 : 1 ≤ slot) (hl : slot ≤ last)
    (hs : (f.put slot (f (last + 1))).StrictlyOrdered last) :
    Agree last ((g.swap hole (last + 1)).settle last hole).2 (f.put slot (f (last + 1))) := by
  have hb := hg.bounds h1
  have hbehind : g (last + 1) = f (last + 1) := hg.apply_of_lt h1 (by omega)
  have hswap : Agree last (g.swap hole (last + 1)) (g.put hole (f (last + 1))) := by
    intro i _ hi
    by_cases hih : i = hole
    · rw [hih, swap_left, put_same, hbehind]
    · rw [swap_of_ne g hih (by omega), put_of_ne g _ hih]
  have hsettle := (hswap.settle hb.1 (Nat.le_trans hb.2 hl)).2
  rwa [(hg.put (f (last + 1))).settle_eq hs h1 hl] at hsettle

/-- An entry that was inserted can be removed, and every other entry is in its slot again. -/
theorem exists_remove_insert (hs : f.StrictlyOrdered last) (entry : Entry) :
    ∃ hole, 1 ≤ hole ∧ hole ≤ last + 1 ∧ f.insert last entry hole = entry ∧
      Agree last ((f.insert last entry).remove (last + 1) hole) f := by
  have hentry : f.put (last + 1) entry (last + 1) = entry := put_same ..
  by_cases hmoves : 2 ≤ last + 1 ∧
      (f.put (last + 1) entry (last + 1)).key < (f.put (last + 1) entry ((last + 1) / 2)).key
  · -- The first step makes room behind the last slot, and only then does the way lead through slots
    -- that are still there when the entry is removed.
    have hinsert : f.insert last entry =
        (((f.put (last + 1) entry).swap (last + 1) ((last + 1) / 2)).rise ((last + 1) / 2)).2 := by
      rw [insert, rise, if_pos hmoves]
    have h1 : 1 ≤ (last + 1) / 2 := by omega
    have hl : (last + 1) / 2 ≤ last := by omega
    rw [swap_put] at hinsert
    generalize (last + 1) / 2 = parent at hinsert h1 hl
    have hg : Lifted ((f.swap (last + 1) parent).put parent entry) parent _ _ := Lifted.here.rise
    have hb := hg.bounds h1
    have hmoved : (f.swap (last + 1) parent).put parent entry (last + 1) = f parent := by
      rw [put_of_ne _ _ (by omega), swap_left]
    have hback : Agree last f ((f.swap (last + 1) parent).put parent (f parent)) := by
      intro i _ hi
      by_cases hip : i = parent
      · rw [hip, put_same]
      · rw [put_of_ne _ _ hip, swap_of_ne f (by omega) hip]
    have hsettle := hg.settle_swap h1 hl (by rw [hmoved, put_put]; exact hs.congr hback)
    rw [hmoved, put_put] at hsettle
    refine ⟨_, hb.1, by omega, by rw [hinsert, hg.apply_hole, put_same], ?_⟩
    rw [hinsert, remove, if_pos (by omega)]
    intro i hi1 hil
    exact (hsettle i hi1 hil).trans (hback i hi1 hil).symm
  · have hinsert : f.insert last entry = f.put (last + 1) entry := by
      rw [insert, rise, if_neg hmoves]
    refine ⟨last + 1, by omega, Nat.le_refl _, by rw [hinsert, hentry], ?_⟩
    rw [hinsert, remove, if_neg (Nat.lt_irrefl _), swap_self]
    exact fun i _ hi => put_of_ne f entry (by omega)

end AddressableHeap.Layout
