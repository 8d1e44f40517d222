import AddressableHeap.Proofs.Layout.Basic
import Mathlib.Data.List.Nodup
import Mathlib.Logic.Equiv.Basic

/-!
# The members of a layout

Walks exchange entries and do nothing else, so the members stay the same up to their order. A request
adds, changes or removes the one member it names.
-/

namespace AddressableHeap.Layout

variable {f g : Layout} {last slot : Nat}

/-- The entries in the slots up to `last`, in the order of their slots. -/
def members (f : Layout) (last : Nat) : List Entry := (List.range' 1 last).map f

theorem mem_members {e : Entry} :
    e ∈ f.members last ↔ ∃ slot, 1 ≤ slot ∧ slot ≤ last ∧ f slot = e := by
  simp only [members, List.mem_map, List.mem_range'_1]
  constructor
  · rintro ⟨slot, hs, rfl⟩
    exact ⟨slot, hs.1, by omega, rfl⟩
  · rintro ⟨slot, h1, hl, rfl⟩
    exact ⟨slot, ⟨h1, by omega⟩, rfl⟩

theorem length_members (f : Layout) (last : Nat) : (f.members last).length = last := by
  simp [members]

theorem members_succ (f : Layout) (last : Nat) :
    f.members (last + 1) = f.members last ++ [f (last + 1)] := by
  simp [members, List.range'_concat, Nat.add_comm]

theorem members_congr (h : ∀ i, 1 ≤ i → i ≤ last → f i = g i) : f.members last = g.members last := by
  refine List.map_congr_left ?_
  intro i hi
  have := List.mem_range'_1.mp hi
  exact h i this.1 (by omega)

theorem swap_eq_comp (f : Layout) (a b : Nat) : f.swap a b = f ∘ Equiv.swap a b := by
  funext slot
  simp only [swap, Function.comp_apply, Equiv.swap_apply_def]
  split
  · rfl
  · split <;> rfl

/-- An exchange of two occupied slots permutes the members. -/
theorem members_swap_perm {a b : Nat} (ha : 1 ≤ a) (ha' : a ≤ last) (hb : 1 ≤ b) (hb' : b ≤ last) :
    ((f.swap a b).members last).Perm (f.members last) := by
  have hσ : ((List.range' 1 last).map (Equiv.swap a b)).Perm (List.range' 1 last) := by
    refine (List.perm_ext_iff_of_nodup ((List.nodup_range' ..).map (Equiv.injective _))
      (List.nodup_range' ..)).mpr ?_
    intro i
    rw [List.mem_map]
    constructor
    · rintro ⟨j, hj, rfl⟩
      rw [Equiv.swap_apply_def]
      rw [List.mem_range'_1] at hj ⊢
      split
      · omega
      · split <;> omega
    · intro hi
      refine ⟨Equiv.swap a b i, ?_, Equiv.swap_apply_self a b i⟩
      rw [Equiv.swap_apply_def]
      rw [List.mem_range'_1] at hi ⊢
      split
      · omega
      · split <;> omega
  rw [members, swap_eq_comp, ← List.map_map]
  exact hσ.map f

theorem members_rise_perm (h1 : 1 ≤ slot) (hl : slot ≤ last) :
    ((f.rise slot).2.members last).Perm (f.members last) := by
  induction f, slot using rise.induct with
  | case1 f slot hc ih =>
    rw [rise, if_pos hc]
    exact (ih (by omega) (by omega)).trans (members_swap_perm h1 hl (by omega) (by omega))
  | case2 f slot hc => rw [rise, if_neg hc]

theorem members_sink_perm (h1 : 1 ≤ slot) (hl : slot ≤ last) :
    ((f.sink last slot).2.members last).Perm (f.members last) := by
  induction f, slot using sink.induct last with
  | case1 f slot hc hle => rw [sink, if_pos hc, if_pos hle]
  | case2 f slot hc hle ih =>
    rw [sink, if_pos hc, if_neg hle]
    have hc1 := le_smallerChild f last slot
    have hc2 := smallerChild_le (f := f) hc.2
    exact (ih (by omega) hc2).trans (members_swap_perm h1 hl (by omega) hc2)
  | case3 f slot hc => rw [sink, if_neg hc]

theorem members_settle_perm (h1 : 1 ≤ slot) (hl : slot ≤ last) :
    ((f.settle last slot).2.members last).Perm (f.members last) := by
  unfold settle
  split
  · exact (members_rise_perm h1 hl).trans (members_sink_perm h1 hl)
  · exact members_sink_perm h1 hl

/-! ## Requests -/

theorem members_insert_perm (f : Layout) (last : Nat) (entry : Entry) :
    ((f.insert last entry).members (last + 1)).Perm (entry :: f.members last) := by
  refine (members_rise_perm (by omega) (Nat.le_refl _)).trans ?_
  rw [members_succ, put_same, members_congr fun i _ hi => put_of_ne f entry (by omega)]
  exact List.perm_append_singleton entry _

/-- Overwriting one slot exchanges one member for another. -/
theorem members_put_perm (f : Layout) (entry : Entry) (h1 : 1 ≤ slot) (hl : slot ≤ last) :
    (f slot :: (f.put slot entry).members last).Perm (entry :: f.members last) := by
  -- seen from behind the last slot, the entry of `slot` is put aside and `entry` taken in its place
  have hp := members_swap_perm (f := f.put (last + 1) entry) h1 (show slot ≤ last + 1 by omega)
    (show 1 ≤ last + 1 by omega) (Nat.le_refl _)
  rw [members_succ, members_succ, swap_right, put_same, put_of_ne f entry (by omega)] at hp
  have h₁ : ((f.put (last + 1) entry).swap slot (last + 1)).members last
      = (f.put slot entry).members last := members_congr fun i _ hi => by
    by_cases his : i = slot
    · rw [his, swap_left, put_same, put_same]
    · rw [swap_of_ne _ his (by omega), put_of_ne f entry his, put_of_ne f entry (by omega)]
  have h₂ : (f.put (last + 1) entry).members last = f.members last :=
    members_congr fun i _ hi => put_of_ne f entry (by omega)
  rw [h₁, h₂] at hp
  exact ((List.perm_append_singleton _ _).symm.trans hp).trans (List.perm_append_singleton _ _)

theorem members_rekey_perm (f : Layout) (key : Key) (h1 : 1 ≤ slot) (hl : slot ≤ last) :
    (f slot :: (f.rekey last slot key).members last).Perm
      (⟨key, (f slot).id⟩ :: f.members last) := by
  refine List.Perm.trans (List.Perm.cons _ ?_) (members_put_perm f ⟨key, (f slot).id⟩ h1 hl)
  unfold rekey
  split
  · exact members_rise_perm h1 hl
  · split
    · exact members_sink_perm h1 hl
    · exact List.Perm.refl _

theorem remove_last (f : Layout) (last : Nat) (h1 : 1 ≤ slot) :
    f.remove last slot last = f slot := by
  unfold remove
  split
  · rw [settle_frame h1 (by omega) (by omega), swap_right]
  · exact swap_right f slot last

theorem members_remove_perm (f : Layout) (h1 : 1 ≤ slot) (hl : slot ≤ last) :
    (f slot :: (f.remove last slot).members (last - 1)).Perm (f.members last) := by
  obtain ⟨n, rfl⟩ : ∃ n, last = n + 1 := ⟨last - 1, by omega⟩
  have hp : ((f.remove (n + 1) slot).members (n + 1)).Perm (f.members (n + 1)) := by
    refine List.Perm.trans ?_ (members_swap_perm h1 hl (by omega) (Nat.le_refl _))
    unfold remove
    split
    · rw [members_succ, members_succ, settle_frame h1 (by omega) (by omega)]
      exact (members_settle_perm h1 (by omega)).append_right _
    · exact List.Perm.refl _
  rw [members_succ, remove_last f _ h1] at hp
  exact (List.perm_append_singleton _ _).symm.trans hp

end AddressableHeap.Layout
