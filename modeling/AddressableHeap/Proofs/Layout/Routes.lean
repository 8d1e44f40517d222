import AddressableHeap.Proofs.Layout.Order
import Mathlib.Data.List.Basic

/-!
# Which entries a walk moves

A walk is an exchange after an exchange, but what it does can be said of the layout it starts from. The
entry goes along a route: towards the leaves from each slot to the child with the smaller key, towards
the root from each slot to its parent, past the entries that are out of order with it and no further.
Those that it passes move one place each, to where it came from, and no other entry moves.

A route towards the root is part of the one branch that leads from the root to the slot where it
starts. The keys along a branch are in order, so a walk towards the root inserts the entry among them,
and an entry that is tied with others comes to lie behind them.
-/

namespace AddressableHeap

/-- The slots that lead from the root to `slot`: all slots that `slot` descends from, and itself. -/
def Tree.branch (slot : Nat) : List Nat :=
  if slot = 0 then [] else branch (slot / 2) ++ [slot]
termination_by slot

namespace Layout

variable {f f' g : Layout} {last slot next : Nat} {route : List Nat} {key : Key} {entry : Entry}

/-! ## Routes -/

/-- Of the children of `slot` among the slots up to `last`, `child` is the one with the smaller key, and
the first one if their keys are the same. -/
structure LeastChild (f : Layout) (last slot child : Nat) : Prop where
  parent : child / 2 = slot
  le_last : child ≤ last
  least : ∀ other, other ≤ last → other / 2 = slot → (f child).key ≤ (f other).key
  first : ∀ other, other ≤ last → other / 2 = slot → (f other).key = (f child).key → child ≤ other

/-- An entry under `key` that starts from `slot` goes through the slots of the route, one after the
other, on its way towards the leaves. -/
inductive SinksAlong (f : Layout) (last : Nat) (key : Key) : Nat → List Nat → Prop where
  /-- It does not pass children with keys that are not below its own. -/
  | stay {slot : Nat} : (∀ child, child ≤ last → child / 2 = slot → key ≤ (f child).key) →
      SinksAlong f last key slot []
  /-- It passes the child with the smaller key if that key is below its own. -/
  | pass {slot child : Nat} {route : List Nat} : f.LeastChild last slot child →
      (f child).key < key → SinksAlong f last key child route →
      SinksAlong f last key slot (child :: route)

/-- An entry under `key` that starts from `slot` goes through the slots of the route, one after the
other, on its way towards the root. -/
inductive RisesAlong (f : Layout) (key : Key) : Nat → List Nat → Prop where
  /-- It does not pass a parent with a key that is not above its own. -/
  | stay {slot : Nat} : (2 ≤ slot → (f (slot / 2)).key ≤ key) → RisesAlong f key slot []
  /-- It passes a parent with a key above its own. -/
  | pass {slot : Nat} {route : List Nat} : 2 ≤ slot → key < (f (slot / 2)).key →
      RisesAlong f key (slot / 2) route → RisesAlong f key slot (slot / 2 :: route)

/-- An entry under `key` that starts from `slot` goes along the route, be it towards the leaves or towards
the root, and in the other direction it does not pass anything. -/
def SettlesAlong (f : Layout) (last : Nat) (key : Key) (slot : Nat) (route : List Nat) : Prop :=
  f.SinksAlong last key slot route ∧ f.RisesAlong key slot [] ∨
    f.SinksAlong last key slot [] ∧ f.RisesAlong key slot route

/-- An entry went from `slot` along the route: those that were on the route have moved one place each
towards its start, the entry lies at its end, and in all other slots nothing has changed. -/
structure Shifts (f g : Layout) (slot : Nat) (route : List Nat) (entry : Entry) : Prop where
  off : ∀ i, i ∉ slot :: route → g i = f i
  along : (slot :: route).map g = route.map f ++ [entry]

theorem leastChild_smallerChild (h1 : 1 ≤ slot) (hl : 2 * slot ≤ last) :
    f.LeastChild last slot (f.smallerChild last slot) where
  parent := smallerChild_div_two f last slot
  le_last := smallerChild_le hl
  least := by
    rintro other hother rfl
    exact smallerChild_key_le hother
  first := by
    rintro other hother rfl hkey
    have hsides : other = 2 * (other / 2) ∨ other = 2 * (other / 2) + 1 := by omega
    unfold smallerChild at hkey ⊢
    split
    · rename_i hright
      rw [if_pos hright] at hkey
      rcases hsides with hside | hside
      · -- the first child is not tied with the second one if that was preferred
        rw [← hside] at hright hkey
        exact absurd hkey.symm (Int64.ne_of_lt hright.2)
      · exact Nat.le_of_eq hside.symm
    · omega

namespace SinksAlong

theorem lt_of_mem (hr : f.SinksAlong last key slot route) (h1 : 1 ≤ slot) :
    ∀ i ∈ route, slot < i ∧ i ≤ last := by
  induction hr with
  | stay => exact fun i hi => absurd hi List.not_mem_nil
  | @pass slot child route hchild _ _ ih =>
    have hpar := hchild.parent
    intro i hi
    rcases List.mem_cons.mp hi with rfl | hi
    · exact ⟨by omega, hchild.le_last⟩
    · have := ih (by omega) i hi
      omega

/-- The route depends on the entries behind its start alone. -/
theorem congr (hr : f.SinksAlong last key slot route) (h1 : 1 ≤ slot)
    (h : ∀ i, slot < i → i ≤ last → f i = g i) : g.SinksAlong last key slot route := by
  induction hr with
  | @stay slot hstay =>
    refine .stay fun child hl hpar => ?_
    rw [← h child (by omega) hl]
    exact hstay child hl hpar
  | @pass slot child route hchild hlt _ ih =>
    have hpar := hchild.parent
    have hsame := h child (by omega) hchild.le_last
    refine .pass ⟨hpar, hchild.le_last, ?_, ?_⟩ (hsame ▸ hlt)
      (ih (by omega) fun i hi hl => h i (by omega) hl)
    · intro other hl hother
      rw [← hsame, ← h other (by omega) hl]
      exact hchild.least other hl hother
    · intro other hl hother hkey
      rw [← hsame, ← h other (by omega) hl] at hkey
      exact hchild.first other hl hother hkey

end SinksAlong

namespace RisesAlong

theorem lt_of_mem (hr : f.RisesAlong key slot route) : ∀ i ∈ route, 1 ≤ i ∧ i < slot := by
  induction hr with
  | stay => exact fun i hi => absurd hi List.not_mem_nil
  | @pass slot route h2 _ _ ih =>
    intro i hi
    rcases List.mem_cons.mp hi with rfl | hi
    · omega
    · have := ih i hi
      omega

/-- The route depends on the entries before its start alone. -/
theorem congr (hr : f.RisesAlong key slot route) (h : ∀ i, i < slot → f i = g i) :
    g.RisesAlong key slot route := by
  induction hr with
  | @stay slot hstay =>
    refine .stay fun h2 => ?_
    rw [← h (slot / 2) (by omega)]
    exact hstay h2
  | @pass slot route h2 hlt _ ih =>
    exact .pass h2 (h (slot / 2) (by omega) ▸ hlt) (ih fun i hi => h i (by omega))

end RisesAlong

namespace Shifts

theorem refl (f : Layout) (slot : Nat) : Shifts f f slot [] (f slot) :=
  ⟨fun _ _ => rfl, rfl⟩

/-- What was in the slot where the route starts does not matter. -/
theorem congr (hs : Shifts f g slot route entry) (hn : slot ∉ route)
    (h : ∀ i, i ≠ slot → f i = f' i) : Shifts f' g slot route entry := by
  constructor
  · intro i hi
    rw [hs.off i hi]
    exact h i (List.ne_of_not_mem_cons hi)
  · rw [hs.along]
    refine congrArg (· ++ [entry]) (List.map_congr_left ?_)
    rintro i hi
    exact h i fun his => hn (his ▸ hi)

/-- An exchange with the entry in the next slot makes the route longer by that slot. -/
theorem cons (hs : Shifts (f.swap slot next) g next route (f slot)) (hn : slot ≠ next)
    (hroute : ∀ i ∈ route, i ≠ slot ∧ i ≠ next) : Shifts f g slot (next :: route) (f slot) := by
  have hout : slot ∉ next :: route := by
    rw [List.mem_cons, not_or]
    exact ⟨hn, fun hmem => (hroute slot hmem).1 rfl⟩
  constructor
  · intro i hi
    rw [List.mem_cons, not_or] at hi
    rw [hs.off i hi.2]
    exact swap_of_ne f hi.1 (List.ne_of_not_mem_cons hi.2)
  · have hmoved : g slot = f next := by rw [hs.off slot hout, swap_left]
    have hpassed : route.map (f.swap slot next) = route.map f :=
      List.map_congr_left fun i hi => swap_of_ne f (hroute i hi).1 (hroute i hi).2
    rw [List.map_cons, hs.along, hmoved, hpassed]
    rfl

end Shifts

/-! ## Walks -/

theorem sink_shifts (f : Layout) (last : Nat) (h1 : 1 ≤ slot) :
    ∃ route, f.SinksAlong last (f slot).key slot route ∧
      Shifts f (f.sink last slot).2 slot route (f slot) := by
  induction f, slot using sink.induct last with
  | case1 f slot hc hle =>
    rw [sink, if_pos hc, if_pos hle]
    refine ⟨[], .stay fun child hl hpar => ?_, .refl f slot⟩
    exact (below_iff h1).mpr (fun _ => hle) child (by omega) hl hpar
  | case2 f slot hc hle ih =>
    rw [sink, if_pos hc, if_neg hle]
    have hchild := leastChild_smallerChild (f := f) h1 hc.2
    generalize f.smallerChild last slot = child at hle ih hchild ⊢
    have hpar := hchild.parent
    obtain ⟨route, hroute, hshifts⟩ := ih (by omega)
    rw [swap_right] at hroute hshifts
    have hmem := hroute.lt_of_mem (by omega)
    have hsame : ∀ i, child < i → f.swap slot child i = f i :=
      fun i hi => swap_of_ne f (by omega) (by omega)
    exact ⟨child :: route, .pass hchild (Int64.not_le.mp hle)
      (hroute.congr (by omega) fun i hi _ => hsame i hi),
      hshifts.cons (by omega) fun i hi => by have := hmem i hi; omega⟩
  | case3 f slot hc =>
    rw [sink, if_neg hc]
    exact ⟨[], .stay fun child hl hpar => absurd ⟨h1, by omega⟩ hc, .refl f slot⟩

theorem rise_shifts (f : Layout) (slot : Nat) :
    ∃ route, f.RisesAlong (f slot).key slot route ∧
      Shifts f (f.rise slot).2 slot route (f slot) := by
  induction f, slot using rise.induct with
  | case1 f slot hc ih =>
    rw [rise, if_pos hc]
    obtain ⟨route, hroute, hshifts⟩ := ih
    rw [swap_right] at hroute hshifts
    have hmem := hroute.lt_of_mem
    have hsame : ∀ i, i < slot / 2 → f.swap slot (slot / 2) i = f i :=
      fun i hi => swap_of_ne f (by omega) (by omega)
    exact ⟨slot / 2 :: route, .pass hc.1 hc.2 (hroute.congr hsame),
      hshifts.cons (by omega) fun i hi => by have := hmem i hi; omega⟩
  | case2 f slot hc =>
    rw [rise, if_neg hc]
    exact ⟨[], .stay fun h2 => Int64.not_lt.mp fun hlt => hc ⟨h2, hlt⟩, .refl f slot⟩

/-- An entry that is in order neither with its parent nor with its children is not met with. -/
theorem settle_shifts (ho : f.OrderedBut last slot) (h1 : 1 ≤ slot) :
    ∃ route, f.SettlesAlong last (f slot).key slot route ∧
      Shifts f (f.settle last slot).2 slot route (f slot) := by
  unfold settle
  split
  · rename_i hstayed
    rw [sink_eq_self hstayed]
    obtain ⟨route, hroute, hshifts⟩ := f.rise_shifts slot
    have hbelow := (sink_fst_eq_iff h1).mp hstayed
    exact ⟨route, .inr ⟨.stay fun child hl hpar => hbelow child (by omega) hl hpar, hroute⟩, hshifts⟩
  · rename_i hmoved
    obtain ⟨route, hroute, hshifts⟩ := f.sink_shifts last h1
    have habove := ho.above fun hb => hmoved ((sink_fst_eq_iff h1).mpr hb)
    exact ⟨route, .inl ⟨hroute, .stay habove⟩, hshifts⟩

/-! ## Requests -/

theorem rise_put_shifts (f : Layout) (slot : Nat) (entry : Entry) :
    ∃ route, f.RisesAlong entry.key slot route ∧
      Shifts f ((f.put slot entry).rise slot).2 slot route entry := by
  obtain ⟨route, hroute, hshifts⟩ := (f.put slot entry).rise_shifts slot
  rw [put_same] at hroute hshifts
  have hback := hroute.congr fun i hi => put_of_ne f entry (by omega)
  exact ⟨route, hback, hshifts.congr (fun hmem => Nat.lt_irrefl _ (hback.lt_of_mem _ hmem).2)
    fun i hi => put_of_ne f entry hi⟩

theorem sink_put_shifts (f : Layout) (last : Nat) (entry : Entry) (h1 : 1 ≤ slot) :
    ∃ route, f.SinksAlong last entry.key slot route ∧
      Shifts f ((f.put slot entry).sink last slot).2 slot route entry := by
  obtain ⟨route, hroute, hshifts⟩ := (f.put slot entry).sink_shifts last h1
  rw [put_same] at hroute hshifts
  have hback := hroute.congr h1 fun i hi _ => put_of_ne f entry (by omega)
  exact ⟨route, hback, hshifts.congr (fun hmem => Nat.lt_irrefl _ (hback.lt_of_mem h1 _ hmem).1)
    fun i hi => put_of_ne f entry hi⟩

theorem rekey_shifts_of_lt (last : Nat) (hlt : key < (f slot).key) :
    ∃ route, f.RisesAlong key slot route ∧
      Shifts f (f.rekey last slot key) slot route ⟨key, (f slot).id⟩ := by
  rw [rekey, if_pos hlt]
  exact f.rise_put_shifts slot ⟨key, (f slot).id⟩

theorem rekey_shifts_of_gt (last : Nat) (h1 : 1 ≤ slot) (hgt : (f slot).key < key) :
    ∃ route, f.SinksAlong last key slot route ∧
      Shifts f (f.rekey last slot key) slot route ⟨key, (f slot).id⟩ := by
  rw [rekey, if_neg (Int64.not_lt.mpr (Int64.le_of_lt hgt)), if_pos hgt]
  exact f.sink_put_shifts last ⟨key, (f slot).id⟩ h1

/-- The last entry takes over the slot of the one that is removed, and goes one way or the other. -/
theorem remove_shifts (ho : f.Ordered last) (h1 : 1 ≤ slot) (hlt : slot < last) :
    ∃ route, f.SettlesAlong (last - 1) (f last).key slot route ∧
      Shifts (f.swap slot last) (f.remove last slot) slot route (f last) := by
  rw [remove, if_pos hlt]
  obtain ⟨route, hroute, hshifts⟩ := settle_shifts (ho.swap_last hlt) h1
  rw [swap_left] at hroute hshifts
  have hdown : ∀ {way}, (f.swap slot last).SinksAlong (last - 1) (f last).key slot way →
      f.SinksAlong (last - 1) (f last).key slot way :=
    fun hr => hr.congr h1 fun i hi hl => swap_of_ne f (by omega) (by omega)
  have hup : ∀ {way}, (f.swap slot last).RisesAlong (f last).key slot way →
      f.RisesAlong (f last).key slot way :=
    fun hr => hr.congr fun i hi => swap_of_ne f (by omega) (by omega)
  exact ⟨route, hroute.imp (.imp hdown hup) (.imp hdown hup), hshifts⟩

/-! ## Insertion into a branch -/

theorem le_of_mem_branch : ∀ i ∈ Tree.branch slot, 1 ≤ i ∧ i ≤ slot := by
  induction slot using Nat.strongRecOn with
  | _ slot ih =>
    intro i hi
    rw [Tree.branch] at hi
    split at hi
    · exact absurd hi List.not_mem_nil
    · rcases List.mem_append.mp hi with hi | hi
      · have := ih (slot / 2) (by omega) i hi
        omega
      · rw [List.mem_singleton.mp hi]
        omega

/-- No key on a branch is above the one at its end. -/
theorem Ordered.key_le_of_mem_branch (ho : f.Ordered last) (hl : slot ≤ last) :
    ∀ i ∈ Tree.branch slot, (f i).key ≤ (f slot).key := by
  induction slot using Nat.strongRecOn with
  | _ slot ih =>
    intro i hi
    rw [Tree.branch] at hi
    split at hi
    · exact absurd hi List.not_mem_nil
    · rcases List.mem_append.mp hi with hi | hi
      · by_cases h2 : 2 ≤ slot
        · exact Int64.le_trans (ih (slot / 2) (by omega) (by omega) i hi) (ho slot h2 hl)
        · have hparent := le_of_mem_branch i hi
          omega
      · rw [List.mem_singleton.mp hi]
        exact Int64.le_refl _

/-- The entry was inserted among those on the way from the root to `slot`, where its own place is the
end of that branch. It lies behind all whose keys are not above its own and before all others, which have
moved one place each, and off the branch nothing has changed. -/
structure InsertsAt (f g : Layout) (slot : Nat) (entry : Entry) : Prop where
  off : ∀ i, i ∉ Tree.branch slot → g i = f i
  along : ∃ before after, (Tree.branch (slot / 2)).map f = before ++ after ∧
    (Tree.branch slot).map g = before ++ entry :: after ∧
    (∀ e ∈ before, e.key ≤ entry.key) ∧ ∀ e ∈ after, entry.key < e.key

/-- A route towards the root cuts the branch where it ends. -/
theorem RisesAlong.exists_branch_eq (hr : f.RisesAlong key slot route) (ho : f.Ordered (slot / 2)) :
    ∃ rest, Tree.branch (slot / 2) = rest ++ route.reverse ∧ (∀ i ∈ rest, (f i).key ≤ key) ∧
      ∀ i ∈ route, key < (f i).key := by
  induction hr with
  | @stay slot hstay =>
    refine ⟨Tree.branch (slot / 2), (List.append_nil _).symm, ?_, fun i hi => absurd hi List.not_mem_nil⟩
    intro i hi
    have hbounds := le_of_mem_branch i hi
    exact Int64.le_trans (ho.key_le_of_mem_branch (Nat.le_refl _) i hi) (hstay (by omega))
  | @pass slot route h2 hlt _ ih =>
    obtain ⟨rest, hbranch, hrest, hroute⟩ := ih (ho.mono (by omega))
    refine ⟨rest, ?_, hrest, ?_⟩
    · rw [Tree.branch, if_neg (by omega), hbranch, List.reverse_cons, List.append_assoc]
    · intro i hi
      rcases List.mem_cons.mp hi with rfl | hi
      · exact hlt
      · exact hroute i hi

/-- An entry that goes towards the root is inserted into its branch. -/
theorem Shifts.insertsAt (hs : Shifts f g slot route entry) (hr : f.RisesAlong entry.key slot route)
    (ho : f.Ordered (slot / 2)) (h1 : 1 ≤ slot) : InsertsAt f g slot entry := by
  obtain ⟨rest, hbranch, hrest, hroute⟩ := hr.exists_branch_eq ho
  have hcut : Tree.branch slot = rest ++ (slot :: route).reverse := by
    rw [Tree.branch, if_neg (by omega), hbranch, List.reverse_cons, List.append_assoc]
  constructor
  · intro i hi
    refine hs.off i fun hmem => hi ?_
    rw [hcut]
    exact List.mem_append_right _ (List.mem_reverse.mpr hmem)
  · refine ⟨rest.map f, (route.map f).reverse, ?_, ?_, ?_, ?_⟩
    · rw [hbranch, List.map_append, List.map_reverse]
    · have hkept : rest.map g = rest.map f := by
        refine List.map_congr_left fun i hi => hs.off i ?_
        rw [List.mem_cons, not_or]
        constructor
        · have hbefore := le_of_mem_branch i (hbranch ▸ List.mem_append_left _ hi)
          omega
        · exact fun hmem => Int64.not_lt.mpr (hrest i hi) (hroute i hmem)
      rw [hcut, List.map_append, hkept, List.map_reverse, hs.along, List.reverse_append]
      rfl
    · rintro e he
      obtain ⟨i, hi, rfl⟩ := List.mem_map.mp he
      exact hrest i hi
    · rintro e he
      obtain ⟨i, hi, rfl⟩ := List.mem_map.mp (List.mem_reverse.mp he)
      exact hroute i hi

theorem insert_insertsAt (ho : f.Ordered last) (entry : Entry) :
    InsertsAt f (f.insert last entry) (last + 1) entry := by
  obtain ⟨route, hroute, hshifts⟩ := f.rise_put_shifts (last + 1) entry
  exact hshifts.insertsAt hroute (ho.mono (by omega)) (by omega)

theorem rekey_insertsAt (ho : f.Ordered last) (h1 : 1 ≤ slot) (hl : slot ≤ last)
    (hlt : key < (f slot).key) : InsertsAt f (f.rekey last slot key) slot ⟨key, (f slot).id⟩ := by
  obtain ⟨route, hroute, hshifts⟩ := rekey_shifts_of_lt last hlt
  exact hshifts.insertsAt hroute (ho.mono (by omega)) h1

end Layout

end AddressableHeap
