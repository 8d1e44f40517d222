import AddressableHeap.Proofs.Search.Rounds

/-!
# The moments of a search

Inside a round the notes and the frontier change again and again: a node is taken, and then one edge
after the other is looked along. The moments of a search are the states that it passes through, told by
the functions that it is made of. A run ends in one of three ways, and in each of them its last moment
says how; so what is true at every moment is true of everything that a run computes.
-/

namespace AddressableHeap.Search

variable {σ : Type} {watch : Observer σ} {g : Graph} {source target here node : Nat}
variable {edge : Edge} {pending edges : List Edge} {visit : Visit} {s₀ s s' : Search σ}

/-- The search from `s` to `s'` takes `node` from the frontier, finds it noted as `visit`, and notes it
as settled. -/
structure Takes (watch : Observer σ) (s : Search σ) (node : Nat) (visit : Visit) (s' : Search σ) :
    Prop where
  nonempty : s.frontier.heap.isEmpty = false
  removeMin : watch.removeMin s.frontier = .ok (.ok node, s'.frontier)
  get : Checked.get s.visits node = .ok visit
  set : Checked.set s.visits node { visit with settled := true } = .ok s'.visits

/-- A search for `target` that begins in `s₀` comes to be in `s`. It has settled `here` last, and has
still to look along the edges `pending`. -/
inductive Moment (watch : Observer σ) (g : Graph) (source target : Nat) (s₀ : Search σ) :
    Nat → List Edge → Search σ → Prop where
  /-- Nothing is settled yet. -/
  | start : Moment watch g source target s₀ source [] s₀
  /-- A node that is not the target is taken. -/
  | take {here node : Nat} {visit : Visit} {edges : List Edge} {s s' : Search σ} :
      Moment watch g source target s₀ here [] s → Takes watch s node visit s' → node ≠ target →
      g.neighbors node = .ok edges → Moment watch g source target s₀ node edges s'
  /-- An edge is looked along. -/
  | look {here : Nat} {edge : Edge} {pending : List Edge} {s s' : Search σ} :
      Moment watch g source target s₀ here (edge :: pending) s →
      relax watch here edge s = .ok (.ok (), s') →
      Moment watch g source target s₀ here pending s'

/-- A search that begins in `s₀` ends in `s'` with a verdict. -/
inductive Halts (watch : Observer σ) (g : Graph) (source target : Nat) (s₀ : Search σ) :
    Verdict → Search σ → Prop where
  /-- The frontier is empty. -/
  | exhausted {here : Nat} {s : Search σ} : Moment watch g source target s₀ here [] s →
      s.frontier.heap.isEmpty = true → Halts watch g source target s₀ (.ok none) s
  /-- The target is taken. -/
  | found {here : Nat} {visit : Visit} {nodes : List Nat} {s s' : Search σ} :
      Moment watch g source target s₀ here [] s → Takes watch s target visit s' →
      retrace s'.visits source (s'.visits.size - 1) target [target] = .ok nodes →
      Halts watch g source target s₀ (.ok (some ⟨visit.distance, nodes⟩)) s'
  /-- The frontier turns a node down. -/
  | refused {here : Nat} {edge : Edge} {pending : List Edge} {reason : Rejection}
      {s s' : Search σ} : Moment watch g source target s₀ here (edge :: pending) s →
      relax watch here edge s = .ok (.error reason, s') →
      Halts watch g source target s₀ (.error reason) s'

/-! ## Every run passes through its moments -/

namespace Moment

theorem of_relaxAll (hm : Moment watch g source target s₀ here edges s)
    {reply : Except Rejection Unit} (he : relaxAll watch here edges s = .ok (reply, s')) :
    (reply = .ok () → Moment watch g source target s₀ here [] s') ∧
      ∀ reason, reply = .error reason → Halts watch g source target s₀ (.error reason) s' := by
  induction edges generalizing s with
  | nil =>
    obtain ⟨rfl, rfl⟩ := Prod.mk.inj (Except.ok.inj he)
    exact ⟨fun _ => hm, fun reason h => by cases h⟩
  | cons edge edges ih =>
    simp only [relaxAll, Checked.bind_eq_ok] at he
    obtain ⟨⟨reply₁, s₁⟩, hrel, he⟩ := he
    cases reply₁ with
    | ok _ => exact ih (hm.look hrel) he
    | error reason₁ =>
      obtain ⟨rfl, rfl⟩ := Prod.mk.inj (Except.ok.inj he)
      constructor
      · intro h
        cases h
      · intro reason h
        rw [← Except.error.inj h]
        exact .refused hm hrel

theorem of_step (hm : Moment watch g source target s₀ here [] s)
    (hne : s.frontier.heap.isEmpty = false) {verdict? : Option Verdict}
    (he : step watch g source target s = .ok (verdict?, s')) :
    (verdict? = none → ∃ node, Moment watch g source target s₀ node [] s') ∧
      ∀ verdict, verdict? = some verdict → Halts watch g source target s₀ verdict s' := by
  unfold step at he
  simp only [Checked.bind_eq_ok] at he
  obtain ⟨⟨reply, w⟩, hrem, he⟩ := he
  obtain ⟨node, rfl⟩ := Observer.exists_ok_of_removeMin hne hrem
  simp only [Checked.bind_eq_ok] at he
  obtain ⟨visit, hget, visits, hset, he⟩ := he
  have ht : Takes watch s node visit ⟨visits, w⟩ := ⟨hne, hrem, hget, hset⟩
  split at he
  · rename_i htarget
    subst htarget
    simp only [Checked.bind_eq_ok] at he
    obtain ⟨nodes, hret, he⟩ := he
    obtain ⟨rfl, rfl⟩ := Prod.mk.inj (Except.ok.inj he)
    constructor
    · intro h
      cases h
    · intro verdict h
      rw [← Option.some.inj h]
      exact .found hm ht hret
  · rename_i htarget
    simp only [Checked.bind_eq_ok] at he
    obtain ⟨edges, hedges, ⟨reply, s₁⟩, hrel, he⟩ := he
    obtain ⟨hok, herror⟩ := (hm.take ht htarget hedges).of_relaxAll hrel
    cases reply with
    | ok _ =>
      obtain ⟨rfl, rfl⟩ := Prod.mk.inj (Except.ok.inj he)
      exact ⟨fun _ => ⟨node, hok rfl⟩, fun verdict h => by cases h⟩
    | error reason =>
      obtain ⟨rfl, rfl⟩ := Prod.mk.inj (Except.ok.inj he)
      constructor
      · intro h
        cases h
      · intro verdict h
        rw [← Option.some.inj h]
        exact herror reason rfl

/-- Wherever a run goes on from, it ends as its last moment says. -/
theorem of_run (hm : Moment watch g source target s₀ here [] s) {rounds : Nat} {verdict : Verdict}
    (he : run watch g source target rounds s = .ok (verdict, s')) :
    Halts watch g source target s₀ verdict s' := by
  obtain ⟨nodes, hl⟩ := exists_loop he
  clear he
  induction hl generalizing here with
  | idle hempty => exact .exhausted hm hempty
  | last hne _ hstep => exact (hm.of_step hne hstep).2 _ rfl
  | round hne _ hstep _ ih =>
    obtain ⟨node, hm₁⟩ := (hm.of_step hne hstep).1 rfl
    exact ih hm₁

end Moment

/-! ## At every moment the search is under way -/

theorem Takes.underway (ht : Takes watch s node visit s') (hg : g.Searchable source)
    (hu : Underway g source here [] s) :
    visit = s.notes node ∧ (s.notes node).Open ∧
      s'.notes = Function.update s.notes node { s.notes node with settled := true } ∧
      Underway g source node (g.edgesFrom node) s' := by
  have hne := hu.valid.isEmpty_eq_false_iff.mp ht.nonempty
  obtain ⟨node', w, hrem, hopen, hmin, hv, hlookup⟩ := hu.removeMin_ok watch hg hne
  obtain ⟨hnode, rfl⟩ := Prod.mk.inj (Except.ok.inj (ht.removeMin.symm.trans hrem))
  obtain rfl := Except.ok.inj hnode
  have hlt := hu.lt_size hg hopen.2
  obtain rfl := Except.ok.inj (ht.get.symm.trans (hu.get_eq hlt))
  obtain ⟨visits, hset, hsize, hnotes⟩ := hu.set_eq hlt { s.notes node with settled := true }
  obtain rfl := Except.ok.inj (ht.set.symm.trans hset)
  exact ⟨rfl, hopen, hnotes, hu.settle hopen hmin hsize hnotes hv hlookup⟩

theorem Moment.underway (hm : Moment watch g source target s₀ here pending s)
    (hg : g.Searchable source) (hu : Underway g source source [] s₀) :
    Underway g source here pending s ∧
      ∀ edge ∈ pending, edge ∈ g.edgesFrom here ∧ (s.notes here).settled = true := by
  induction hm with
  | start => exact ⟨hu, fun edge h => absurd h List.not_mem_nil⟩
  | @take here node visit edges s s' _ ht _ hedges ih =>
    obtain ⟨-, hopen, hnotes, hu'⟩ := ht.underway hg ih.1
    rw [Graph.neighbors_eq (ih.1.lt_size hg hopen.2), Except.ok.injEq] at hedges
    subst hedges
    refine ⟨hu', fun edge h => ⟨h, ?_⟩⟩
    rw [hnotes, Function.update_self]
  | @look here edge pending s s' _ hrel ih =>
    obtain ⟨hu₁, hpending⟩ := ih
    obtain ⟨he, hhere⟩ := hpending edge (List.mem_cons_self ..)
    obtain ⟨reply, s₁, hrel₁, -, hok⟩ := relax_total watch hg hu₁ hhere he
    obtain ⟨hreply, rfl⟩ := Prod.mk.inj (Except.ok.inj (hrel.symm.trans hrel₁))
    obtain ⟨hu', hsettled⟩ := hok hreply.symm
    refine ⟨hu', fun e h => ⟨(hpending e (List.mem_cons_of_mem _ h)).1, ?_⟩⟩
    rw [hsettled, hhere]

end AddressableHeap.Search
