import AddressableHeap.Proofs.Search.Account

/-!
# The course of a search

Each function of a search performs acts that follow the grammar and are accounted for. A heap that holds
exactly the nodes of the frontier turns a node down only for want of room: it is asked to take in nodes
that it does not hold, to change the keys of nodes that it holds, and for its nearest node when it has
one.
-/

namespace AddressableHeap

variable {σ : Type} {watch : Observer σ} {g : Graph} {source target here node : Nat}
variable {edge : Edge} {pending edges : List Edge} {acts acts₁ acts₂ : List Act}
variable {a b c : Option Nat}

/-- What is no member is taken in, or it is turned down for want of room. -/
theorem Heap.Valid.insert_new_cases {h h' : Heap} (hv : h.Valid) {key : Key} {id : Id}
    {reply : Except Rejection Unit} (hn : h.lookup id = none)
    (he : h.insert key id = .ok (reply, h')) :
    reply = .ok () ∧ h.Becomes h' (h.size + 1) (Function.update h.lookup id (some key)) ∨
      ∃ reason, reply = .error reason ∧ reason.Cramped := by
  by_cases hs : h.size = h.capacity
  · rw [insert_full hs] at he
    cases he
    exact .inr ⟨_, rfl, trivial⟩
  · rcases Nat.lt_or_ge id h.capacity with hid | hid
    · obtain ⟨k, hk, hb⟩ := hv.insert_ok key hid hn
      rw [hk] at he
      cases he
      exact .inl ⟨rfl, hb⟩
    · rw [insert_outOfRange hs hid] at he
      cases he
      exact .inr ⟨_, rfl, trivial⟩

/-- A distance that is not told from "unreached" is that of an unreached node. -/
theorem Visit.distance_of_not_reached {visit : Visit} (h : ¬ visit.Reached) :
    visit.distance = unreached.distance := by
  have hle : unreached.dist ≤ visit.dist := Nat.not_lt.mp h
  have hmax : unreached.dist = 2 ^ 64 - 1 := rfl
  have hlt : visit.dist < 2 ^ 64 := visit.distance.toNat_lt
  refine UInt64.toNat_inj.mp ?_
  change visit.dist = unreached.dist
  omega

theorem Key.toInt_ofDistance_of_lt {distance : UInt64} (h : distance.toNat < 2 ^ 63) :
    (Key.ofDistance distance).toInt = distance.toNat := by
  rw [Key.toInt_ofDistance]
  omega

namespace Search

variable {s s₁ s' : Search σ}

/-- Between two moments, a search that had an account of its acts performed `acts'` more, which follow
the grammar, and has an account of all of them. -/
structure Advances (watch : Observer σ) (g : Graph) (source : Nat) (acts acts' : List Act)
    (last last' : Option Nat) (s s' : Search σ) : Prop where
  performs : watch.Performs s.frontier acts' s'.frontier
  course : Course last acts' last'
  account : Account g source (acts ++ acts') s'.notes

namespace Advances

theorem refl (ha : Account g source acts s.notes) (a : Option Nat) :
    Advances watch g source acts [] a a s s :=
  ⟨.refl _, .nil a, by rwa [List.append_nil]⟩

theorem trans (h : Advances watch g source acts acts₁ a b s s₁)
    (h' : Advances watch g source (acts ++ acts₁) acts₂ b c s₁ s') :
    Advances watch g source acts (acts₁ ++ acts₂) a c s s' :=
  ⟨h.performs.trans h'.performs, h.course.append h'.course, by
    rw [← List.append_assoc]
    exact h'.account⟩

end Advances

/-! ## Looking along edges -/

/-- What an act that notes a shorter way from `here` to `node` and enters that node is like. -/
structure Enters (watch : Observer σ) (here node : Nat) (s : Search σ) (act : Act)
    (reply : Except Rejection Unit) (w : Watched σ) : Prop where
  performs : watch.Performs s.frontier [act] w
  relaxes : act.Relaxes here
  taken : act.taken? = none
  offered : act.offered? = none ∨ act.offered? = some node ∧ ¬ (s.notes node).Reached
  cramped : ∀ reason, reply = .error reason → reason.Cramped

variable {distance : UInt64} {key : Key} {w : Watched σ} {reply : Except Rejection Unit}

/-- A node that the heap does not hold is found. -/
theorem Underway.find (hu : Underway g source here pending s)
    (hs : (s.notes node).settled = false) (hless : distance < (s.notes node).distance)
    (hkey : key.toInt = distance.toNat) (hk : s.frontier.heap.lookup node = none)
    (hent : Search.enter watch key node ⟨s.frontier.heap, watch.react
        (.notice (.relaxed here node distance (s.notes node).distance)) s.frontier.seen⟩
      = .ok (reply, w)) :
    ∃ act, Enters watch here node s act reply w := by
  -- it is neither settled nor a node of the frontier, so no way to it was known
  have hnot : ¬ (s.notes node).Reached := by
    intro hr
    have hlook := congrFun hu.lookup_eq node
    rw [hk, Function.comp_apply, Visit.frontierKey_of_open ⟨hs, hr⟩] at hlook
    exact nomatch hlook
  have hfresh : ∀ e ∈ s.frontier.heap.toList, e.id ≠ node := by
    rintro e hmem hid
    have hmember := hu.valid.lookup_of_mem hmem
    rw [hid, hk] at hmember
    exact nomatch hmember
  rw [Visit.distance_of_not_reached hnot] at hless hent
  generalize hseen : watch.react _ s.frontier.seen = seen at hent
  rw [enter_of_none (w := ⟨s.frontier.heap, seen⟩) hu.valid hk] at hent
  obtain ⟨members, hp⟩ := Observer.insert_performs (w := ⟨s.frontier.heap, seen⟩) hu.valid hent
  subst hseen
  refine ⟨_, hp.of_notice, .find hless hkey hfresh, rfl, .inr ⟨rfl, hnot⟩, ?_⟩
  rintro reason rfl
  rcases hu.valid.insert_new_cases hk (Observer.of_around_eq_ok hent) with
    ⟨hok, -⟩ | ⟨reason', hreason, hcramped⟩
  · exact nomatch hok
  · rw [Except.error.inj hreason]
    exact hcramped

/-- For a node that the heap holds, a shorter way is found, and the heap lowers its key. -/
theorem Underway.shorten (hu : Underway g source here pending s) (hg : g.Searchable source)
    (hless : distance < (s.notes node).distance) (hkey : key.toInt = distance.toNat)
    {former : Key} (hk : s.frontier.heap.lookup node = some former)
    (hent : Search.enter watch key node ⟨s.frontier.heap, watch.react
        (.notice (.relaxed here node distance (s.notes node).distance)) s.frontier.seen⟩
      = .ok (reply, w)) :
    ∃ act, Enters watch here node s act reply w := by
  have hlook := congrFun hu.lookup_eq node
  rw [hk, Function.comp_apply] at hlook
  obtain ⟨hopen, hformer⟩ := Visit.open_of_frontierKey hlook.symm
  have hformerkey : former.toInt = (s.notes node).distance.toNat := by
    rw [hformer]
    exact Key.toInt_ofDistance_of_lt (hu.settling.dist_lt hg hopen.2)
  have hlower : key < former := by
    rw [Int64.lt_iff_toInt_lt, hkey, hformerkey]
    exact Int.ofNat_lt.mpr (UInt64.lt_iff_toNat_lt.mp hless)
  generalize hseen : watch.react _ s.frontier.seen = seen at hent
  rw [enter_of_some (w := ⟨s.frontier.heap, seen⟩) hu.valid hk] at hent
  obtain ⟨h', hupdate, -⟩ := hu.valid.update_ok key hk
  have hok : reply = .ok () := by
    have hreply := Observer.of_around_eq_ok hent
    rw [hupdate] at hreply
    exact (Prod.mk.inj (Except.ok.inj hreply)).1.symm
  subst hok
  obtain ⟨members, hp⟩ := Observer.update_performs (w := ⟨s.frontier.heap, seen⟩) hu.valid hent
  subst hseen
  exact ⟨_, hp.of_notice,
    .shorten hless hkey hformerkey hlower (hu.valid.lookup_eq_some_iff.mp hk), rfl, .inl rfl,
    fun reason h => nomatch h⟩

/-- An edge that leads to a shorter way makes an act, and no other one does. The act is turned down only
for want of room. -/
theorem relax_advances (hg : g.Searchable source)
    (hu : Underway g source here (edge :: pending) s) (hhere : (s.notes here).settled = true)
    (he : edge ∈ g.edgesFrom here) (ha : Account g source acts s.notes)
    (hrel : relax watch here edge s = .ok (reply, s')) :
    ∃ acts', Advances watch g source acts acts' (some here) (some here) s s' ∧
      ∀ reason, reply = .error reason → reason.Cramped := by
  rcases relax_cases watch hg hu hhere he with
    ⟨hskip, -⟩ | ⟨distance, visits, hs, hless, hd, -, hnotes, hact⟩
  · rw [hskip] at hrel
    obtain ⟨rfl, rfl⟩ := Prod.mk.inj (Except.ok.inj hrel)
    exact ⟨[], .refl ha _, fun reason h => nomatch h⟩
  · rw [hact, Checked.bind_eq_ok] at hrel
    obtain ⟨⟨reply₁, w⟩, hent, hrel⟩ := hrel
    obtain ⟨rfl, rfl⟩ := Prod.mk.inj (Except.ok.inj hrel)
    have hadd := hu.settling.dist_add_lt hg (hu.settling.reached here hhere) edge.weight
    have hkey : (Key.ofDistance distance).toInt = distance.toNat :=
      Key.toInt_ofDistance_of_lt (hd ▸ hadd)
    have hreached : (⟨distance, some here, false⟩ : Visit).Reached :=
      Visit.reached_of_lt (UInt64.lt_iff_toNat_lt.mp hless)
    obtain ⟨act, henters⟩ : ∃ act, Enters watch here edge.target s act reply₁ w := by
      cases hk : s.frontier.heap.lookup edge.target with
      | none => exact hu.find hs hless hkey hk hent
      | some former => exact hu.shorten hg hless hkey hk hent
    refine ⟨[act], ⟨henters.performs, .relax henters.relaxes (.nil _), ?_⟩, henters.cramped⟩
    rw [notes_mk visits w, hnotes]
    exact ha.relax hs hreached rfl henters.taken henters.offered

theorem relaxAll_advances (hg : g.Searchable source) (hu : Underway g source here edges s)
    (hhere : (s.notes here).settled = true) (he : ∀ edge ∈ edges, edge ∈ g.edgesFrom here)
    (ha : Account g source acts s.notes) (hrel : relaxAll watch here edges s = .ok (reply, s')) :
    ∃ acts', Advances watch g source acts acts' (some here) (some here) s s' ∧
      ∀ reason, reply = .error reason → reason.Cramped := by
  induction edges generalizing s acts with
  | nil =>
    obtain ⟨rfl, rfl⟩ := Prod.mk.inj (Except.ok.inj hrel)
    exact ⟨[], .refl ha _, fun reason h => nomatch h⟩
  | cons edge edges ih =>
    have hmem := he edge (List.mem_cons_self ..)
    simp only [relaxAll, Checked.bind_eq_ok] at hrel
    obtain ⟨⟨reply₁, s₁⟩, hrel₁, hrel⟩ := hrel
    obtain ⟨acts₁, hadv, hcramped⟩ := relax_advances hg hu hhere hmem ha hrel₁
    cases reply₁ with
    | error reason =>
      obtain ⟨rfl, rfl⟩ := Prod.mk.inj (Except.ok.inj hrel)
      refine ⟨acts₁, hadv, ?_⟩
      intro reason' h
      rw [← Except.error.inj h]
      exact hcramped reason rfl
    | ok _ =>
      obtain ⟨reply₂, s₂, hrel₂, -, hok⟩ := relax_total watch hg hu hhere hmem
      rw [hrel₁, Except.ok.injEq, Prod.mk.injEq] at hrel₂
      obtain ⟨rfl, rfl⟩ := hrel₂
      obtain ⟨hu₁, hsettled⟩ := hok rfl
      obtain ⟨acts₂, hadv₂, hcramped₂⟩ := ih hu₁ ((hsettled here).trans hhere)
        (fun edge hmem => he edge (List.mem_cons_of_mem _ hmem)) hadv.account hrel
      exact ⟨acts₁ ++ acts₂, hadv.trans hadv₂, hcramped₂⟩

/-! ## Settling a node -/

/-- A step takes the node that it settles from the root of the heap, at the distance noted for it. -/
theorem removeMin_advances {visits : Array Visit}
    (hu : Underway g source here [] s) (hg : g.Searchable source)
    (hne : s.frontier.heap.size ≠ 0) (hopen : (s.notes node).Open)
    (hmin : ∀ next, (s.notes next).Open → (s.notes node).dist ≤ (s.notes next).dist)
    (hnotes : Notes.ofArray visits
      = Function.update s.notes node { s.notes node with settled := true })
    (ha : Account g source acts s.notes) (hrem : watch.removeMin s.frontier = .ok (.ok node, w))
    (last : Option Nat) :
    ∃ act key, Advances watch g source acts [act] last (some node) s ⟨visits, w⟩ ∧
      act.taken? = some ⟨key, node⟩ ∧ key.toInt = (s.notes node).dist := by
  have hv := hu.valid
  have h1 := Nat.one_le_iff_ne_zero.mpr hne
  obtain ⟨h', hroot, -⟩ := hv.removeMin_ok h1
  have hid : (s.frontier.heap.entryAt 1).id = node := by
    have hreply := Observer.of_around_eq_ok hrem
    rw [hroot] at hreply
    exact Except.ok.inj (Prod.mk.inj (Except.ok.inj hreply)).1
  have hhead : s.frontier.heap.toList.head? = some ⟨(s.frontier.heap.entryAt 1).key, node⟩ := by
    obtain ⟨n, hn⟩ : ∃ n, s.frontier.heap.size = n + 1 := ⟨s.frontier.heap.size - 1, by omega⟩
    rw [hv.hasLayout.toList_eq, hn, ← hid]
    rfl
  have hkey : (s.frontier.heap.entryAt 1).key.toInt = (s.notes node).dist := by
    have hmem := (hv.peekMin_eq h1).2.1
    have hlook := hv.lookup_of_mem hmem
    rw [hid, hu.lookup_eq, Function.comp_apply, Visit.frontierKey_of_open hopen] at hlook
    rw [← Option.some.inj hlook]
    exact Key.toInt_ofDistance_of_lt (hu.settling.dist_lt hg hopen.2)
  obtain ⟨members, hp⟩ := Observer.removeMin_performs hv hrem
  refine ⟨_, _, ⟨hp, .settle ⟨rfl, rfl, ⟨_, hhead⟩, rfl⟩ (.nil _), ?_⟩, hhead, hkey⟩
  rw [notes_mk, hnotes]
  exact ha.settle hu.settling hg hopen hmin hhead hkey rfl

/-- A step takes a node and looks along its edges, unless the node is the target. -/
theorem step_advances (hg : g.Searchable source) (hu : Underway g source here [] s)
    (hne : s.frontier.heap.size ≠ 0) (ha : Account g source acts s.notes)
    {verdict? : Option Verdict} (hstep : step watch g source target s = .ok (verdict?, s'))
    (last : Option Nat) :
    ∃ acts' last', Advances watch g source acts acts' last last' s s' ∧
      ∀ verdict, verdict? = some verdict → Concluded g source target (acts ++ acts') verdict := by
  obtain ⟨node, w, visits, hrem, hopen, hmin, hnotes, hu₁, hcase⟩ := step_cases watch hg hu hne target
  obtain ⟨act, key, hadv, htaken, hkey⟩ :=
    removeMin_advances hu hg hne hopen hmin hnotes ha hrem last
  rcases hcase with ⟨htarget, nodes, hstep', -⟩ | ⟨-, hstep'⟩
  · rw [hstep'] at hstep
    obtain ⟨rfl, rfl⟩ := Prod.mk.inj (Except.ok.inj hstep)
    refine ⟨[act], _, hadv, ?_⟩
    intro verdict h
    rw [← Option.some.inj h]
    refine ⟨Act.takings acts, ⟨key, node⟩, ?_, htarget, hkey, ?_⟩
    · rw [Act.takings_concat, htaken, Option.toList_some]
    · intro next distance hd hlt
      exact ha.taken_of_lt hu.settling hg hmin hd hlt
  · have hself : (notes ⟨visits, w⟩ node).settled = true := by
      rw [notes_mk, hnotes, Function.update_self]
    rw [hstep', Checked.bind_eq_ok] at hstep
    obtain ⟨⟨reply, s₂⟩, hrel, hstep⟩ := hstep
    obtain ⟨acts₂, hadv₂, hcramped⟩ :=
      relaxAll_advances hg hu₁ hself (fun _ => id) hadv.account hrel
    cases reply with
    | error reason =>
      obtain ⟨rfl, rfl⟩ := Prod.mk.inj (Except.ok.inj hstep)
      refine ⟨[act] ++ acts₂, _, hadv.trans hadv₂, ?_⟩
      intro verdict h
      rw [← Option.some.inj h]
      exact hcramped reason rfl
    | ok _ =>
      obtain ⟨rfl, rfl⟩ := Prod.mk.inj (Except.ok.inj hstep)
      exact ⟨[act] ++ acts₂, _, hadv.trans hadv₂, fun verdict h => nomatch h⟩

/-! ## A whole search -/

/-- A search that finds its frontier empty has taken every node that can be reached. -/
theorem Underway.advances_of_empty (hu : Underway g source here [] s) (hg : g.Searchable source)
    (h0 : s.frontier.heap.size = 0) (ha : Account g source acts s.notes) (last : Option Nat) :
    ∃ acts' last', Advances watch g source acts acts' last last' s s ∧
      Concluded g source target (acts ++ acts') (.ok none) := by
  refine ⟨[], last, .refl ha last, ?_⟩
  intro node hr
  rw [List.append_nil]
  exact ha.taken_of_reaches hu.settling hg (hu.not_open h0) hr

theorem run_advances (hg : g.Searchable source) {rounds : Nat} (hu : Underway g source here [] s)
    (ha : Account g source acts s.notes) {verdict : Verdict}
    (hrun : run watch g source target rounds s = .ok (verdict, s')) (last : Option Nat) :
    ∃ acts' last', Advances watch g source acts acts' last last' s s' ∧
      Concluded g source target (acts ++ acts') verdict := by
  obtain ⟨nodes, hl⟩ := exists_loop hrun
  clear hrun
  induction hl generalizing here acts last with
  | idle h0 => exact hu.advances_of_empty hg (hu.valid.isEmpty_iff.mp h0) ha last
  | last hne _ hstep =>
    have h0 := hu.valid.isEmpty_eq_false_iff.mp hne
    obtain ⟨acts₁, last₁, hadv, hconcluded⟩ := step_advances hg hu h0 ha hstep last
    exact ⟨acts₁, last₁, hadv, hconcluded _ rfl⟩
  | round hne hrem hstep _ ih =>
    have h0 := hu.valid.isEmpty_eq_false_iff.mp hne
    obtain ⟨acts₁, last₁, hadv, -⟩ := step_advances hg hu h0 ha hstep last
    obtain ⟨-, houtcome⟩ := hu.outcome hg hne hrem hstep
    cases houtcome with
    | settled _ hu₁ _ _ =>
      obtain ⟨acts₂, last₂, hadv₂, hconcluded₂⟩ := ih hu₁ hadv.account last₁
      refine ⟨acts₁ ++ acts₂, last₂, hadv.trans hadv₂, ?_⟩
      rw [← List.append_assoc]
      exact hconcluded₂

end Search

end AddressableHeap
