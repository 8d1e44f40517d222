import AddressableHeap.Proofs.Chronicle

/-!
# The acts of a search

A search proceeds in acts, each of which asks one thing of the heap. It takes the nearest node from the
root, or it notes a shorter way to a node and asks the heap, right after that, to take the node in or to
lower its key. Which of the two it asks depends on whether a way was known before. The order in which
acts may follow one another is a grammar: a shorter way always starts at the node that was taken last.
-/

namespace AddressableHeap

variable {σ α : Type} {watch : Observer σ} {w w₁ w' : Watched σ} {m : Mutation} {node here : Nat}

/-- A call, and what was noted right before it. -/
structure Act where
  notice : Option Notice
  call : Call

namespace Act

/-- The events of an act: nothing comes between the notice and the call. -/
def events (act : Act) : List Event := (act.notice.map Event.notice).toList ++ act.call.events

/-- The entry at the root of the heap, if the act takes it away. -/
def taken? (act : Act) : Option Entry :=
  match act.call.mutation with
  | .removeMin => act.call.former.head?
  | _ => none

/-- The element that the heap is asked to take in. -/
def offered? (act : Act) : Option Id :=
  match act.call.mutation with
  | .insert _ id => some id
  | _ => none

/-- The entries that are taken from the root, in order. -/
def takings (acts : List Act) : List Entry := acts.filterMap taken?

/-- The elements that the heap is asked to take in, in order. -/
def offers (acts : List Act) : List Id := acts.filterMap offered?

theorem filterMap_concat {β : Type} (f : Act → Option β) (acts : List Act) (act : Act) :
    (acts ++ [act]).filterMap f = acts.filterMap f ++ (f act).toList := by
  rw [List.filterMap_append]
  cases h : f act with
  | none => simp [h]
  | some b => simp [h]

theorem takings_concat (acts : List Act) (act : Act) :
    takings (acts ++ [act]) = takings acts ++ act.taken?.toList := filterMap_concat taken? acts act

theorem offers_concat (acts : List Act) (act : Act) :
    offers (acts ++ [act]) = offers acts ++ act.offered?.toList := filterMap_concat offered? acts act

/-- A callback before a mutation belongs to the call that asks for it. -/
theorem of_before_mem {act : Act} {former : List Entry}
    (h : .callback ⟨.before, m, former⟩ ∈ act.events) :
    act.call.mutation = m ∧ act.call.former = former := by
  have hcall : ⟨.before, m, former⟩ ∈ act.call.callbacks := by
    rw [← act.call.callbacks_events, List.mem_filterMap]
    refine ⟨_, (List.mem_append.mp h).resolve_left ?_, rfl⟩
    intro hnotice
    obtain ⟨n, -, hn⟩ := Option.map_eq_some_iff.mp (Option.mem_toList.mp hnotice)
    exact nomatch hn
  rcases List.mem_cons.mp hcall with hbefore | hafter
  · injection hbefore with _ hm hf
    exact ⟨hm.symm, hf.symm⟩
  · exact nomatch List.mem_singleton.mp hafter

/-! ## The grammar -/

/-- The act takes the node `here` from the root of the heap, and nothing is noted before it. -/
structure Settles (act : Act) (here : Nat) : Prop where
  notice : act.notice = none
  mutation : act.call.mutation = .removeMin
  root : ∃ key, act.call.former.head? = some ⟨key, here⟩
  reply : act.call.reply = .ok (some here)

/-- The act notes a shorter way through `here` to a node and brings the heap up to date. -/
inductive Relaxes (here : Nat) : Act → Prop where
  /-- No way to the node was known. The heap does not hold it and is asked to take it in. -/
  | find {node : Nat} {distance : UInt64} {key : Key} {former members : List Entry}
      {reply : Reply} :
      distance < Visit.unreached.distance → key.toInt = distance.toNat →
      (∀ e ∈ former, e.id ≠ node) →
      Relaxes here ⟨some (.relaxed here node distance Visit.unreached.distance),
        ⟨.insert key node, former, reply, members⟩⟩
  /-- A longer way was known. The heap holds the node at that distance and is asked to lower its
  key, which it does. -/
  | shorten {node : Nat} {distance longer : UInt64} {key formerKey : Key}
      {former members : List Entry} :
      distance < longer → key.toInt = distance.toNat → formerKey.toInt = longer.toNat →
      key < formerKey → ⟨formerKey, node⟩ ∈ former →
      Relaxes here ⟨some (.relaxed here node distance longer),
        ⟨.update key node, former, .ok none, members⟩⟩

end Act

/-- A sequence of acts between two moments of a search, with the node that was taken last, if there is
one, at the first moment and at the second. -/
inductive Course : Option Nat → List Act → Option Nat → Prop where
  | nil (last : Option Nat) : Course last [] last
  /-- The nearest node is taken. -/
  | settle {last last' : Option Nat} {here : Nat} {act : Act} {acts : List Act} :
      act.Settles here → Course (some here) acts last' → Course last (act :: acts) last'
  /-- A shorter way is found, through the node that was taken last. -/
  | relax {last' : Option Nat} {here : Nat} {act : Act} {acts : List Act} :
      act.Relaxes here → Course (some here) acts last' → Course (some here) (act :: acts) last'

namespace Course

variable {a b c : Option Nat} {acts acts' : List Act} {act : Act}

theorem append (h : Course a acts b) (h' : Course b acts' c) : Course a (acts ++ acts') c := by
  induction h with
  | nil => exact h'
  | settle hs _ ih => exact .settle hs (ih h')
  | relax hr _ ih => exact .relax hr (ih h')

theorem settles_or_relaxes (h : Course a acts b) (hmem : act ∈ acts) :
    (∃ here, act.Settles here) ∨ ∃ here, act.Relaxes here := by
  induction h with
  | nil => exact absurd hmem List.not_mem_nil
  | settle hs _ ih =>
    rcases List.mem_cons.mp hmem with rfl | hmem
    · exact .inl ⟨_, hs⟩
    · exact ih hmem
  | relax hr _ ih =>
    rcases List.mem_cons.mp hmem with rfl | hmem
    · exact .inr ⟨_, hr⟩
    · exact ih hmem

/-- The heap is only asked for its nearest node when it has one, and the answer is that node. -/
theorem settles_of_removeMin (h : Course a acts b) (hmem : act ∈ acts)
    (hm : act.call.mutation = .removeMin) : ∃ here, act.Settles here := by
  rcases h.settles_or_relaxes hmem with hs | ⟨here, hr⟩
  · exact hs
  · cases hr <;> exact nomatch hm

/-- A key is only changed to a smaller one. -/
theorem lt_of_update (h : Course a acts b) (hmem : act ∈ acts) {key : Key}
    (hm : act.call.mutation = .update key node) :
    ∃ former, ⟨former, node⟩ ∈ act.call.former ∧ key < former := by
  rcases h.settles_or_relaxes hmem with ⟨here, hs⟩ | ⟨here, hr⟩
  · exact nomatch hs.mutation.symm.trans hm
  · cases hr with
    | find => exact nomatch hm
    | shorten _ _ _ hlt hformer =>
      cases hm
      exact ⟨_, hformer, hlt⟩

end Course

/-! ## What is performed on a heap -/

namespace Observer

/-- The heap was changed by the calls of these acts, and the observer was told of the acts, in order, and
of nothing else. -/
structure Performs (watch : Observer σ) (w : Watched σ) (acts : List Act) (w' : Watched σ) :
    Prop where
  serves : w.heap.Serves (acts.map Act.call) w'.heap
  seen : w'.seen = watch.feed (acts.flatMap Act.events) w.seen

namespace Performs

variable {acts acts' : List Act} {call : Call}

theorem refl (w : Watched σ) : watch.Performs w [] w := ⟨.nil w.heap, rfl⟩

theorem trans (h : watch.Performs w acts w₁) (h' : watch.Performs w₁ acts' w') :
    watch.Performs w (acts ++ acts') w' := by
  constructor
  · rw [List.map_append]
    exact h.serves.append h'.serves
  · rw [h'.seen, h.seen, List.flatMap_append, feed_append]

/-- What was noted right before a call is part of the act. -/
theorem of_notice {n : Notice} {h : Heap} {seen : σ}
    (hp : watch.Performs ⟨h, watch.react (.notice n) seen⟩ [⟨none, call⟩] w') :
    watch.Performs ⟨h, seen⟩ [⟨some n, call⟩] w' := ⟨hp.serves, hp.seen⟩

end Performs

/-- A request under observation is an act. -/
theorem around_performs {act : Heap → Checked (Except Rejection α × Heap)}
    {reply : Except Rejection α} {f : α → Option Id} (hv : w.heap.Valid)
    (he : watch.around m act w = .ok (reply, w'))
    (happly : w.heap.apply m = .ok (reply.map f, w'.heap)) :
    ∃ members, watch.Performs w [⟨none, ⟨m, w.heap.toList, reply.map f, members⟩⟩] w' := by
  unfold around at he
  simp only [Checked.bind_eq_ok] at he
  obtain ⟨former, hformer, ⟨reply₁, h₁⟩, -, members, hmembers, he⟩ := he
  obtain ⟨rfl, rfl⟩ := Prod.mk.inj (Except.ok.inj he)
  have hmem : w.heap.toList = former := Except.ok.inj (hv.snapshot_eq.symm.trans hformer)
  subst hmem
  refine ⟨members, .cons happly hformer hmembers (.nil _), ?_⟩
  cases reply₁ <;> rfl

theorem clear_performs {reply : Reply} (hv : w.heap.Valid)
    (he : watch.perform .clear w = .ok (reply, w')) :
    ∃ members, watch.Performs w [⟨none, ⟨.clear, w.heap.toList, .ok none, members⟩⟩] w' := by
  have happly := of_around_eq_ok he
  have hreply : reply = .ok none := (Prod.mk.inj (Except.ok.inj happly)).1.symm
  subst hreply
  exact around_performs (f := id) hv he happly

theorem insert_performs {key : Key} {reply : Except Rejection Unit} (hv : w.heap.Valid)
    (he : watch.insert key node w = .ok (reply, w')) :
    ∃ members, watch.Performs w
      [⟨none, ⟨.insert key node, w.heap.toList, reply.map fun _ => none, members⟩⟩] w' :=
  around_performs hv he (by rw [Heap.apply, of_around_eq_ok he]; rfl)

theorem update_performs {key : Key} {reply : Except Rejection Unit} (hv : w.heap.Valid)
    (he : watch.update key node w = .ok (reply, w')) :
    ∃ members, watch.Performs w
      [⟨none, ⟨.update key node, w.heap.toList, reply.map fun _ => none, members⟩⟩] w' :=
  around_performs hv he (by rw [Heap.apply, of_around_eq_ok he]; rfl)

theorem removeMin_performs {reply : Except Rejection Id} (hv : w.heap.Valid)
    (he : watch.removeMin w = .ok (reply, w')) :
    ∃ members, watch.Performs w
      [⟨none, ⟨.removeMin, w.heap.toList, reply.map some, members⟩⟩] w' :=
  around_performs hv he (by rw [Heap.apply, of_around_eq_ok he]; rfl)

end Observer

end AddressableHeap
