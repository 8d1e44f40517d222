import AddressableHeap.Proofs.Search.Trail

/-!
# Settling nodes in the order of their distance

What holds of the notes of a search, said without its arrays and its heap. A settled node is never
looked at again, and no node of the frontier is nearer than a settled one. A step of the search
settles a nearest node of the frontier and looks along its edges; in between, the edges that still
have to be looked along are excused. When none is excused, every walk from the source to a node that
is not settled leaves the settled nodes through a node of the frontier, which is no further away than
the walk is long.
-/

namespace AddressableHeap

namespace Visit

/-- A way to the node was found. -/
def Reached (visit : Visit) : Prop := visit.dist < unreached.dist

/-- The node belongs to the frontier: a way to it was found, and it is not settled. -/
def Open (visit : Visit) : Prop := visit.settled = false ∧ visit.Reached

end Visit

/-- A graph with a source from which all distances can be told from "unreached". -/
structure Graph.Searchable (g : Graph) (source : Nat) : Prop where
  /-- Every edge leads to a node. -/
  closed : g.Closed
  /-- So many edges do not add up to more than 63 bits. -/
  size_le : g.size ≤ 2 ^ 31
  /-- The source is a node. -/
  source_lt : source < g.size

/-- The notes of a search that settled `here` last and has still to look along the edges `pending`. -/
structure Settling (g : Graph) (source here : Nat) (pending : List Edge) (notes : Notes) : Prop where
  /-- The source is found at no cost. -/
  source_dist : (notes source).dist = 0
  /-- A node that was found has a trail. -/
  trail : ∀ node, (notes node).Reached → ∃ before, Trail g source notes node before
  /-- A settled node was found. -/
  reached : ∀ node, (notes node).settled = true → (notes node).Reached
  /-- An edge that leaves a settled node was looked along, unless it is excused. -/
  relaxed : ∀ node, (notes node).settled = true → ∀ edge ∈ g.edgesFrom node,
    (node = here ∧ edge ∈ pending) ∨
      (notes edge.target).dist ≤ (notes node).dist + edge.weight.toNat
  /-- No node of the frontier is nearer than a settled one. -/
  ahead : ∀ node next, (notes node).settled = true → (notes next).Open →
    (notes node).dist ≤ (notes next).dist
  /-- No settled node is further away than the one that was settled last. -/
  latest : ∀ node, (notes node).settled = true → (notes node).dist ≤ (notes here).dist

variable {g : Graph} {source here node : Nat} {edge : Edge} {pending : List Edge} {notes : Notes}

/-- A distance that is below another one is that of a node that was reached. -/
theorem Visit.reached_of_lt {visit former : Visit} (h : visit.dist < former.dist) :
    visit.Reached := Nat.lt_of_lt_of_le h (Nat.le_of_lt_succ former.distance.toNat_lt)

/-- One edge less than there are nodes cannot weigh more than this. -/
theorem Graph.Searchable.cost_le (hg : g.Searchable source) :
    (g.size - 1) * (2 ^ 32 - 1) ≤ (2 ^ 31 - 1) * (2 ^ 32 - 1) :=
  Nat.mul_le_mul_right _ (Nat.sub_le_sub_right hg.size_le 1)

namespace Settling

theorem start (g : Graph) (source : Nat) :
    Settling g source source [] (Function.update (fun _ => Visit.unreached) source Visit.start) := by
  set notes := Function.update (fun _ => Visit.unreached) source Visit.start with hnotes
  have hdist : (notes source).dist = 0 := by
    rw [hnotes, Function.update_self]
    rfl
  have hsettled : ∀ node, ¬ (notes node).settled = true := by
    intro node
    rw [hnotes, Function.update_apply]
    split <;> exact Bool.false_ne_true
  constructor
  case source_dist => exact hdist
  case trail =>
    intro node hr
    by_cases hn : node = source
    · subst hn
      exact ⟨[], .start hdist⟩
    · rw [hnotes, Function.update_of_ne hn] at hr
      exact absurd hr (Nat.lt_irrefl _)
  case reached =>
    intro node hs
    exact absurd hs (hsettled node)
  case relaxed =>
    intro node hs
    exact absurd hs (hsettled node)
  case ahead =>
    intro node next hs
    exact absurd hs (hsettled node)
  case latest =>
    intro node hs
    exact absurd hs (hsettled node)

/-! ## Distances -/

theorem dist_le (hi : Settling g source here pending notes) (hg : g.Searchable source)
    (hr : (notes node).Reached) : (notes node).dist ≤ (g.size - 1) * (2 ^ 32 - 1) := by
  obtain ⟨before, ht⟩ := hi.trail node hr
  exact ht.dist_le hg.closed hg.source_lt

theorem dist_add_lt (hi : Settling g source here pending notes) (hg : g.Searchable source)
    (hr : (notes node).Reached) (weight : UInt32) :
    (notes node).dist + weight.toNat < 2 ^ 63 := by
  have hd := hi.dist_le hg hr
  have hw := weight.toNat_lt
  have hn := hg.cost_le
  omega

theorem dist_lt (hi : Settling g source here pending notes) (hg : g.Searchable source)
    (hr : (notes node).Reached) : (notes node).dist < 2 ^ 63 := by
  simpa using hi.dist_add_lt hg hr 0

theorem source_reached (hi : Settling g source here pending notes) : (notes source).Reached := by
  unfold Visit.Reached
  rw [hi.source_dist]
  decide

/-! ## Steps -/

/-- A nearest node of the frontier is settled. All of its edges are excused. -/
theorem settle (hi : Settling g source here [] notes) (hopen : (notes node).Open)
    (hmin : ∀ next, (notes next).Open → (notes node).dist ≤ (notes next).dist) :
    Settling g source node (g.edgesFrom node)
      (Function.update notes node { notes node with settled := true }) := by
  set notes' := Function.update notes node { notes node with settled := true } with hnotes
  have hself : (notes' node).settled = true := by rw [hnotes, Function.update_self]
  have hother : ∀ i, i ≠ node → notes' i = notes i := fun i hn => Function.update_of_ne hn ..
  have hdist : ∀ i, (notes' i).dist = (notes i).dist := Notes.dist_settle notes node
  have hreached : ∀ i, (notes' i).Reached ↔ (notes i).Reached := by
    intro i
    unfold Visit.Reached
    rw [hdist]
  constructor
  case source_dist =>
    rw [hdist, hi.source_dist]
  case trail =>
    intro i hr
    obtain ⟨before, ht⟩ := hi.trail i ((hreached i).mp hr)
    exact ⟨before, ht.settle node⟩
  case reached =>
    intro i hs
    rw [hreached]
    by_cases hn : i = node
    · rw [hn]
      exact hopen.2
    · rw [hother i hn] at hs
      exact hi.reached i hs
  case relaxed =>
    intro i hs edge he
    by_cases hn : i = node
    · subst hn
      exact .inl ⟨rfl, he⟩
    · rw [hother i hn] at hs
      rw [hdist, hdist]
      exact .inr ((hi.relaxed i hs edge he).resolve_left fun h => List.not_mem_nil h.2)
  case ahead =>
    intro i next hs ho
    have hnext : next ≠ node := (Notes.ne_of_settled hself ho.1).symm
    rw [hother next hnext] at ho
    rw [hdist, hdist]
    by_cases hn : i = node
    · rw [hn]
      exact hmin next ho
    · rw [hother i hn] at hs
      exact hi.ahead i next hs ho
  case latest =>
    intro i hs
    rw [hdist, hdist]
    by_cases hn : i = node
    · exact Nat.le_of_eq (by rw [hn])
    · rw [hother i hn] at hs
      exact hi.ahead i node hs hopen

/-- An edge that leads to no shorter way needs no excuse. -/
theorem skip (hi : Settling g source here (edge :: pending) notes)
    (hle : (notes edge.target).dist ≤ (notes here).dist + edge.weight.toNat) :
    Settling g source here pending notes := by
  refine ⟨hi.source_dist, hi.trail, hi.reached, ?_, hi.ahead, hi.latest⟩
  intro node hs e he
  rcases hi.relaxed node hs e he with ⟨rfl, hmem⟩ | h
  · rcases List.mem_cons.mp hmem with rfl | hmem
    · exact .inr hle
    · exact .inl ⟨rfl, hmem⟩
  · exact .inr h

theorem skip_settled (hi : Settling g source here (edge :: pending) notes)
    (hs : (notes edge.target).settled = true) : Settling g source here pending notes :=
  hi.skip (Nat.le_trans (hi.latest _ hs) (Nat.le_add_right _ _))

/-- A shorter way to a node that is not settled is noted. -/
theorem relax (hi : Settling g source here (edge :: pending) notes)
    (hhere : (notes here).settled = true) (he : edge ∈ g.edgesFrom here)
    (hs : (notes edge.target).settled = false) {visit : Visit}
    (hlt : (notes here).dist + edge.weight.toNat < (notes edge.target).dist)
    (hdist : visit.dist = (notes here).dist + edge.weight.toNat)
    (hvia : visit.via = some here) (hset : visit.settled = false) :
    Settling g source here pending (Function.update notes edge.target visit) := by
  set notes' := Function.update notes edge.target visit with hnotes
  have hself : notes' edge.target = visit := Function.update_self ..
  have hother : ∀ i, i ≠ edge.target → notes' i = notes i := fun i hn => Function.update_of_ne hn ..
  have hsettled : ∀ i, (notes' i).settled = true → (notes i).settled = true := by
    intro i h
    by_cases hn : i = edge.target
    · rw [hn, hself, hset] at h
      exact nomatch h
    · rwa [hother i hn] at h
  have hkeep : ∀ i, (notes i).settled = true → notes' i = notes i :=
    fun i h => hother i (Notes.ne_of_settled h hs)
  have hshorter : ∀ i, (notes' i).dist ≤ (notes i).dist := by
    intro i
    by_cases hn : i = edge.target
    · rw [hn, hself, hdist]
      exact Nat.le_of_lt hlt
    · exact Nat.le_of_eq (by rw [hother i hn])
  constructor
  case source_dist =>
    exact Nat.eq_zero_of_le_zero (hi.source_dist ▸ hshorter source)
  case trail =>
    intro i hr
    by_cases hn : i = edge.target
    · obtain ⟨before, ht⟩ := hi.trail here (hi.reached here hhere)
      rw [hn]
      exact ⟨before ++ [here], ht.relax hhere he hs hvia hdist⟩
    · rw [hother i hn] at hr
      obtain ⟨before, ht⟩ := hi.trail i hr
      exact ⟨before, ht.update hn hs visit⟩
  case reached =>
    intro i h
    have h' := hsettled i h
    rw [hkeep i h']
    exact hi.reached i h'
  case relaxed =>
    intro i h e hmem
    have h' := hsettled i h
    rw [hkeep i h']
    rcases hi.relaxed i h' e hmem with ⟨rfl, hp⟩ | hle
    · rcases List.mem_cons.mp hp with rfl | hp
      · rw [hself, hdist]
        exact .inr (Nat.le_refl _)
      · exact .inl ⟨rfl, hp⟩
    · exact .inr (Nat.le_trans (hshorter e.target) hle)
  case ahead =>
    intro i next h ho
    have h' := hsettled i h
    rw [hkeep i h']
    by_cases hn : next = edge.target
    · rw [hn, hself, hdist]
      exact Nat.le_trans (hi.latest i h') (Nat.le_add_right _ _)
    · rw [hother next hn] at ho ⊢
      exact hi.ahead i next h' ho
  case latest =>
    intro i h
    have h' := hsettled i h
    rw [hkeep i h', hkeep here hhere]
    exact hi.latest i h'

/-! ## Where a walk leaves the settled nodes -/

/-- An edge from a settled node to one that is not leads into the frontier. -/
theorem open_of_edge (hi : Settling g source here [] notes) (hg : g.Searchable source)
    (hs : (notes node).settled = true) (he : edge ∈ g.edgesFrom node)
    (ht : (notes edge.target).settled = false) :
    (notes edge.target).Open ∧
      (notes edge.target).dist ≤ (notes node).dist + edge.weight.toNat := by
  have hle := (hi.relaxed node hs edge he).resolve_left fun h => List.not_mem_nil h.2
  have hlt := hi.dist_add_lt hg (hi.reached node hs) edge.weight
  have hmax : Visit.unreached.dist = 2 ^ 64 - 1 := rfl
  refine ⟨⟨ht, ?_⟩, hle⟩
  unfold Visit.Reached
  omega

/-- A node that was found, if it is not the source, was found along an edge from a settled node. -/
theorem exists_edge (hi : Settling g source here pending notes) (hr : (notes node).Reached)
    (hne : node ≠ source) : ∃ before, (notes before).settled = true ∧
      ∃ edge ∈ g.edgesFrom before, edge.target = node ∧
        (notes node).dist = (notes before).dist + edge.weight.toNat := by
  obtain ⟨before, ht⟩ := hi.trail node hr
  cases ht with
  | start _ => exact absurd rfl hne
  | extend _ hs he _ _ hd => exact ⟨_, hs, _, he, rfl, hd⟩

/-- A walk from a settled node ends at a settled node that is no further away than the walk is long,
or passes a node of the frontier that is not. -/
theorem of_walk (hi : Settling g source here [] notes) (hg : g.Searchable source)
    {first last cost : Nat} {nodes : List Nat} (hw : g.Walk first last nodes cost)
    (hs : (notes first).settled = true) :
    ((notes last).settled = true ∧ (notes last).dist ≤ (notes first).dist + cost) ∨
      ∃ node, (notes node).Open ∧ (notes node).dist ≤ (notes first).dist + cost := by
  induction hw with
  | here node => exact .inl ⟨hs, Nat.le_refl _⟩
  | @along first last edge nodes cost he _ ih =>
    cases htarget : (notes edge.target).settled with
    | true =>
      have hle := (hi.relaxed first hs edge he).resolve_left fun h => List.not_mem_nil h.2
      rcases ih htarget with ⟨hlast, hd⟩ | ⟨node, ho, hd⟩
      · exact .inl ⟨hlast, by omega⟩
      · exact .inr ⟨node, ho, by omega⟩
    | false =>
      obtain ⟨ho, hle⟩ := hi.open_of_edge hg hs he htarget
      exact .inr ⟨edge.target, ho, by omega⟩

/-- If a node that is not settled can be reached, the frontier is no further away. -/
theorem exists_open (hi : Settling g source here [] notes) (hg : g.Searchable source)
    {cost : Nat} {nodes : List Nat} (hw : g.Walk source node nodes cost)
    (hs : (notes node).settled = false) : ∃ next, (notes next).Open ∧ (notes next).dist ≤ cost := by
  cases hsource : (notes source).settled with
  | false =>
    refine ⟨source, ⟨hsource, hi.source_reached⟩, ?_⟩
    rw [hi.source_dist]
    exact Nat.zero_le _
  | true =>
    rcases hi.of_walk hg hw hsource with ⟨hnode, -⟩ | ⟨next, ho, hd⟩
    · rw [hs] at hnode
      exact nomatch hnode
    · rw [hi.source_dist, Nat.zero_add] at hd
      exact ⟨next, ho, hd⟩

/-- The distance noted for a nearest node of the frontier is its distance. -/
theorem isDistance (hi : Settling g source here [] notes) (hg : g.Searchable source)
    (hopen : (notes node).Open)
    (hmin : ∀ next, (notes next).Open → (notes node).dist ≤ (notes next).dist) :
    g.IsDistance source node (notes node).dist := by
  obtain ⟨before, ht⟩ := hi.trail node hopen.2
  refine ⟨⟨_, ht.walk⟩, ?_⟩
  intro nodes cost hw
  obtain ⟨next, ho, hd⟩ := hi.exists_open hg hw hopen.1
  exact Nat.le_trans (hmin next ho) hd

end Settling

end AddressableHeap
