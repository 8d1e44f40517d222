import AddressableHeap.Graph.Search
import AddressableHeap.Proofs.Graph.Construction
import Mathlib.Algebra.Ring.Nat
import Mathlib.Data.List.Nodup
import Mathlib.Data.List.Perm.Subperm

/-!
# Trails

A search notes for each node how it was found. A trail is a way from the source that these notes spell
out: every node on it before the last is settled, and each was found from the one before it. A trail
is a walk that meets no node twice, it costs what is noted for its last node, and it is what the
search finds when it follows the notes back.
-/

namespace AddressableHeap

/-- The distance noted for a node, as a number. -/
def Visit.dist (visit : Visit) : Nat := visit.distance.toNat

/-- What is known about each node. -/
abbrev Notes := Nat → Visit

namespace Notes

/-- The notes in an array; nothing is known about what is not a node. -/
def ofArray (visits : Array Visit) : Notes := fun node => visits.getD node Visit.unreached

variable {visits : Array Visit} {node : Nat}

theorem get_eq (h : node < visits.size) : Checked.get visits node = .ok (ofArray visits node) := by
  rw [Checked.get_eq_ok h, ofArray, Array.getD_eq_getD_getElem?, Array.getElem?_eq_getElem h]
  rfl

theorem set_eq (h : node < visits.size) (visit : Visit) :
    ∃ visits', Checked.set visits node visit = .ok visits' ∧ visits'.size = visits.size ∧
      ofArray visits' = Function.update (ofArray visits) node visit := by
  refine ⟨_, Checked.set_eq_ok h, by simp, funext ?_⟩
  intro i
  unfold ofArray
  rw [Array.getD_eq_getD_getElem?, Array.getElem?_set, Function.update_apply]
  by_cases hi : node = i
  · subst hi
    simp
  · rw [if_neg hi, if_neg (Ne.symm hi), Array.getD_eq_getD_getElem?]

variable {notes : Notes}

theorem ne_of_settled {here : Nat} (hhere : (notes here).settled = true)
    (hnode : (notes node).settled = false) : here ≠ node := by
  rintro rfl
  rw [hhere] at hnode
  exact nomatch hnode

/-- A node that is settled is as far away as before. -/
theorem dist_settle (notes : Notes) (node i : Nat) :
    (Function.update notes node { notes node with settled := true } i).dist = (notes i).dist := by
  by_cases hi : i = node
  · subst hi
    rw [Function.update_self]
    rfl
  · rw [Function.update_of_ne hi]

end Notes

variable {g : Graph} {source node here : Nat} {before : List Nat} {notes notes' : Notes}

/-- The notes lead from the source through the nodes `before` to `node`. -/
inductive Trail (g : Graph) (source : Nat) (notes : Notes) : Nat → List Nat → Prop where
  /-- The source is found at no cost. -/
  | start : (notes source).dist = 0 → Trail g source notes source []
  /-- A node is found along an edge from a settled one. -/
  | extend {here : Nat} {before : List Nat} {edge : Edge} :
      Trail g source notes here before → (notes here).settled = true →
      edge ∈ g.edgesFrom here → edge.target ∉ before ++ [here] →
      (notes edge.target).via = some here →
      (notes edge.target).dist = (notes here).dist + edge.weight.toNat →
      Trail g source notes edge.target (before ++ [here])

namespace Trail

theorem settled (ht : Trail g source notes node before) :
    ∀ i ∈ before, (notes i).settled = true := by
  induction ht with
  | start _ => exact fun i hi => absurd hi List.not_mem_nil
  | extend _ hs _ _ _ _ ih =>
    intro i hi
    rcases List.mem_append.mp hi with hi | hi
    · exact ih i hi
    · rw [List.mem_singleton.mp hi]
      exact hs

theorem source_mem (ht : Trail g source notes node before) : source ∈ before ++ [node] := by
  induction ht with
  | start _ => exact List.mem_singleton_self _
  | extend _ _ _ _ _ _ ih => exact List.mem_append_left _ ih

theorem nodup (ht : Trail g source notes node before) : (before ++ [node]).Nodup := by
  induction ht with
  | start _ => exact List.nodup_singleton _
  | extend _ _ _ hn _ _ ih =>
    rw [← List.concat_eq_append]
    exact List.Nodup.concat hn ih

/-- A trail is a walk, at the cost noted for its last node. -/
theorem walk (ht : Trail g source notes node before) :
    g.Walk source node (before ++ [node]) (notes node).dist := by
  induction ht with
  | start h0 =>
    rw [h0]
    exact .here source
  | extend _ _ he _ _ hd ih =>
    rw [hd]
    exact ih.snoc he

/-- A trail depends on nothing but the notes of its own nodes, and is not lost when more of them are
settled. -/
theorem congr (ht : Trail g source notes node before)
    (h : ∀ i ∈ before ++ [node], (notes' i).dist = (notes i).dist ∧ (notes' i).via = (notes i).via ∧
      ((notes i).settled = true → (notes' i).settled = true)) :
    Trail g source notes' node before := by
  induction ht with
  | start h0 =>
    refine .start ?_
    rw [(h source (List.mem_singleton_self _)).1, h0]
  | @extend here before edge _ hs he hn hv hd ih =>
    have hhere := h here (List.mem_append_left _ (List.mem_append_right _ (List.mem_singleton_self _)))
    have hnode := h edge.target (List.mem_append_right _ (List.mem_singleton_self _))
    refine .extend (ih fun i hi => h i (List.mem_append_left _ hi)) (hhere.2.2 hs) he hn ?_ ?_
    · rw [hnode.2.1, hv]
    · rw [hnode.1, hhere.1, hd]

/-- A new note for a node that is not settled concerns the trails of that node only. -/
theorem update {i : Nat} (ht : Trail g source notes node before) (hn : node ≠ i)
    (hs : (notes i).settled = false) (visit : Visit) :
    Trail g source (Function.update notes i visit) node before := by
  refine ht.congr ?_
  intro j hj
  have hne : j ≠ i := by
    rcases List.mem_append.mp hj with hj | hj
    · exact Notes.ne_of_settled (ht.settled j hj) hs
    · rw [List.mem_singleton.mp hj]
      exact hn
  rw [Function.update_of_ne hne]
  exact ⟨rfl, rfl, id⟩

theorem settle (ht : Trail g source notes node before) (i : Nat) :
    Trail g source (Function.update notes i { notes i with settled := true }) node before := by
  refine ht.congr ?_
  intro j _
  by_cases hj : j = i
  · subst hj
    rw [Function.update_self]
    exact ⟨rfl, rfl, fun _ => rfl⟩
  · rw [Function.update_of_ne hj]
    exact ⟨rfl, rfl, id⟩

/-- A node that is found anew has the trail of the node it was found from, and that node. -/
theorem relax {edge : Edge} {visit : Visit} (ht : Trail g source notes here before)
    (hhere : (notes here).settled = true) (he : edge ∈ g.edgesFrom here)
    (hs : (notes edge.target).settled = false) (hvia : visit.via = some here)
    (hdist : visit.dist = (notes here).dist + edge.weight.toNat) :
    Trail g source (Function.update notes edge.target visit) edge.target (before ++ [here]) := by
  have hne : here ≠ edge.target := Notes.ne_of_settled hhere hs
  have hnew : edge.target ∉ before ++ [here] := by
    intro hmem
    rcases List.mem_append.mp hmem with hmem | hmem
    · exact Notes.ne_of_settled (ht.settled _ hmem) hs rfl
    · exact hne (List.mem_singleton.mp hmem).symm
  refine .extend (ht.update hne hs visit) ?_ he hnew ?_ ?_
  · rw [Function.update_of_ne hne, hhere]
  · rw [Function.update_self, hvia]
  · rw [Function.update_self, Function.update_of_ne hne, hdist]

/-! ## The size of a trail -/

theorem lt_size (ht : Trail g source notes node before) (hg : g.Closed) (hs : source < g.size) :
    ∀ i ∈ before ++ [node], i < g.size := by
  induction ht with
  | start _ =>
    intro i hi
    rw [List.nil_append, List.mem_singleton] at hi
    exact hi ▸ hs
  | extend _ _ he _ _ _ ih =>
    intro i hi
    rcases List.mem_append.mp hi with hi | hi
    · exact ih i hi
    · rw [List.mem_singleton.mp hi]
      exact hg _ _ he

theorem length_lt (ht : Trail g source notes node before) (hg : g.Closed) (hs : source < g.size) :
    before.length < g.size := by
  have hsub : before ++ [node] ⊆ List.range g.size :=
    fun i hi => List.mem_range.mpr (ht.lt_size hg hs i hi)
  have := (List.subperm_of_subset ht.nodup hsub).length_le
  rwa [List.length_range, List.length_append, List.length_singleton] at this

theorem dist_le_length (ht : Trail g source notes node before) :
    (notes node).dist ≤ before.length * (2 ^ 32 - 1) := by
  induction ht with
  | start h0 => omega
  | @extend here before edge _ _ _ _ _ hd ih =>
    have := edge.weight.toNat_lt
    rw [hd, List.length_append, List.length_singleton]
    omega

theorem dist_le (ht : Trail g source notes node before) (hg : g.Closed) (hs : source < g.size) :
    (notes node).dist ≤ (g.size - 1) * (2 ^ 32 - 1) := by
  have hlen := ht.length_lt hg hs
  exact Nat.le_trans ht.dist_le_length (Nat.mul_le_mul_right _ (Nat.le_sub_one_of_lt hlen))

end Trail

/-! ## Following the notes back -/

/-- The notes in an array lead back from a node through the nodes `before`, the last of them first,
and end at the source, which is met no earlier. At every node on the way the one before it is noted. -/
inductive LeadsBack (visits : Array Visit) (source : Nat) : Nat → List Nat → Prop where
  | source : LeadsBack visits source source []
  | step {node here : Nat} {before : List Nat} {visit : Visit} :
      node ≠ source → Checked.get visits node = .ok visit → visit.via = some here →
      LeadsBack visits source here before → LeadsBack visits source node (before ++ [here])

/-- To follow the notes back takes as many steps as there are nodes on the way. -/
theorem LeadsBack.retrace_eq {visits : Array Visit} {steps : Nat}
    (hb : LeadsBack visits source node before) (hs : before.length ≤ steps) (path : List Nat) :
    Search.retrace visits source steps node path = .ok (before ++ path) := by
  induction hb generalizing steps path with
  | source =>
    unfold Search.retrace
    rw [if_pos rfl]
    rfl
  | @step node here before visit hne hget hvia _ ih =>
    rw [List.length_append, List.length_singleton] at hs
    obtain ⟨steps, rfl⟩ : ∃ k, steps = k + 1 := ⟨steps - 1, by omega⟩
    unfold Search.retrace
    rw [if_neg hne]
    simp only [hget, Checked.ok_bind, hvia]
    rw [ih (Nat.le_of_succ_le_succ hs), List.append_assoc]
    rfl

/-- From the last node of a trail the notes lead back through its nodes. -/
theorem Trail.leadsBack {visits : Array Visit} (ht : Trail g source (.ofArray visits) node before)
    (hlt : ∀ i ∈ before ++ [node], i < visits.size) : LeadsBack visits source node before := by
  induction ht with
  | start _ => exact .source
  | @extend here before edge ht _ _ hn hv _ ih =>
    -- the source lies on the trail so far, and the node does not
    have hne : edge.target ≠ source := fun h => hn (h ▸ ht.source_mem)
    have hlast := hlt edge.target (List.mem_append_right _ (List.mem_singleton_self _))
    exact .step hne (Notes.get_eq hlast) hv (ih fun i hi => hlt i (List.mem_append_left _ hi))

end AddressableHeap
