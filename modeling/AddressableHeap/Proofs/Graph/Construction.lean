import AddressableHeap.Graph.Walk

/-!
# How graphs are made

A graph is made from its labels by requests for edges. A request is granted if both ends are nodes,
and changes nothing else than the edges of the node it starts from. So the edges of a graph are the
ones that were granted, in the order of the requests, and each leads to a node.
-/

namespace AddressableHeap.Graph

/-- A request for an edge. -/
structure Link where
  source : Nat
  target : Nat
  weight : UInt32
  deriving DecidableEq, Repr

namespace Link

def edge (link : Link) : Edge := ⟨link.target, link.weight⟩

/-- The links that are granted in a graph of this size and leave this node, as edges. -/
def granted (size node : Nat) (links : List Link) : List Edge :=
  (links.filter fun link => link.source = node ∧ link.source < size ∧ link.target < size).map edge

end Link

/-- Ask for edges one after the other. A failure does not end the construction. -/
def addEdges (g : Graph) : List Link → Checked Graph
  | [] => pure g
  | link :: links => do
    let (_, g) ← g.addEdge link.source link.target link.weight
    g.addEdges links

/-- The graph was made from labels by requests for edges. -/
def Built (g : Graph) : Prop := ∃ labels links, (ofLabels labels).addEdges links = .ok g

variable {g g' : Graph} {node source target : Nat} {edge : Edge} {weight : UInt32}

/-! ## Reading the edges -/

theorem edgesFrom_eq (h : node < g.nodes.size) : g.edgesFrom node = (g.nodes[node]).edges.toList := by
  unfold edgesFrom
  rw [Array.getElem?_eq_getElem h]
  rfl

theorem edgesFrom_of_size_le (h : g.size ≤ node) : g.edgesFrom node = [] := by
  unfold edgesFrom
  rw [Array.getElem?_eq_none h]
  rfl

theorem lt_size_of_mem_edgesFrom (he : edge ∈ g.edgesFrom node) : node < g.size := by
  refine Nat.lt_of_not_le ?_
  intro h
  rw [edgesFrom_of_size_le h] at he
  exact List.not_mem_nil he

theorem neighbors_eq (h : node < g.size) : g.neighbors node = .ok (g.edgesFrom node) := by
  unfold neighbors
  rw [Checked.get_eq_ok h, edgesFrom_eq h]
  rfl

theorem size_ofLabels (labels : List String) : (ofLabels labels).size = labels.length := by
  simp [size, ofLabels]

theorem edgesFrom_ofLabels (labels : List String) (node : Nat) :
    (ofLabels labels).edgesFrom node = [] := by
  by_cases h : node < labels.length <;> simp [edgesFrom, ofLabels, h]

/-! ## One request -/

theorem addEdge_of_size_le_source (h : g.size ≤ source) :
    g.addEdge source target weight = .ok (.error (.noNode source g.size), g) := by
  unfold addEdge
  rw [if_pos h]
  rfl

theorem addEdge_of_size_le_target (hs : source < g.size) (h : g.size ≤ target) :
    g.addEdge source target weight = .ok (.error (.noNode target g.size), g) := by
  unfold addEdge
  rw [if_neg (Nat.not_le.mpr hs), if_pos h]
  rfl

/-- A granted edge is the last one of the node that it leaves. -/
theorem addEdge_ok (weight : UInt32) (hs : source < g.size) (ht : target < g.size) :
    ∃ g', g.addEdge source target weight = .ok (.ok (), g') ∧ g'.size = g.size ∧
      ∀ node, g'.edgesFrom node
        = g.edgesFrom node ++ if source = node then [⟨target, weight⟩] else [] := by
  unfold addEdge
  rw [if_neg (Nat.not_le.mpr hs), if_neg (Nat.not_le.mpr ht), Checked.get_eq_ok hs]
  simp only [Checked.ok_bind, Checked.set_eq_ok (show source < g.nodes.size from hs)]
  refine ⟨_, rfl, by simp [size], ?_⟩
  intro node
  by_cases hn : source = node
  · subst hn
    rw [if_pos rfl, edgesFrom_eq hs]
    simp [edgesFrom]
  · simp [edgesFrom, hn]

theorem addEdge_total (g : Graph) (link : Link) :
    ∃ reply g', g.addEdge link.source link.target link.weight = .ok (reply, g') ∧
      g'.size = g.size ∧
      ∀ node, g'.edgesFrom node = g.edgesFrom node ++ Link.granted g.size node [link] := by
  by_cases hs : g.size ≤ link.source
  · refine ⟨_, g, addEdge_of_size_le_source hs, rfl, ?_⟩
    intro node
    simp [Link.granted, Nat.not_lt.mpr hs]
  · by_cases ht : g.size ≤ link.target
    · refine ⟨_, g, addEdge_of_size_le_target (Nat.not_le.mp hs) ht, rfl, ?_⟩
      intro node
      simp [Link.granted, Nat.not_lt.mpr ht]
    · obtain ⟨g', he, hsize, hedges⟩ :=
        addEdge_ok link.weight (Nat.not_le.mp hs) (Nat.not_le.mp ht)
      refine ⟨_, g', he, hsize, ?_⟩
      intro node
      rw [hedges]
      by_cases hn : link.source = node
      · subst hn
        simp [Link.granted, Link.edge, Nat.not_le.mp hs, Nat.not_le.mp ht]
      · simp [Link.granted, hn]

/-! ## A whole construction -/

theorem Link.granted_cons (size node : Nat) (link : Link) (links : List Link) :
    Link.granted size node (link :: links)
      = Link.granted size node [link] ++ Link.granted size node links := by
  unfold Link.granted
  rw [← List.map_append, ← List.filter_append]
  rfl

/-- The edges of a graph are the ones that were granted, in the order of the requests. -/
theorem addEdges_total (g : Graph) (links : List Link) :
    ∃ g', g.addEdges links = .ok g' ∧ g'.size = g.size ∧
      ∀ node, g'.edgesFrom node = g.edgesFrom node ++ Link.granted g.size node links := by
  induction links generalizing g with
  | nil => exact ⟨g, rfl, rfl, fun node => (List.append_nil _).symm⟩
  | cons link links ih =>
    obtain ⟨reply, g₁, he, hsize, hedges⟩ := g.addEdge_total link
    obtain ⟨g', he', hsize', hedges'⟩ := ih g₁
    refine ⟨g', ?_, hsize'.trans hsize, ?_⟩
    · unfold addEdges
      simp only [he, Checked.ok_bind, he']
    · intro node
      rw [hedges', hedges, hsize, List.append_assoc, ← Link.granted_cons]

/-- A graph can be made of any labels and any requests. -/
theorem exists_built (labels : List String) (links : List Link) :
    ∃ g, (ofLabels labels).addEdges links = .ok g ∧ g.size = labels.length ∧
      ∀ node, g.edgesFrom node = Link.granted labels.length node links := by
  obtain ⟨g, he, hsize, hedges⟩ := (ofLabels labels).addEdges_total links
  rw [size_ofLabels] at hsize hedges
  refine ⟨g, he, hsize, ?_⟩
  intro node
  rw [hedges, edgesFrom_ofLabels, List.nil_append]

/-- Every edge of a graph that was made by requests leads to a node. -/
theorem Built.closed (hg : g.Built) : g.Closed := by
  obtain ⟨labels, links, he⟩ := hg
  obtain ⟨g₁, he₁, hsize, hedges⟩ := exists_built labels links
  rw [he₁, Except.ok.injEq] at he
  subst he
  intro node edge hmem
  rw [hedges, Link.granted, List.mem_map] at hmem
  obtain ⟨link, hlink, rfl⟩ := hmem
  rw [List.mem_filter, decide_eq_true_iff] at hlink
  rw [hsize]
  exact hlink.2.2.2

end AddressableHeap.Graph
