import AddressableHeap.Graph.Basic

/-!
# Walks

What a shortest path is, said without a search: a walk follows edges from node to node and costs the
sum of their weights, and the distance of two nodes is the least cost of a walk between them.
-/

namespace AddressableHeap.Graph

/-- The edges that leave a node; none leave what is not a node. -/
def edgesFrom (g : Graph) (node : Nat) : List Edge :=
  ((g.nodes[node]?).map (·.edges.toList)).getD []

/-- There is a walk from the first node to the second, through these nodes, at this cost. -/
inductive Walk (g : Graph) : Nat → Nat → List Nat → Nat → Prop where
  /-- Staying at a node costs nothing. -/
  | here (node : Nat) : Walk g node node [node] 0
  /-- A walk may begin with an edge that leaves its first node. -/
  | along {first last : Nat} {edge : Edge} {nodes : List Nat} {cost : Nat} :
      edge ∈ g.edgesFrom first → Walk g edge.target last nodes cost →
      Walk g first last (first :: nodes) (edge.weight.toNat + cost)

/-- There is a walk from `first` to `last`. -/
def Reaches (g : Graph) (first last : Nat) : Prop := ∃ nodes cost, g.Walk first last nodes cost

/-- The least cost of a walk from `first` to `last` is `distance`. -/
def IsDistance (g : Graph) (first last distance : Nat) : Prop :=
  (∃ nodes, g.Walk first last nodes distance) ∧
    ∀ nodes cost, g.Walk first last nodes cost → distance ≤ cost

/-- Every edge leads to a node. -/
def Closed (g : Graph) : Prop := ∀ node, ∀ edge ∈ g.edgesFrom node, edge.target < g.size

/-- A walk can be continued along an edge that leaves its last node. -/
theorem Walk.snoc {g : Graph} {first last : Nat} {nodes : List Nat} {cost : Nat} {edge : Edge}
    (h : g.Walk first last nodes cost) (he : edge ∈ g.edgesFrom last) :
    g.Walk first edge.target (nodes ++ [edge.target]) (cost + edge.weight.toNat) := by
  induction h with
  | here node => simpa using Walk.along he (.here edge.target)
  | along hf _ ih => simpa [Nat.add_assoc] using Walk.along hf (ih he)

end AddressableHeap.Graph
