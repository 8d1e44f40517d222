import AddressableHeap.Checked
import AddressableHeap.Rejection

/-!
# Weighted graphs

A directed graph whose edges carry weights. A node is known by its number, and has a label for
people to read and a list of outgoing edges in the order in which they were added. Edges may be
parallel, may lead back to where they start, and may weigh nothing.
-/

namespace AddressableHeap

/-- An edge, as seen from the node it leaves. -/
structure Edge where
  /-- The node it leads to. -/
  target : Nat
  /-- What it costs to go along it. -/
  weight : UInt32
  deriving DecidableEq, Repr

/-- A node. -/
structure Node where
  /-- Its name, which other nodes may share. -/
  label : String
  /-- The edges that leave it, the oldest first. -/
  edges : Array Edge
  deriving DecidableEq, Repr

/-- A directed graph with weighted edges. -/
structure Graph where
  /-- The nodes, by number. -/
  nodes : Array Node
  deriving DecidableEq, Repr

namespace Graph

/-- Why something cannot be done with a graph. -/
inductive Failure where
  /-- There is no node `node` among `size` nodes. -/
  | noNode (node size : Nat)
  /-- The heap that holds the frontier of a search turned a request down. -/
  | frontier (reason : Rejection)
  deriving DecidableEq, Repr

namespace Failure

def message : Failure → String
  | .noNode node size => s!"node {node} is outside the graph (0..{size})"
  | .frontier reason => reason.message

def outline : Failure → Outline
  | .noNode node size => .record "NodeOutOfRange" [("node", .nat node), ("nodes", .nat size)]
  | .frontier reason => .wrapped "Heap" reason.outline

end Failure

/-- A graph with a node for each label and without edges. -/
def ofLabels (labels : List String) : Graph := ⟨(labels.map (⟨·, #[]⟩)).toArray⟩

/-- How many nodes the graph has. They have the numbers below this. -/
def size (g : Graph) : Nat := g.nodes.size

/-- Add an edge from `source` to `target`. If neither is a node, `source` is reported. -/
def addEdge (g : Graph) (source target : Nat) (weight : UInt32) :
    Checked (Except Failure Unit × Graph) := do
  if g.size ≤ source then pure (.error (.noNode source g.size), g)
  else if g.size ≤ target then pure (.error (.noNode target g.size), g)
  else
    let node ← Checked.get g.nodes source
    let nodes ← Checked.set g.nodes source { node with edges := node.edges.push ⟨target, weight⟩ }
    pure (.ok (), ⟨nodes⟩)

/-- The edges that leave a node. -/
def neighbors (g : Graph) (node : Nat) : Checked (List Edge) := do
  let node ← Checked.get g.nodes node
  pure node.edges.toList

/-- The label of a node. -/
def label (g : Graph) (node : Nat) : Checked String := do
  let node ← Checked.get g.nodes node
  pure node.label

/-- The first node with a label. -/
def find? (g : Graph) (label : String) : Option Nat := g.nodes.findIdx? (·.label == label)

/-- The written form of a sequence of nodes: their labels, with arrows between neighbours. -/
def pathText (g : Graph) (path : List Nat) : Checked String := do
  let labels ← path.mapM g.label
  pure (" -> ".intercalate labels)

/-- Five nodes in a diamond, `A` on one side and `E` on the other. The way through `B` and `D` costs
7 and the way through `C` costs 10. -/
def diamond : Graph := ⟨#[
  ⟨"A", #[⟨1, 2⟩, ⟨2, 10⟩]⟩,
  ⟨"B", #[⟨3, 1⟩]⟩,
  ⟨"C", #[⟨4, 0⟩]⟩,
  ⟨"D", #[⟨4, 4⟩]⟩,
  ⟨"E", #[]⟩]⟩

end Graph

end AddressableHeap
