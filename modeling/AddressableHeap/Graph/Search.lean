import AddressableHeap.Graph.Basic
import AddressableHeap.Observer

/-!
# Shortest paths

A search spreads from a source and settles nodes in the order of their distance until it settles
the target. The frontier, that is the nodes found but not yet settled, is a heap whose members are
nodes under their tentative distances. A shorter way to a node of the frontier changes its key
instead of adding it a second time, so each node is in the frontier at most once.
-/

namespace AddressableHeap

variable {σ : Type}

/-- The key of a node at a distance: the distance itself, or the largest key if that is smaller. -/
def Key.ofDistance (distance : UInt64) : Key :=
  if distance ≤ Int64.maxValue.toUInt64 then distance.toInt64 else Int64.maxValue

/-- What a search knows about a node. -/
structure Visit where
  /-- The length of the shortest way found so far. -/
  distance : UInt64
  /-- The node before it on that way. -/
  via : Option Nat
  /-- Whether no shorter way can be found any more. -/
  settled : Bool
  deriving DecidableEq, Repr

namespace Visit

/-- A node to which no way was found yet. Its distance is above that of any way. -/
def unreached : Visit := ⟨18446744073709551615, none, false⟩

/-- The node that the search starts from. -/
def start : Visit := ⟨0, none, false⟩

end Visit

/-- A way through a graph and what it costs. -/
structure Path where
  /-- The sum of the weights of its edges. -/
  cost : UInt64
  /-- Its nodes, from the first to the last. -/
  nodes : List Nat
  deriving DecidableEq, Repr

/-- What a search answers: a shortest path, or nothing if there is no way, or why the frontier
turned a request down. -/
abbrev Verdict := Except Rejection (Option Path)

/-- A search under way. -/
structure Search (σ : Type) where
  /-- What is known about each node. -/
  visits : Array Visit
  /-- The nodes found but not settled, under observation. -/
  frontier : Watched σ

namespace Search

/-- Enter `node` into the frontier under `key`, or change its key if it is there. -/
def enter (watch : Observer σ) (key : Key) (node : Nat) (frontier : Watched σ) :
    Checked (Except Rejection Unit × Watched σ) := do
  if ← frontier.heap.contains node then watch.update key node frontier
  else watch.insert key node frontier

/-- Look along an edge that leaves the settled node `here`. If it leads to an unsettled node on a
shorter way than was known, note that way and enter the node into the frontier. -/
def relax (watch : Observer σ) (here : Nat) (edge : Edge) (s : Search σ) :
    Checked (Except Rejection Unit × Search σ) := do
  let ⟨visits, ⟨heap, seen⟩⟩ := s
  let there ← Checked.get visits edge.target
  if there.settled then pure (.ok (), ⟨visits, ⟨heap, seen⟩⟩)
  else
    let visit ← Checked.get visits here
    let distance ← Checked.add visit.distance edge.weight.toUInt64
    if distance < there.distance then
      let notice := .relaxed here edge.target distance there.distance
      let seen := watch.react (.notice notice) seen
      let visits ← Checked.set visits edge.target { there with distance, via := some here }
      let (reply, frontier) ← enter watch (.ofDistance distance) edge.target ⟨heap, seen⟩
      pure (reply, ⟨visits, frontier⟩)
    else pure (.ok (), ⟨visits, ⟨heap, seen⟩⟩)

/-- Look along edges that leave the settled node `here`, one after the other, until the frontier
turns a request down. -/
def relaxAll (watch : Observer σ) (here : Nat) :
    List Edge → Search σ → Checked (Except Rejection Unit × Search σ)
  | [], s => pure (.ok (), s)
  | edge :: edges, s => do
    let (reply, s) ← relax watch here edge s
    match reply with
    | .error reason => pure (.error reason, s)
    | .ok () => relaxAll watch here edges s

/-- Follow the ways noted in `visits` from `node` back to `source`, in at most `steps` steps, and put
the nodes in front of `path`. The walk ends early at a node to which no way is noted. -/
def retrace (visits : Array Visit) (source : Nat) :
    Nat → Nat → List Nat → Checked (List Nat)
  | steps, node, path => do
    if node = source then pure path
    else
      let visit ← Checked.get visits node
      match visit.via with
      | none => pure path
      | some before =>
        match steps with
        | 0 => throw .unfinished
        | steps + 1 => retrace visits source steps before (before :: path)

/-- Settle the node of the frontier with the least distance. The search ends with a verdict if that
node is the target, or if the frontier turns a request down; else its edges are looked along. -/
def step (watch : Observer σ) (g : Graph) (source target : Nat) (s : Search σ) :
    Checked (Option Verdict × Search σ) := do
  let ⟨visits, frontier⟩ := s
  let (reply, frontier) ← watch.removeMin frontier
  match reply with
  | .error reason => pure (some (.error reason), ⟨visits, frontier⟩)
  | .ok here => do
    let visit ← Checked.get visits here
    let visits ← Checked.set visits here { visit with settled := true }
    if here = target then
      let nodes ← retrace visits source (visits.size - 1) target [target]
      pure (some (.ok (some ⟨visit.distance, nodes⟩)), ⟨visits, frontier⟩)
    else
      let edges ← g.neighbors here
      let (reply, s) ← relaxAll watch here edges ⟨visits, frontier⟩
      match reply with
      | .error reason => pure (some (.error reason), s)
      | .ok () => pure (none, s)

/-- Settle nodes, at most `rounds` of them, until there is a verdict or the frontier is empty. -/
def run (watch : Observer σ) (g : Graph) (source target : Nat) :
    Nat → Search σ → Checked (Verdict × Search σ)
  | rounds, s => do
    if s.frontier.heap.isEmpty then pure (.ok none, s)
    else
      match rounds with
      | 0 => throw .unfinished
      | rounds + 1 => do
        let (verdict?, s) ← step watch g source target s
        match verdict? with
        | some verdict => pure (verdict, s)
        | none => run watch g source target rounds s

end Search

namespace Graph

/-- A shortest path from `source` to `target`, with a given heap for the frontier. The heap is
emptied first, and what the search leaves in it stays there. If an end is not a node, the heap is
not touched; of two such ends `source` is reported. Each round of the search settles a node, so as
many rounds as there are nodes are enough. -/
def shortestPathWith (g : Graph) (watch : Observer σ) (source target : Nat)
    (frontier : Watched σ) : Checked (Except Failure (Option Path) × Watched σ) := do
  if g.size ≤ source then pure (.error (.noNode source g.size), frontier)
  else if g.size ≤ target then pure (.error (.noNode target g.size), frontier)
  else
    let (_, frontier) ← watch.perform .clear frontier
    let visits ← Checked.set (Array.replicate g.size Visit.unreached) source Visit.start
    let (reply, frontier) ← watch.insert 0 source frontier
    match reply with
    | .error reason => pure (.error (.frontier reason), frontier)
    | .ok () => do
      let (verdict, s) ← Search.run watch g source target g.size ⟨visits, frontier⟩
      pure (verdict.mapError .frontier, s.frontier)

/-- A shortest path from `source` to `target`, with a heap of its own that has room for every node.
Nobody is called around the mutations of that heap, but notices are taken. -/
def shortestPath (g : Graph) (watch : Observer σ) (source target : Nat) (seen : σ) :
    Checked (Except Failure (Option Path) × σ) := do
  let (answer, frontier) ← g.shortestPathWith watch.deaf source target ⟨.empty g.size, seen⟩
  pure (answer, frontier.seen)

end Graph

end AddressableHeap
