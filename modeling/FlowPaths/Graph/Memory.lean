import FlowPaths.Graph.Basic
import FlowPaths.Graph.Table

/-!
Graphs in memory.  Nodes and the edges out of each node keep the order of insertion.  Adding a node
again replaces its record; the name under which it was first added stays, and so do its place and
its edges.
-/

namespace FlowPaths

structure MemoryGraph where
  graphId : Value := Value.text "in_memory"
  records : Table Node := {}
  out : Table (List Edge) := {}
  deriving DecidableEq

namespace MemoryGraph

def contains (g : MemoryGraph) (id : Value) : Bool := g.records.contains id

def nodeIds (g : MemoryGraph) : List Value := g.records.keys
def nodes (g : MemoryGraph) : List Node := g.records.values
def nodeCount (g : MemoryGraph) : Nat := g.records.rows.length

def edges (g : MemoryGraph) : List Edge := g.out.values.flatten

def edgeCount (g : MemoryGraph) : Nat :=
  g.out.values.foldl (fun count edges => count + edges.length) 0

theorem edgeCount_eq_length_edges (g : MemoryGraph) : g.edgeCount = g.edges.length := by
  have hfrom : ∀ (lists : List (List Edge)) (n : Nat),
      lists.foldl (fun count edges => count + edges.length) n = n + lists.flatten.length := by
    intro lists
    induction lists with
    | nil => simp
    | cons edges lists ih =>
      intro n
      simp only [List.foldl_cons, ih, List.flatten_cons, List.length_append]
      omega
  simpa [edgeCount, edges] using hfrom g.out.values 0

def hasNode (g : MemoryGraph) (id : Value) : Except Fault Bool := id.lookUp (g.contains id)

def getNode (g : MemoryGraph) (id : Value) : Except Fault (Option Node) :=
  id.lookUp (g.records.find? id)

def outEdges (g : MemoryGraph) (id : Value) : Except Fault (List Edge) :=
  id.lookUp ((g.out.find? id).getD [])

def entries (g : MemoryGraph) : List Entry :=
  g.nodeIds.filterMap fun id => (g.records.find? id).map fun node =>
    { id, node, out := (g.out.find? id).getD [] }

def putNode (g : MemoryGraph) (node : Node) : MemoryGraph :=
  { g with
    out := if g.contains node.id then g.out else g.out.set node.id []
    records := g.records.set node.id node }

def addNode (g : MemoryGraph) (node : Node) : Except Fault MemoryGraph :=
  node.id.lookUp (g.putNode node)

def putEdge (g : MemoryGraph) (edge : Edge) : MemoryGraph :=
  { g with out := g.out.modify edge.src (· ++ [edge]) }

def addEdge (g : MemoryGraph) (edge : Edge) : Except Fault MemoryGraph := do
  unless ← g.hasNode edge.src do throw (.sourceNotFound edge.src)
  unless ← g.hasNode edge.dst do throw (.targetNotFound edge.dst)
  unless g.out.contains edge.src do throw (.keyNotFound edge.src)
  return g.putEdge edge

def clear (g : MemoryGraph) : MemoryGraph := { g with records := {}, out := {} }

def ensureNode (g : MemoryGraph) (id : Value) : Except Fault MemoryGraph := do
  if ← g.hasNode id then return g else g.addNode { id }

def link (g : MemoryGraph) (ends : Value) : Except Fault MemoryGraph := do
  let (src, dst) ← ends.unpackPair
  let g ← g.ensureNode src
  let g ← g.ensureNode dst
  g.addEdge { src, dst }

def ofEdges (graphId nodes edges : Value) : Except Fault MemoryGraph := do
  let g ← (← nodes.elements).foldlM ensureNode { graphId }
  (← edges.elements).foldlM link g

theorem hasNode_eq_ok_true {g : MemoryGraph} {id : Value} (h : g.hasNode id = .ok true) :
    id.key ∈ g.nodeIds.map Value.key := by
  unfold hasNode Value.lookUp at h
  split at h
  · exact (g.records.contains_iff id).1 (Except.ok.inj h)
  · cases h

def toGraph (g : MemoryGraph) : FiniteGraph where
  hasNode := g.hasNode
  outEdges id := return (← g.outEdges id).map .ok
  finite := ⟨g.nodeIds.map Value.key, fun _ => hasNode_eq_ok_true⟩

def offers : Operation → Bool
  | .loadFrom => false
  | _ => true

end MemoryGraph

/-- A walk over the edges of a memory graph.  It takes its snapshot when it is first asked for an
edge, and from then on later changes do not reach it. -/
inductive EdgeWalk
  | unstarted
  | left (groups : List (List Edge))
  deriving DecidableEq

namespace EdgeWalk

def remaining (g : MemoryGraph) : EdgeWalk → List (List Edge)
  | .unstarted => g.out.values
  | .left groups => groups

def advance : List (List Edge) → Option Edge × List (List Edge)
  | [] => (none, [])
  | [] :: groups => advance groups
  | (edge :: edges) :: groups => (some edge, edges :: groups)

def next (g : MemoryGraph) (walk : EdgeWalk) : Option Edge × EdgeWalk :=
  let (edge?, groups) := advance (walk.remaining g)
  (edge?, .left groups)

def take (g : MemoryGraph) (walk : EdgeWalk) : Nat → List (Option Edge) × EdgeWalk
  | 0 => ([], walk)
  | n + 1 =>
    let (edge, walk) := walk.next g
    let (edges, walk) := take g walk n
    (edge :: edges, walk)

end EdgeWalk

end FlowPaths
