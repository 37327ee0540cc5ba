import FlowPaths.Value.Access

/-!
Nodes, edges, paths, and what a search may ask of a graph.  A graph need not be finite; the ones
that are can be searched to the end.
-/

namespace FlowPaths

structure Node where
  id : Value
  kind : Value := Value.text ""
  function : Value := Value.text ""
  deriving DecidableEq

structure Edge where
  src : Value
  dst : Value
  kind : Value := Value.text ""
  deriving DecidableEq

/-- A node under the name it was first added by, and its edges in the order they were added. -/
structure Entry where
  id : Value
  node : Node
  out : List Edge := []
  deriving DecidableEq

abbrev Path := List Value

namespace Edge

def key (e : Edge) : Key × Key × Key := (e.src.key, e.dst.key, e.kind.key)

def hashable (e : Edge) : Bool := e.src.hashable && e.dst.hashable && e.kind.hashable

end Edge

/-- The two questions of a search.  Edges come one by one, and reaching one may fail. -/
structure Graph where
  hasNode : Value → Except Fault Bool
  outEdges : Value → Except Fault (List (Except Fault Edge))

inductive Call
  | has (id : Value)
  | out (id : Value)
  deriving DecidableEq

def Graph.SupportedBy (g : Graph) (keys : List Key) : Prop :=
  ∀ v : Value, g.hasNode v = .ok true → v.key ∈ keys

structure FiniteGraph extends Graph where
  finite : ∃ keys, toGraph.SupportedBy keys

inductive Operation
  | graphId | close | addNode | getNode | hasNode | nodeIds | nodeCount
  | addEdge | outEdges | edges | edgeCount | writeDocument | readDocument | loadFrom
  deriving DecidableEq

def searchable (offers : Operation → Bool) : Bool := offers .hasNode && offers .outEdges

end FlowPaths
