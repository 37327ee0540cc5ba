import FlowPaths.Event
import FlowPaths.Graph.Memory

/-!
Exchange of memory graphs as documents.  A document lists nodes and edges; reading one either
replaces the graph or merges into it.  Everything that the document names is checked before the
graph is touched, except that edges meet the ones already there one at a time.
-/

namespace FlowPaths

def formatVersion : Value := Value.text "1.0"

namespace Node

def toDocument (n : Node) : Value :=
  .dictionary (.of ["function", "kind", "node_id"] [n.function, n.kind, n.id])

end Node

namespace Edge

def toDocument (e : Edge) : Value :=
  .dictionary (.of ["dst", "kind", "src"] [e.dst, e.kind, e.src])

end Edge

structure ImportStats where
  nodesImported : Nat := 0
  edgesImported : Nat := 0
  skipped : Nat := 0
  deriving DecidableEq

structure ImportOutcome where
  graph : MemoryGraph
  events : List Event
  result : Except Fault ImportStats

namespace MemoryGraph

def toDocument (g : MemoryGraph) (time : Value) : Value :=
  .dictionary (.of ["edges", "exported_at", "format_version", "graph_id", "nodes"]
    [.list (g.edges.map Edge.toDocument), time, formatVersion, g.graphId,
      .list (g.nodes.map Node.toDocument)])

def readNode (entry : Value) : Except Fault Node := do
  let id ← entry.field "node_id"
  let _ ← id.hash
  return { id, kind := entry.label "kind", function := entry.label "function" }

def checkEndpoint (known : List Key) (id : Value) : Except Fault Unit := do
  unless known.contains (← id.hash) do throw (.endpointNotFound id)

def readEdge (known : List Key) (entry : Value) : Except Fault Edge := do
  let src ← entry.field "src"
  let dst ← entry.field "dst"
  checkEndpoint known src
  checkEndpoint known dst
  return { src, dst, kind := entry.label "kind" }

def readDocument (entries : Dictionary Value) (present : List Key) :
    Except Fault (List Node × List Edge) := do
  let nodeEntries ← (Value.fieldD entries "nodes" (.list [])).elements
  let nodes ← nodeEntries.mapM readNode
  let edgeEntries ← (Value.fieldD entries "edges" (.list [])).elements
  let edges ← edgeEntries.mapM (readEdge (nodes.map (·.id.key) ++ present))
  return (nodes, edges)

def edgeKeys (g : MemoryGraph) : Except Fault (List (Key × Key × Key)) :=
  g.edges.mapM fun edge => if edge.hashable then .ok edge.key else .error .unhashable

def importNodes (merge : Bool) (nodes : List Node) (g : MemoryGraph) (stats : ImportStats) :
    MemoryGraph × ImportStats :=
  match nodes with
  | [] => (g, stats)
  | node :: nodes =>
    if merge && g.contains node.id then
      importNodes merge nodes g { stats with skipped := stats.skipped + 1 }
    else
      importNodes merge nodes (g.putNode node)
        { stats with nodesImported := stats.nodesImported + 1 }

/-- Adds edges that are not among `existing`.  One that cannot be hashed ends the import, and what
was added stays. -/
def importEdges (existing : List (Key × Key × Key)) (edges : List Edge) (g : MemoryGraph)
    (stats : ImportStats) : MemoryGraph × Except Fault ImportStats :=
  match edges with
  | [] => (g, .ok stats)
  | edge :: edges =>
    if !edge.hashable then (g, .error .unhashable)
    else if existing.contains edge.key then
      importEdges existing edges g { stats with skipped := stats.skipped + 1 }
    else
      match g.addEdge edge with
      | .error fault => (g, .error fault)
      | .ok g =>
        importEdges existing edges g { stats with edgesImported := stats.edgesImported + 1 }

def versionEvents (entries : Dictionary Value) : List Event :=
  let version := Value.fieldD entries "format_version" (Value.text "")
  if version.toBool && !version.same formatVersion then [.unknownVersion version] else []

/-- Everything that is settled before the graph is touched: nodes, edges, and the edges that a
merge passes over. -/
def prepareImport (g : MemoryGraph) (entries : Dictionary Value) (merge : Bool) :
    Except Fault (List Node × List Edge × List (Key × Key × Key)) := do
  let present := if merge then g.nodeIds.map Value.key else []
  let (nodes, edges) ← readDocument entries present
  let existing ← if merge then g.edgeKeys else pure []
  return (nodes, edges, existing)

def importDocument (g : MemoryGraph) (document : Value) (merge : Bool) : ImportOutcome :=
  match document with
  | .dictionary entries =>
    let events := versionEvents entries
    match g.prepareImport entries merge with
    | .error fault => ⟨g, events, .error fault⟩
    | .ok (nodes, edges, existing) =>
      let base := if merge then g else g.clear
      let (g, stats) := importNodes merge nodes base {}
      match importEdges existing edges g stats with
      | (g, .error fault) => ⟨g, events, .error fault⟩
      | (g, .ok stats) =>
        let done := Event.imported stats.nodesImported stats.edgesImported g.graphId
        ⟨g, events ++ [done], .ok stats⟩
  | _ => ⟨g, [], .error .noSuchOperation⟩

end MemoryGraph

end FlowPaths
