import FlowPaths.Event
import FlowPaths.Graph.Memory
import FlowPaths.Graph.Store

/-!
Graphs stored in a database of two tables.  Every column is text, so names and labels are stored by
their text, and each row carries a number by which rows are read back in the order of insertion.
The database outlives the graph that was opened on it.
-/

namespace FlowPaths

def columnText : Value → String
  | .atom .null => ""
  | v => v.toText

structure StoredGraph (δ : Type) where
  graphId : Value
  database : δ
  nextNode : Nat
  nextEdge : Nat
  isOpen : Bool := true
  deriving DecidableEq

structure LoadStats where
  nodesLoaded : Nat := 0
  edgesLoaded : Nat := 0
  deriving DecidableEq

structure LoadOutcome (δ : Type) where
  graph : StoredGraph δ
  events : List Event
  result : Except Fault LoadStats

namespace StoredGraph

variable {δ : Type} [Store δ]

def openOn (database : δ) (graphId automatic : Value) : StoredGraph δ where
  graphId := if graphId.toBool then graphId else automatic
  database := database
  nextNode := Store.numberAfter (Store.lastNode database)
  nextEdge := Store.numberAfter (Store.lastEdge database)

def close (g : StoredGraph δ) : StoredGraph δ := { g with isOpen := false }

def tables (g : StoredGraph δ) : Except Fault δ :=
  if g.isOpen then .ok g.database else .error .closed

def nodeOfRow (row : NodeRow) : Node :=
  { id := .text row.id, kind := .text row.kind, function := .text row.function }

def edgeOfRow (row : EdgeRow) : Edge :=
  { src := .text row.src, dst := .text row.dst, kind := .text row.kind }

/-- Only a text can name a node, and no other name needs the tables. -/
def getNode (g : StoredGraph δ) : Value → Except Fault (Option Node)
  | .atom (.text id) => return (Store.node? (← g.tables) id).map nodeOfRow
  | _ => .ok none

def hasNode (g : StoredGraph δ) (id : Value) : Except Fault Bool :=
  return (← g.getNode id).isSome

def outEdges (g : StoredGraph δ) : Value → Except Fault (List Edge)
  | .atom (.text id) => return (Store.edgesInOrder (← g.tables) id).map edgeOfRow
  | _ => .ok []

def nodeIds (g : StoredGraph δ) : Except Fault (List Value) :=
  return (Store.nodesInOrder (← g.tables)).map fun row => .text row.id

def entries (g : StoredGraph δ) : Except Fault (List Entry) := do
  let db ← g.tables
  return ((Store.nodesInOrder db).map (·.id)).filterMap fun id =>
    (Store.node? db id).map fun row =>
      { id := .text id, node := nodeOfRow row, out := (Store.edgesInOrder db id).map edgeOfRow }

def nodeCount (g : StoredGraph δ) : Except Fault Nat := return Store.nodeCount (← g.tables)
def edgeCount (g : StoredGraph δ) : Except Fault Nat := return Store.edgeCount (← g.tables)

/-- Stores a node under the text of its name, or sets the labels of the one there.  The record
handed back has the labels as they were given. -/
def addNode (g : StoredGraph δ) (node : Node) : Except Fault (StoredGraph δ × Node) := do
  let db ← g.tables
  let id := node.id.toText
  let kind := columnText node.kind
  let function := columnText node.function
  let stored := { node with id := .text id }
  if Store.hasNode db id then
    return ({ g with database := Store.setLabels db id kind function }, stored)
  else
    let database := Store.insertNode db { id, kind, function, seq := g.nextNode }
    return ({ g with database, nextNode := g.nextNode + 1 }, stored)

def addEdge (g : StoredGraph δ) (edge : Edge) : Except Fault (StoredGraph δ × Edge) := do
  let db ← g.tables
  let src := edge.src.toText
  let dst := edge.dst.toText
  unless Store.hasNode db src do throw (.sourceNotFound edge.src)
  unless Store.hasNode db dst do throw (.targetNotFound edge.dst)
  let database := Store.insertEdge db { src, dst, kind := columnText edge.kind, seq := g.nextEdge }
  return ({ g with database, nextEdge := g.nextEdge + 1 },
    { edge with src := .text src, dst := .text dst })

def addEach {α : Type} (add : StoredGraph δ → α → Except Fault (StoredGraph δ)) :
    List α → StoredGraph δ → StoredGraph δ × Except Fault Unit
  | [], g => (g, .ok ())
  | item :: items, g =>
    match add g item with
    | .error fault => (g, .error fault)
    | .ok g => addEach add items g

/-- Loads all nodes, then all edges.  Nodes go under the listed name, edges under the ends that
they record. -/
def loadFrom (g : StoredGraph δ) (source : List Entry) : LoadOutcome δ :=
  let nodes := source.map fun item => { item.node with id := item.id }
  let edges := source.flatMap (·.out)
  match addEach (fun g node => return (← g.addNode node).1) nodes g with
  | (g, .error fault) => ⟨g, [], .error fault⟩
  | (g, .ok ()) =>
    match addEach (fun g edge => return (← g.addEdge edge).1) edges g with
    | (g, .error fault) => ⟨g, [], .error fault⟩
    | (g, .ok ()) =>
      ⟨g, [.loaded nodes.length edges.length g.graphId], .ok ⟨nodes.length, edges.length⟩⟩

def repeatNode (g : StoredGraph δ) (id : Value) : Except Fault (StoredGraph δ) := do
  match ← g.getNode id with
  | some node => return (← g.addNode { node with id }).1
  | none => throw .noSuchOperation

def repeatEdges : List Value → StoredGraph δ → Nat → StoredGraph δ × Except Fault Nat
  | [], g, loaded => (g, .ok loaded)
  | id :: ids, g, loaded =>
    match g.outEdges id with
    | .error fault => (g, .error fault)
    | .ok edges =>
      match addEach (fun g edge => return (← g.addEdge edge).1) edges g with
      | (g, .error fault) => (g, .error fault)
      | (g, .ok ()) => repeatEdges ids g (loaded + edges.length)

/-- Loads a graph into itself.  Its nodes are listed once; all else is read while it grows. -/
def loadItself (g : StoredGraph δ) : LoadOutcome δ :=
  match g.nodeIds with
  | .error fault => ⟨g, [], .error fault⟩
  | .ok ids =>
    match addEach repeatNode ids g with
    | (g, .error fault) => ⟨g, [], .error fault⟩
    | (g, .ok ()) =>
      match repeatEdges ids g 0 with
      | (g, .error fault) => ⟨g, [], .error fault⟩
      | (g, .ok loaded) => ⟨g, [.loaded ids.length loaded g.graphId], .ok ⟨ids.length, loaded⟩⟩

end StoredGraph

inductive LoadSource (δ : Type)
  | memory (graph : MemoryGraph)
  | stored (graph : StoredGraph δ)
  | itself

namespace StoredGraph

variable {δ : Type} [Store δ]

def load (g : StoredGraph δ) : LoadSource δ → LoadOutcome δ
  | .memory source => g.loadFrom source.entries
  | .stored source =>
    match source.entries with
    | .ok entries => g.loadFrom entries
    | .error fault => ⟨g, [], .error fault⟩
  | .itself => g.loadItself

theorem hasNode_eq_ok_true {g : StoredGraph δ} {id : Value} (h : g.hasNode id = .ok true) :
    id.key ∈ (Store.nodes g.database).map fun row => (Value.text row.id).key := by
  unfold hasNode getNode at h
  split at h
  · rename_i name
    unfold tables at h
    split at h
    · simp only [bind, Except.bind, pure, Except.pure, Except.ok.injEq, Option.isSome_map,
        Option.isSome_iff_exists, Store.node?_eq_some] at h
      obtain ⟨row, hmem, hid⟩ := h
      exact List.mem_map.2 ⟨row, hmem, by rw [hid]⟩
    · simp [bind, Except.bind] at h
  · simp [bind, Except.bind, pure, Except.pure] at h

def toGraph (g : StoredGraph δ) : FiniteGraph where
  hasNode := g.hasNode
  outEdges id := return (← g.outEdges id).map .ok
  finite := ⟨_, fun _ => hasNode_eq_ok_true⟩

def offers : Operation → Bool
  | .edges | .writeDocument | .readDocument => false
  | _ => true

end StoredGraph

end FlowPaths
