import FlowPaths.Graph.Database
import FlowPaths.Session.Command

/-!
The workspace of a session: everything that has a name in it.  A graph keeps its number when its
name is given to another one, so a spy or a walk stays with the graph it was made for.
-/

namespace FlowPaths.Session

inductive Subject
  | memory (graph : MemoryGraph)
  | stored (database : String) (graph : StoredGraph Database)
  | scripted (graph : ScriptedGraph)
  | spy (of : Nat) (calls : List Call)

/-- `time` is the stamp on documents, `automaticId` the name of a stored graph that was given
none. -/
structure Workspace where
  time : Value
  automaticId : Value
  subjects : List Subject := []
  graphs : List (String × Nat) := []
  enumerators : List (String × Enumerator) := []
  walks : List (String × Nat × EdgeWalk) := []
  databases : List (String × Database) := []

namespace Subject

def toGraph? : Subject → Option FiniteGraph
  | .memory g => some g.toGraph
  | .stored _ g => some g.toGraph
  | .scripted g => some g.toGraph
  | .spy _ _ => none

def offers : Subject → Operation → Bool
  | .memory _ => MemoryGraph.offers
  | .stored _ _ => StoredGraph.offers
  | .scripted _ => ScriptedGraph.offers
  | .spy _ _ => ScriptedGraph.offers

def loadSource (i j : Nat) : Subject → Except Fault (LoadSource Database)
  | .memory g => .ok (.memory g)
  | .stored _ g => .ok (if i = j then .itself else .stored g)
  | .scripted _ | .spy _ _ => .error .noSuchOperation

def document (time : Value) : Subject → Except Fault Value
  | .memory g => .ok (g.toDocument time)
  | _ => .error .noSuchOperation

def askMemory (g : MemoryGraph) (time : Value) : Question → Except Fault Reply
  | .graphId => return .value g.graphId
  | .getNode id => return .node (← g.getNode id)
  | .hasNode id => return .flag (← g.hasNode id)
  | .outEdges id | .outEdgeList id => return .edges (← g.outEdges id)
  | .nodeIds => return .values g.nodeIds
  | .nodeCount => return .count g.nodeCount
  | .edgeCount => return .count g.edgeCount
  | .edges => return .edges g.edges
  | .entries => return .entries g.entries
  | .document => return .value (g.toDocument time)

def askStored (g : StoredGraph Database) : Question → Except Fault Reply
  | .graphId => return .value g.graphId
  | .getNode id => return .node (← g.getNode id)
  | .hasNode id => return .flag (← g.hasNode id)
  | .outEdges id | .outEdgeList id => return .edges (← g.outEdges id)
  | .nodeIds => return .values (← g.nodeIds)
  | .nodeCount => return .count (← g.nodeCount)
  | .edgeCount => return .count (← g.edgeCount)
  | .entries => return .entries (← g.entries)
  | .edges | .document => .error .noSuchOperation

def askScripted (g : ScriptedGraph) : Question → Except Fault Reply
  | .hasNode id => return .flag (← g.hasNode id)
  | .outEdges id => return .edges (← (← g.outEdges id).mapM fun item => item)
  | .outEdgeList id => do
    let _ ← g.outEdges id
    throw .noSuchOperation
  | _ => .error .noSuchOperation

def ask (time : Value) : Subject → Question → Except Fault Reply
  | .memory g => askMemory g time
  | .stored _ g => askStored g
  | .scripted g => askScripted g
  | .spy _ _ => fun _ => .error .noSuchOperation

end Subject

def Question.call? : Question → Option Call
  | .hasNode id => some (.has id)
  | .outEdges id | .outEdgeList id => some (.out id)
  | _ => none

def bindName {α : Type} (name : String) (a : α) (names : List (String × α)) : List (String × α) :=
  (name, a) :: names.filter fun entry => entry.1 ≠ name

def lookUp {α : Type} (names : List (String × α)) (name : String) : Except Fault α :=
  match names.lookup name with
  | some a => .ok a
  | none => .error (.fieldNotFound name)

namespace Workspace

def addSubject (ws : Workspace) (name : String) (subject : Subject) : Workspace :=
  { ws with
    subjects := ws.subjects ++ [subject]
    graphs := bindName name ws.subjects.length ws.graphs }

def subject (ws : Workspace) (i : Nat) : Except Fault Subject :=
  match ws.subjects[i]? with
  | some subject => .ok subject
  | none => .error .noSuchOperation

/-- Changes a graph.  What an open stored graph holds is kept in its database; a closed one no
longer reaches it, whoever has it open now. -/
def setSubject (ws : Workspace) (i : Nat) (subject : Subject) : Workspace :=
  let ws := { ws with subjects := ws.subjects.set i subject }
  match subject with
  | .stored name g =>
    if g.isOpen then { ws with databases := bindName name g.database ws.databases } else ws
  | _ => ws

/-- The graph that finally answers questions to the one numbered `i`.  A spy is younger than what
it passes questions on to. -/
def behind (ws : Workspace) (i : Nat) : Nat :=
  match ws.subjects[i]? with
  | some (.spy of _) => if of < i then ws.behind of else i
  | _ => i

def remember (ws : Workspace) (i : Nat) (calls : List Call) : Workspace :=
  match ws.subjects[i]? with
  | some (.spy of old) =>
    let ws := { ws with subjects := ws.subjects.set i (.spy of (old ++ calls)) }
    if of < i then ws.remember of calls else ws
  | _ => ws

def graph (ws : Workspace) (i : Nat) : Except Fault FiniteGraph := do
  match (← ws.subject (ws.behind i)).toGraph? with
  | some g => .ok g
  | none => .error .noSuchOperation

def ask (ws : Workspace) (i : Nat) (question : Question) : Workspace × Except Fault Reply :=
  match ws.subjects[i]? with
  | some (.spy _ _) =>
    match question.call? with
    | none => (ws, .error .noSuchOperation)
    | some call =>
      (ws.remember i [call], do (← ws.subject (ws.behind i)).ask ws.time question)
  | some subject => (ws, subject.ask ws.time question)
  | none => (ws, .error .noSuchOperation)

end Workspace

end FlowPaths.Session
