import FlowPaths.Enumeration
import FlowPaths.Graph.Scripted
import FlowPaths.Graph.Stored

/-!
Commands of a session.  Graphs, enumerators, walks and databases go by names that the session
gives them.
-/

namespace FlowPaths.Session

inductive Question
  | graphId
  | getNode (id : Value)
  | hasNode (id : Value)
  | outEdges (id : Value)
  /-- The same edges as a list, which a graph that hands them out one by one does not have. -/
  | outEdgeList (id : Value)
  | nodeIds
  | nodeCount
  | edgeCount
  | edges
  | entries
  | document

inductive Change
  | addNode (node : Node)
  | addEdge (edge : Edge)
  | close
  | importDocument (document merge : Value)

structure Settings where
  arguments : List (String × Value) := []
  plan : Option CancelPlan := none

inductive Handout
  | outEdges (g : String) (id : Value)
  | nodeIds (g : String)
  | run (e g : String)
  | pairResults (e : String)
  | pairPaths (e : String) (i : Int)

inductive Command
  | newMemory (g : String) (graphId : Value)
  | newFromEdges (g : String) (graphId nodes edges : Value)
  | openStored (g database : String) (graphId : Value)
  | newScripted (g : String) (graph : ScriptedGraph)
  | newSpy (g of : String)
  | trace (g : String)
  | ask (g : String) (question : Question)
  | change (g : String) (change : Change)
  | importFrom (g source : String) (merge : Value)
  | loadFrom (g source : String)
  | beginWalk (walk g : String)
  | continueWalk (walk : String) (n : Nat)
  | newEnumerator (e : String) (sources sinks : Value) (settings : Settings)
  | assign (e : String) (sources? sinks? : Option Value) (settings? : Option Settings)
  | run (e g : String)
  | search (e g : String) (current target : Value) (path visited : List Value)
  | paths (e : String)
  | pairResults (e : String)
  | pathCount (e : String)
  | reset (e : String)
  | report (e : String)
  | reportDocument (e : String)
  /-- Empties a list that is handed out, which is felt elsewhere only if the list is shared. -/
  | clear (list : Handout)

inductive Reply
  | nothing
  | value (v : Value)
  | flag (b : Bool)
  | count (n : Nat)
  | sizes (nodes edges : Nat)
  | text (s : String)
  | node (node? : Option Node)
  | edge (edge : Edge)
  | values (vs : List Value)
  | edges (edges : List Edge)
  | walked (edges : List (Option Edge))
  | entries (entries : List Entry)
  | calls (calls : List Call)
  | imported (stats : ImportStats)
  | loaded (stats : LoadStats)
  | paths (paths : List Path)
  | pairResults (results : List PairResult)

structure RunAnswer where
  result : Except Fault (List Path)
  kept : List Path
  pairs : List PairResult
  polls? : Option (Option Nat)

structure SearchAnswer where
  result : Except Fault (List Path)
  path : Path
  visited : List Value
  visitedSize : Nat
  polls? : Option (Option Nat)

inductive Answer
  | failed (fault : Fault)
  | reply (reply : Reply)
  | run (answer : RunAnswer)
  | search (answer : SearchAnswer)

end FlowPaths.Session
