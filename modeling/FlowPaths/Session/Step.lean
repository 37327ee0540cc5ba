import FlowPaths.Session.Workspace

/-!
One step of a session: a command is carried out on the workspace.  A command that creates something
binds the name only if it succeeds.
-/

namespace FlowPaths.Session

structure StepOutcome where
  workspace : Workspace
  answer : Answer
  events : List Event := []

def Answer.ofExcept : Except Fault Reply → Answer
  | .ok r => .reply r
  | .error fault => .failed fault

def Settings.config (settings : Settings) : Except Fault Config :=
  Config.ofArguments settings.arguments settings.plan

namespace Subject

structure Changed where
  subject : Subject
  result : Except Fault Reply
  events : List Event := []

def changeMemory (g : MemoryGraph) (change : Change) : Changed :=
  match change with
  | .addNode node =>
    match g.addNode node with
    | .ok g => ⟨.memory g, .ok (.node (some node)), []⟩
    | .error fault => ⟨.memory g, .error fault, []⟩
  | .addEdge edge =>
    match g.addEdge edge with
    | .ok g => ⟨.memory g, .ok (.edge edge), []⟩
    | .error fault => ⟨.memory g, .error fault, []⟩
  | .close => ⟨.memory g, .ok .nothing, []⟩
  | .importDocument document merge =>
    let outcome := g.importDocument document merge.toBool
    ⟨.memory outcome.graph, outcome.result.map .imported, outcome.events⟩

def changeStored (database : String) (g : StoredGraph Database) (change : Change) : Changed :=
  match change with
  | .addNode node =>
    match g.addNode node with
    | .ok (g, node) => ⟨.stored database g, .ok (.node (some node)), []⟩
    | .error fault => ⟨.stored database g, .error fault, []⟩
  | .addEdge edge =>
    match g.addEdge edge with
    | .ok (g, edge) => ⟨.stored database g, .ok (.edge edge), []⟩
    | .error fault => ⟨.stored database g, .error fault, []⟩
  | .close => ⟨.stored database g.close, .ok .nothing, []⟩
  | .importDocument _ _ => ⟨.stored database g, .error .noSuchOperation, []⟩

def change (subject : Subject) (change : Change) : Changed :=
  match subject with
  | .memory g => changeMemory g change
  | .stored database g => changeStored database g change
  | subject => ⟨subject, .error .noSuchOperation, []⟩

end Subject

namespace Workspace

def fail (ws : Workspace) (fault : Fault) : StepOutcome := ⟨ws, .failed fault, []⟩
def answer (ws : Workspace) (reply : Reply) : StepOutcome := ⟨ws, .reply reply, []⟩

def given {α : Type} (ws : Workspace) (found : Except Fault α) (go : α → StepOutcome) :
    StepOutcome :=
  match found with
  | .ok a => go a
  | .error fault => ws.fail fault

def putEnumerator (ws : Workspace) (name : String) (e : Enumerator) : Workspace :=
  { ws with enumerators := bindName name e ws.enumerators }

def named (ws : Workspace) (name : String) : Except Fault (Nat × Subject) := do
  let i ← lookUp ws.graphs name
  return (i, ← ws.subject i)

def changeGraph (ws : Workspace) (name : String) (change : Change) : StepOutcome :=
  ws.given (ws.named name) fun (i, subject) =>
    let changed := subject.change change
    ⟨ws.setSubject i changed.subject, .ofExcept changed.result, changed.events⟩

/-- Imports what another graph exports.  The document is made before the graph to take it is looked
at. -/
def importGraph (ws : Workspace) (name source : String) (merge : Value) : StepOutcome :=
  ws.given (do (← ws.named source).2.document ws.time) fun document =>
    ws.changeGraph name (.importDocument document merge)

def loadGraph (ws : Workspace) (name source : String) : StepOutcome :=
  ws.given (ws.named name) fun (i, subject) =>
    match subject with
    | .stored database g =>
      ws.given (do let (j, origin) ← ws.named source; origin.loadSource i j) fun source =>
        let outcome := g.load source
        ⟨ws.setSubject i (.stored database outcome.graph),
          .ofExcept (outcome.result.map .loaded), outcome.events⟩
    | _ => ws.fail .noSuchOperation

def traceGraph (ws : Workspace) (name : String) : StepOutcome :=
  ws.given (ws.named name) fun (i, subject) =>
    match subject with
    | .spy of calls => (ws.setSubject i (.spy of [])).answer (.calls calls)
    | _ => ws.fail .noSuchOperation

def beginWalk (ws : Workspace) (walk name : String) : StepOutcome :=
  ws.given (ws.named name) fun (i, subject) =>
    if subject.offers .edges then
      { ws with walks := bindName walk (i, .unstarted) ws.walks }.answer .nothing
    else ws.fail .noSuchOperation

/-- Takes the next `n` edges of a walk, which to take none need not even exist. -/
def continueWalk (ws : Workspace) (name : String) (n : Nat) : StepOutcome :=
  if n = 0 then ws.answer (.walked [])
  else
    ws.given (lookUp ws.walks name) fun (i, walk) =>
      match ws.subjects[i]? with
      | some (.memory g) =>
        let (edges, walk) := walk.take g n
        { ws with walks := bindName name (i, walk) ws.walks }.answer (.walked edges)
      | _ => ws.fail .noSuchOperation

def assignEnumerator (ws : Workspace) (name : String) (sources? sinks? : Option Value)
    (settings? : Option Settings) : StepOutcome :=
  ws.given (lookUp ws.enumerators name) fun e =>
    let e := { e with sources := sources?.getD e.sources, sinks := sinks?.getD e.sinks }
    match settings?.map Settings.config with
    | none => (ws.putEnumerator name e).answer .nothing
    | some (.ok config) => (ws.putEnumerator name (e.configure config)).answer .nothing
    | some (.error fault) => (ws.putEnumerator name e).fail fault

def searched (ws : Workspace) (name : String) : Except Fault (Nat × FiniteGraph) := do
  let i ← lookUp ws.graphs name
  return (i, ← ws.graph i)

/-- Runs an enumerator.  Without a graph to run on it keeps what it has, and the answer shows it. -/
def run (ws : Workspace) (name graph : String) : StepOutcome :=
  ws.given (lookUp ws.enumerators name) fun e =>
    match ws.searched graph with
    | .error fault => ⟨ws, .run ⟨.error fault, e.paths, e.pairResults, e.polls?⟩, []⟩
    | .ok (i, g) =>
      let (e, outcome) := e.runOn g
      let ws := (ws.remember i outcome.tally.calls).putEnumerator name e
      ⟨ws, .run ⟨outcome.result, e.paths, e.pairResults, e.polls?⟩, outcome.tally.events⟩

/-- The searches of several workers end in no fixed order, so their reports are left out. -/
def orderedEvents (ws : Workspace) (name : String) (events : List Event) : List Event :=
  match ws.enumerators.lookup name with
  | some e => if e.config.workers.isAbove 1 then events.filter (!·.isPairReport) else events
  | none => events

def withoutRepeats (values : List Value) : List Value :=
  values.foldl (fun kept v => if kept.any v.same then kept else kept ++ [v]) []

def search (ws : Workspace) (name graph : String) (current target : Value)
    (path visited : List Value) : StepOutcome :=
  ws.given (lookUp ws.enumerators name) fun e =>
    ws.given (visited.mapM Value.hash) fun _ =>
      let given := withoutRepeats visited
      let trail : Trail := { path, visited := given.map Value.key }
      let answer (e : Enumerator) (trail : Trail) (result : Except Fault (List Path)) : Answer :=
        let left := given.filter trail.hasVisited
        .search ⟨result, trail.path, left, trail.visited.length, e.polls?⟩
      match ws.searched graph with
      | .error fault => ⟨ws, answer e trail (.error fault), []⟩
      | .ok (i, g) =>
        let (e, outcome) := e.searchOn g current target trail
        let ws := (ws.remember i outcome.calls).putEnumerator name e
        ⟨ws, answer e outcome.trail outcome.result, []⟩

def askEnumerator (ws : Workspace) (name : String) (ask : Enumerator → Reply) : StepOutcome :=
  ws.given (lookUp ws.enumerators name) fun e => ws.answer (ask e)

def changeEnumerator (ws : Workspace) (name : String) (change : Enumerator → Enumerator) :
    StepOutcome :=
  ws.given (lookUp ws.enumerators name) fun e =>
    (ws.putEnumerator name (change e)).answer .nothing

def askGraph (ws : Workspace) (name : String) (question : Question) : StepOutcome :=
  ws.given (lookUp ws.graphs name) fun i =>
    let (ws, result) := ws.ask i question
    ⟨ws, .ofExcept result, []⟩

def dropped : Answer → Answer
  | .failed fault => .failed fault
  | .reply _ => .reply .nothing
  | .run ⟨.error fault, _, _, _⟩ => .failed fault
  | .run ⟨.ok _, _, _, _⟩ => .reply .nothing
  | .search ⟨.error fault, _, _, _, _⟩ => .failed fault
  | .search ⟨.ok _, _, _, _, _⟩ => .reply .nothing

def cleared (outcome : StepOutcome) : StepOutcome :=
  { outcome with answer := dropped outcome.answer }

/-- Empties a list.  Only the paths of a pair are shared, with the enumerator that has the pair. -/
def clear (ws : Workspace) : Handout → StepOutcome
  | .outEdges g id => cleared (ws.askGraph g (.outEdgeList id))
  | .nodeIds g => cleared (ws.askGraph g .nodeIds)
  | .run e g => cleared (ws.run e g)
  | .pairResults e => cleared (ws.askEnumerator e fun e => .pairResults e.pairResults)
  | .pairPaths e i =>
    ws.given (do (← lookUp ws.enumerators e).clearPair i) fun enumerator =>
      (ws.putEnumerator e enumerator).answer .nothing

def step (ws : Workspace) : Command → StepOutcome
  | .newMemory g graphId => (ws.addSubject g (.memory { graphId })).answer .nothing
  | .newFromEdges g graphId nodes edges =>
    ws.given (MemoryGraph.ofEdges graphId nodes edges) fun graph =>
      (ws.addSubject g (.memory graph)).answer (.sizes graph.nodeCount graph.edgeCount)
  | .openStored g database graphId =>
    let rows := (ws.databases.lookup database).getD Store.empty
    let graph := StoredGraph.openOn rows graphId ws.automaticId
    (ws.addSubject g (.stored database graph)).answer .nothing
  | .newScripted g graph => (ws.addSubject g (.scripted graph)).answer .nothing
  | .newSpy g of =>
    ws.given (lookUp ws.graphs of) fun i => (ws.addSubject g (.spy i [])).answer .nothing
  | .trace g => ws.traceGraph g
  | .ask g question => ws.askGraph g question
  | .change g change => ws.changeGraph g change
  | .importFrom g source merge => ws.importGraph g source merge
  | .loadFrom g source => ws.loadGraph g source
  | .beginWalk walk g => ws.beginWalk walk g
  | .continueWalk walk n => ws.continueWalk walk n
  | .newEnumerator e sources sinks settings =>
    ws.given (do Enumerator.make sources sinks (← settings.config)) fun enumerator =>
      (ws.putEnumerator e enumerator).answer .nothing
  | .assign e sources? sinks? settings? => ws.assignEnumerator e sources? sinks? settings?
  | .run e g =>
    let outcome := ws.run e g
    { outcome with events := ws.orderedEvents e outcome.events }
  | .search e g current target path visited => ws.search e g current target path visited
  | .paths e => ws.askEnumerator e fun e => .paths e.paths
  | .pairResults e => ws.askEnumerator e fun e => .pairResults e.pairResults
  | .pathCount e => ws.askEnumerator e fun e => .count e.paths.length
  | .reset e => ws.changeEnumerator e Enumerator.reset
  | .report e => ws.askEnumerator e fun e => .text e.text
  | .reportDocument e => ws.askEnumerator e fun e => .value e.document
  | .clear list => ws.clear list

def steps (ws : Workspace) : List Command → List (Answer × List Event)
  | [] => []
  | command :: commands =>
    let outcome := ws.step command
    (outcome.answer, outcome.events) :: steps outcome.workspace commands

end Workspace

end FlowPaths.Session
