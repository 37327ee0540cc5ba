import FlowPaths.Loop
import FlowPaths.Search.Config
import FlowPaths.Search.Trail

/-!
Depth-first search for simple paths, with an explicit stack.  Each frame of the stack is a node on
the trail with the edges out of it that are still to be looked at.  One turn looks at the edges of
the top frame until one leads on to a new node, which is pushed, or there are none left, and the
frame is popped.
-/

namespace FlowPaths.Search

/-- What is searched for, and under which bounds.  `spent` paths count against the limit before
the search begins. -/
structure Query where
  target : Value
  maxDepth : Option Number := none
  maxPaths : Option Number := none
  spent : Nat := 0
  check : Option CancelCheck := none

structure Work where
  trail : Trail := {}
  found : Array Path := #[]
  calls : List Call := []
  polls : Nat := 0

abbrev Pending := Except Fault Edge

structure Frame where
  node : Value
  pending : List Pending

structure State where
  frames : List Frame
  work : Work

structure Outcome where
  result : Except Fault (List Path)
  trail : Trail
  calls : List Call
  polls : Nat

namespace Work

def note (w : Work) (call : Call) : Work := { w with calls := call :: w.calls }
def enter (w : Work) (id : Value) : Work := { w with trail := w.trail.enter id }
def leave (w : Work) : Work := { w with trail := w.trail.leave }

def finish (w : Work) (depth : Nat) (result : Except Fault (List Path)) : Outcome where
  result := result
  trail := w.trail.unwindTo depth
  calls := w.calls.reverse
  polls := w.polls

end Work

namespace Query

def isDeep (q : Query) (length : Nat) : Bool :=
  q.maxDepth.any fun bound => !bound.isAbove length

def isFull (q : Query) (found : Nat) : Bool :=
  q.maxPaths.any fun limit => !limit.isAbove (q.spent + found : Nat)

def record (q : Query) (w : Work) : Except Fault Work :=
  if q.isFull w.found.size then .error (.pathLimitExceeded (Config.boundValue q.maxPaths))
  else .ok { w with found := w.found.push w.trail.path }

/-- The edges out of the last node of the route.  At the depth bound the graph is not asked. -/
def expand (q : Query) (g : Graph) (id : Value) (w : Work) : Except Fault (List Pending) × Work :=
  if q.isDeep w.trail.path.length then (.ok [], w) else (g.outEdges id, w.note (.out id))

def poll (q : Query) (w : Work) : Except Fault Unit × Work :=
  match q.check with
  | none => (.ok (), w)
  | some check =>
    let asked := { w with polls := w.polls + 1 }
    match check w.polls with
    | .error fault => (.error fault, asked)
    | .ok true => (.error .cancelled, asked)
    | .ok false => (.ok (), asked)

end Query

inductive Scan
  | failed (fault : Fault) (w : Work)
  | dry (w : Work)
  | entered (node : Value) (pending rest : List Pending) (w : Work)

/-- Looks at edges in turn.  Visited nodes are passed over, and a target ends the path that it
completes. -/
def scan (g : Graph) (q : Query) : List Pending → Work → Scan
  | [], w => .dry w
  | .error fault :: _, w => .failed fault w
  | .ok edge :: rest, w =>
    if !edge.dst.hashable then .failed .unhashable w
    else if w.trail.hasVisited edge.dst then scan g q rest w
    else
      let w := w.note (.has edge.dst)
      match g.hasNode edge.dst with
      | .error fault => .failed fault w
      | .ok false => .failed (.edgeLeavesGraph edge.src edge.dst) w
      | .ok true =>
        let w := w.enter edge.dst
        if edge.dst.same q.target then
          match q.record w with
          | .error fault => .failed fault w
          | .ok w => scan g q rest w.leave
        else
          match q.expand g edge.dst w with
          | (.error fault, w) => .failed fault w
          | (.ok pending, w) => .entered edge.dst pending rest w

/-- One turn of a search that began on a route of `depth` nodes.  The check is asked once. -/
def turn (g : Graph) (q : Query) (depth : Nat) (s : State) : Turn State Outcome :=
  match s.frames with
  | [] => .done (s.work.finish depth (.ok s.work.found.toList))
  | frame :: frames =>
    match q.poll s.work with
    | (.error fault, w) => .done (w.finish depth (.error fault))
    | (.ok (), w) =>
      match scan g q frame.pending w with
      | .failed fault w => .done (w.finish depth (.error fault))
      | .dry w => .next ⟨frames, w.leave⟩
      | .entered node pending rest w =>
        .next ⟨⟨node, pending⟩ :: { frame with pending := rest } :: frames, w⟩

def start (g : Graph) (q : Query) (current : Value) (w : Work) : Turn State Outcome :=
  let depth := w.trail.path.length
  let w := w.note (.has current)
  match g.hasNode current with
  | .error fault => .done (w.finish depth (.error fault))
  | .ok false => .done (w.finish depth (.error (.nodeNotInGraph current)))
  | .ok true =>
    if !current.hashable then .done (w.finish depth (.error .unhashable))
    else
      let w := w.enter current
      if current.same q.target then
        match q.record w with
        | .error fault => .done (w.finish depth (.error fault))
        | .ok w => .done (w.finish depth (.ok w.found.toList))
      else
        match q.expand g current w with
        | (.error fault, w) => .done (w.finish depth (.error fault))
        | (.ok pending, w) => .next ⟨[⟨current, pending⟩], w⟩

end FlowPaths.Search
