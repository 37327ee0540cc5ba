import FlowPaths.Value.Text

/-!
What can go wrong.  A fault is a cause; its kind and its wording are functions of the cause.
-/

namespace FlowPaths

inductive FaultKind
  | analysis
  | precondition
  | limit
  | cancellation
  | lookup
  | position
  | invalid
  | mistyped
  | unsupported
  | immutable
  | external
  deriving DecidableEq

/-- A kind and the kinds it is a case of, the narrowest first. -/
def FaultKind.lineage : FaultKind → List FaultKind
  | .precondition => [.precondition, .analysis]
  | .limit => [.limit, .analysis]
  | .cancellation => [.cancellation, .analysis]
  | kind => [kind]

inductive Fault
  | nodeNotInGraph (id : Value)
  | edgeLeavesGraph (src dst : Value)
  | pathLimitExceeded (limit : Value)
  | cancelled
  | sourceNotFound (id : Value)
  | targetNotFound (id : Value)
  | endpointNotFound (id : Value)
  | fieldNotFound (name : String)
  | keyNotFound (key : Value)
  | outOfRange
  | depthBelowOne
  | pathLimitNegative
  | workersBelowOne
  | tooManyParts
  | tooFewParts (got : Nat)
  | unhashable
  | notIterable
  | notNumeric
  | notCallable
  | notRecord
  | wrongArguments
  | noSuchOperation
  | closed
  | readOnly
  | collaborator (message : String)
  deriving DecidableEq

namespace Fault

def kind : Fault → FaultKind
  | .nodeNotInGraph _ | .edgeLeavesGraph _ _ => .precondition
  | .pathLimitExceeded _ => .limit
  | .cancelled => .cancellation
  | .sourceNotFound _ | .targetNotFound _ | .endpointNotFound _ => .lookup
  | .fieldNotFound _ | .keyNotFound _ => .lookup
  | .outOfRange => .position
  | .depthBelowOne | .pathLimitNegative | .workersBelowOne => .invalid
  | .tooManyParts | .tooFewParts _ => .invalid
  | .unhashable | .notIterable | .notNumeric | .notCallable | .notRecord => .mistyped
  | .wrongArguments => .mistyped
  | .noSuchOperation | .closed => .unsupported
  | .readOnly => .immutable
  | .collaborator _ => .external

def limitMessage (limit : Value) : String :=
  "Path limit exceeded: more than " ++ limit.toText ++ " paths"

/-- Faults of the kinds `mistyped`, `unsupported` and `immutable` have no wording of their own. -/
def message? : Fault → Option String
  | .nodeNotInGraph id => some ("Node not in graph: " ++ id.literal)
  | .edgeLeavesGraph src dst =>
    some ("Edge " ++ src.literal ++ " -> " ++ dst.literal ++ " leads outside the graph")
  | .pathLimitExceeded limit => some (limitMessage limit)
  | .cancelled => some "Path enumeration cancelled"
  | .sourceNotFound id => some ("Source node not found: " ++ id.toText)
  | .targetNotFound id => some ("Target node not found: " ++ id.toText)
  | .endpointNotFound id => some ("Edge endpoint not found: " ++ id.toText)
  | .fieldNotFound name => some name
  | .keyNotFound key => some key.toText
  | .outOfRange => some "list index out of range"
  | .depthBelowOne => some "max_depth must be at least 1"
  | .pathLimitNegative => some "max_paths cannot be negative"
  | .workersBelowOne => some "workers must be positive"
  | .tooManyParts => some "too many values to unpack (expected 2)"
  | .tooFewParts got =>
    some ("not enough values to unpack (expected 2, got " ++ toString got ++ ")")
  | .collaborator message => some message
  | .unhashable | .notIterable | .notNumeric | .notCallable | .notRecord => none
  | .wrongArguments | .noSuchOperation | .closed | .readOnly => none

end Fault

structure Notice where
  kind : FaultKind
  message? : Option String
  limit? : Option Value
  deriving DecidableEq

def Fault.notice (fault : Fault) : Notice where
  kind := fault.kind
  message? := fault.message?
  limit? :=
    match fault with
    | .pathLimitExceeded limit => some limit
    | _ => none

/-- A notice made from a kind and its arguments.  A limit notice takes the limit and words itself;
the others take their message, and show several arguments together. -/
def Notice.make (kind : FaultKind) (arguments : List Value) : Except Fault Notice :=
  match kind, arguments with
  | .limit, [limit] => .ok ⟨.limit, some (Fault.limitMessage limit), some limit⟩
  | .limit, _ => .error .wrongArguments
  | kind, [] => .ok ⟨kind, some "", none⟩
  | kind, [message] => .ok ⟨kind, some message.toText, none⟩
  | kind, arguments => .ok ⟨kind, some (Value.literal (.tuple arguments)), none⟩

end FlowPaths
