import FlowPaths.Value.Text

/-!
What is worth a line in the log.  An event says what happened; its level, the component it belongs
to and its wording are functions of the event.
-/

namespace FlowPaths

inductive Level
  | debug
  | info
  | warning
  deriving DecidableEq

inductive Component
  | enumerator
  | memoryGraph
  | storedGraph
  deriving DecidableEq

inductive Event
  | noPairs
  | started (pairs sources sinks : Nat)
  | pairSearched (source sink : Value) (paths : Nat)
  | finished (paths pairs : Nat)
  | unknownVersion (version : Value)
  | imported (nodes edges : Nat) (graphId : Value)
  | loaded (nodes edges : Nat) (graphId : Value)
  deriving DecidableEq

namespace Event

def level : Event → Level
  | .finished _ _ => .info
  | .unknownVersion _ => .warning
  | _ => .debug

def component : Event → Component
  | .noPairs | .started _ _ _ | .pairSearched _ _ _ | .finished _ _ => .enumerator
  | .unknownVersion _ | .imported _ _ _ => .memoryGraph
  | .loaded _ _ _ => .storedGraph

def message : Event → String
  | .noPairs => "No source/sink pairs to search"
  | .started pairs sources sinks =>
    "Enumerating paths for " ++ toString pairs ++ " pairs (" ++ toString sources ++ " sources, " ++
      toString sinks ++ " sinks)"
  | .pairSearched source sink paths =>
    "Pair " ++ source.literal ++ " -> " ++ sink.literal ++ ": " ++ toString paths ++ " paths"
  | .finished paths pairs =>
    "Path enumeration found " ++ toString paths ++ " paths over " ++ toString pairs ++ " pairs"
  | .unknownVersion version =>
    "Unknown format version " ++ version.toText ++ ", attempting import anyway"
  | .imported nodes edges graphId =>
    "Imported " ++ toString nodes ++ " nodes and " ++ toString edges ++ " edges into " ++
      graphId.toText
  | .loaded nodes edges graphId =>
    "Loaded " ++ toString nodes ++ " nodes and " ++ toString edges ++ " edges into " ++
      graphId.toText

def isPairReport : Event → Bool
  | .pairSearched _ _ _ => true
  | _ => false

end Event

end FlowPaths
