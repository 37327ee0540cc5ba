import FlowPaths.Graph.Exchange

/-!
Reports of paths, as text and as a document.
-/

namespace FlowPaths

structure PairResult where
  source : Value
  sink : Value
  paths : List Path := []
  deriving DecidableEq

namespace PairResult

def toDocument (r : PairResult) : Value :=
  .dictionary (.of ["paths", "sink", "source"] [.list (r.paths.map .list), r.sink, r.source])

end PairResult

namespace Report

def arrow : String := " -> "
def endMarker : String := "END"

def pathLine (number : Nat) (path : Path) : String :=
  let hops := arrow.intercalate (path.map Value.toText)
  "Path " ++ toString number ++ ": " ++ hops ++ arrow ++ endMarker

def pathLines (first : Nat) : List Path → List String
  | [] => []
  | path :: paths => pathLine first path :: pathLines (first + 1) paths

def text (paths : List Path) : String :=
  let lines := "" :: ("Total paths found: " ++ toString paths.length) :: pathLines 1 paths
  "\n".intercalate lines ++ "\n"

def readPaths (paths : Value) : Except Fault (List Path) := do
  (← paths.elements).mapM Value.elements

def textOf (paths : Value) : Except Fault String := return text (← readPaths paths)

/-- What is written when the report is written several times.  The paths are read each time, so
never if it is not written at all. -/
def writtenText (times : Nat) (paths : Value) : Except Fault String :=
  return String.join (← (List.replicate times paths).mapM textOf)

def totalPaths (results : List PairResult) : Nat :=
  results.foldl (fun total result => total + result.paths.length) 0

def document (results : List PairResult) : Value :=
  .dictionary (.of ["format_version", "pairs", "total_paths"]
    [formatVersion, .list (results.map PairResult.toDocument), Value.nat (totalPaths results)])

end Report

end FlowPaths
