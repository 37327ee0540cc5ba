import FlowPaths.Fault

/-!
Bounds of a search, and the check that may cancel it.
-/

namespace FlowPaths

/-- The answer to each call of the check, by the number of calls before it. -/
abbrev CancelCheck := Nat → Except Fault Bool

inductive CancelPlan
  | after (n : Int)
  | failAfter (n : Int)
  /-- Answers by the truth of the listed values, the last one for ever. -/
  | answers (values : List Value)
  | uncallable

def CancelPlan.check : CancelPlan → CancelCheck
  | .after n, i => .ok (n ≤ (i : Int))
  | .failAfter n, i =>
    if n ≤ (i : Int) then .error (.collaborator "cancel_check failed") else .ok false
  | .answers values, i => .ok ((values[i]?.or values.getLast?).any Value.toBool)
  | .uncallable, _ => .error .notCallable

structure Config where
  maxDepth : Option Number := none
  maxPaths : Option Number := none
  workers : Number := .int 1
  check : Option CancelCheck := none

namespace Config

def number : Value → Except Fault Number
  | .atom (.num n) => .ok n
  | _ => .error .notNumeric

def bound (least : Int) (fault : Fault) : Value → Except Fault (Option Number)
  | .atom .null => .ok none
  | v => do
    let n ← number v
    if n.isBelow least then throw fault
    return some n

def make (maxDepth maxPaths workers : Value) (check : Option CancelCheck) :
    Except Fault Config := do
  let maxDepth ← bound 1 .depthBelowOne maxDepth
  let maxPaths ← bound 0 .pathLimitNegative maxPaths
  let workers ← number workers
  if workers.isBelow 1 then throw .workersBelowOne
  return { maxDepth, maxPaths, workers, check }

def checkOfArgument : Value → Option CancelCheck
  | .atom .null => none
  | _ => some CancelPlan.uncallable.check

def ofArguments (arguments : List (String × Value)) (plan : Option CancelPlan) :
    Except Fault Config := do
  let names := ["max_depth", "max_paths", "workers", "cancel_check"]
  unless arguments.all fun argument => names.contains argument.1 do throw .wrongArguments
  let argument (name : String) (alternative : Value) : Value :=
    (arguments.lookup name).getD alternative
  let check :=
    match plan with
    | some plan => some plan.check
    | none => checkOfArgument (argument "cancel_check" .null)
  make (argument "max_depth" .null) (argument "max_paths" .null) (argument "workers" (.int 1)) check

def boundValue : Option Number → Value
  | none => .null
  | some n => .num n

def isParallel (c : Config) (pairs : Nat) : Bool := c.workers.isAbove 1 && 1 < pairs

def isSingle (c : Config) : Bool := c.workers.compareInt 1 == .eq

end Config

end FlowPaths
