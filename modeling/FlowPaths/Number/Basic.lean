import FlowPaths.Number.Decimal

/-!
Numbers: flags, integers of any size and binary fractions.  They compare by what they are worth,
so a flag, an integer and a fraction may be the same number.
-/

namespace FlowPaths

inductive Number
  | flag (b : Bool)
  | int (n : Int)
  | real (x : Binary64)
  deriving DecidableEq

/-- The worth of a number: two numbers are equal when they have the same worth.  `real` is left
for what is no integer. -/
inductive Worth
  | int (n : Int)
  | real (x : Binary64)
  deriving DecidableEq

namespace Number

def ofFlag (b : Bool) : Int := if b then 1 else 0

def worth : Number → Worth
  | .flag b => .int (ofFlag b)
  | .int n => .int n
  | .real x =>
    match x.toInt? with
    | some n => .int n
    | none => .real x

def isZero : Number → Bool
  | .flag b => !b
  | .int n => n = 0
  | .real x => x.isZero

def compareInt : Number → Int → Ordering
  | .flag b, k => compare (ofFlag b) k
  | .int n, k => compare n k
  | .real x, k => x.compareInt k

def isBelow (x : Number) (k : Int) : Bool := x.compareInt k == .lt

def isAbove (x : Number) (k : Int) : Bool := x.compareInt k == .gt

def toText : Number → String
  | .flag b => if b then "True" else "False"
  | .int n => toString n
  | .real x => x.toText

end Number

end FlowPaths
