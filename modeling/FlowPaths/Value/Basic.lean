import FlowPaths.Number.Basic
import FlowPaths.Value.Datum

/-!
Values: node names, labels, bounds and exchanged documents.  Two values are equal when their keys
are, where a key keeps the worth of each number and forgets how it was written.
-/

namespace FlowPaths

inductive Scalar
  | null
  | num (n : Number)
  | text (s : String)
  deriving DecidableEq

inductive ScalarKey
  | null
  | num (w : Worth)
  | text (s : String)
  deriving DecidableEq

def Scalar.key : Scalar → ScalarKey
  | .null => .null
  | .num n => .num n.worth
  | .text s => .text s

abbrev Value := Datum Scalar

/-- What two equal values share. -/
abbrev Key := Datum ScalarKey

namespace Value

@[match_pattern] abbrev null : Value := .atom .null
@[match_pattern] abbrev num (n : Number) : Value := .atom (.num n)
@[match_pattern] abbrev text (s : String) : Value := .atom (.text s)
abbrev int (n : Int) : Value := .num (.int n)
abbrev nat (n : Nat) : Value := .int n

instance : Inhabited Value := ⟨.null⟩

def key (v : Value) : Key := v.map Scalar.key

@[simp] theorem key_text (s : String) : (text s).key = .atom (.text s) := rfl

/-- Equality of values as the library's tables, searches and scripts see it.  Two texts or two
integers need no keys. -/
def same : Value → Value → Bool
  | .atom (.text s), .atom (.text t) => s = t
  | .atom (.num (.int m)), .atom (.num (.int n)) => m = n
  | a, b => a.key = b.key

@[simp] theorem same_iff (a b : Value) : a.same b = true ↔ a.key = b.key := by
  unfold same
  split
  · simp [key, Datum.map, Scalar.key]
  · simp [key, Datum.map, Scalar.key, Number.worth]
  · exact decide_eq_true_iff

def toBool : Value → Bool
  | .atom .null => false
  | .atom (.num n) => !n.isZero
  | .atom (.text s) => !s.isEmpty
  | .tuple items => !items.isEmpty
  | .list items => !items.isEmpty
  | .dictionary entries => !entries.names.isEmpty

def elements? : Value → Option (List Value)
  | .atom .null => none
  | .atom (.num _) => none
  | .atom (.text s) => some (s.toList.map fun c => .text (String.singleton c))
  | .tuple items => some items
  | .list items => some items
  | .dictionary entries => some (entries.names.map .text)

end Value

end FlowPaths
