import FlowPaths.Fault

/-!
Access that may fail: a position in a list, running through a value, taking one apart, looking one
up, and reading the fields of a record.
-/

namespace FlowPaths

/-- A position in a list of the given length, counted from the front or, if negative, from the
back. -/
def position (length : Nat) (i : Int) : Except Fault Nat :=
  let i := if i < 0 then i + length else i
  if 0 ≤ i ∧ i < length then .ok i.toNat else .error .outOfRange

namespace Value

def elements (v : Value) : Except Fault (List Value) :=
  match v.elements? with
  | some items => .ok items
  | none => .error .notIterable

def unpackPair (v : Value) : Except Fault (Value × Value) := do
  match ← v.elements with
  | [a, b] => .ok (a, b)
  | _ :: _ :: _ :: _ => .error .tooManyParts
  | items => .error (.tooFewParts items.length)

/-- What looking `v` up in a table answers.  It begins with hashing, which fails on some values. -/
def lookUp {α : Type} (v : Value) (answer : α) : Except Fault α :=
  if v.hashable then .ok answer else .error .unhashable

def hash (v : Value) : Except Fault Key := v.lookUp v.key

def fieldD (entries : Dictionary Value) (name : String) (alternative : Value) : Value :=
  (entries.find? name).getD alternative

def field (record : Value) (name : String) : Except Fault Value :=
  match record with
  | .dictionary entries =>
    match entries.find? name with
    | some v => .ok v
    | none => .error (.fieldNotFound name)
  | _ => .error .notRecord

def label (record : Value) (name : String) : Value :=
  match record with
  | .dictionary entries => fieldD entries name (Value.text "")
  | _ => Value.text ""

end Value

end FlowPaths
