import FlowPaths.Report

/-!
Records seen through their fields: made from positional or named arguments, written out field by
field, compared within their class.
-/

namespace FlowPaths

inductive RecordClass
  | node
  | edge
  | pair
  deriving DecidableEq

structure Field where
  name : String
  default? : Option Value := none

namespace RecordClass

def name : RecordClass → String
  | .node => "ICFGNode"
  | .edge => "ICFGEdge"
  | .pair => "PairResult"

def fields : RecordClass → List Field
  | .node =>
    [{ name := "node_id" }, { name := "kind", default? := some (Value.text "") },
      { name := "function", default? := some (Value.text "") }]
  | .edge =>
    [{ name := "src" }, { name := "dst" }, { name := "kind", default? := some (Value.text "") }]
  | .pair =>
    [{ name := "source" }, { name := "sink" }, { name := "paths", default? := some (.list []) }]

def isMutable : RecordClass → Bool
  | .pair => true
  | _ => false

end RecordClass

inductive Arguments
  | positional (values : List Value)
  | named (values : List (String × Value))

structure Record where
  cls : RecordClass
  values : List Value
  deriving DecidableEq

namespace Record

def required (value? : Option Value) : Except Fault Value :=
  match value? with
  | some value => .ok value
  | none => .error .wrongArguments

def bindPositional : List Field → List Value → Except Fault (List Value)
  | [], [] => .ok []
  | [], _ :: _ => .error .wrongArguments
  | field :: fields, [] => return (← required field.default?) :: (← bindPositional fields [])
  | _ :: fields, value :: values => return value :: (← bindPositional fields values)

def bindNamed (fields : List Field) (values : List (String × Value)) :
    Except Fault (List Value) := do
  unless values.all fun value => fields.any fun field => field.name = value.1 do
    throw .wrongArguments
  fields.mapM fun field => required ((values.lookup field.name).or field.default?)

def make (cls : RecordClass) (arguments : Arguments) : Except Fault Record := do
  match arguments with
  | .positional values => return ⟨cls, ← bindPositional cls.fields values⟩
  | .named values => return ⟨cls, ← bindNamed cls.fields values⟩

def literal (r : Record) : String :=
  let parts := (r.cls.fields.zip r.values).map fun (field, value) =>
    field.name ++ "=" ++ value.literal
  r.cls.name ++ "(" ++ ", ".intercalate parts ++ ")"

def key (r : Record) : RecordClass × List Key := (r.cls, r.values.map Value.key)

def same (a b : Record) : Bool := a.key = b.key

def hashable (r : Record) : Bool := !r.cls.isMutable && r.values.all Datum.hashable

def distinct? (rs : List Record) : Option Nat :=
  if rs.all hashable then some (rs.map key).eraseDups.length else none

/-- Sets a field; a name that is no field changes nothing that can be seen. -/
def assign (r : Record) (name : String) (value : Value) : Except Fault Record :=
  if r.cls.isMutable then
    let values := (r.cls.fields.zip r.values).map fun (field, old) =>
      if field.name = name then value else old
    .ok { r with values }
  else .error .readOnly

def assignAt (rs : List Record) (i : Int) (name : String) (value : Value) :
    Except Fault Record := do
  match rs[← position rs.length i]? with
  | some r => r.assign name value
  | none => throw .outOfRange

def toPairResult (r : Record) : Except Fault PairResult :=
  match r.values with
  | [source, sink, paths] => return { source, sink, paths := ← Report.readPaths paths }
  | _ => .error .wrongArguments

end Record

def Report.documentOf (pairs : List (List (String × Value))) : Except Fault Value := do
  let records ← pairs.mapM fun values => Record.make .pair (.named values)
  return document (← records.mapM Record.toPairResult)

end FlowPaths
