import FlowPaths.Text.Quoted
import FlowPaths.Value.Basic

/-!
The text of a value.  `literal` writes a value so that texts and containers can be told apart;
`toText` is the same except that a text stands for itself.
-/

namespace FlowPaths

def Scalar.literal : Scalar → String
  | .null => "None"
  | .num n => n.toText
  | .text s => Text.quoted s

mutual
def Datum.literal : Datum Scalar → String
  | .atom a => a.literal
  | .tuple [] => "()"
  | .tuple [d] => "(" ++ d.literal ++ ",)"
  | .tuple (d :: ds) => "(" ++ d.literal ++ Datum.literalItems ds ++ ")"
  | .list [] => "[]"
  | .list (d :: ds) => "[" ++ d.literal ++ Datum.literalItems ds ++ "]"
  | .dictionary ⟨names, _, value⟩ =>
    let entries := List.ofFn fun i => Text.quoted (names.get i) ++ ": " ++ (value i).literal
    "\x7b" ++ ", ".intercalate entries ++ "\x7d"

def Datum.literalItems : List (Datum Scalar) → String
  | [] => ""
  | d :: ds => ", " ++ d.literal ++ Datum.literalItems ds
end

namespace Value

def literal (v : Value) : String := Datum.literal v

def toText : Value → String
  | .atom (.text s) => s
  | v => v.literal

end Value

end FlowPaths
