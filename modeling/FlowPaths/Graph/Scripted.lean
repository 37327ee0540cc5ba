import FlowPaths.Graph.Basic

/-!
Graphs that follow a script: fixed answers to both questions, some of which are failures.  Names
are compared without hashing, so any value may be one.
-/

namespace FlowPaths

/-- An edge given by its fields, made only when it is reached, or a failure in its place. -/
inductive ScriptItem
  | edge (fields : List Value)
  | failure (message : String)
  deriving DecidableEq

structure ScriptedGraph where
  nodes : List Value := []
  out : List (Value × List ScriptItem) := []
  failHas : List Value := []
  failOut : List Value := []
  deriving DecidableEq

namespace ScriptItem

def reach : ScriptItem → Except Fault Edge
  | .edge [src, dst] => .ok { src, dst }
  | .edge [src, dst, kind] => .ok { src, dst, kind }
  | .edge _ => .error .wrongArguments
  | .failure message => .error (.collaborator message)

end ScriptItem

namespace ScriptedGraph

def hasNode (g : ScriptedGraph) (id : Value) : Except Fault Bool :=
  if g.failHas.any id.same then .error (.collaborator "has_node failed")
  else .ok (g.nodes.any id.same)

def outEdges (g : ScriptedGraph) (id : Value) : Except Fault (List (Except Fault Edge)) :=
  if g.failOut.any id.same then .error (.collaborator "out_edges failed")
  else .ok ((g.out.filter fun row => id.same row.1).flatMap fun row => row.2.map ScriptItem.reach)

theorem hasNode_eq_ok_true {g : ScriptedGraph} {id : Value} (h : g.hasNode id = .ok true) :
    id.key ∈ g.nodes.map Value.key := by
  unfold hasNode at h
  split at h
  · simp at h
  · simp only [Except.ok.injEq, List.any_eq_true, Value.same_iff] at h
    obtain ⟨v, hmem, hkey⟩ := h
    exact List.mem_map.2 ⟨v, hmem, hkey.symm⟩

def toGraph (g : ScriptedGraph) : FiniteGraph where
  hasNode := g.hasNode
  outEdges := g.outEdges
  finite := ⟨_, fun _ => hasNode_eq_ok_true⟩

def offers : Operation → Bool
  | .hasNode | .outEdges => true
  | _ => false

end ScriptedGraph

end FlowPaths
