import FlowPaths.Graph.Store

/-!
Two tables as lists of rows.  A new row goes behind the others, and closing may move it anywhere.
A node with a key that is taken is not stored, and neither is an edge that lacks an end.
-/

namespace FlowPaths

structure Database where
  nodes : List NodeRow
  edges : List EdgeRow
  unique : (nodes.map (·.id)).Nodup
  joined : ∀ row ∈ edges, row.src ∈ nodes.map (·.id) ∧ row.dst ∈ nodes.map (·.id)
  deriving DecidableEq

namespace Database

variable {db : Database} {id : String} {row : NodeRow}

def node? (db : Database) (id : String) : Option NodeRow := db.nodes.find? fun row => row.id = id

theorem node?_eq_some : db.node? id = some row ↔ row ∈ db.nodes ∧ row.id = id :=
  NodeRow.find?_eq_some_iff db.unique

theorem isSome_node?_iff : (db.node? id).isSome = true ↔ id ∈ db.nodes.map (·.id) :=
  NodeRow.isSome_iff_mem_map fun _ => node?_eq_some

theorem isNone_node?_iff : (db.node? id).isNone = true ↔ id ∉ db.nodes.map (·.id) := by
  rw [← isSome_node?_iff]
  cases db.node? id <;> simp

def setLabels (db : Database) (id kind function : String) : Database where
  nodes := db.nodes.map (·.relabel id kind function)
  edges := db.edges
  unique := (NodeRow.map_relabel (fun _ => NodeRow.relabel_id) db.nodes).symm ▸ db.unique
  joined := (NodeRow.map_relabel (fun _ => NodeRow.relabel_id) db.nodes).symm ▸ db.joined

theorem unique_concat (h : (db.node? row.id).isNone = true) :
    ((db.nodes ++ [row]).map (·.id)).Nodup := by
  rw [List.map_append, List.nodup_append]
  refine ⟨db.unique, List.nodup_cons.2 ⟨List.not_mem_nil, List.nodup_nil⟩, ?_⟩
  intro id hid last hlast heq
  rw [List.map_cons, List.map_nil, List.mem_singleton] at hlast
  subst heq hlast
  exact isNone_node?_iff.1 h hid

def insertNode (db : Database) (row : NodeRow) : Database :=
  if h : (db.node? row.id).isNone = true then
    { nodes := db.nodes ++ [row]
      edges := db.edges
      unique := unique_concat h
      joined := fun edge hedge => by
        rw [List.map_append]
        exact (db.joined edge hedge).imp (List.mem_append_left _) (List.mem_append_left _) }
  else db

def insertEdge (db : Database) (row : EdgeRow) : Database :=
  if h : (db.node? row.src).isSome = true ∧ (db.node? row.dst).isSome = true then
    { db with
      edges := db.edges ++ [row]
      joined := fun edge hedge => by
        obtain hedge | hedge := List.mem_append.1 hedge
        · exact db.joined edge hedge
        · cases List.mem_singleton.1 hedge
          exact h.imp isSome_node?_iff.1 isSome_node?_iff.1 }
  else db

theorem nodes_insertNode (h : row.id ∉ db.nodes.map (·.id)) :
    (db.insertNode row).nodes = db.nodes ++ [row] := by
  rw [insertNode, dif_pos (isNone_node?_iff.2 h)]

theorem edges_insertNode (db : Database) (row : NodeRow) :
    (db.insertNode row).edges = db.edges := by
  unfold insertNode
  split <;> rfl

theorem nodes_insertEdge (db : Database) (row : EdgeRow) :
    (db.insertEdge row).nodes = db.nodes := by
  unfold insertEdge
  split <;> rfl

theorem edges_insertEdge {row : EdgeRow} (hsrc : row.src ∈ db.nodes.map (·.id))
    (hdst : row.dst ∈ db.nodes.map (·.id)) : (db.insertEdge row).edges = db.edges ++ [row] := by
  rw [insertEdge, dif_pos ⟨isSome_node?_iff.2 hsrc, isSome_node?_iff.2 hdst⟩]

theorem mergeSort_orderedBy {α : Type} (seq : α → Nat) (rows : List α) :
    OrderedBy seq rows (rows.mergeSort fun a b => seq a ≤ seq b) where
  perm := List.mergeSort_perm _ _
  ordered := by
    have htrans : ∀ a b c : α, decide (seq a ≤ seq b) = true → decide (seq b ≤ seq c) = true →
        decide (seq a ≤ seq c) = true := by
      intro a b c hab hbc
      rw [decide_eq_true_eq] at *
      exact Nat.le_trans hab hbc
    have htotal : ∀ a b : α, (decide (seq a ≤ seq b) || decide (seq b ≤ seq a)) = true := by
      intro a b
      rw [Bool.or_eq_true, decide_eq_true_eq, decide_eq_true_eq]
      exact Nat.le_total _ _
    exact (List.pairwise_mergeSort htrans htotal rows).imp of_decide_eq_true

structure Rearranges (db db' : Database) : Prop where
  nodes : db'.nodes.Perm db.nodes
  edges : db'.edges.Perm db.edges

instance : Store Database where
  nodes := nodes
  edges := edges
  empty := ⟨[], [], List.nodup_nil, fun _ h => nomatch h⟩
  node? := node?
  nodesInOrder db := db.nodes.mergeSort fun a b => a.seq ≤ b.seq
  edgesInOrder db id :=
    (db.edges.filter fun row => row.src = id).mergeSort fun a b => a.seq ≤ b.seq
  nodeCount db := db.nodes.length
  edgeCount db := db.edges.length
  lastNode db := (db.nodes.map (·.seq)).max?
  lastEdge db := (db.edges.map (·.seq)).max?
  setLabels := setLabels
  insertNode := insertNode
  insertEdge := insertEdge
  Reopens := Rearranges
  unique_key := unique
  joins_nodes := joined
  nodes_empty := rfl
  edges_empty := rfl
  node?_eq_some := node?_eq_some
  nodes_ordered _ := mergeSort_orderedBy NodeRow.seq _
  edges_ordered _ _ := mergeSort_orderedBy EdgeRow.seq _
  nodeCount_eq _ := rfl
  edgeCount_eq _ := rfl
  lastNode_eq _ := rfl
  lastEdge_eq _ := rfl
  nodes_setLabels _ _ _ _ := .refl _
  edges_setLabels _ _ _ _ := .refl _
  nodes_insertNode h := nodes_insertNode h ▸ List.perm_append_singleton _ _
  edges_insertNode db row := .of_eq (edges_insertNode db row)
  nodes_insertEdge db row := .of_eq (nodes_insertEdge db row)
  edges_insertEdge hsrc hdst := edges_insertEdge hsrc hdst ▸ List.perm_append_singleton _ _
  nodes_persist h := h.nodes
  edges_persist h := h.edges

end Database

end FlowPaths
