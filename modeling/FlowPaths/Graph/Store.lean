/-!
A database of two tables, known only by its queries and by the laws that they obey.  Nodes have a
unique key and edges join nodes.  Nothing is said about the order in which the tables hold their
rows, or find them again when the database is opened the next time; what is read in order is read
in the order of the numbers.
-/

namespace FlowPaths

structure NodeRow where
  id : String
  kind : String
  function : String
  seq : Nat
  deriving DecidableEq

structure EdgeRow where
  src : String
  dst : String
  kind : String
  seq : Nat
  deriving DecidableEq

def NodeRow.relabel (id kind function : String) (row : NodeRow) : NodeRow :=
  if row.id = id then { row with kind, function } else row

namespace NodeRow

variable {id kind function : String} {row : NodeRow} {rows : List NodeRow}

theorem relabel_seq : (row.relabel id kind function).seq = row.seq := by
  unfold relabel
  split <;> rfl

theorem relabel_id : (row.relabel id kind function).id = row.id := by
  unfold relabel
  split <;> rfl

theorem map_relabel {β : Type} {f : NodeRow → β}
    (hf : ∀ row : NodeRow, f (row.relabel id kind function) = f row) (rows : List NodeRow) :
    (rows.map (·.relabel id kind function)).map f = rows.map f := by
  rw [List.map_map]
  exact List.map_congr_left fun row _ => hf row

theorem find?_of_mem (hunique : (rows.map (·.id)).Nodup) (hrow : row ∈ rows) :
    rows.find? (fun other => other.id = row.id) = some row := by
  induction rows with
  | nil => cases hrow
  | cons first rows ih =>
    rw [List.map_cons, List.nodup_cons] at hunique
    obtain rfl | hrow := List.mem_cons.1 hrow
    · exact List.find?_cons_of_pos (decide_eq_true rfl)
    · have hother : ¬first.id = row.id := fun heq =>
        hunique.1 (heq ▸ List.mem_map_of_mem (f := NodeRow.id) hrow)
      rw [List.find?_cons_of_neg (by simpa using hother), ih hunique.2 hrow]

theorem find?_eq_some_iff (hunique : (rows.map (·.id)).Nodup) :
    rows.find? (fun row => row.id = id) = some row ↔ row ∈ rows ∧ row.id = id := by
  constructor
  · intro h
    exact ⟨List.mem_of_find?_eq_some h, by simpa using List.find?_some h⟩
  · rintro ⟨hrow, rfl⟩
    exact find?_of_mem hunique hrow

theorem isSome_iff_mem_map {found : Option NodeRow}
    (h : ∀ row, found = some row ↔ row ∈ rows ∧ row.id = id) :
    found.isSome = true ↔ id ∈ rows.map (·.id) := by
  simp only [Option.isSome_iff_exists, List.mem_map, h]

end NodeRow

structure OrderedBy {α : Type} (seq : α → Nat) (rows sorted : List α) : Prop where
  perm : sorted.Perm rows
  ordered : sorted.Pairwise fun a b => seq a ≤ seq b

/-- `nodes` and `edges` are the rows that a database holds, in an order that no query shows. -/
class Store (δ : Type) where
  nodes : δ → List NodeRow
  edges : δ → List EdgeRow
  empty : δ
  node? : δ → String → Option NodeRow
  nodesInOrder : δ → List NodeRow
  edgesInOrder : δ → String → List EdgeRow
  nodeCount : δ → Nat
  edgeCount : δ → Nat
  lastNode : δ → Option Nat
  lastEdge : δ → Option Nat
  setLabels : δ → String → String → String → δ
  insertNode : δ → NodeRow → δ
  insertEdge : δ → EdgeRow → δ
  /-- The second database is what the first may be found as after it was closed. -/
  Reopens : δ → δ → Prop
  unique_key (db : δ) : ((nodes db).map (·.id)).Nodup
  joins_nodes (db : δ) : ∀ row ∈ edges db,
    row.src ∈ (nodes db).map (·.id) ∧ row.dst ∈ (nodes db).map (·.id)
  nodes_empty : nodes empty = []
  edges_empty : edges empty = []
  node?_eq_some {db : δ} {id : String} {row : NodeRow} :
    node? db id = some row ↔ row ∈ nodes db ∧ row.id = id
  nodes_ordered (db : δ) : OrderedBy NodeRow.seq (nodes db) (nodesInOrder db)
  edges_ordered (db : δ) (id : String) :
    OrderedBy EdgeRow.seq ((edges db).filter fun row => row.src = id) (edgesInOrder db id)
  nodeCount_eq (db : δ) : nodeCount db = (nodes db).length
  edgeCount_eq (db : δ) : edgeCount db = (edges db).length
  lastNode_eq (db : δ) : lastNode db = ((nodes db).map (·.seq)).max?
  lastEdge_eq (db : δ) : lastEdge db = ((edges db).map (·.seq)).max?
  nodes_setLabels (db : δ) (id kind function : String) :
    (nodes (setLabels db id kind function)).Perm ((nodes db).map (·.relabel id kind function))
  edges_setLabels (db : δ) (id kind function : String) :
    (edges (setLabels db id kind function)).Perm (edges db)
  nodes_insertNode {db : δ} {row : NodeRow} (new : row.id ∉ (nodes db).map (·.id)) :
    (nodes (insertNode db row)).Perm (row :: nodes db)
  edges_insertNode (db : δ) (row : NodeRow) : (edges (insertNode db row)).Perm (edges db)
  nodes_insertEdge (db : δ) (row : EdgeRow) : (nodes (insertEdge db row)).Perm (nodes db)
  edges_insertEdge {db : δ} {row : EdgeRow} (src : row.src ∈ (nodes db).map (·.id))
    (dst : row.dst ∈ (nodes db).map (·.id)) : (edges (insertEdge db row)).Perm (row :: edges db)
  nodes_persist {db db' : δ} (h : Reopens db db') : (nodes db').Perm (nodes db)
  edges_persist {db db' : δ} (h : Reopens db db') : (edges db').Perm (edges db)

namespace Store

variable {δ : Type} [Store δ] {db : δ} {id : String}

def hasNode (db : δ) (id : String) : Bool := (node? db id).isSome

theorem hasNode_iff : hasNode db id = true ↔ id ∈ (nodes db).map (·.id) :=
  NodeRow.isSome_iff_mem_map fun _ => node?_eq_some

theorem hasNode_eq_false_iff : hasNode db id = false ↔ id ∉ (nodes db).map (·.id) := by
  rw [← hasNode_iff, Bool.not_eq_true]

def numberAfter (last : Option Nat) : Nat := last.elim 0 (· + 1)

end Store

end FlowPaths
