import Mathlib.Data.List.Nodup
import Mathlib.Data.List.Perm.Basic
import FlowPaths.Graph.Database
import FlowPaths.Graph.Stored
import FlowPaths.Proofs.Graph.WellFormed

/-!
A stored graph and a graph in memory side by side.  Rows are read in the order of their numbers, and
a number is never given twice, not even to rows of different sessions; so the tables of a database
show a graph in memory, and what is done to the one is done to the other.
-/

namespace FlowPaths

section

variable {α : Type} {seq : α → Nat} {rows rows' sorted sorted' : List α}

theorem OrderedBy.unique (hnodup : (rows.map seq).Nodup) (hperm : rows'.Perm rows)
    (h : OrderedBy seq rows sorted) (h' : OrderedBy seq rows' sorted') : sorted' = sorted := by
  apply List.Perm.eq_of_pairwise _ h'.ordered h.ordered
    (h'.perm.trans (hperm.trans h.perm.symm))
  intro a b ha hb hab hba
  apply List.inj_on_of_nodup_map hnodup
  · exact hperm.mem_iff.1 (h'.perm.mem_iff.1 ha)
  · exact h.perm.mem_iff.1 hb
  · exact Nat.le_antisymm hab hba

theorem OrderedBy.concat (h : OrderedBy seq rows sorted) {row : α}
    (hnew : ∀ old ∈ rows, seq old < seq row) : OrderedBy seq (row :: rows) (sorted ++ [row]) where
  perm := (List.perm_append_singleton _ _).trans (h.perm.cons _)
  ordered := by
    rw [List.pairwise_append]
    refine ⟨h.ordered, List.pairwise_singleton _ _, ?_⟩
    intro old hold last hlast
    rw [List.mem_singleton.1 hlast]
    exact (hnew old (h.perm.mem_iff.1 hold)).le

theorem OrderedBy.map {f : α → α} (hf : ∀ row, seq (f row) = seq row)
    (h : OrderedBy seq rows sorted) : OrderedBy seq (rows.map f) (sorted.map f) where
  perm := h.perm.map f
  ordered := by
    rw [List.pairwise_map]
    simpa only [hf] using h.ordered

theorem nodup_map_cons (hnodup : (rows.map seq).Nodup) {row : α}
    (hnew : ∀ old ∈ rows, seq old < seq row) : ((row :: rows).map seq).Nodup := by
  rw [List.map_cons, List.nodup_cons]
  refine ⟨fun hmem => ?_, hnodup⟩
  obtain ⟨old, hold, heq⟩ := List.mem_map.1 hmem
  exact Nat.lt_irrefl _ (heq ▸ hnew old hold)

theorem lt_succ_of_mem_cons {next : Nat} (hbelow : ∀ old ∈ rows, seq old < next) {row : α}
    (hseq : seq row = next) : ∀ other ∈ row :: rows, seq other < next + 1 := by
  rw [List.forall_mem_cons]
  exact ⟨hseq ▸ Nat.lt_succ_self _, fun other hother => Nat.lt_succ_of_lt (hbelow other hother)⟩

theorem flatMap_filter_perm {κ : Type} [DecidableEq κ] {name : α → κ} {names : List κ}
    (hnodup : names.Nodup) (hnames : ∀ row ∈ rows, name row ∈ names) :
    (names.flatMap fun s => rows.filter fun row => name row = s).Perm rows := by
  induction names generalizing rows with
  | nil =>
    have hempty : rows = [] :=
      List.eq_nil_iff_forall_not_mem.2 fun row hrow => nomatch hnames row hrow
    rw [hempty, List.flatMap_nil]
  | cons first names ih =>
    rw [List.nodup_cons] at hnodup
    -- The later groups are those of the rows that the first group leaves.
    have hrest : (names.flatMap fun s => rows.filter fun row => name row = s) =
        names.flatMap fun s =>
          (rows.filter fun row => !decide (name row = first)).filter fun row => name row = s := by
      apply List.flatMap_congr
      intro s hs
      rw [List.filter_filter]
      apply List.filter_congr
      intro row _
      by_cases hrow : name row = s
      · have hne : s ≠ first := fun heq => hnodup.1 (heq ▸ hs)
        simp [hrow, hne]
      · simp [hrow]
    have hleft : ∀ row ∈ rows.filter fun row => !decide (name row = first), name row ∈ names := by
      intro row hrow
      rw [List.mem_filter, Bool.not_eq_true', decide_eq_false_iff_not] at hrow
      exact (List.mem_cons.1 (hnames row hrow.1)).resolve_left hrow.2
    rw [List.flatMap_cons, hrest]
    exact ((ih hnodup.2 hleft).append_left _).trans (List.filter_append_perm _ _)

end

namespace Table

variable {α β : Type} {name : α → String} {value : α → β} {rows : List α} {s : String}

def named (rows : List α) (name : α → String) (value : α → β) : Table β :=
  ⟨rows.map fun row => (.text (name row), value row)⟩

theorem contains_named :
    (named rows name value).contains (.text s) = rows.any fun row => name row = s := by
  simp only [contains, named, List.any_map]
  rfl

theorem find?_named : (named rows name value).find? (.text s) =
    (rows.find? fun row => name row = s).map value := by
  simp only [find?, named, List.find?_map, Option.map_map]
  rfl

theorem modify_named {f : β → β} : (named rows name value).modify (.text s) f =
    named rows name fun row => if name row = s then f (value row) else value row := by
  simp only [modify, named, List.map_map, Table.mk.injEq]
  apply List.map_congr_left
  intro row _
  by_cases hs : name row = s <;> simp [hs]

theorem set_named_of_not_mem {b : β} (h : (rows.any fun row => name row = s) = false) :
    (named rows name value).set (.text s) b =
      ⟨(named rows name value).rows ++ [(.text s, b)]⟩ := by
  rw [set, contains_named, h]
  rfl

end Table

theorem Value.key_eq_text {v : Value} {s : String} : v.key = (Value.text s).key ↔ v = .text s := by
  constructor
  · intro hkey
    cases v with
    | atom a => cases a <;> simp_all [Value.key, Datum.map, Scalar.key]
    | _ => simp [Value.key, Datum.map] at hkey
  · rintro rfl
    rfl

namespace Store

variable {δ : Type} [Store δ] {db db' : δ} {id : String}

theorem lt_numberAfter {used : List Nat} {n : Nat} (h : n ∈ used) : n < numberAfter used.max? := by
  cases hmax : used.max? with
  | none =>
    rw [List.max?_eq_none_iff.1 hmax] at h
    cases h
  | some last => exact Nat.lt_succ_of_le ((List.max?_eq_some_iff.1 hmax).2 n h)

theorem find?_nodesInOrder :
    (nodesInOrder db).find? (fun row => row.id = id) = node? db id := by
  have hperm := (nodes_ordered db).perm
  apply Option.ext
  intro row
  rw [NodeRow.find?_eq_some_iff ((hperm.map _).nodup_iff.2 (unique_key db)), hperm.mem_iff,
    node?_eq_some]

theorem any_nodesInOrder : ((nodesInOrder db).any fun row => row.id = id) = hasNode db id := by
  rw [hasNode, ← find?_nodesInOrder, ← List.isSome_find?]

theorem nodesInOrder_congr (hnodup : ((nodes db).map (·.seq)).Nodup)
    (hperm : (nodes db').Perm (nodes db)) : nodesInOrder db' = nodesInOrder db :=
  (nodes_ordered db).unique hnodup hperm (nodes_ordered db')

theorem nodup_filter_edges (hnodup : ((edges db).map (·.seq)).Nodup) (id : String) :
    (((edges db).filter fun row => row.src = id).map (·.seq)).Nodup :=
  hnodup.sublist (List.filter_sublist.map _)

theorem edgesInOrder_congr (hnodup : ((edges db).map (·.seq)).Nodup)
    (hperm : (edges db').Perm (edges db)) (id : String) :
    edgesInOrder db' id = edgesInOrder db id :=
  (edges_ordered db id).unique (nodup_filter_edges hnodup id) (hperm.filter _)
    (edges_ordered db' id)

theorem edgesInOrder_of_not_hasNode (hid : hasNode db id = false) : edgesInOrder db id = [] := by
  have hnone : ((edges db).filter fun row => row.src = id) = [] := by
    rw [List.filter_eq_nil_iff]
    intro row hrow hsrc
    have hmem := (joins_nodes db row hrow).1
    rw [of_decide_eq_true hsrc] at hmem
    exact hasNode_eq_false_iff.1 hid hmem
  have hperm := (edges_ordered db id).perm
  rwa [hnone, List.perm_nil] at hperm

theorem mem_edgesInOrder {row : EdgeRow} :
    row ∈ edgesInOrder db id ↔ row ∈ edges db ∧ row.src = id := by
  rw [(edges_ordered db id).perm.mem_iff, List.mem_filter, decide_eq_true_eq]

theorem nodesInOrder_setLabels (hnodup : ((nodes db).map (·.seq)).Nodup)
    (id kind function : String) :
    nodesInOrder (setLabels db id kind function) =
      (nodesInOrder db).map (·.relabel id kind function) := by
  have hnodup' : (((nodes db).map (·.relabel id kind function)).map (·.seq)).Nodup := by
    rwa [NodeRow.map_relabel fun _ => NodeRow.relabel_seq]
  exact ((nodes_ordered db).map fun _ => NodeRow.relabel_seq).unique hnodup'
    (nodes_setLabels db id kind function) (nodes_ordered _)

theorem nodesInOrder_insertNode (hnodup : ((nodes db).map (·.seq)).Nodup) {row : NodeRow}
    (hid : hasNode db row.id = false) (hnew : ∀ old ∈ nodes db, old.seq < row.seq) :
    nodesInOrder (insertNode db row) = nodesInOrder db ++ [row] :=
  ((nodes_ordered db).concat hnew).unique (nodup_map_cons hnodup hnew)
    (nodes_insertNode (hasNode_eq_false_iff.1 hid)) (nodes_ordered _)

theorem edgesInOrder_insertEdge (hnodup : ((edges db).map (·.seq)).Nodup) {row : EdgeRow}
    (hsrc : hasNode db row.src = true) (hdst : hasNode db row.dst = true)
    (hnew : ∀ old ∈ edges db, old.seq < row.seq) (id : String) :
    edgesInOrder (insertEdge db row) id =
      if row.src = id then edgesInOrder db id ++ [row] else edgesInOrder db id := by
  have hperm := (edges_insertEdge (hasNode_iff.1 hsrc) (hasNode_iff.1 hdst)).filter
    fun other => decide (other.src = id)
  split
  · rename_i hid
    rw [List.filter_cons_of_pos (by simpa using hid)] at hperm
    have hnew' : ∀ old ∈ (edges db).filter fun other => other.src = id, old.seq < row.seq :=
      fun old hold => hnew old (List.mem_of_mem_filter hold)
    exact ((edges_ordered db id).concat hnew').unique
      (nodup_map_cons (nodup_filter_edges hnodup id) hnew') hperm (edges_ordered _ id)
  · rename_i hid
    rw [List.filter_cons_of_neg (by simpa using hid)] at hperm
    exact (edges_ordered db id).unique (nodup_filter_edges hnodup id) hperm (edges_ordered _ id)

end Store

namespace StoredGraph

variable {δ : Type} [Store δ] {g : StoredGraph δ}

structure Numbered (g : StoredGraph δ) : Prop where
  isOpen : g.isOpen = true
  nodes : ((Store.nodes g.database).map (·.seq)).Nodup
  nodesBelow : ∀ row ∈ Store.nodes g.database, row.seq < g.nextNode
  edges : ((Store.edges g.database).map (·.seq)).Nodup
  edgesBelow : ∀ row ∈ Store.edges g.database, row.seq < g.nextEdge

def view (g : StoredGraph δ) : MemoryGraph where
  records := .named (Store.nodesInOrder g.database) NodeRow.id nodeOfRow
  out := .named (Store.nodesInOrder g.database) NodeRow.id fun row =>
    (Store.edgesInOrder g.database row.id).map edgeOfRow

theorem contains_view (id : String) :
    g.view.contains (.text id) = Store.hasNode g.database id := by
  rw [MemoryGraph.contains, view, Table.contains_named, Store.any_nodesInOrder]

theorem contains_out_view (id : String) :
    g.view.out.contains (.text id) = Store.hasNode g.database id := by
  rw [view, Table.contains_named, Store.any_nodesInOrder]

theorem nodeIds_view (g : StoredGraph δ) :
    g.view.nodeIds = ((Store.nodesInOrder g.database).map (·.id)).map Value.text := by
  simp only [MemoryGraph.nodeIds, view, Table.keys, Table.named, List.map_map]
  rfl

theorem Numbered.view_setLabels (h : g.Numbered) {id kind function : String}
    (hid : Store.hasNode g.database id = true) :
    view { g with database := Store.setLabels g.database id kind function } =
      g.view.putNode { id := .text id, kind := .text kind, function := .text function } := by
  have hcontains : g.view.contains (.text id) = true := (contains_view id).trans hid
  have hrecords : g.view.records.contains (.text id) = true := hcontains
  have hedges := Store.edgesInOrder_congr h.edges
    (Store.edges_setLabels g.database id kind function)
  simp only [MemoryGraph.putNode, hcontains, if_true, Table.set, hrecords]
  simp only [view, Store.nodesInOrder_setLabels h.nodes, hedges, Table.modify_named]
  congr 1
  · simp only [Table.named, List.map_map, Table.mk.injEq]
    apply List.map_congr_left
    intro row _
    by_cases hrow : row.id = id <;> simp [hrow, nodeOfRow, NodeRow.relabel]
  · simp only [Table.named, List.map_map, Table.mk.injEq]
    apply List.map_congr_left
    intro row _
    simp only [Function.comp_apply, NodeRow.relabel_id]

theorem Numbered.view_insertNode (h : g.Numbered) {row : NodeRow} (hseq : row.seq = g.nextNode)
    (hid : Store.hasNode g.database row.id = false) :
    view { g with database := Store.insertNode g.database row, nextNode := g.nextNode + 1 } =
      g.view.putNode (nodeOfRow row) := by
  have hcontains : g.view.contains (.text row.id) = false := (contains_view row.id).trans hid
  have hany : ((Store.nodesInOrder g.database).any fun other => other.id = row.id) = false :=
    Store.any_nodesInOrder.trans hid
  have hnodes := Store.nodesInOrder_insertNode h.nodes hid (hseq ▸ h.nodesBelow)
  have hedges := Store.edgesInOrder_congr h.edges (Store.edges_insertNode g.database row)
  simp only [MemoryGraph.putNode, nodeOfRow, hcontains, Bool.false_eq_true, if_false]
  simp only [view, hnodes, hedges]
  rw [Table.set_named_of_not_mem hany, Table.set_named_of_not_mem hany]
  simp [Table.named, nodeOfRow, Store.edgesInOrder_of_not_hasNode hid]

theorem Numbered.view_insertEdge (h : g.Numbered) {row : EdgeRow} (hseq : row.seq = g.nextEdge)
    (hsrc : Store.hasNode g.database row.src = true)
    (hdst : Store.hasNode g.database row.dst = true) :
    view { g with database := Store.insertEdge g.database row, nextEdge := g.nextEdge + 1 } =
      g.view.putEdge (edgeOfRow row) := by
  have hnodes := Store.nodesInOrder_congr h.nodes (Store.nodes_insertEdge g.database row)
  have hedges := Store.edgesInOrder_insertEdge h.edges hsrc hdst (hseq ▸ h.edgesBelow)
  simp only [MemoryGraph.putEdge, edgeOfRow, view, Table.modify_named, hnodes, hedges]
  congr 1
  simp only [Table.named, Table.mk.injEq]
  apply List.map_congr_left
  intro node _
  by_cases hid : node.id = row.src
  · simp [hid, edgeOfRow]
  · simp [hid, Ne.symm hid]

theorem Numbered.openOn (h : g.Numbered) {db : δ} (hdb : Store.Reopens g.database db)
    (graphId automatic : Value) : (openOn db graphId automatic).Numbered where
  isOpen := rfl
  nodes := ((Store.nodes_persist hdb).map _).nodup_iff.2 h.nodes
  nodesBelow row hrow := by
    rw [StoredGraph.openOn, Store.lastNode_eq]
    exact Store.lt_numberAfter (List.mem_map_of_mem hrow)
  edges := ((Store.edges_persist hdb).map _).nodup_iff.2 h.edges
  edgesBelow row hrow := by
    rw [StoredGraph.openOn, Store.lastEdge_eq]
    exact Store.lt_numberAfter (List.mem_map_of_mem hrow)

theorem Numbered.view_openOn (h : g.Numbered) {db : δ} (hdb : Store.Reopens g.database db)
    (graphId automatic : Value) : (StoredGraph.openOn db graphId automatic).view = g.view := by
  simp only [view, StoredGraph.openOn,
    Store.nodesInOrder_congr h.nodes (Store.nodes_persist hdb),
    Store.edgesInOrder_congr h.edges (Store.edges_persist hdb)]

theorem edges_view_perm (g : StoredGraph δ) :
    g.view.edges.Perm ((Store.edges g.database).map edgeOfRow) := by
  have hnames : ((Store.nodesInOrder g.database).map (·.id)).Perm
      ((Store.nodes g.database).map (·.id)) := (Store.nodes_ordered g.database).perm.map _
  have hgroups : (((Store.nodesInOrder g.database).map (·.id)).flatMap fun id =>
      (Store.edges g.database).filter fun row => row.src = id).Perm (Store.edges g.database) :=
    flatMap_filter_perm (hnames.nodup_iff.2 (Store.unique_key _)) fun row hrow =>
      hnames.mem_iff.2 (Store.joins_nodes _ row hrow).1
  have hsorted : (((Store.nodesInOrder g.database).map (·.id)).flatMap
      (Store.edgesInOrder g.database)).Perm (Store.edges g.database) :=
    (List.Perm.flatMap_left _ fun id _ => (Store.edges_ordered _ id).perm).trans hgroups
  have hedges : g.view.edges = (((Store.nodesInOrder g.database).map (·.id)).flatMap
      (Store.edgesInOrder g.database)).map edgeOfRow := by
    simp [MemoryGraph.edges, view, Table.values, Table.named, List.flatMap_def, List.map_flatten,
      Function.comp_def]
  rw [hedges]
  exact hsorted.map _

/-! What the tables answer is what the graph that they show answers. -/

section

variable (h : g.Numbered)

include h

theorem Numbered.tables : g.tables = .ok g.database := by
  rw [StoredGraph.tables, h.isOpen]
  rfl

theorem Numbered.getNode_text (id : String) : g.getNode (.text id) = g.view.getNode (.text id) := by
  have hleft : g.getNode (.text id) = .ok ((Store.node? g.database id).map nodeOfRow) := by
    rw [getNode, h.tables]
    rfl
  have hright : g.view.getNode (.text id) = .ok (g.view.records.find? (.text id)) := rfl
  rw [hleft, hright, view, Table.find?_named, Store.find?_nodesInOrder]

theorem Numbered.hasNode_text (id : String) : g.hasNode (.text id) = g.view.hasNode (.text id) := by
  have hright : g.view.hasNode (.text id) = .ok (g.view.contains (.text id)) := rfl
  rw [hright, hasNode, h.getNode_text, MemoryGraph.contains, ← Table.isSome_find?]
  rfl

theorem Numbered.outEdges_text (id : String) :
    g.outEdges (.text id) = g.view.outEdges (.text id) := by
  have hleft : g.outEdges (.text id) =
      .ok ((Store.edgesInOrder g.database id).map edgeOfRow) := by
    rw [outEdges, h.tables]
    rfl
  have hright : g.view.outEdges (.text id) = .ok ((g.view.out.find? (.text id)).getD []) := rfl
  rw [hleft, hright, view, Table.find?_named]
  cases hfind : (Store.nodesInOrder g.database).find? fun row => row.id = id with
  | some row =>
    have hid : row.id = id := by simpa using List.find?_some hfind
    rw [Option.map_some, Option.getD_some, hid]
  | none =>
    have hno : Store.hasNode g.database id = false := by
      rw [Store.hasNode, ← Store.find?_nodesInOrder, hfind]
      rfl
    rw [Store.edgesInOrder_of_not_hasNode hno]
    rfl

theorem Numbered.nodeIds : g.nodeIds = .ok g.view.nodeIds := by
  rw [StoredGraph.nodeIds, h.tables, nodeIds_view, List.map_map]
  rfl

theorem Numbered.nodeCount : g.nodeCount = .ok g.view.nodeCount := by
  rw [StoredGraph.nodeCount, h.tables, MemoryGraph.nodeCount, view, Table.named, List.length_map,
    (Store.nodes_ordered g.database).perm.length_eq, ← Store.nodeCount_eq]
  rfl

theorem Numbered.edgeCount : g.edgeCount = .ok g.view.edgeCount := by
  rw [StoredGraph.edgeCount, h.tables, MemoryGraph.edgeCount_eq_length_edges,
    g.edges_view_perm.length_eq, List.length_map, ← Store.edgeCount_eq]
  rfl

end

theorem getNode_of_not_text {id : Value} (hid : ∀ s, id ≠ .text s) : g.getNode id = .ok none := by
  unfold getNode
  split
  · exact absurd rfl (hid _)
  · rfl

theorem hasNode_of_not_text {id : Value} (hid : ∀ s, id ≠ .text s) : g.hasNode id = .ok false := by
  rw [hasNode, getNode_of_not_text hid]
  rfl

theorem outEdges_of_not_text {id : Value} (hid : ∀ s, id ≠ .text s) : g.outEdges id = .ok [] := by
  unfold outEdges
  split
  · exact absurd rfl (hid _)
  · rfl

theorem find?_named_of_not_text {α β : Type} {rows : List α} {name : α → String} {value : α → β}
    {id : Value} (hid : ∀ s, id ≠ .text s) : (Table.named rows name value).find? id = none := by
  rw [Table.find?, Option.map_eq_none_iff, List.find?_eq_none]
  rintro row hrow hsame
  obtain ⟨item, _, rfl⟩ := List.mem_map.1 hrow
  exact hid _ (Value.key_eq_text.1 ((Value.same_iff _ _).1 hsame).symm)

end StoredGraph

/-! A node and an edge as the tables keep them. -/

def Node.stored (node : Node) : Node where
  id := .text node.id.toText
  kind := .text (columnText node.kind)
  function := .text (columnText node.function)

def Edge.stored (edge : Edge) : Edge where
  src := .text edge.src.toText
  dst := .text edge.dst.toText
  kind := .text (columnText edge.kind)

structure SameAnswers {δ : Type} [Store δ] (g : StoredGraph δ) (m : MemoryGraph) : Prop where
  nodeIds : g.nodeIds = .ok m.nodeIds
  nodeCount : g.nodeCount = .ok m.nodeCount
  edgeCount : g.edgeCount = .ok m.edgeCount
  getNode : ∀ id : Value, id.hashable = true → g.getNode id = m.getNode id
  hasNode : ∀ id : Value, id.hashable = true → g.hasNode id = m.hasNode id
  outEdges : ∀ id : Value, id.hashable = true → g.outEdges id = m.outEdges id
  other : ∀ id : Value, (∀ s, id ≠ .text s) →
    g.getNode id = .ok none ∧ g.hasNode id = .ok false ∧ g.outEdges id = .ok []

namespace StoredGraph

variable {δ : Type} [Store δ] {g : StoredGraph δ}

theorem Numbered.sameAnswers (h : g.Numbered) : SameAnswers g g.view := by
  have hcases : ∀ {motive : Value → Prop}, (∀ s, motive (.text s)) →
      (∀ id : Value, (∀ s, id ≠ .text s) → motive id) → ∀ id, motive id := by
    intro motive htext hother id
    by_cases hid : ∃ s, id = .text s
    · obtain ⟨s, rfl⟩ := hid
      exact htext s
    · exact hother id fun s hs => hid ⟨s, hs⟩
  refine ⟨h.nodeIds, h.nodeCount, h.edgeCount, ?_, ?_, ?_, ?_⟩
  · apply hcases
    · exact fun s _ => h.getNode_text s
    · intro id hid hhash
      rw [getNode_of_not_text hid, MemoryGraph.getNode, view, find?_named_of_not_text hid,
        Value.lookUp, hhash]
      rfl
  · apply hcases
    · exact fun s _ => h.hasNode_text s
    · intro id hid hhash
      rw [hasNode_of_not_text hid, MemoryGraph.hasNode, MemoryGraph.contains, ← Table.isSome_find?,
        view, find?_named_of_not_text hid, Value.lookUp, hhash]
      rfl
  · apply hcases
    · exact fun s _ => h.outEdges_text s
    · intro id hid hhash
      rw [outEdges_of_not_text hid, MemoryGraph.outEdges, view, find?_named_of_not_text hid,
        Value.lookUp, hhash]
      rfl
  · intro id hid
    exact ⟨getNode_of_not_text hid, hasNode_of_not_text hid, outEdges_of_not_text hid⟩

/-! What changes the tables changes the graph that they show in the same way. -/

section

variable (h : g.Numbered)

include h

theorem Numbered.setLabels (id kind function : String) :
    Numbered { g with database := Store.setLabels g.database id kind function } where
  isOpen := h.isOpen
  nodes := by
    rw [((Store.nodes_setLabels g.database id kind function).map _).nodup_iff,
      NodeRow.map_relabel fun _ => NodeRow.relabel_seq]
    exact h.nodes
  nodesBelow row hrow := by
    rw [(Store.nodes_setLabels g.database id kind function).mem_iff, List.mem_map] at hrow
    obtain ⟨old, hold, rfl⟩ := hrow
    rw [NodeRow.relabel_seq]
    exact h.nodesBelow old hold
  edges := ((Store.edges_setLabels g.database id kind function).map _).nodup_iff.2 h.edges
  edgesBelow row hrow :=
    h.edgesBelow row ((Store.edges_setLabels g.database id kind function).mem_iff.1 hrow)

theorem Numbered.insertNode {row : NodeRow} (hseq : row.seq = g.nextNode)
    (hid : Store.hasNode g.database row.id = false) :
    Numbered { g with
      database := Store.insertNode g.database row
      nextNode := g.nextNode + 1 } := by
  have hnodes := Store.nodes_insertNode (Store.hasNode_eq_false_iff.1 hid)
  have hedges := Store.edges_insertNode g.database row
  refine ⟨h.isOpen, ?_, ?_, (hedges.map _).nodup_iff.2 h.edges, fun edge hedge =>
    h.edgesBelow edge (hedges.mem_iff.1 hedge)⟩
  · exact (hnodes.map _).nodup_iff.2 (nodup_map_cons h.nodes (hseq ▸ h.nodesBelow))
  · intro other hother
    exact lt_succ_of_mem_cons h.nodesBelow hseq other (hnodes.mem_iff.1 hother)

theorem Numbered.insertEdge {row : EdgeRow} (hseq : row.seq = g.nextEdge)
    (hsrc : Store.hasNode g.database row.src = true)
    (hdst : Store.hasNode g.database row.dst = true) :
    Numbered { g with
      database := Store.insertEdge g.database row
      nextEdge := g.nextEdge + 1 } := by
  have hnodes := Store.nodes_insertEdge g.database row
  have hedges := Store.edges_insertEdge (Store.hasNode_iff.1 hsrc) (Store.hasNode_iff.1 hdst)
  refine ⟨h.isOpen, (hnodes.map _).nodup_iff.2 h.nodes, fun node hnode =>
    h.nodesBelow node (hnodes.mem_iff.1 hnode), ?_, ?_⟩
  · exact (hedges.map _).nodup_iff.2 (nodup_map_cons h.edges (hseq ▸ h.edgesBelow))
  · intro other hother
    exact lt_succ_of_mem_cons h.edgesBelow hseq other (hedges.mem_iff.1 hother)

theorem Numbered.addNode (node : Node) :
    ∃ g' added, g.addNode node = .ok (g', added) ∧ g'.Numbered ∧
      g'.view = g.view.putNode node.stored := by
  unfold StoredGraph.addNode
  rw [h.tables]
  simp only [bind, Except.bind, pure, Except.pure]
  cases hid : Store.hasNode g.database node.id.toText with
  | true => exact ⟨_, _, rfl, h.setLabels _ _ _, h.view_setLabels hid⟩
  | false => exact ⟨_, _, rfl, h.insertNode rfl hid, h.view_insertNode rfl hid⟩

theorem Numbered.addEdge_of_hasNode {edge : Edge}
    (hsrc : Store.hasNode g.database edge.src.toText = true)
    (hdst : Store.hasNode g.database edge.dst.toText = true) :
    ∃ g' added, g.addEdge edge = .ok (g', added) ∧ g'.Numbered ∧
      g'.view = g.view.putEdge edge.stored := by
  unfold StoredGraph.addEdge
  rw [h.tables]
  simp only [bind, Except.bind, pure, Except.pure, hsrc, hdst]
  exact ⟨_, _, rfl, h.insertEdge rfl hsrc hdst, h.view_insertEdge rfl hsrc hdst⟩

theorem Numbered.addEdge (edge : Edge) :
    (∃ g' added, g.addEdge edge = .ok (g', added) ∧ g'.Numbered ∧
      g.view.addEdge edge.stored = .ok g'.view) ∨
    ∃ fault fault', g.addEdge edge = .error fault ∧ g.view.addEdge edge.stored = .error fault' ∧
      fault.kind = .lookup ∧ fault.notice = fault'.notice := by
  have hhas : ∀ s, g.view.hasNode (.text s) = .ok (Store.hasNode g.database s) := by
    intro s
    rw [← contains_view]
    rfl
  rw [MemoryGraph.addEdge, Edge.stored, hhas, hhas]
  simp only [bind, Except.bind, pure, Except.pure, contains_out_view]
  cases hsrc : Store.hasNode g.database edge.src.toText with
  | false =>
    refine .inr ⟨.sourceNotFound edge.src, _, ?_, rfl, rfl, rfl⟩
    simp only [StoredGraph.addEdge, h.tables, bind, Except.bind, hsrc]
    rfl
  | true =>
    cases hdst : Store.hasNode g.database edge.dst.toText with
    | false =>
      refine .inr ⟨.targetNotFound edge.dst, _, ?_, rfl, rfl, rfl⟩
      simp only [StoredGraph.addEdge, h.tables, bind, Except.bind, hsrc, hdst]
      rfl
    | true =>
      obtain ⟨g', added, hadd, h', hview⟩ := h.addEdge_of_hasNode hsrc hdst
      exact .inl ⟨g', added, hadd, h', congrArg Except.ok hview.symm⟩

end

end StoredGraph

variable {δ : Type} [Store δ]

inductive Edit
  | addNode (id : Value) (kind function : String)
  | addEdge (src dst : Value) (kind : String)
  | reopen (graphId automatic : Value)

def attempt {α : Type} (g : α) : Except Fault α → α × Except Fault Unit
  | .ok g => (g, .ok ())
  | .error fault => (g, .error fault)

/-- Edits a stored graph.  A database that is opened again is found as `layout` has it. -/
def StoredGraph.edit (layout : δ → δ) (g : StoredGraph δ) :
    Edit → StoredGraph δ × Except Fault Unit
  | .addNode id kind function =>
    attempt g (Prod.fst <$> g.addNode { id, kind := .text kind, function := .text function })
  | .addEdge src dst kind => attempt g (Prod.fst <$> g.addEdge { src, dst, kind := .text kind })
  | .reopen graphId automatic => (.openOn (layout g.close.database) graphId automatic, .ok ())

def MemoryGraph.edit (m : MemoryGraph) : Edit → MemoryGraph × Except Fault Unit
  | .addNode id kind function =>
    attempt m (m.addNode { id := .text id.toText, kind := .text kind, function := .text function })
  | .addEdge src dst kind =>
    attempt m (m.addEdge { src := .text src.toText, dst := .text dst.toText, kind := .text kind })
  | .reopen _ _ => (m, .ok ())

def StoredGraph.edits (layout : δ → δ) (g : StoredGraph δ) (edits : List Edit) : StoredGraph δ :=
  edits.foldl (fun g edit => (g.edit layout edit).1) g

def MemoryGraph.edits (m : MemoryGraph) (edits : List Edit) : MemoryGraph :=
  edits.foldl (fun m edit => (m.edit edit).1) m

inductive SameOutcome (g : StoredGraph δ) (m : MemoryGraph) :
    StoredGraph δ × Except Fault Unit → MemoryGraph × Except Fault Unit → Prop
  | done (g' : StoredGraph δ) (m' : MemoryGraph) : SameOutcome g m (g', .ok ()) (m', .ok ())
  | refused {fault fault' : Fault} : fault.kind = .lookup → fault.notice = fault'.notice →
      SameOutcome g m (g, .error fault) (m, .error fault')

namespace StoredGraph

variable {g : StoredGraph δ} {layout : δ → δ}

theorem numbered_openOn_empty (graphId automatic : Value) :
    (openOn (Store.empty : δ) graphId automatic).Numbered where
  isOpen := rfl
  nodes := by simp [openOn, Store.nodes_empty]
  nodesBelow := by simp [openOn, Store.nodes_empty]
  edges := by simp [openOn, Store.edges_empty]
  edgesBelow := by simp [openOn, Store.edges_empty]

theorem view_openOn_empty (graphId automatic : Value) :
    (openOn (Store.empty : δ) graphId automatic).view = {} := by
  have hperm := (Store.nodes_ordered (Store.empty : δ)).perm
  rw [Store.nodes_empty, List.perm_nil] at hperm
  simp [view, openOn, hperm, Table.named]

theorem Numbered.edit (hlayout : ∀ db, Store.Reopens db (layout db)) (h : g.Numbered)
    (edit : Edit) :
    (g.edit layout edit).1.Numbered ∧ (g.edit layout edit).1.view = (g.view.edit edit).1 ∧
      SameOutcome g g.view (g.edit layout edit) (g.view.edit edit) := by
  cases edit with
  | addNode id kind function =>
    obtain ⟨g', node, hadd, hg', hview⟩ :=
      h.addNode { id, kind := .text kind, function := .text function }
    rw [StoredGraph.edit, hadd]
    exact ⟨hg', hview, .done _ _⟩
  | addEdge src dst kind =>
    let edge : Edge := { src, dst, kind := .text kind }
    have hedit : g.view.edit (.addEdge src dst kind) =
        attempt g.view (g.view.addEdge edge.stored) := rfl
    obtain ⟨g', added, hadd, hg', hview⟩ | ⟨fault, fault', hadd, hview, hkind, hnotice⟩ :=
      h.addEdge edge
    · rw [hedit, hview, StoredGraph.edit, hadd]
      exact ⟨hg', rfl, .done _ _⟩
    · rw [hedit, hview, StoredGraph.edit, hadd]
      exact ⟨h, rfl, .refused hkind hnotice⟩
  | reopen graphId automatic =>
    exact ⟨h.openOn (hlayout _) graphId automatic, h.view_openOn (hlayout _) graphId automatic,
      .done _ _⟩

theorem Numbered.edits (hlayout : ∀ db, Store.Reopens db (layout db)) (h : g.Numbered)
    (edits : List Edit) :
    (g.edits layout edits).Numbered ∧ (g.edits layout edits).view = g.view.edits edits := by
  induction edits generalizing g with
  | nil => exact ⟨h, rfl⟩
  | cons edit edits ih =>
    obtain ⟨hstep, hview, _⟩ := h.edit hlayout edit
    obtain ⟨hrest, hviews⟩ := ih hstep
    refine ⟨hrest, hviews.trans ?_⟩
    rw [hview]
    rfl

/-- After any edits that start from an empty database, however often it is closed and opened again,
the stored graph answers as the graph in memory does, and whatever is tried next ends the same way
for both. -/
theorem edits_sameAnswers (hlayout : ∀ db, Store.Reopens db (layout db))
    (graphId automatic : Value) (edits : List Edit) :
    let g := (openOn Store.empty graphId automatic).edits layout edits
    let m := MemoryGraph.edits {} edits
    SameAnswers g m ∧ ∀ edit, SameOutcome g m (g.edit layout edit) (m.edit edit) := by
  intro g m
  obtain ⟨hg, hview⟩ := (numbered_openOn_empty graphId automatic).edits hlayout edits
  rw [view_openOn_empty] at hview
  have hm : g.view = m := hview
  rw [← hm]
  exact ⟨hg.sameAnswers, fun edit => (hg.edit hlayout edit).2.2⟩

end StoredGraph

def Database.reversed (db : Database) : Database where
  nodes := db.nodes.reverse
  edges := db.edges.reverse
  unique := ((List.reverse_perm _).map _).nodup_iff.2 db.unique
  joined row hrow := by
    simp only [List.map_reverse, List.mem_reverse] at hrow ⊢
    exact db.joined row hrow

theorem Database.reopens_reversed (db : Database) : Store.Reopens db db.reversed :=
  Rearranges.mk (List.reverse_perm _) (List.reverse_perm _)

namespace StoredGraph

/-- The database is found with its rows the other way round between the edges of one node.  One node
is added by number and then by text, and an edge is refused. -/
theorem edits_reversed_sameAnswers :
    let layout := Database.reversed
    let edits : List Edit :=
      [.addNode (.int 1) "Entry" "main", .addNode (.text "b") "Exit" "main",
        .addEdge (.int 1) (.text "b") "CFG", .reopen (.text "k") .null,
        .addEdge (.text "b") (.int 7) "CFG", .addNode (.text "1") "Call" "main",
        .addEdge (.text "1") (.int 1) "Call", .reopen .null .null]
    let g := (openOn Store.empty .null .null).edits layout edits
    let m := MemoryGraph.edits {} edits
    (∀ db : Database, Store.Reopens db (layout db)) ∧
      m.nodeIds = [.text "1", .text "b"] ∧
      m.edges.map (·.dst) = [.text "b", .text "1"] ∧
      (g.edit layout (.addEdge (.text "b") (.int 7) "CFG")).2 = .error (.targetNotFound (.int 7)) ∧
      SameAnswers g m ∧ ∀ edit, SameOutcome g m (g.edit layout edit) (m.edit edit) := by
  intro layout edits g m
  have hids : m.nodeIds = [.text "1", .text "b"] := by decide +kernel
  have hedges : m.edges.map (·.dst) = [.text "b", .text "1"] := by decide +kernel
  have hrefused : (g.edit layout (.addEdge (.text "b") (.int 7) "CFG")).2 =
      .error (.targetNotFound (.int 7)) := by decide +kernel
  exact ⟨Database.reopens_reversed, hids, hedges, hrefused,
    edits_sameAnswers Database.reopens_reversed .null .null edits⟩

end StoredGraph

end FlowPaths
