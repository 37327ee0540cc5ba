import FlowPaths.Proofs.Graph.StoredView

/-!
Graphs that are put together anew from their own nodes and edges, as loading does it: all nodes
first, then all edges, grouped by source.  The edges of each node come back in their order, whatever
the order in which the nodes and edges were once added.
-/

namespace FlowPaths

namespace Table

variable {α : Type} {t : Table α} {k : Value}

theorem set_of_not_contains (h : t.contains k = false) (a : α) :
    t.set k a = ⟨t.rows ++ [(k, a)]⟩ := by
  rw [set, h]
  rfl

theorem not_contains (h : k.key ∉ t.keys.map Value.key) : t.contains k = false := by
  rw [← Bool.not_eq_true, contains_iff]
  exact h

end Table

namespace MemoryGraph

variable {g m : MemoryGraph}

theorem putNode_of_new (haligned : m.out.keys = m.records.keys) {node : Node}
    (hnew : node.id.key ∉ m.keys) :
    m.putNode node = { m with
      records := ⟨m.records.rows ++ [(node.id, node)]⟩
      out := ⟨m.out.rows ++ [(node.id, [])]⟩ } := by
  have hrecords : m.records.contains node.id = false := Table.not_contains hnew
  have hout : m.out.contains node.id = false := by
    apply Table.not_contains
    rw [haligned]
    exact hnew
  have hcontains : m.contains node.id = false := hrecords
  rw [putNode, hcontains, Table.set_of_not_contains hrecords, Table.set_of_not_contains hout]
  rfl

theorem foldl_putNode {nodes : List Node} (haligned : m.out.keys = m.records.keys)
    (hnodup : (m.keys ++ nodes.map fun node => node.id.key).Nodup) :
    nodes.foldl putNode m = { m with
      records := ⟨m.records.rows ++ nodes.map fun node => (node.id, node)⟩
      out := ⟨m.out.rows ++ nodes.map fun node => (node.id, [])⟩ } := by
  induction nodes generalizing m with
  | nil => simp
  | cons node nodes ih =>
    rw [List.map_cons, List.append_cons] at hnodup
    have hnew : node.id.key ∉ m.keys := by
      intro hmem
      have hpair := (List.nodup_append.1 hnodup.of_append_left).2.2
      exact hpair _ hmem _ (List.mem_singleton_self _) rfl
    rw [List.foldl_cons, putNode_of_new haligned hnew, ih]
    · simp
    · simpa [Table.keys] using haligned
    · simpa [keys, nodeIds, Table.keys] using hnodup

theorem foldl_putEdge (edges : List Edge) (m : MemoryGraph) :
    edges.foldl putEdge m = { m with
      out := ⟨m.out.rows.map fun row =>
        (row.1, row.2 ++ edges.filter fun edge => row.1.same edge.src)⟩ } := by
  induction edges generalizing m with
  | nil => simp
  | cons edge edges ih =>
    rw [List.foldl_cons, ih, putEdge]
    simp only [Table.modify, List.map_map, MemoryGraph.mk.injEq, Table.mk.injEq, true_and]
    apply List.map_congr_left
    intro row _
    rw [Function.comp_apply, List.filter_cons]
    cases row.1.same edge.src with
    | true => simp
    | false => simp

theorem filter_flatMap_groups {rows : List (Value × List Edge)}
    (hnodup : (rows.map fun row => row.1.key).Nodup)
    (hsrc : ∀ row ∈ rows, ∀ e ∈ row.2, e.src.key = row.1.key) {row : Value × List Edge}
    (hrow : row ∈ rows) :
    (rows.flatMap Prod.snd).filter (fun edge => row.1.same edge.src) = row.2 := by
  induction rows with
  | nil => cases hrow
  | cons first rows ih =>
    rw [List.map_cons, List.nodup_cons] at hnodup
    rw [List.forall_mem_cons] at hsrc
    rw [List.flatMap_cons, List.filter_append]
    obtain rfl | hrow := List.mem_cons.1 hrow
    · have hall : row.2.filter (fun edge => row.1.same edge.src) = row.2 := by
        rw [List.filter_eq_self]
        intro edge hedge
        rw [Value.same_iff, hsrc.1 edge hedge]
      have hnone : (rows.flatMap Prod.snd).filter (fun edge => row.1.same edge.src) = [] := by
        rw [List.filter_eq_nil_iff]
        intro edge hedge hsame
        obtain ⟨other, hother, hedge⟩ := List.mem_flatMap.1 hedge
        apply hnodup.1
        rw [(Value.same_iff _ _).1 hsame, hsrc.2 other hother edge hedge]
        exact List.mem_map.2 ⟨other, hother, rfl⟩
      rw [hall, hnone, List.append_nil]
    · have hnone : first.2.filter (fun edge => row.1.same edge.src) = [] := by
        rw [List.filter_eq_nil_iff]
        intro edge hedge hsame
        apply hnodup.1
        rw [← hsrc.1 edge hedge, ← (Value.same_iff _ _).1 hsame]
        exact List.mem_map.2 ⟨row, hrow, rfl⟩
      rw [hnone, List.nil_append, ih hnodup.2 hsrc.2 hrow]

def renamed (g : MemoryGraph) (graphId : Value) : MemoryGraph where
  graphId := graphId
  records := ⟨g.nodes.map fun node => (node.id, node)⟩
  out := ⟨g.nodes.map fun node => (node.id, (g.out.find? node.id).getD [])⟩

namespace WellFormed

variable (h : g.WellFormed)

include h

theorem nodup_out : (g.out.rows.map fun row => row.1.key).Nodup := by
  have hkeys : (g.out.rows.map fun row => row.1.key) = g.keys := by
    rw [keys, nodeIds, ← h.aligned, Table.keys, List.map_map]
    rfl
  rw [hkeys]
  exact h.nodup

theorem find?_records {row : Value × Node} (hrow : row ∈ g.records.rows) :
    g.records.find? row.1 = some row.2 := Table.find?_of_mem h.nodup hrow

theorem find?_out {row : Value × List Edge} (hrow : row ∈ g.out.rows) :
    g.out.find? row.1 = some row.2 := by
  apply Table.find?_of_mem _ hrow
  rw [h.aligned]
  exact h.nodup

theorem ends_mem_keys {edge : Edge} (hedge : edge ∈ g.edges) :
    edge.src.key ∈ g.keys ∧ edge.dst.key ∈ g.keys := by
  rw [edges, List.mem_flatten] at hedge
  obtain ⟨list, hlist, hedge⟩ := hedge
  obtain ⟨row, hrow, rfl⟩ := List.mem_map.1 hlist
  refine ⟨?_, h.dst row hrow edge hedge⟩
  rw [h.src row hrow edge hedge, keys, nodeIds, ← h.aligned]
  exact List.mem_map_of_mem (List.mem_map_of_mem hrow)

theorem entries_eq : g.entries = g.records.rows.map fun row =>
    { id := row.1, node := row.2, out := (g.out.find? row.1).getD [] } := by
  rw [entries, nodeIds, Table.keys, List.filterMap_map, ← List.filterMap_eq_map]
  apply List.filterMap_congr
  intro row hrow
  simp only [Function.comp_apply, h.find?_records hrow, Option.map_some]

theorem flatMap_entries : g.entries.flatMap (·.out) = g.edges := by
  have hids : (g.records.rows.flatMap fun row => (g.out.find? row.1).getD []) =
      g.out.rows.flatMap fun row => (g.out.find? row.1).getD [] := by
    have hkeys := congrArg (List.flatMap fun id => (g.out.find? id).getD []) h.aligned
    simpa only [Table.keys, List.flatMap_map] using hkeys.symm
  rw [h.entries_eq, List.flatMap_map, hids, edges, Table.values, ← List.flatMap_def]
  apply List.flatMap_congr
  intro row hrow
  rw [h.find?_out hrow]
  rfl

theorem map_key_nodes : (g.nodes.map fun node => node.id.key) = g.keys := by
  rw [nodes, Table.values, keys, nodeIds, Table.keys, List.map_map, List.map_map]
  apply List.map_congr_left
  exact h.node

theorem filter_edges (id : Value) :
    (g.edges.filter fun edge => id.same edge.src) = (g.out.find? id).getD [] := by
  cases hfind : g.out.find? id with
  | some out =>
    obtain ⟨name, hrow, hkey⟩ := Table.mem_of_find? hfind
    rw [← Value.same_congr hkey, edges, Table.values, ← List.flatMap_def]
    exact filter_flatMap_groups h.nodup_out h.src hrow
  | none =>
    rw [Option.getD_none, List.filter_eq_nil_iff]
    intro edge hedge hsame
    have hmem := (h.ends_mem_keys hedge).1
    rw [← (Value.same_iff _ _).1 hsame, ← contains_iff_mem_keys, ← h.contains_out,
      ← Table.isSome_find?, hfind] at hmem
    cases hmem

theorem rebuild (graphId : Value) :
    g.edges.foldl MemoryGraph.putEdge (g.nodes.foldl MemoryGraph.putNode { graphId }) =
      g.renamed graphId := by
  rw [foldl_putNode rfl, foldl_putEdge, renamed]
  · simp only [List.nil_append, List.map_map, MemoryGraph.mk.injEq, Table.mk.injEq, true_and]
    apply List.map_congr_left
    intro node _
    simp only [Function.comp_apply, List.nil_append, h.filter_edges]
  · rw [h.map_key_nodes]
    exact h.nodup

theorem renamed_eq (hids : ∀ row ∈ g.records.rows, row.2.id = row.1) (graphId : Value) :
    g.renamed graphId = { graphId, records := g.records, out := g.out } := by
  have hrecords : (g.nodes.map fun node => (node.id, node)) = g.records.rows := by
    rw [nodes, Table.values, List.map_map]
    conv_rhs => rw [← List.map_id g.records.rows]
    apply List.map_congr_left
    intro row hrow
    exact Prod.ext (hids row hrow) rfl
  have hnames : g.nodes.map Node.id = g.out.keys := by
    rw [h.aligned, Table.keys, ← hrecords, List.map_map]
    rfl
  have hout : (g.nodes.map fun node => (node.id, (g.out.find? node.id).getD [])) = g.out.rows := by
    have hrows := congrArg (List.map fun id => (id, (g.out.find? id).getD [])) hnames
    rw [Table.keys, List.map_map, List.map_map] at hrows
    refine hrows.trans ?_
    conv_rhs => rw [← List.map_id g.out.rows]
    apply List.map_congr_left
    intro row hrow
    simp only [Function.comp_apply, h.find?_out hrow]
    rfl
  rw [renamed, hrecords, hout]

end WellFormed

structure Textual (g : MemoryGraph) : Prop where
  ids : ∀ id ∈ g.nodeIds, ∃ s, id = .text s
  labels : ∀ node ∈ g.nodes,
    ∃ kind function, node.kind = .text kind ∧ node.function = .text function
  kinds : ∀ edge ∈ g.edges, ∃ kind, edge.kind = .text kind

namespace Textual

variable (htext : g.Textual) (h : g.WellFormed)

include htext

theorem eq_text_of_mem_keys {v : Value} (hv : v.key ∈ g.keys) : ∃ s, v = .text s := by
  obtain ⟨id, hid, hkey⟩ := List.mem_map.1 hv
  obtain ⟨s, rfl⟩ := htext.ids id hid
  exact ⟨s, Value.key_eq_text.1 hkey.symm⟩

include h

theorem node_id : ∀ row ∈ g.records.rows, row.2.id = row.1 := by
  intro row hrow
  obtain ⟨s, hs⟩ := htext.ids row.1 (List.mem_map_of_mem hrow)
  have hkey := h.node row hrow
  rw [hs] at hkey ⊢
  exact Value.key_eq_text.1 hkey

theorem exists_node {node : Node} (hnode : node ∈ g.nodes) : ∃ id kind function,
    node = { id := .text id, kind := .text kind, function := .text function } := by
  obtain ⟨kind, function, hkind, hfunction⟩ := htext.labels node hnode
  obtain ⟨row, hrow, rfl⟩ := List.mem_map.1 hnode
  obtain ⟨id, hid⟩ := htext.ids row.1 (List.mem_map_of_mem hrow)
  refine ⟨id, kind, function, ?_⟩
  rw [← hid, ← hkind, ← hfunction, ← htext.node_id h row hrow]

theorem exists_edge {edge : Edge} (hedge : edge ∈ g.edges) : ∃ src dst kind,
    edge = { src := .text src, dst := .text dst, kind := .text kind } ∧
      (Value.text src).key ∈ g.keys ∧ (Value.text dst).key ∈ g.keys := by
  obtain ⟨kind, hkind⟩ := htext.kinds edge hedge
  obtain ⟨hsrc, hdst⟩ := h.ends_mem_keys hedge
  obtain ⟨src, hs⟩ := htext.eq_text_of_mem_keys hsrc
  obtain ⟨dst, hd⟩ := htext.eq_text_of_mem_keys hdst
  refine ⟨src, dst, kind, ?_, hs ▸ hsrc, hd ▸ hdst⟩
  rw [← hs, ← hd, ← hkind]

end Textual

end MemoryGraph

end FlowPaths
