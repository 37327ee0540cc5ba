import Mathlib.Data.List.Nodup
import FlowPaths.Graph.Exchange
import FlowPaths.Proofs.Graph.Route

/-!
What holds of every graph in memory, whatever was done to it: both tables list the same names in
the same order, no name comes twice, each name has its own record and edges, and edges end in nodes.
-/

namespace FlowPaths

namespace Datum

mutual
theorem hashable_map {α β : Type} (f : α → β) : ∀ d : Datum α, (d.map f).hashable = d.hashable
  | .atom _ => rfl
  | .tuple items => allHashable_mapItems f items
  | .list _ => rfl
  | .dictionary _ => rfl

theorem allHashable_mapItems {α β : Type} (f : α → β) :
    ∀ ds : List (Datum α), allHashable (mapItems f ds) = allHashable ds
  | [] => rfl
  | d :: ds => by simp [mapItems, allHashable, hashable_map f d, allHashable_mapItems f ds]
end

end Datum

theorem Value.same_comm (u v : Value) : u.same v = v.same u := by
  rw [Bool.eq_iff_iff, same_iff, same_iff, eq_comm]

theorem Value.same_congr {u v : Value} (h : u.key = v.key) : u.same = v.same := by
  funext id
  rw [Bool.eq_iff_iff, same_iff, same_iff, h]

theorem Value.hashable_of_key_eq {u v : Value} (h : u.key = v.key) : u.hashable = v.hashable := by
  calc
    u.hashable = u.key.hashable := (Datum.hashable_map Scalar.key u).symm
    _ = v.key.hashable := by rw [h]
    _ = v.hashable := Datum.hashable_map Scalar.key v

theorem Value.lookUp_eq_ok {α : Type} {v : Value} {a b : α} :
    v.lookUp a = .ok b ↔ v.hashable = true ∧ a = b := by
  unfold lookUp
  split <;> simp_all

theorem bind_eq_ok {α β : Type} {x : Except Fault α} {f : α → Except Fault β} {b : β}
    (h : x >>= f = .ok b) : ∃ a, x = .ok a ∧ f a = .ok b := by
  cases x with
  | error fault => cases h
  | ok a => exact ⟨a, rfl, h⟩

theorem exists_of_mem_mapM {α β : Type} {f : α → Except Fault β} {as : List α} {bs : List β}
    (h : as.mapM f = .ok bs) {b : β} (hb : b ∈ bs) : ∃ a, f a = .ok b := by
  induction as generalizing bs with
  | nil =>
    cases h
    cases hb
  | cons a as ih =>
    rw [List.mapM_cons] at h
    obtain ⟨c, hc, h⟩ := bind_eq_ok h
    obtain ⟨cs, hcs, h⟩ := bind_eq_ok h
    cases h
    obtain rfl | hb := List.mem_cons.1 hb
    · exact ⟨a, hc⟩
    · exact ih hcs hb

theorem mapM_eq_ok {α β : Type} {f : α → Except Fault β} {h : α → β} {as : List α}
    (hf : ∀ a ∈ as, f a = .ok (h a)) : as.mapM f = .ok (as.map h) := by
  induction as with
  | nil => rfl
  | cons a as ih =>
    rw [List.forall_mem_cons] at hf
    rw [List.mapM_cons, hf.1, ih hf.2]
    rfl

namespace Table

variable {α : Type} {t : Table α} {k : Value}

theorem mem_modify {f : α → α} {row : Value × α} (h : row ∈ (t.modify k f).rows) :
    ∃ old ∈ t.rows, row.1 = old.1 ∧ (row.2 = old.2 ∨ old.1.key = k.key ∧ row.2 = f old.2) := by
  obtain ⟨old, hold, rfl⟩ := List.mem_map.1 h
  refine ⟨old, hold, ?_⟩
  split
  · rename_i hsame
    exact ⟨rfl, .inr ⟨(Value.same_iff _ _).1 hsame, rfl⟩⟩
  · exact ⟨rfl, .inl rfl⟩

theorem mem_set {a : α} {row : Value × α} (h : row ∈ (t.set k a).rows) :
    row ∈ t.rows ∨ row.1.key = k.key ∧ row.2 = a := by
  unfold set at h
  split at h
  · obtain ⟨⟨id, b⟩, hold, hid, hb | ⟨hkey, hb⟩⟩ := mem_modify h
    · left
      rwa [show row = (id, b) from Prod.ext hid hb]
    · exact .inr ⟨hid ▸ hkey, hb⟩
  · obtain hold | hnew := List.mem_append.1 h
    · exact .inl hold
    · rw [List.mem_singleton.1 hnew]
      exact .inr ⟨rfl, rfl⟩

theorem mem_of_find? {a : α} (h : t.find? k = some a) :
    ∃ id, (id, a) ∈ t.rows ∧ id.key = k.key := by
  obtain ⟨⟨id, b⟩, hfind, rfl⟩ := Option.map_eq_some_iff.1 h
  have hsame := List.find?_some hfind
  exact ⟨id, List.mem_of_find?_eq_some hfind, (Value.same_iff id k).1 hsame⟩

theorem find?_congr {u v : Value} (h : u.key = v.key) : t.find? u = t.find? v := by
  have hsame : (fun row : Value × α => row.1.same u) = fun row => row.1.same v := by
    funext row
    rw [Value.same_comm, Value.same_congr h, Value.same_comm]
  rw [find?, find?, hsame]

theorem find?_eq_none (h : t.contains k = false) : t.find? k = none := by
  rw [← Option.isNone_iff_eq_none, ← Option.isSome_eq_false_iff, isSome_find?, h]

theorem exists_find? (h : t.contains k = true) : ∃ a, t.find? k = some a :=
  Option.isSome_iff_exists.1 ((isSome_find? ..).trans h)

theorem find?_of_mem (hnodup : (t.keys.map Value.key).Nodup)
    {row : Value × α} (hrow : row ∈ t.rows) : t.find? row.1 = some row.2 := by
  obtain ⟨rows⟩ := t
  simp only [keys, List.map_map] at hnodup
  induction rows with
  | nil => cases hrow
  | cons first rows ih =>
    rw [List.map_cons, List.nodup_cons] at hnodup
    obtain rfl | hrow := List.mem_cons.1 hrow
    · simp [find?]
    · have hother : first.1.key ≠ row.1.key := by
        intro heq
        apply hnodup.1
        rw [Function.comp_apply, heq]
        exact List.mem_map_of_mem hrow
      have hrest := ih hrow hnodup.2
      simp only [find?] at hrest ⊢
      rw [List.find?_cons_of_neg (by simpa using hother), hrest]

end Table

namespace MemoryGraph

def keys (g : MemoryGraph) : List Key := g.nodeIds.map Value.key

structure WellFormed (g : MemoryGraph) : Prop where
  aligned : g.out.keys = g.records.keys
  nodup : g.keys.Nodup
  hashable : ∀ id ∈ g.nodeIds, id.hashable = true
  node : ∀ row ∈ g.records.rows, row.2.id.key = row.1.key
  src : ∀ row ∈ g.out.rows, ∀ e ∈ row.2, e.src.key = row.1.key
  dst : ∀ row ∈ g.out.rows, ∀ e ∈ row.2, e.dst.key ∈ g.keys

inductive Reachable : MemoryGraph → Prop
  | empty (graphId : Value) : Reachable { graphId }
  | ofEdges {graphId nodes edges g} : ofEdges graphId nodes edges = .ok g → Reachable g
  | addNode {g node g'} : Reachable g → g.addNode node = .ok g' → Reachable g'
  | addEdge {g edge g'} : Reachable g → g.addEdge edge = .ok g' → Reachable g'
  | importDocument {g} (document : Value) (merge : Bool) : Reachable g →
      Reachable (g.importDocument document merge).graph

variable {g g' : MemoryGraph}

theorem contains_iff_mem_keys {id : Value} : g.contains id = true ↔ id.key ∈ g.keys :=
  g.records.contains_iff id

theorem nodeIds_putNode (node : Node) :
    (g.putNode node).nodeIds = if g.contains node.id then g.nodeIds else g.nodeIds ++ [node.id] :=
  g.records.keys_set node.id node

theorem keys_putNode (node : Node) :
    (g.putNode node).keys = if g.contains node.id then g.keys else g.keys ++ [node.id.key] := by
  unfold keys
  rw [nodeIds_putNode]
  split <;> simp

theorem keys_subset_putNode (node : Node) : g.keys ⊆ (g.putNode node).keys := by
  rw [keys_putNode]
  split
  · exact List.Subset.refl _
  · exact List.subset_append_left _ _

theorem WellFormed.contains_out (h : g.WellFormed) (id : Value) :
    g.out.contains id = g.contains id := by
  rw [Bool.eq_iff_iff, Table.contains_iff, h.aligned]
  exact contains_iff_mem_keys.symm

theorem WellFormed.aligned_putNode (h : g.WellFormed) (node : Node) :
    (g.putNode node).out.keys = (g.putNode node).records.keys := by
  simp only [MemoryGraph.putNode]
  rw [Table.keys_set]
  cases hc : g.contains node.id with
  | true =>
    have hrecords : g.records.contains node.id = true := hc
    simp only [if_true, hrecords, h.aligned]
  | false =>
    have hrecords : g.records.contains node.id = false := hc
    have hout : g.out.contains node.id = false := (h.contains_out node.id).trans hc
    simp only [Bool.false_eq_true, if_false, hrecords, Table.keys_set, hout, h.aligned]

theorem WellFormed.nodup_putNode (h : g.WellFormed) (node : Node) :
    (g.putNode node).keys.Nodup := by
  rw [keys_putNode]
  split
  · exact h.nodup
  · rename_i hnew
    rw [List.nodup_append]
    refine ⟨h.nodup, List.nodup_singleton _, ?_⟩
    intro k hk k' hk' heq
    rw [List.mem_singleton.1 hk'] at heq
    rw [heq] at hk
    exact hnew (contains_iff_mem_keys.2 hk)

theorem mem_out_putNode {node : Node} {row : Value × List Edge}
    (h : row ∈ (g.putNode node).out.rows) : row ∈ g.out.rows ∨ row.2 = [] := by
  simp only [MemoryGraph.putNode] at h
  split at h
  · exact .inl h
  · exact (Table.mem_set h).imp_right And.right

theorem WellFormed.putNode (h : g.WellFormed) {node : Node} (hnode : node.id.hashable = true) :
    (g.putNode node).WellFormed where
  aligned := h.aligned_putNode node
  nodup := h.nodup_putNode node
  hashable := by
    intro id hid
    rw [nodeIds_putNode] at hid
    split at hid
    · exact h.hashable id hid
    · obtain hid | hid := List.mem_append.1 hid
      · exact h.hashable id hid
      · rw [List.mem_singleton.1 hid]
        exact hnode
  node := by
    intro row hrow
    obtain hold | ⟨hkey, hrow⟩ := Table.mem_set hrow
    · exact h.node row hold
    · rw [hrow, hkey]
  src := by
    intro row hrow e he
    obtain hold | hnone := mem_out_putNode hrow
    · exact h.src row hold e he
    · rw [hnone] at he
      cases he
  dst := by
    intro row hrow e he
    obtain hold | hnone := mem_out_putNode hrow
    · exact keys_subset_putNode node (h.dst row hold e he)
    · rw [hnone] at he
      cases he

theorem WellFormed.putEdge (h : g.WellFormed) {edge : Edge} (hdst : edge.dst.key ∈ g.keys) :
    (g.putEdge edge).WellFormed where
  aligned := (g.out.keys_modify edge.src _).trans h.aligned
  nodup := h.nodup
  hashable := h.hashable
  node := h.node
  src := by
    intro row hrow e he
    obtain ⟨old, hold, hid, hsame | ⟨hkey, hrow⟩⟩ := Table.mem_modify hrow
    · rw [hid]
      exact h.src old hold e (hsame ▸ he)
    · rw [hrow] at he
      obtain he | he := List.mem_append.1 he
      · rw [hid]
        exact h.src old hold e he
      · rw [List.mem_singleton.1 he, hid, hkey]
  dst := by
    intro row hrow e he
    obtain ⟨old, hold, hid, hsame | ⟨hkey, hrow⟩⟩ := Table.mem_modify hrow
    · exact h.dst old hold e (hsame ▸ he)
    · rw [hrow] at he
      obtain he | he := List.mem_append.1 he
      · exact h.dst old hold e he
      · rw [List.mem_singleton.1 he]
        exact hdst

theorem wellFormed_nil (graphId : Value) : WellFormed { graphId } :=
  ⟨rfl, List.nodup_nil, List.forall_mem_nil _, List.forall_mem_nil _, List.forall_mem_nil _,
    List.forall_mem_nil _⟩

theorem addNode_eq_ok {node : Node} (h : g.addNode node = .ok g') :
    node.id.hashable = true ∧ g' = g.putNode node := by
  obtain ⟨hhash, heq⟩ := Value.lookUp_eq_ok.1 h
  exact ⟨hhash, heq.symm⟩

theorem hasNode_eq_ok {id : Value} {b : Bool} (h : g.hasNode id = .ok b) :
    id.hashable = true ∧ g.contains id = b :=
  Value.lookUp_eq_ok.1 h

theorem addEdge_eq_ok {edge : Edge} (h : g.addEdge edge = .ok g') :
    edge.src.key ∈ g.keys ∧ edge.dst.key ∈ g.keys ∧ g' = g.putEdge edge := by
  unfold addEdge at h
  obtain ⟨known, hsrc, h⟩ := bind_eq_ok h
  cases known with
  | false => cases h
  | true =>
    obtain ⟨known', hdst, h⟩ := bind_eq_ok h
    cases known' with
    | false => cases h
    | true =>
      cases hout : g.out.contains edge.src with
      | false =>
        rw [hout] at h
        cases h
      | true =>
        rw [hout] at h
        cases h
        exact ⟨contains_iff_mem_keys.1 (hasNode_eq_ok hsrc).2,
          contains_iff_mem_keys.1 (hasNode_eq_ok hdst).2, rfl⟩

theorem WellFormed.addNode (h : g.WellFormed) {node : Node} (hadd : g.addNode node = .ok g') :
    g'.WellFormed := by
  obtain ⟨hhash, rfl⟩ := addNode_eq_ok hadd
  exact h.putNode hhash

theorem WellFormed.addEdge (h : g.WellFormed) {edge : Edge} (hadd : g.addEdge edge = .ok g') :
    g'.WellFormed := by
  obtain ⟨_, hdst, rfl⟩ := addEdge_eq_ok hadd
  exact h.putEdge hdst

theorem WellFormed.ensureNode (h : g.WellFormed) {id : Value} (hadd : g.ensureNode id = .ok g') :
    g'.WellFormed := by
  unfold MemoryGraph.ensureNode at hadd
  obtain ⟨known, _, hadd⟩ := bind_eq_ok hadd
  cases known with
  | true =>
    cases hadd
    exact h
  | false => exact h.addNode hadd

theorem WellFormed.link (h : g.WellFormed) {ends : Value} (hadd : g.link ends = .ok g') :
    g'.WellFormed := by
  unfold MemoryGraph.link at hadd
  obtain ⟨⟨src, dst⟩, _, hadd⟩ := bind_eq_ok hadd
  obtain ⟨g₁, h₁, hadd⟩ := bind_eq_ok hadd
  obtain ⟨g₂, h₂, hadd⟩ := bind_eq_ok hadd
  exact ((h.ensureNode h₁).ensureNode h₂).addEdge hadd

theorem WellFormed.foldlM {f : MemoryGraph → Value → Except Fault MemoryGraph}
    (hf : ∀ g v g', WellFormed g → f g v = .ok g' → g'.WellFormed)
    {vs : List Value} (h : g.WellFormed) (hfold : vs.foldlM f g = .ok g') : g'.WellFormed := by
  induction vs generalizing g with
  | nil =>
    cases hfold
    exact h
  | cons v vs ih =>
    rw [List.foldlM_cons] at hfold
    obtain ⟨g₁, hv, hfold⟩ := bind_eq_ok hfold
    exact ih (hf _ _ _ h hv) hfold

theorem ofEdges_wellFormed {graphId nodes edges : Value} (h : ofEdges graphId nodes edges = .ok g) :
    g.WellFormed := by
  unfold ofEdges at h
  obtain ⟨ids, _, h⟩ := bind_eq_ok h
  obtain ⟨g₁, hnodes, h⟩ := bind_eq_ok h
  obtain ⟨pairs, _, h⟩ := bind_eq_ok h
  have h₁ := (wellFormed_nil graphId).foldlM (fun _ _ _ h hadd => h.ensureNode hadd) hnodes
  exact h₁.foldlM (fun _ _ _ h hadd => h.link hadd) h

theorem WellFormed.importNodes (h : g.WellFormed) (merge : Bool) {nodes : List Node}
    (hnodes : ∀ node ∈ nodes, node.id.hashable = true) (stats : ImportStats) :
    (MemoryGraph.importNodes merge nodes g stats).1.WellFormed := by
  induction nodes generalizing g stats with
  | nil => exact h
  | cons node nodes ih =>
    have hrest : ∀ node ∈ nodes, node.id.hashable = true :=
      fun node hnode => hnodes node (List.mem_cons_of_mem _ hnode)
    unfold MemoryGraph.importNodes
    split
    · exact ih h hrest _
    · exact ih (h.putNode (hnodes node List.mem_cons_self)) hrest _

theorem WellFormed.importEdges (h : g.WellFormed) (existing : List (Key × Key × Key))
    (edges : List Edge) (stats : ImportStats) :
    (MemoryGraph.importEdges existing edges g stats).1.WellFormed := by
  induction edges generalizing g stats with
  | nil => exact h
  | cons edge edges ih =>
    unfold MemoryGraph.importEdges
    split
    · exact h
    · split
      · exact ih h _
      · split
        · exact h
        · exact ih (h.addEdge ‹_›) _

theorem readNode_hashable {entry : Value} {node : Node} (h : readNode entry = .ok node) :
    node.id.hashable = true := by
  unfold readNode at h
  obtain ⟨id, _, h⟩ := bind_eq_ok h
  obtain ⟨k, hhash, h⟩ := bind_eq_ok h
  cases h
  exact (Value.lookUp_eq_ok.1 hhash).1

theorem readDocument_hashable {entries : Dictionary Value} {present : List Key}
    {nodes : List Node} {edges : List Edge}
    (h : readDocument entries present = .ok (nodes, edges)) :
    ∀ node ∈ nodes, node.id.hashable = true := by
  intro node hnode
  unfold readDocument at h
  obtain ⟨nodeEntries, _, h⟩ := bind_eq_ok h
  obtain ⟨nodes', hnodes, h⟩ := bind_eq_ok h
  obtain ⟨edgeEntries, _, h⟩ := bind_eq_ok h
  obtain ⟨edges', _, h⟩ := bind_eq_ok h
  cases h
  obtain ⟨entry, hentry⟩ := exists_of_mem_mapM hnodes hnode
  exact readNode_hashable hentry

theorem prepareImport_hashable {entries : Dictionary Value} {merge : Bool} {nodes : List Node}
    {edges : List Edge} {existing : List (Key × Key × Key)}
    (h : g.prepareImport entries merge = .ok (nodes, edges, existing)) :
    ∀ node ∈ nodes, node.id.hashable = true := by
  unfold prepareImport at h
  obtain ⟨⟨nodes', edges'⟩, hread, h⟩ := bind_eq_ok h
  cases merge with
  | true =>
    obtain ⟨_, _, h⟩ := bind_eq_ok h
    cases h
    exact readDocument_hashable hread
  | false =>
    cases h
    exact readDocument_hashable hread

theorem WellFormed.importDocument (h : g.WellFormed) (document : Value) (merge : Bool) :
    (g.importDocument document merge).graph.WellFormed := by
  unfold MemoryGraph.importDocument
  split
  · split
    · exact h
    · rename_i nodes edges existing hprepare
      have hbase : (if merge then g else g.clear).WellFormed := by
        split
        · exact h
        · exact wellFormed_nil g.graphId
      have hnodes := hbase.importNodes merge (prepareImport_hashable hprepare) {}
      have hedges := hnodes.importEdges existing edges
        (MemoryGraph.importNodes merge nodes (if merge then g else g.clear) {}).2
      grind
  · exact h

theorem Reachable.wellFormed (h : g.Reachable) : g.WellFormed := by
  induction h with
  | empty graphId => exact wellFormed_nil graphId
  | ofEdges h => exact ofEdges_wellFormed h
  | addNode _ hadd ih => exact ih.addNode hadd
  | addEdge _ hadd ih => exact ih.addEdge hadd
  | importDocument document merge _ ih => exact ih.importDocument document merge

theorem isNode_toGraph {id : Value} : g.toGraph.IsNode id ↔ g.hasNode id = .ok true :=
  ⟨And.right, fun h => ⟨(hasNode_eq_ok h).1, h⟩⟩

theorem WellFormed.hashable_of_mem_keys (h : g.WellFormed) {id : Value} (hid : id.key ∈ g.keys) :
    id.hashable = true := by
  obtain ⟨name, hname, hkey⟩ := List.mem_map.1 hid
  rw [← Value.hashable_of_key_eq hkey]
  exact h.hashable name hname

theorem WellFormed.isNode_of_mem_keys (h : g.WellFormed) {id : Value} (hid : id.key ∈ g.keys) :
    g.toGraph.IsNode id :=
  isNode_toGraph.2
    (Value.lookUp_eq_ok.2 ⟨h.hashable_of_mem_keys hid, contains_iff_mem_keys.2 hid⟩)

theorem contains_congr {u v : Value} (h : u.key = v.key) : g.contains u = g.contains v := by
  rw [Bool.eq_iff_iff, contains_iff_mem_keys, contains_iff_mem_keys, h]

theorem outEdges_congr {u v : Value} (h : u.key = v.key) : g.outEdges u = g.outEdges v := by
  unfold outEdges Value.lookUp
  rw [Table.find?_congr h, Value.hashable_of_key_eq h]

theorem WellFormed.outEdges_of_mem (h : g.WellFormed) {row : Value × List Edge}
    (hrow : row ∈ g.out.rows) : g.outEdges row.1 = .ok row.2 := by
  have hkeys : (g.out.keys.map Value.key).Nodup := by
    rw [h.aligned]
    exact h.nodup
  have hmem : row.1 ∈ g.nodeIds := by
    rw [nodeIds, ← h.aligned]
    exact List.mem_map_of_mem hrow
  apply Value.lookUp_eq_ok.2
  exact ⟨h.hashable _ hmem, by rw [Table.find?_of_mem hkeys hrow, Option.getD_some]⟩

theorem WellFormed.mapM_outEdges (h : g.WellFormed) :
    g.nodeIds.mapM g.outEdges = .ok g.out.values := by
  rw [nodeIds, ← h.aligned, Table.keys, List.mapM_map]
  exact mapM_eq_ok fun row hrow => h.outEdges_of_mem hrow

theorem toGraph_outEdges {u : Value} {edges : List Edge} (h : g.outEdges u = .ok edges) :
    g.toGraph.outEdges u = .ok (edges.map .ok) := by
  simp only [toGraph, h]
  rfl

theorem WellFormed.closed (h : g.WellFormed) : g.toGraph.Closed := by
  intro u hu
  have hout : g.outEdges u = .ok ((g.out.find? u).getD []) := Value.lookUp_eq_ok.2 ⟨hu.1, rfl⟩
  refine ⟨_, toGraph_outEdges hout, fun e he => ?_⟩
  cases hfind : g.out.find? u with
  | none => simp [hfind] at he
  | some edges =>
    rw [hfind] at he
    obtain ⟨id, hrow, _⟩ := Table.mem_of_find? hfind
    exact h.isNode_of_mem_keys (h.dst _ hrow e he)

theorem respectsKeys_toGraph : g.toGraph.RespectsKeys := by
  intro u v huv
  have hout : g.toGraph.outEdges u = g.toGraph.outEdges v := by
    simp only [toGraph, outEdges_congr huv]
  simp only [Graph.edgesOut, hout]

def listing (nodes edges : List Value) : Value :=
  .dictionary (.of ["edges", "nodes"] [.list edges, .list nodes])

def nameEntry (id : Value) : Value := .dictionary (.of ["node_id"] [id])
def nodeEntry (id kind : Value) : Value := .dictionary (.of ["kind", "node_id"] [kind, id])
def edgeEntry (src dst : Value) : Value := .dictionary (.of ["dst", "src"] [dst, src])

end MemoryGraph

end FlowPaths
