import FlowPaths.Proofs.Graph.Loading

/-!
What a graph answers after nodes and edges have been put into it.  A node that is put again takes a
new record and nothing else; an edge joins the others of its source, and is counted once.
-/

namespace FlowPaths

theorem Value.lookUp_map {α β : Type} (v : Value) (a : α) (f : α → β) :
    (v.lookUp a).map f = v.lookUp (f a) := by
  unfold lookUp
  split <;> rfl

namespace Table

variable {α β : Type} {t : Table α} {k k' : Value}

theorem find?_map {f : Value → α → β} (hf : ∀ id : Value, id.key = k.key → f id = f k) :
    (⟨t.rows.map fun row => (row.1, f row.1 row.2)⟩ : Table β).find? k = (t.find? k).map (f k) := by
  simp only [find?, List.find?_map, Option.map_map, Function.comp_def]
  cases hrow : t.rows.find? (fun row => row.1.same k) with
  | none => rfl
  | some row =>
    have hsame := List.find?_some hrow
    simp only [Option.map_some, hf row.1 ((Value.same_iff _ _).1 hsame)]

theorem find?_modify (f : α → α) :
    (t.modify k f).find? k' = if k.same k' then (t.find? k').map f else t.find? k' := by
  have hrows : t.modify k f =
      ⟨t.rows.map fun row => (row.1, if row.1.same k then f row.2 else row.2)⟩ := by
    unfold modify
    congr 2
    funext row
    split <;> rfl
  rw [hrows, find?_map (f := fun id a => if id.same k then f a else a), Value.same_comm k']
  · cases k.same k' with
    | true => rfl
    | false => exact Option.map_id'
  · intro id hid
    rw [Value.same_congr hid]

theorem find?_concat (a : α) : (⟨t.rows ++ [(k, a)]⟩ : Table α).find? k' =
    (t.find? k').or (if k.same k' then some a else none) := by
  simp only [find?, List.find?_append, List.find?_singleton, Option.map_or]
  split <;> rfl

theorem find?_set (a : α) :
    (t.set k a).find? k' = if k.same k' then some a else t.find? k' := by
  have hcongr : k.same k' = true → t.find? k' = t.find? k := fun hsame =>
    find?_congr ((Value.same_iff _ _).1 hsame).symm
  cases hcontains : t.contains k with
  | true =>
    rw [set, if_pos hcontains, find?_modify]
    cases hsame : k.same k' with
    | true =>
      obtain ⟨b, hb⟩ := exists_find? hcontains
      rw [if_pos rfl, if_pos rfl, hcongr hsame, hb, Option.map_some]
    | false => rfl
  | false =>
    rw [set_of_not_contains hcontains, find?_concat]
    cases hsame : k.same k' with
    | true =>
      rw [hcongr hsame, find?_eq_none hcontains]
      rfl
    | false => exact Option.or_none

end Table

namespace MemoryGraph

variable {g : MemoryGraph} {id : Value}

theorem mem_keys_putNode_iff {node : Node} {k : Key} :
    k ∈ (g.putNode node).keys ↔ k ∈ g.keys ∨ k = node.id.key := by
  rw [keys_putNode]
  split
  · rename_i hthere
    refine ⟨.inl, fun hk => hk.elim (fun hk => hk) fun hkey => ?_⟩
    rw [hkey]
    exact contains_iff_mem_keys.1 hthere
  · rw [List.mem_append, List.mem_singleton]

theorem contains_putNode (node : Node) :
    (g.putNode node).contains id = (g.contains id || id.same node.id) := by
  rw [Bool.eq_iff_iff, Bool.or_eq_true, contains_iff_mem_keys, contains_iff_mem_keys,
    mem_keys_putNode_iff, Value.same_iff]

theorem find?_records_putNode (node : Node) :
    (g.putNode node).records.find? id =
      if node.id.same id then some node else g.records.find? id :=
  Table.find?_set node

theorem find?_foldl_putNode (nodes : List Node) (g : MemoryGraph) (id : Value) :
    (nodes.foldl putNode g).records.find? id =
      (nodes.reverse.find? fun node => node.id.same id).or (g.records.find? id) := by
  induction nodes generalizing g with
  | nil => rfl
  | cons node nodes ih =>
    rw [List.foldl_cons, ih, find?_records_putNode, List.reverse_cons, List.find?_append,
      List.find?_singleton, Option.or_assoc]
    congr 1
    cases node.id.same id <;> rfl

theorem WellFormed.outEdges_putNode (h : g.WellFormed) (node : Node) :
    (g.putNode node).outEdges id = g.outEdges id := by
  simp only [MemoryGraph.outEdges, MemoryGraph.putNode]
  cases hthere : g.contains node.id with
  | true => rfl
  | false =>
    have hout : g.out.contains node.id = false := (h.contains_out node.id).trans hthere
    rw [if_neg Bool.false_ne_true, Table.find?_set]
    cases hsame : node.id.same id with
    | true =>
      rw [← Table.find?_congr ((Value.same_iff _ _).1 hsame), Table.find?_eq_none hout]
      rfl
    | false => rfl

theorem WellFormed.edges_putNode (h : g.WellFormed) (node : Node) :
    (g.putNode node).edges = g.edges := by
  simp only [MemoryGraph.edges, MemoryGraph.putNode]
  split
  · rfl
  · rename_i hnew
    have hout : g.out.contains node.id = false := by
      rw [h.contains_out, ← Bool.not_eq_true]
      exact hnew
    simp [Table.set_of_not_contains hout, Table.values]

theorem nodeIds_foldl_putEdge (edges : List Edge) (g : MemoryGraph) :
    (edges.foldl MemoryGraph.putEdge g).nodeIds = g.nodeIds := by
  rw [foldl_putEdge]
  rfl

theorem getNode_foldl_putEdge (edges : List Edge) (g : MemoryGraph) (id : Value) :
    (edges.foldl MemoryGraph.putEdge g).getNode id = g.getNode id := by
  rw [foldl_putEdge]
  rfl

theorem WellFormed.outEdges_foldl_putEdge (h : g.WellFormed) {edges : List Edge}
    (hsrc : ∀ edge ∈ edges, edge.src.key ∈ g.keys) :
    (edges.foldl MemoryGraph.putEdge g).outEdges id =
      (g.outEdges id).map (· ++ edges.filter fun edge => edge.src.same id) := by
  simp only [Value.same_comm _ id]
  rw [foldl_putEdge, MemoryGraph.outEdges, MemoryGraph.outEdges, Value.lookUp_map,
    Table.find?_map (f := fun id' out => out ++ edges.filter fun edge => id'.same edge.src)]
  · cases hfind : g.out.find? id with
    | some out => rfl
    | none =>
      -- A name without a row is no node, so that no edge leaves it.
      have hnone : (edges.filter fun edge => id.same edge.src) = [] := by
        rw [List.filter_eq_nil_iff]
        intro edge hedge hleaves
        have hmem := hsrc edge hedge
        rw [← (Value.same_iff _ _).1 hleaves, ← contains_iff_mem_keys, ← h.contains_out,
          ← Table.isSome_find?, hfind] at hmem
        cases hmem
      rw [hnone]
      rfl
  · intro id' hid'
    rw [Value.same_congr hid']

theorem WellFormed.edges_foldl_putEdge_perm (h : g.WellFormed) {edges : List Edge}
    (hsrc : ∀ edge ∈ edges, edge.src.key ∈ g.keys) :
    (edges.foldl MemoryGraph.putEdge g).edges.Perm (g.edges ++ edges) := by
  have hgroups : (g.out.rows.flatMap fun row => edges.filter fun edge => row.1.same edge.src).Perm
      edges := by
    have hkeys : (g.out.rows.map fun row => row.1.key) = g.keys := by
      rw [keys, nodeIds, ← h.aligned, Table.keys, List.map_map]
      rfl
    have hperm : (g.keys.flatMap fun k => edges.filter fun edge => edge.src.key = k).Perm edges :=
      flatMap_filter_perm h.nodup hsrc
    rw [← hkeys, List.flatMap_map] at hperm
    refine Eq.subst (motive := fun grouped => List.Perm grouped edges) ?_ hperm
    apply List.flatMap_congr
    intro row _
    apply List.filter_congr
    intro edge _
    rw [Bool.eq_iff_iff, Value.same_iff, decide_eq_true_iff, eq_comm]
  rw [foldl_putEdge, MemoryGraph.edges, MemoryGraph.edges, Table.values, Table.values, List.map_map,
    ← List.flatMap_def, ← List.flatMap_def]
  exact (List.flatMap_append_perm _ _ _).symm.trans (hgroups.append_left _)

end MemoryGraph

end FlowPaths
