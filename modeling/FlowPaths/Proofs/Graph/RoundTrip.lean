import FlowPaths.Proofs.Graph.Loading

/-!
Graphs in memory through a document and back.  A document lists the records of the nodes and the
edges of all nodes in a row, and names no node but by its record; reading it puts the same records
and edges back in the same places, though a node may now go by another one of its equal names.
-/

namespace FlowPaths

namespace Table

variable {α : Type} {t t' : Table α}

def keyed (t : Table α) : List (Key × α) := t.rows.map fun row => (row.1.key, row.2)

theorem map_key_keys (t : Table α) : t.keys.map Value.key = t.keyed.map Prod.fst := by
  simp [keys, keyed]

theorem values_eq (t : Table α) : t.values = t.keyed.map Prod.snd := by
  simp [values, keyed, Function.comp_def]

theorem find?_eq (t : Table α) (k : Value) :
    t.find? k = (t.keyed.find? fun row => row.1 = k.key).map Prod.snd := by
  have hsame : (fun row : Value × α => row.1.same k) = fun row => decide (row.1.key = k.key) := by
    funext row
    rw [Bool.eq_iff_iff, Value.same_iff, decide_eq_true_iff]
  rw [find?, keyed, List.find?_map, hsame, Option.map_map]
  rfl

end Table

namespace MemoryGraph

variable {g g' : MemoryGraph}

structure Same (g g' : MemoryGraph) : Prop where
  records : g.records.keyed = g'.records.keyed
  out : g.out.keyed = g'.out.keyed

namespace Same

variable (h : g.Same g')

include h

theorem map_key_nodeIds : g.nodeIds.map Value.key = g'.nodeIds.map Value.key := by
  rw [nodeIds, nodeIds, Table.map_key_keys, Table.map_key_keys, h.records]

theorem nodes_eq : g.nodes = g'.nodes := by
  rw [nodes, nodes, Table.values_eq, Table.values_eq, h.records]

theorem edges_eq : g.edges = g'.edges := by
  rw [edges, edges, Table.values_eq, Table.values_eq, h.out]

theorem getNode_eq (id : Value) : g.getNode id = g'.getNode id := by
  rw [getNode, getNode, Table.find?_eq, Table.find?_eq, h.records]

theorem outEdges_eq (id : Value) : g.outEdges id = g'.outEdges id := by
  rw [outEdges, outEdges, Table.find?_eq, Table.find?_eq, h.out]

end Same

theorem WellFormed.renamed_same (h : g.WellFormed) (graphId : Value) :
    (g.renamed graphId).Same g where
  records := by
    simp only [renamed, Table.keyed, nodes, Table.values, List.map_map]
    apply List.map_congr_left
    intro row hrow
    exact Prod.ext (h.node row hrow) rfl
  out := by
    let entry (id : Value) : Key × List Edge := (id.key, (g.out.find? id).getD [])
    have hnames : g.records.keys.map entry = g.out.keys.map entry := by rw [h.aligned]
    calc
      (g.renamed graphId).out.keyed = g.records.rows.map fun row => entry row.2.id := by
        simp only [renamed, Table.keyed, nodes, Table.values, List.map_map]
        rfl
      _ = g.records.rows.map fun row => entry row.1 := by
        apply List.map_congr_left
        intro row hrow
        simp only [entry, h.node row hrow, Table.find?_congr (h.node row hrow)]
      _ = g.out.rows.map fun row => entry row.1 := by
        rw [Table.keys, Table.keys, List.map_map, List.map_map] at hnames
        exact hnames
      _ = g.out.keyed := by
        apply List.map_congr_left
        intro row hrow
        simp only [entry, h.find?_out hrow, Option.getD_some]

theorem checkEndpoint_eq_ok {known : List Key} {id : Value} :
    checkEndpoint known id = .ok () ↔ id.hashable = true ∧ id.key ∈ known := by
  simp only [checkEndpoint, Value.hash, Value.lookUp]
  split
  · rename_i hhash
    by_cases hmem : id.key ∈ known
    · simp [hhash, hmem, bind, Except.bind, pure, Except.pure]
    · simp [hhash, hmem, bind, Except.bind, throw, throwThe, MonadExceptOf.throw]
  · rename_i hhash
    simp [hhash, bind, Except.bind]

theorem readEdge_eq_ok {known : List Key} {entry : Value} {edge : Edge} :
    readEdge known entry = .ok edge ↔
      entry.field "src" = .ok edge.src ∧ entry.field "dst" = .ok edge.dst ∧
        entry.label "kind" = edge.kind ∧ checkEndpoint known edge.src = .ok () ∧
        checkEndpoint known edge.dst = .ok () := by
  constructor
  · intro h
    obtain ⟨src, hsrc, h⟩ := bind_eq_ok h
    obtain ⟨dst, hdst, h⟩ := bind_eq_ok h
    obtain ⟨_, hs, h⟩ := bind_eq_ok h
    obtain ⟨_, hd, h⟩ := bind_eq_ok h
    cases h
    exact ⟨hsrc, hdst, rfl, hs, hd⟩
  · obtain ⟨src, dst, kind⟩ := edge
    rintro ⟨hsrc, hdst, rfl, hs, hd⟩
    simp only [readEdge, hsrc, hdst]
    change checkEndpoint known src >>= (fun _ => checkEndpoint known dst >>= _) = _
    rw [hs, hd]
    rfl

theorem readNode_toDocument {node : Node} (h : node.id.hashable = true) :
    readNode node.toDocument = .ok node := by
  have hfield : node.toDocument.field "node_id" = .ok node.id := rfl
  have hhash : node.id.hash = .ok node.id.key := Value.lookUp_eq_ok.2 ⟨h, rfl⟩
  rw [readNode, hfield]
  change node.id.hash >>= _ = _
  rw [hhash]
  rfl

section

variable (h : g.WellFormed)

include h

theorem WellFormed.hashable_node {node : Node} (hnode : node ∈ g.nodes) :
    node.id.hashable = true := by
  apply h.hashable_of_mem_keys
  rw [← h.map_key_nodes]
  exact List.mem_map_of_mem hnode

theorem WellFormed.hashable_edge {edge : Edge} (hedge : edge ∈ g.edges)
    (hkind : edge.kind.hashable = true) : edge.hashable = true := by
  obtain ⟨hsrc, hdst⟩ := h.ends_mem_keys hedge
  simp [Edge.hashable, h.hashable_of_mem_keys hsrc, h.hashable_of_mem_keys hdst, hkind]

theorem WellFormed.readDocument_toDocument (time : Value) (present : List Key) :
    ∃ entries, g.toDocument time = .dictionary entries ∧ versionEvents entries = [] ∧
      readDocument entries present = .ok (g.nodes, g.edges) := by
  have hnodes : (g.nodes.map Node.toDocument).mapM readNode = .ok g.nodes := by
    rw [List.mapM_map, mapM_eq_ok (h := id), List.map_id]
    exact fun node hnode => readNode_toDocument (h.hashable_node hnode)
  have hedges : (g.edges.map Edge.toDocument).mapM
      (readEdge (g.nodes.map (·.id.key) ++ present)) = .ok g.edges := by
    rw [List.mapM_map, mapM_eq_ok (h := id), List.map_id]
    intro edge hedge
    have hend : ∀ id : Value, id.key ∈ g.keys →
        checkEndpoint (g.nodes.map (·.id.key) ++ present) id = .ok () := by
      intro id hid
      rw [h.map_key_nodes]
      exact checkEndpoint_eq_ok.2 ⟨h.hashable_of_mem_keys hid, List.mem_append_left _ hid⟩
    obtain ⟨hsrc, hdst⟩ := h.ends_mem_keys hedge
    exact readEdge_eq_ok.2 ⟨rfl, rfl, rfl, hend _ hsrc, hend _ hdst⟩
  refine ⟨_, rfl, rfl, ?_⟩
  change ((g.nodes.map Node.toDocument).mapM readNode >>= fun nodes =>
    (g.edges.map Edge.toDocument).mapM (readEdge (nodes.map (·.id.key) ++ present)) >>= _) = _
  rw [hnodes]
  change ((g.edges.map Edge.toDocument).mapM
    (readEdge (g.nodes.map (·.id.key) ++ present)) >>= _) = _
  rw [hedges]
  rfl

theorem WellFormed.addEdge_of_mem_keys {edge : Edge} (hsrc : edge.src.key ∈ g.keys)
    (hdst : edge.dst.key ∈ g.keys) : g.addEdge edge = .ok (g.putEdge edge) := by
  have hhas : ∀ id : Value, id.key ∈ g.keys → g.hasNode id = .ok true := fun id hid =>
    (h.isNode_of_mem_keys hid).2
  have hout : g.out.contains edge.src = true := by
    rw [h.contains_out]
    exact contains_iff_mem_keys.2 hsrc
  simp only [MemoryGraph.addEdge, hhas _ hsrc, hhas _ hdst, hout]
  rfl

end

theorem importNodes_false (nodes : List Node) (g : MemoryGraph) (stats : ImportStats) :
    importNodes false nodes g stats = (nodes.foldl putNode g,
      { stats with nodesImported := stats.nodesImported + nodes.length }) := by
  induction nodes generalizing g stats with
  | nil => rfl
  | cons node nodes ih =>
    simp only [importNodes, Bool.false_and, Bool.false_eq_true, if_false, ih, List.foldl_cons,
      List.length_cons]
    congr 2
    omega

theorem WellFormed.importEdges_eq (h : g.WellFormed) (existing : List (Key × Key × Key))
    {edges : List Edge} (hhash : ∀ edge ∈ edges, edge.hashable = true)
    (hends : ∀ edge ∈ edges, edge.src.key ∈ g.keys ∧ edge.dst.key ∈ g.keys) (stats : ImportStats) :
    MemoryGraph.importEdges existing edges g stats =
      ((edges.filter fun edge => !existing.contains edge.key).foldl MemoryGraph.putEdge g,
        .ok { stats with
          edgesImported := stats.edgesImported +
            edges.countP fun edge => !existing.contains edge.key
          skipped := stats.skipped + edges.countP fun edge => existing.contains edge.key }) := by
  induction edges generalizing g stats with
  | nil => rfl
  | cons edge edges ih =>
    rw [List.forall_mem_cons] at hhash hends
    cases hold : existing.contains edge.key with
    | true =>
      simp only [MemoryGraph.importEdges, hhash.1, hold, ih h hhash.2 hends.2, List.filter_cons,
        List.countP_cons]
      simp [Nat.add_right_comm _ 1, Nat.add_assoc]
    | false =>
      have hput := h.addEdge_of_mem_keys hends.1.1 hends.1.2
      simp only [MemoryGraph.importEdges, hhash.1, hold, hput,
        ih (h.putEdge hends.1.2) hhash.2 hends.2, List.filter_cons, List.countP_cons]
      simp [Nat.add_right_comm _ 1, Nat.add_assoc]

theorem importDocument_eq {entries : Dictionary Value} {merge : Bool} {nodes : List Node}
    {edges : List Edge} {existing : List (Key × Key × Key)} {g₁ g₂ : MemoryGraph}
    {stats₁ stats : ImportStats}
    (hprepare : g.prepareImport entries merge = .ok (nodes, edges, existing))
    (hnodes : importNodes merge nodes (if merge then g else g.clear) {} = (g₁, stats₁))
    (hedges : importEdges existing edges g₁ stats₁ = (g₂, .ok stats)) :
    g.importDocument (.dictionary entries) merge =
      ⟨g₂, versionEvents entries ++
        [.imported stats.nodesImported stats.edgesImported g₂.graphId], .ok stats⟩ := by
  simp only [importDocument, hprepare, hnodes, hedges]

theorem nodeCount_eq_length_nodes (g : MemoryGraph) : g.nodeCount = g.nodes.length := by
  simp [nodeCount, nodes, Table.values]

theorem nodeCount_eq_length_nodeIds (g : MemoryGraph) : g.nodeCount = g.nodeIds.length :=
  (List.length_map ..).symm

theorem WellFormed.importDocument_toDocument (h : g.WellFormed)
    (hkinds : ∀ edge ∈ g.edges, edge.kind.hashable = true) (m : MemoryGraph) (time : Value) :
    m.importDocument (g.toDocument time) false =
      ⟨g.renamed m.graphId, [.imported g.nodeCount g.edgeCount m.graphId],
        .ok ⟨g.nodeCount, g.edgeCount, 0⟩⟩ := by
  obtain ⟨entries, hentries, hevents, hread⟩ := h.readDocument_toDocument time []
  have hprepare : m.prepareImport entries false = .ok (g.nodes, g.edges, []) := by
    simp only [prepareImport, Bool.false_eq_true, if_false, hread]
    rfl
  have hnodes := importNodes_false g.nodes m.clear {}
  have hmade := (wellFormed_nil m.graphId).importNodes false (fun _ => h.hashable_node) {}
  rw [importNodes_false] at hmade
  -- The edges join nodes of the new graph, which has them under the same keys.
  have hkeys : (g.nodes.foldl MemoryGraph.putNode { graphId := m.graphId }).keys = g.keys := by
    have hsame := (h.renamed_same m.graphId).map_key_nodeIds
    rw [← h.rebuild, foldl_putEdge] at hsame
    exact hsame
  have hedges := hmade.importEdges_eq []
    (fun edge hedge => h.hashable_edge hedge (hkinds edge hedge))
    (fun edge hedge => hkeys ▸ h.ends_mem_keys hedge) { nodesImported := 0 + g.nodes.length }
  simp only [List.contains_nil, Bool.not_false, List.filter_true, h.rebuild, List.countP_true,
    List.countP_false] at hedges
  rw [hentries, importDocument_eq hprepare hnodes hedges, hevents, nodeCount_eq_length_nodes,
    edgeCount_eq_length_edges]
  simp [renamed]

/-- A graph that has been exported and imported again, be it into itself or into any other graph in
memory, comes back: the same names in the same order, each with its record and its edges, and the
same document.  A name is that of the record, which equals the one the node was first added by. -/
theorem Reachable.importDocument_roundTrip (hg : g.Reachable)
    (hkinds : ∀ edge ∈ g.edges, edge.kind.hashable = true) (m : MemoryGraph) (time : Value) :
    let outcome := m.importDocument (g.toDocument time) false
    outcome.result =
        .ok { nodesImported := g.nodeCount, edgesImported := g.edgeCount, skipped := 0 } ∧
      outcome.graph.nodeIds.map Value.key = g.nodeIds.map Value.key ∧
      outcome.graph.nodeIds = g.nodes.map Node.id ∧
      (∀ id, outcome.graph.getNode id = g.getNode id ∧
        outcome.graph.outEdges id = g.outEdges id) ∧
      ∀ again, (outcome.graph.toDocument again).field "nodes" = (g.toDocument time).field "nodes" ∧
        (outcome.graph.toDocument again).field "edges" = (g.toDocument time).field "edges" := by
  intro outcome
  have houtcome := hg.wellFormed.importDocument_toDocument hkinds m time
  have hsame : outcome.graph.Same g := by
    simp only [outcome, houtcome]
    exact hg.wellFormed.renamed_same m.graphId
  have hnodes : ∀ again, (outcome.graph.toDocument again).field "nodes" =
      .ok (.list (outcome.graph.nodes.map Node.toDocument)) := fun _ => rfl
  have hedges : ∀ again, (outcome.graph.toDocument again).field "edges" =
      .ok (.list (outcome.graph.edges.map Edge.toDocument)) := fun _ => rfl
  refine ⟨?_, hsame.map_key_nodeIds, ?_, fun id => ⟨hsame.getNode_eq id, hsame.outEdges_eq id⟩, ?_⟩
  · simp only [outcome, houtcome]
  · simp only [outcome, houtcome, renamed, nodeIds, Table.keys, List.map_map]
    rfl
  · intro again
    rw [hnodes, hedges, hsame.nodes_eq, hsame.edges_eq]
    exact ⟨rfl, rfl⟩

def aliased : MemoryGraph :=
  let one : Value := .int 1
  let truth : Value := .num (.flag true)
  { records := ⟨[(one, { id := truth, kind := .text "Call" }), (.text "a", { id := .text "a" }),
      (.text "b", { id := .text "b" })]⟩
    out := ⟨[(one, [{ src := truth, dst := .text "a" }, { src := one, dst := .text "a" }]),
      (.text "a", [{ src := .text "a", dst := truth, kind := .tuple [one] }]), (.text "b", [])]⟩ }

theorem aliased_reachable : aliased.Reachable := by
  let one : Value := .int 1
  let truth : Value := .num (.flag true)
  have h := Reachable.empty (.text "in_memory")
  have h := @Reachable.addNode _ { id := one } _ h rfl
  have h := @Reachable.addNode _ { id := .text "a" } _ h rfl
  have h := @Reachable.addEdge _ { src := truth, dst := .text "a" } _ h rfl
  have h := @Reachable.addEdge _ { src := .text "a", dst := truth, kind := .tuple [one] } _ h rfl
  have h := @Reachable.addNode _ { id := truth, kind := .text "Call" } _ h rfl
  have h := @Reachable.addEdge _ { src := one, dst := .text "a" } _ h rfl
  exact @Reachable.addNode _ { id := .text "b" } _ h rfl

theorem aliased_kinds : ∀ edge ∈ aliased.edges, edge.kind.hashable = true := by decide

theorem importDocument_aliased_roundTrip :
    let outcome := aliased.importDocument (aliased.toDocument .null) false
    aliased.Reachable ∧ (∀ edge ∈ aliased.edges, edge.kind.hashable = true) ∧
      outcome.result = .ok { nodesImported := 3, edgesImported := 3, skipped := 0 } ∧
      outcome.graph.nodeIds = [.num (.flag true), .text "a", .text "b"] ∧
      outcome.graph.getNode (.int 1) = aliased.getNode (.int 1) ∧
      outcome.graph.outEdges (.int 1) = aliased.outEdges (.int 1) ∧
      (outcome.graph.toDocument .null).field "edges" =
        (aliased.toDocument .null).field "edges" := by
  intro outcome
  obtain ⟨hresult, _, hids, hanswers, hdocument⟩ :=
    aliased_reachable.importDocument_roundTrip aliased_kinds aliased .null
  exact ⟨aliased_reachable, aliased_kinds, hresult, hids, (hanswers _).1, (hanswers _).2,
    (hdocument _).2⟩

end MemoryGraph

end FlowPaths
