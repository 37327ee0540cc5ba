import FlowPaths.Proofs.Graph.Replacement

/-!
Imports that merge.  What the graph has stays where and as it is; what it has not goes behind, and
the statistics say by how much the graph has grown.
-/

namespace FlowPaths.MemoryGraph

variable {g : MemoryGraph} {document : Value}

theorem find?_importNodes_true (nodes : List Node) (g : MemoryGraph) (stats : ImportStats)
    (id : Value) : (importNodes true nodes g stats).1.records.find? id =
      (g.records.find? id).or (nodes.find? fun node => node.id.same id) := by
  induction nodes generalizing g stats with
  | nil => rw [importNodes, List.find?_nil, Option.or_none]
  | cons node nodes ih =>
    rw [importNodes, Bool.true_and, List.find?_cons]
    -- Only a node of this name bears on it, and then only if the graph has none.
    cases hsame : node.id.same id with
    | false =>
      split
      · rw [ih]
      · rw [ih, find?_records_putNode, hsame, if_neg Bool.false_ne_true]
    | true =>
      rw [contains_congr ((Value.same_iff _ _).1 hsame)]
      cases hthere : g.contains id with
      | true =>
        obtain ⟨record, hrecord⟩ := Table.exists_find? hthere
        rw [if_pos rfl, ih, hrecord, Option.some_or, Option.some_or]
      | false =>
        rw [if_neg Bool.false_ne_true, ih, find?_records_putNode, hsame, if_pos rfl,
          Table.find?_eq_none hthere, Option.some_or, Option.none_or]

theorem nodeCount_putNode {node : Node} (h : g.contains node.id = false) :
    (g.putNode node).nodeCount = g.nodeCount + 1 := by
  rw [nodeCount_eq_length_nodeIds, nodeCount_eq_length_nodeIds, nodeIds_putNode, h,
    if_neg Bool.false_ne_true, List.length_append, List.length_singleton]

theorem importNodes_true_counts (nodes : List Node) (g : MemoryGraph) (stats : ImportStats) :
    let filled := importNodes true nodes g stats
    filled.1.nodeCount + stats.nodesImported = g.nodeCount + filled.2.nodesImported ∧
      filled.2.nodesImported + filled.2.skipped =
        stats.nodesImported + stats.skipped + nodes.length ∧
      filled.2.edgesImported = stats.edgesImported := by
  induction nodes generalizing g stats with
  | nil => exact ⟨rfl, rfl, rfl⟩
  | cons node nodes ih =>
    rw [importNodes, Bool.true_and, List.length_cons]
    cases hthere : g.contains node.id with
    | true =>
      obtain ⟨hcount, htotal, hedges⟩ := ih g { stats with skipped := stats.skipped + 1 }
      dsimp only at htotal
      rw [if_pos rfl]
      exact ⟨hcount, by omega, hedges⟩
    | false =>
      obtain ⟨hcount, htotal, hedges⟩ :=
        ih (g.putNode node) { stats with nodesImported := stats.nodesImported + 1 }
      rw [nodeCount_putNode hthere] at hcount
      dsimp only at hcount htotal
      rw [if_neg Bool.false_ne_true]
      exact ⟨by omega, by omega, hedges⟩

theorem Accepts.getNode_merged (h : g.Accepts document true) (hg : g.WellFormed)
    (hkinds : ∀ edge ∈ edgesOf document, edge.kind.hashable = true) (id : Value) :
    (g.importDocument document true).graph.getNode id =
      id.lookUp ((g.records.find? id).or
        ((nodesOf document).find? fun node => node.id.same id)) := by
  rw [h.getNode_importDocument hg hkinds, getNode, find?_importNodes_true]
  rfl

theorem Accepts.edgeCount_merged (h : g.Accepts document true) (hg : g.WellFormed)
    (hkinds : ∀ edge ∈ edgesOf document, edge.kind.hashable = true) :
    (g.importDocument document true).graph.edgeCount = g.edgeCount +
      (edgesOf document).countP fun edge => !(g.held true).contains edge.key := by
  rw [edgeCount_eq_length_edges, edgeCount_eq_length_edges, List.countP_eq_length_filter,
    (h.edges_importDocument_perm hg hkinds).length_eq, List.length_append]
  rfl

/-- A merge fails only because something is missing, and then leaves the graph as it was.  Otherwise
what the graph has keeps its place and its record, new names come behind in the order in which they
first come up, with their first record, and edges come behind unless the graph had an equal one. -/
theorem Reachable.importDocument_merges (hg : g.Reachable)
    (hedges : ∀ edge ∈ g.edges, edge.kind.hashable = true) (h : Tabular document) :
    let outcome := g.importDocument document true
    ((∃ fault, outcome.result = .error fault) ↔ Incomplete document g.keys) ∧
      (∀ fault, outcome.result = .error fault → fault.kind = .lookup ∧ outcome.graph = g) ∧
      ∀ stats, outcome.result = .ok stats →
        outcome.graph.nodeIds = g.nodeIds ++
          (((nodesOf document).map Node.id).filter fun id => !g.contains id).eraseDupsBy
            Value.same ∧
        (∀ id, g.contains id = true → outcome.graph.getNode id = g.getNode id) ∧
        (∀ id, g.contains id = false → outcome.graph.getNode id =
          id.lookUp ((nodesOf document).find? fun node => node.id.same id)) ∧
        (∀ id, outcome.graph.outEdges id = (g.outEdges id).map
          (· ++ (edgesOf document).filter fun edge =>
            edge.src.same id && !(g.edges.map Edge.key).contains edge.key)) ∧
        outcome.graph.nodeCount = g.nodeCount + stats.nodesImported ∧
        outcome.graph.edgeCount = g.edgeCount + stats.edgesImported ∧
        stats.nodesImported + stats.edgesImported + stats.skipped =
          (listed document "nodes").length + (listed document "edges").length := by
  intro outcome
  have hbase : (g.base true).WellFormed := hg.wellFormed
  have hhash : ∀ edge ∈ g.edges, edge.hashable = true := fun edge hedge =>
    hg.wellFormed.hashable_edge hedge (hedges edge hedge)
  obtain ⟨hfails, hfault⟩ := h.importDocument_error (fun _ : true = true => hbase) fun _ => hhash
  refine ⟨hfails, hfault, fun stats hok => ?_⟩
  have haccepts := accepts_of_ok hok
  have hkinds : ∀ edge ∈ edgesOf document, edge.kind.hashable = true := fun _ => h.hashable_kind
  have hrecord := haccepts.getNode_merged hbase hkinds
  have hgrown := haccepts.edgeCount_merged hbase hkinds
  obtain ⟨hgraph, hresult⟩ := haccepts.importDocument_ok hbase hkinds
  obtain ⟨hnodes, hentries, hnone⟩ := importNodes_true_counts (nodesOf document) g {}
  cases hok.symm.trans hresult
  refine ⟨haccepts.nodeIds_importDocument hbase hkinds, fun id hthere => ?_, fun id hthere => ?_,
    haccepts.outEdges_importDocument hbase hkinds, ?_, ?_, ?_⟩
  · obtain ⟨node, hnode⟩ := Table.exists_find? hthere
    rw [hrecord, getNode, hnode, Option.some_or]
  · rw [hrecord, Table.find?_eq_none hthere, Option.none_or]
  · rw [hgraph, nodeCount_eq_length_nodeIds, nodeIds_foldl_putEdge, ← nodeCount_eq_length_nodeIds]
    exact hnodes
  · dsimp only [base]
    rw [hgrown, if_pos rfl, hnone, Nat.zero_add]
  · have hsplit := List.length_eq_countP_add_countP (l := edgesOf document)
      fun edge => (g.held true).contains edge.key
    simp only [Bool.not_eq_true, Bool.decide_eq_false] at hsplit
    rw [← length_nodesOf, ← length_edgesOf]
    dsimp only [base] at hentries hnone ⊢
    rw [if_pos rfl]
    omega

def unfinished : Value :=
  let d : Value := .text "d"
  listing [nameEntry d] [.dictionary (.of ["dst"] [d])]

theorem unfinished_tabular : Tabular unfinished where
  lists := ⟨_, _, _, rfl, rfl, rfl⟩
  nodes := by decide
  edges := by decide

theorem importDocument_aliased_merged :
    let outcome := aliased.importDocument repetitive true
    let failed := aliased.importDocument unfinished true
    aliased.Reachable ∧ (∀ edge ∈ aliased.edges, edge.kind.hashable = true) ∧
      Tabular repetitive ∧ outcome.result = .ok ⟨1, 3, 3⟩ ∧
      outcome.graph.nodeIds = [.int 1, .text "a", .text "b", .text "c"] ∧
      outcome.graph.getNode (.int 1) =
        .ok (some { id := .num (.flag true), kind := .text "Call" }) ∧
      outcome.graph.getNode (.text "c") = .ok (some { id := .text "c", kind := .text "Call" }) ∧
      outcome.graph.outEdges (.text "a") =
        .ok [{ src := .text "a", dst := .num (.flag true), kind := .tuple [Value.int 1] },
          { src := .text "a", dst := .int 1 }] ∧
      outcome.graph.nodeCount = 4 ∧ outcome.graph.edgeCount = 6 ∧
      Tabular unfinished ∧ Incomplete unfinished aliased.keys ∧
      ∃ fault, failed.result = .error fault ∧ fault.kind = .lookup ∧ failed.graph = aliased := by
  intro outcome failed
  have hok : outcome.result = .ok ⟨1, 3, 3⟩ := rfl
  obtain ⟨_, _, hmerged⟩ :=
    aliased_reachable.importDocument_merges aliased_kinds repetitive_tabular
  obtain ⟨hids, hkept, hnew, hedges, hnodeCount, hedgeCount, _⟩ := hmerged _ hok
  have hfailed : failed.result = .error (.fieldNotFound "src") := rfl
  obtain ⟨hmissing, hunchanged, _⟩ :=
    aliased_reachable.importDocument_merges aliased_kinds unfinished_tabular
  exact ⟨aliased_reachable, aliased_kinds, repetitive_tabular, hok, hids, hkept _ rfl, hnew _ rfl,
    hedges _, hnodeCount, hedgeCount, unfinished_tabular, hmissing.1 ⟨_, hfailed⟩, _, hfailed,
    hunchanged _ hfailed⟩

end FlowPaths.MemoryGraph
