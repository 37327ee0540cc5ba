import FlowPaths.Proofs.Graph.Idempotence

/-!
Imports that replace a graph.  The graph is cleared and filled anew from the document, so what it
held before does not matter; a name that is listed twice keeps its first place and takes its last
record.
-/

namespace FlowPaths.MemoryGraph

variable {g : MemoryGraph} {document : Value}

theorem fill_graphId (nodes : List Node) (edges : List Edge) (g : MemoryGraph) (graphId : Value) :
    edges.foldl putEdge (nodes.foldl putNode { g with graphId }) =
      { edges.foldl putEdge (nodes.foldl putNode g) with graphId } := by
  let rename (g : MemoryGraph) : MemoryGraph := { g with graphId }
  have hnodes : nodes.foldl putNode (rename g) = rename (nodes.foldl putNode g) :=
    List.foldl_hom rename fun _ _ => rfl
  have hedges : ∀ g, edges.foldl putEdge (rename g) = rename (edges.foldl putEdge g) := fun g =>
    List.foldl_hom rename fun _ _ => rfl
  rw [show ({ g with graphId } : MemoryGraph) = rename g from rfl, hnodes, hedges]

theorem Accepts.of_replaced (h : g.Accepts document false) (m : MemoryGraph) :
    m.Accepts document false :=
  ⟨h.readable, nofun⟩

theorem Accepts.replaces (h : g.Accepts document false)
    (hkinds : ∀ edge ∈ edgesOf document, edge.kind.hashable = true) :
    (g.importDocument document false).graph =
        (edgesOf document).foldl putEdge ((nodesOf document).foldl putNode g.clear) ∧
      (g.importDocument document false).result =
        .ok ⟨(nodesOf document).length, (edgesOf document).length, 0⟩ := by
  obtain ⟨hgraph, hresult⟩ := h.importDocument_ok (base_wellFormed nofun) hkinds
  simp only [held, base, importNodes_false] at hgraph hresult
  rw [hgraph, hresult]
  simp

/-- An import that replaces fails only because something is missing, and then leaves the graph as it
was.  Otherwise the graph is what the document says, whatever it held: names in the order in which
they first come up, the last record of each, and the edges in the order of the document. -/
theorem importDocument_replaces (g : MemoryGraph) (h : Tabular document) :
    let outcome := g.importDocument document false
    ((∃ fault, outcome.result = .error fault) ↔ Incomplete document []) ∧
      (∀ fault, outcome.result = .error fault → fault.kind = .lookup ∧ outcome.graph = g) ∧
      ∀ stats, outcome.result = .ok stats →
        (∀ m : MemoryGraph, (m.importDocument document false).result = .ok stats ∧
          (m.importDocument document false).graph = { outcome.graph with graphId := m.graphId }) ∧
        outcome.graph.nodeIds = ((nodesOf document).map Node.id).eraseDupsBy Value.same ∧
        (∀ id, outcome.graph.getNode id =
          id.lookUp ((nodesOf document).reverse.find? fun node => node.id.same id)) ∧
        (∀ id, outcome.graph.outEdges id =
          id.lookUp ((edgesOf document).filter fun edge => edge.src.same id)) ∧
        stats = ⟨(listed document "nodes").length, (listed document "edges").length, 0⟩ := by
  intro outcome
  have hwell : false = true → g.WellFormed := nofun
  obtain ⟨hfails, hfault⟩ := h.importDocument_error hwell nofun
  refine ⟨hfails, hfault, fun stats hok => ?_⟩
  have haccepts := accepts_of_ok hok
  have hkinds : ∀ edge ∈ edgesOf document, edge.kind.hashable = true := fun _ => h.hashable_kind
  have hbase : (g.base false).WellFormed := base_wellFormed hwell
  obtain ⟨hgraph, hresult⟩ := haccepts.replaces hkinds
  cases hok.symm.trans hresult
  refine ⟨fun m => ?_, ?_, fun id => ?_, fun id => ?_, ?_⟩
  · obtain ⟨hgraph', hresult'⟩ := (haccepts.of_replaced m).replaces hkinds
    refine ⟨hresult', ?_⟩
    rw [hgraph', hgraph, ← fill_graphId]
    rfl
  · rw [haccepts.nodeIds_importDocument hbase hkinds]
    exact congrArg (List.eraseDupsBy Value.same) (List.filter_true _)
  · rw [haccepts.getNode_importDocument hbase hkinds, importNodes_false, getNode,
      find?_foldl_putNode]
    exact congrArg id.lookUp (Option.or_none)
  · rw [haccepts.outEdges_importDocument hbase hkinds]
    change (id.lookUp []).map _ = _
    rw [Value.lookUp_map]
    simp [held]
  · rw [length_nodesOf, length_edgesOf]

def restated : Value :=
  listing
    [nodeEntry (.int 1) (.text "Entry"), nodeEntry (.text "b") (.text "Call"),
      nodeEntry (.num (.flag true)) (.text "Exit")]
    [edgeEntry (.num (.flag true)) (.text "b"), edgeEntry (.text "b") (.int 1),
      edgeEntry (.int 1) (.text "b")]

theorem restated_tabular : Tabular restated where
  lists := ⟨_, _, _, rfl, rfl, rfl⟩
  nodes := by decide
  edges := by decide

theorem repetitive_tabular : Tabular repetitive where
  lists := ⟨_, _, _, rfl, rfl, rfl⟩
  nodes := by decide
  edges := by decide

theorem importDocument_aliased_replaced :
    let outcome := aliased.importDocument restated false
    let failed := aliased.importDocument repetitive false
    Tabular restated ∧ outcome.result = .ok ⟨3, 3, 0⟩ ∧
      (∀ m : MemoryGraph,
        (m.importDocument restated false).graph = { outcome.graph with graphId := m.graphId }) ∧
      outcome.graph.nodeIds = [.int 1, .text "b"] ∧
      outcome.graph.getNode (.int 1) =
        .ok (some { id := .num (.flag true), kind := .text "Exit" }) ∧
      outcome.graph.outEdges (.int 1) =
        .ok [{ src := .num (.flag true), dst := .text "b" }, { src := .int 1, dst := .text "b" }] ∧
      Tabular repetitive ∧ Incomplete repetitive [] ∧
      ∃ fault, failed.result = .error fault ∧ fault.kind = .lookup ∧ failed.graph = aliased := by
  intro outcome failed
  have hok : outcome.result = .ok ⟨3, 3, 0⟩ := rfl
  obtain ⟨_, _, hreplaced⟩ := importDocument_replaces aliased restated_tabular
  obtain ⟨hsame, hids, hnode, hedges, _⟩ := hreplaced _ hok
  have hfailed : failed.result = .error (.endpointNotFound (.text "a")) := rfl
  obtain ⟨hmissing, hkept, _⟩ := importDocument_replaces aliased repetitive_tabular
  exact ⟨restated_tabular, hok, fun m => (hsame m).2, hids, hnode _, hedges _, repetitive_tabular,
    hmissing.1 ⟨_, hfailed⟩, _, hfailed, hkept _ hfailed⟩

end FlowPaths.MemoryGraph
