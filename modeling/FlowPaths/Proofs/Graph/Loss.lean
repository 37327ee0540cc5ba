import Mathlib.Data.List.Dedup
import FlowPaths.Proofs.Graph.Appending

/-!
What is lost when a graph in memory is stored.  A node is stored under the text of the name that it
is listed by, and an edge under the texts of the ends that it records.  Names that are written alike
become one node, and an end that equals a name but is written as none of them ends the load.
-/

namespace FlowPaths

namespace MemoryGraph

variable {m base : MemoryGraph}

theorem WellFormed.edges_foldl_putNode (h : base.WellFormed) {nodes : List Node}
    (hnodes : ∀ node ∈ nodes, node.id.hashable = true) :
    (nodes.foldl MemoryGraph.putNode base).edges = base.edges := by
  induction nodes generalizing base with
  | nil => rfl
  | cons node nodes ih =>
    rw [List.forall_mem_cons] at hnodes
    exact (ih (h.putNode hnodes.1) hnodes.2).trans (h.edges_putNode node)

theorem hashable_storedNodes : ∀ node ∈ m.storedNodes, node.id.hashable = true := by
  intro node hnode
  obtain ⟨row, _, rfl⟩ := List.mem_map.1 hnode
  rfl

theorem hasEnds_storedNodes (hempty : base.keys = []) {edge : Edge} :
    (m.storedNodes.foldl putNode base).HasEnds edge.stored ↔ m.Spells edge := by
  simp only [HasEnds, Spells, Edge.stored, mem_keys_storedNodes, hempty, List.not_mem_nil, false_or]

theorem WellFormed.edges_of_keys_nil (h : base.WellFormed) (hempty : base.keys = []) :
    base.edges = [] := by
  have hrows : base.out.rows = [] := by
    rw [keys, nodeIds, ← h.aligned, Table.keys, List.map_map, List.map_eq_nil_iff] at hempty
    exact hempty
  rw [edges, Table.values, hrows]
  rfl

theorem WellFormed.nodeCount_storedNodes (h : base.WellFormed) (hempty : base.keys = []) :
    (m.storedNodes.foldl MemoryGraph.putNode base).nodeCount =
      (m.nodeIds.map Value.toText).dedup.length := by
  let texts := (m.nodeIds.map Value.toText).dedup
  have htexts : (texts.map fun s => (Value.text s).key).Nodup := by
    apply (List.nodup_dedup _).map
    intro s t hkey
    simpa using hkey
  have hperm : (m.storedNodes.foldl MemoryGraph.putNode base).keys.Perm
      (texts.map fun s => (Value.text s).key) := by
    rw [List.perm_ext_iff_of_nodup (h.foldl_putNode hashable_storedNodes).nodup htexts]
    intro k
    rw [mem_keys_foldl_putNode, hempty]
    simp [texts, storedNodes, storedNode, Node.stored, nodeIds, Table.keys]
  rw [nodeCount_eq_length_nodeIds, ← List.length_map Value.key]
  exact hperm.length_eq.trans (List.length_map _)

theorem WellFormed.counts_stored (h : base.WellFormed) (hempty : base.keys = [])
    {edges : List Edge} (hedges : ∀ edge ∈ edges, m.Spells edge) :
    let stored := (edges.map Edge.stored).foldl MemoryGraph.putEdge
      (m.storedNodes.foldl MemoryGraph.putNode base)
    stored.nodeCount = (m.nodeIds.map Value.toText).dedup.length ∧
      stored.edgeCount = edges.length := by
  have hsrc : ∀ edge ∈ edges.map Edge.stored,
      edge.src.key ∈ (m.storedNodes.foldl MemoryGraph.putNode base).keys := by
    intro stored hstored
    obtain ⟨edge, hedge, rfl⟩ := List.mem_map.1 hstored
    exact ((hedges edge hedge).hasEnds base).1
  constructor
  · rw [nodeCount_eq_length_nodeIds, nodeIds_foldl_putEdge, ← nodeCount_eq_length_nodeIds,
      h.nodeCount_storedNodes hempty]
  · rw [edgeCount_eq_length_edges,
      ((h.foldl_putNode hashable_storedNodes).edges_foldl_putEdge_perm hsrc).length_eq,
      h.edges_foldl_putNode hashable_storedNodes, h.edges_of_keys_nil hempty, List.nil_append,
      List.length_map]

end MemoryGraph

open MemoryGraph

namespace StoredGraph

variable {δ : Type} [Store δ] {g : StoredGraph δ} {m : MemoryGraph}

theorem Numbered.addEdge_refused (h : g.Numbered) {edge : Edge}
    (hends : ¬g.view.HasEnds edge.stored) :
    ∃ fault, g.addEdge edge = .error fault ∧ fault.kind = .lookup := by
  obtain ⟨_, _, _, _, hadd⟩ | ⟨fault, _, hadd, _, hkind, _⟩ := h.addEdge edge
  · obtain ⟨hsrc, hdst, _⟩ := MemoryGraph.addEdge_eq_ok hadd
    exact absurd ⟨hsrc, hdst⟩ hends
  · exact ⟨fault, hadd, hkind⟩

theorem Numbered.addEach_addEdge_refused (h : g.Numbered) {edges : List Edge}
    (hends : ¬∀ edge ∈ edges, g.view.HasEnds edge.stored) :
    ∃ g' fault before edge after,
      addEach (fun g edge => return (← g.addEdge edge).1) edges g = (g', .error fault) ∧
      fault.kind = .lookup ∧ edges = before ++ edge :: after ∧
      (∀ edge ∈ before, g.view.HasEnds edge.stored) ∧ ¬g.view.HasEnds edge.stored ∧
      g'.Numbered ∧ g'.view = (before.map Edge.stored).foldl putEdge g.view := by
  classical
  obtain ⟨bad, hbad, hends⟩ := not_forall₂.1 hends
  obtain ⟨edge, hfirst⟩ : ∃ edge, edges.find? (fun edge => ¬g.view.HasEnds edge.stored) =
      some edge := by
    rw [← Option.isSome_iff_exists, List.find?_isSome]
    exact ⟨bad, hbad, decide_eq_true hends⟩
  obtain ⟨hedge, before, after, rfl, hbefore⟩ := List.find?_eq_some_iff_append.1 hfirst
  rw [decide_eq_true_eq] at hedge
  replace hbefore : ∀ edge ∈ before, g.view.HasEnds edge.stored := by simpa using hbefore
  obtain ⟨g₁, hadded, h₁, hview₁⟩ := h.addEach_addEdge hbefore
  -- Edges add no names, so at its turn the edge still lacks an end.
  have hrefused : ¬g₁.view.HasEnds edge.stored := by
    rwa [hview₁, HasEnds, keys_foldl_putEdge]
  obtain ⟨fault, hadd, hkind⟩ := h₁.addEdge_refused hrefused
  refine ⟨g₁, fault, before, edge, after, ?_, hkind, rfl, hbefore, hedge, h₁, hview₁⟩
  rw [addEach_append, hadded]
  simp only [addEach, hadd]
  rfl

theorem Numbered.keys_view_of_nodeCount (h : g.Numbered) (hempty : g.nodeCount = .ok 0) :
    g.view.keys = [] := by
  rw [h.nodeCount, Except.ok.injEq, nodeCount_eq_length_nodeIds, List.length_eq_zero_iff] at hempty
  rw [keys, hempty]
  rfl

theorem Numbered.loadFrom_refused (h : g.Numbered) (hempty : g.nodeCount = .ok 0)
    (hm : m.WellFormed) (hends : ¬m.EndsWritten) :
    ∃ g' fault before edge after, g.loadFrom m.entries = ⟨g', [], .error fault⟩ ∧
      fault.kind = .lookup ∧ m.edges = before ++ edge :: after ∧
      (∀ edge ∈ before, m.Spells edge) ∧ ¬m.Spells edge ∧ g'.Numbered ∧
      g'.view = (before.map Edge.stored).foldl putEdge (m.storedNodes.foldl putNode g.view) := by
  obtain ⟨g₁, hnodes, h₁, hview₁⟩ := h.addEach_entries hm
  have hspells : ∀ edge : Edge, g₁.view.HasEnds edge.stored ↔ m.Spells edge := by
    intro edge
    rw [hview₁, hasEnds_storedNodes (h.keys_view_of_nodeCount hempty)]
  rw [EndsWritten] at hends
  simp only [← hspells] at hends ⊢
  obtain ⟨g₂, fault, before, edge, after, hedges, hkind, hsplit, hbefore, hedge, h₂, hview₂⟩ :=
    h₁.addEach_addEdge_refused hends
  refine ⟨g₂, fault, before, edge, after, ?_, hkind, hsplit, hbefore, hedge, h₂, ?_⟩
  · simp only [StoredGraph.loadFrom, hnodes, hm.flatMap_entries, hedges]
  · rw [hview₂, hview₁]

/-- A graph in memory is copied into an empty one without loss if and only if its names are written
differently and every end of an edge is written as a name.  Otherwise names that are written alike
share a node, and the load fails at the first edge with another end, after all nodes and the edges
before it were stored. -/
theorem Reachable.load_lossless_iff (hg : g.Reachable) (hempty : g.nodeCount = .ok 0)
    (hm : m.Reachable) :
    let outcome := g.load (.memory m)
    ((∃ stats, outcome.result = .ok stats) ∧ outcome.graph.nodeCount = .ok m.nodeCount ∧
        outcome.graph.edgeCount = .ok m.edgeCount ↔
      m.EndsWritten ∧ (m.nodeIds.map Value.toText).Nodup) ∧
    outcome.graph.nodeCount = .ok (m.nodeIds.map Value.toText).dedup.length ∧
    (m.EndsWritten → outcome.result = .ok ⟨m.nodeCount, m.edgeCount⟩ ∧
      outcome.graph.edgeCount = .ok m.edgeCount) ∧
    (¬m.EndsWritten → ∃ fault before edge after, outcome.result = .error fault ∧
      fault.kind = .lookup ∧ m.edges = before ++ edge :: after ∧
      (∀ edge ∈ before, m.Spells edge) ∧ ¬m.Spells edge ∧
      outcome.graph.edgeCount = .ok before.length) := by
  intro outcome
  have h := hg.numbered
  have hkeys := h.keys_view_of_nodeCount hempty
  have hnodup : (m.nodeIds.map Value.toText).dedup.length = m.nodeCount ↔
      (m.nodeIds.map Value.toText).Nodup := by
    rw [nodeCount_eq_length_nodeIds, ← List.length_map Value.toText, ← List.dedup_eq_self]
    exact ⟨(List.dedup_sublist _).eq_of_length, congrArg List.length⟩
  by_cases hends : m.EndsWritten
  · obtain ⟨g', hload, h', hview⟩ := h.loadFrom_eq hm.wellFormed hends
    have houtcome : outcome = _ := hload
    obtain ⟨hnodes, hedges⟩ := g.view_wellFormed.counts_stored hkeys hends
    rw [houtcome, h'.nodeCount, h'.edgeCount, hview, storedOnto, storedEdges, hnodes, hedges,
      edgeCount_eq_length_edges, Except.ok.injEq, hnodup]
    simp [hends]
  · obtain ⟨g', fault, before, edge, after, hload, hkind, hsplit, hbefore, hedge, h', hview⟩ :=
      h.loadFrom_refused hempty hm.wellFormed hends
    have houtcome : outcome = _ := hload
    obtain ⟨hnodes, hedges⟩ := g.view_wellFormed.counts_stored hkeys hbefore
    rw [houtcome, h'.nodeCount, h'.edgeCount, hview, hnodes, hedges]
    refine ⟨?_, rfl, fun hwritten => absurd hwritten hends, fun _ =>
      ⟨fault, before, edge, after, rfl, hkind, hsplit, hbefore, hedge, rfl⟩⟩
    simp [hends]

def mixed : MemoryGraph :=
  let one : Value := .int 1
  let pair : Value := .tuple [Value.text "a", one]
  { records := ⟨[(one, { id := one }), (pair, { id := pair })]⟩
    out := ⟨[(one, [{ src := one, dst := pair }]), (pair, [{ src := pair, dst := one }])]⟩ }

theorem mixed_reachable : mixed.Reachable := by
  let one : Value := .int 1
  let pair : Value := .tuple [Value.text "a", one]
  have hmade : ofEdges (.text "in_memory") (.list [])
      (.list [.tuple [one, pair], .tuple [pair, one]]) = .ok mixed := rfl
  exact .ofEdges hmade

theorem load_mixed_lossless :
    let g : StoredGraph Database := openOn Store.empty .null .null
    let outcome := g.load (.memory mixed)
    g.Reachable ∧ g.nodeCount = .ok 0 ∧
      mixed.Reachable ∧ (∃ stats, outcome.result = .ok stats) ∧
      outcome.graph.nodeCount = .ok 2 ∧ outcome.graph.edgeCount = .ok 2 := by
  intro g outcome
  have hempty := Reachable.empty (δ := Database) .null .null
  have hwritten : mixed.EndsWritten := by
    unfold EndsWritten Spells
    decide +kernel
  obtain ⟨hlossless, _⟩ := hempty.load_lossless_iff rfl mixed_reachable
  obtain ⟨hresult, hnodes, hedges⟩ := hlossless.2 ⟨hwritten, by decide +kernel⟩
  exact ⟨hempty, rfl, mixed_reachable, hresult, hnodes, hedges⟩

def misspelled : MemoryGraph where
  records := ⟨[(.int 1, { id := .int 1 }), (.text "b", { id := .text "b" })]⟩
  out := ⟨[(.int 1, [{ src := .num (.flag true), dst := .text "b" }]), (.text "b", [])]⟩

def homonymous : MemoryGraph where
  records := ⟨[(.int 1, { id := .int 1 }), (.text "1", { id := .text "1" })]⟩
  out := ⟨[(.int 1, []), (.text "1", [])]⟩

theorem load_lossy :
    let g : StoredGraph Database := openOn Store.empty .null .null
    misspelled.Reachable ∧ homonymous.Reachable ∧
      (g.load (.memory misspelled)).result = .error (.sourceNotFound (.num (.flag true))) ∧
      (g.load (.memory homonymous)).result = .ok ⟨2, 0⟩ ∧
      (g.load (.memory homonymous)).graph.nodeCount = .ok 1 := by
  have hmisspelled : ofEdges (.text "in_memory") (.list [Value.int 1])
      (.list [.tuple [Value.num (.flag true), Value.text "b"]]) = .ok misspelled := rfl
  have hhomonymous : ofEdges (.text "in_memory") (.list [Value.int 1, Value.text "1"]) (.list []) =
      .ok homonymous := rfl
  exact ⟨.ofEdges hmisspelled, .ofEdges hhomonymous, by decide +kernel⟩

end StoredGraph

end FlowPaths
