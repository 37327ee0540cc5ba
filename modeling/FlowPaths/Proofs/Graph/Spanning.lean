import FlowPaths.Proofs.Graph.Storing

/-!
Graphs that are made from a list of edges.  Names are taken one after another, from the nodes and
then from the ends of each edge, and a name that equals an earlier one is passed over; the edges of
a node stand in the order of the list, repeated as often as they are there.
-/

namespace FlowPaths

namespace MemoryGraph

variable {g : MemoryGraph} {listed ids : List Value} {edges : List Edge}

def bare (ids : List Value) : MemoryGraph := (ids.map fun id => ({ id } : Node)).foldl putNode {}

theorem nodeIds_bare (ids : List Value) : (bare ids).nodeIds = ids.eraseDupsBy Value.same := by
  have hids : (ids.map fun id => ({ id } : Node)).map Node.id = ids := by
    rw [List.map_map]
    exact List.map_id ids
  have hnew : ids.filter (fun id => !({} : MemoryGraph).contains id) = ids :=
    List.filter_eq_self.2 fun _ _ => rfl
  rw [bare, nodeIds_foldl_putNode, hids, hnew]
  rfl

theorem mem_keys_bare {k : Key} : k ∈ (bare ids).keys ↔ k ∈ ids.map Value.key := by
  rw [bare, mem_keys_foldl_putNode, List.map_map]
  exact or_iff_right List.not_mem_nil

structure Spans (g : MemoryGraph) (listed : List Value) (edges : List Edge) : Prop where
  wellFormed : g.WellFormed
  nodeIds : g.nodeIds = listed.eraseDupsBy Value.same
  nodes : g.nodes = g.nodeIds.map fun id => { id }
  outEdges : ∀ id, g.outEdges id = id.lookUp (edges.filter fun edge => edge.src.same id)
  edges : g.edges.Perm edges

namespace Spans

theorem empty (graphId : Value) : Spans { graphId } [] [] where
  wellFormed := wellFormed_nil graphId
  nodeIds := rfl
  nodes := rfl
  outEdges _ := rfl
  edges := .refl _

variable (h : g.Spans listed edges)

include h

theorem keys_eq : g.keys = (bare listed).keys := by
  rw [keys, keys, h.nodeIds, nodeIds_bare]

theorem mem_keys {id : Value} (hid : id ∈ listed) : id.key ∈ g.keys := by
  rw [h.keys_eq, mem_keys_bare]
  exact List.mem_map_of_mem hid

theorem nodeIds_putNode (id : Value) :
    (g.putNode { id }).nodeIds = (listed ++ [id]).eraseDupsBy Value.same := by
  have hcontains : g.contains id = (bare listed).contains id := by
    rw [Bool.eq_iff_iff, contains_iff_mem_keys, contains_iff_mem_keys, h.keys_eq]
  calc (g.putNode { id }).nodeIds
      = ((bare listed).putNode { id }).nodeIds := by
        rw [MemoryGraph.nodeIds_putNode, MemoryGraph.nodeIds_putNode, hcontains, h.nodeIds,
          nodeIds_bare]
    _ = (bare (listed ++ [id])).nodeIds := by
        rw [bare, bare, List.map_append, List.foldl_append]
        rfl
    _ = (listed ++ [id]).eraseDupsBy Value.same := nodeIds_bare _

/-! What each step adds. -/

theorem ensureNode {id : Value} (hid : id.hashable = true) :
    ∃ g', g.ensureNode id = .ok g' ∧ g'.Spans (listed ++ [id]) edges := by
  have hhas : g.hasNode id = .ok (g.contains id) := Value.lookUp_eq_ok.2 ⟨hid, rfl⟩
  have hids := h.nodeIds_putNode id
  cases hthere : g.contains id with
  | true =>
    rw [MemoryGraph.nodeIds_putNode, if_pos hthere] at hids
    refine ⟨g, ?_, h.wellFormed, hids, h.nodes, h.outEdges, h.edges⟩
    simp only [MemoryGraph.ensureNode, hhas, hthere]
    rfl
  | false =>
    have hadd : g.addNode { id } = .ok (g.putNode { id }) := Value.lookUp_eq_ok.2 ⟨hid, rfl⟩
    refine ⟨g.putNode { id }, ?_, h.wellFormed.putNode hid, hids, ?_, ?_, ?_⟩
    · simp only [MemoryGraph.ensureNode, hhas, hthere, hadd]
      rfl
    · have hnodes : (g.putNode { id }).nodes = g.nodes ++ [{ id := id }] := by
        simp only [MemoryGraph.nodes, putNode, Table.set_of_not_contains hthere, Table.values,
          List.map_append]
        rfl
      rw [hnodes, h.nodes, MemoryGraph.nodeIds_putNode, hthere, if_neg Bool.false_ne_true,
        List.map_append]
      rfl
    · intro id'
      rw [h.wellFormed.outEdges_putNode, h.outEdges]
    · rw [h.wellFormed.edges_putNode]
      exact h.edges

theorem addEdge (edge : Edge) (hsrc : edge.src ∈ listed) (hdst : edge.dst ∈ listed) :
    ∃ g', g.addEdge edge = .ok g' ∧ g'.Spans listed (edges ++ [edge]) := by
  have hkey := h.mem_keys hsrc
  have hadd := h.wellFormed.addEdge_of_mem_keys hkey (h.mem_keys hdst)
  have hends : ∀ e ∈ [edge], e.src.key ∈ g.keys := by
    intro e he
    rwa [List.mem_singleton.1 he]
  refine ⟨g.putEdge edge, hadd, h.wellFormed.addEdge hadd, h.nodeIds, h.nodes, ?_, ?_⟩
  · intro id
    rw [List.filter_append, ← Value.lookUp_map _ _ (· ++ _), ← h.outEdges]
    exact h.wellFormed.outEdges_foldl_putEdge hends
  · exact (h.wellFormed.edges_foldl_putEdge_perm hends).trans (h.edges.append_right _)

theorem link {ends src dst : Value} (hends : ends.unpackPair = .ok (src, dst))
    (hsrc : src.hashable = true) (hdst : dst.hashable = true) :
    ∃ g', g.link ends = .ok g' ∧
      g'.Spans (listed ++ [src, dst]) (edges ++ [{ src := src, dst := dst }]) := by
  obtain ⟨g₁, hadd₁, h₁⟩ := h.ensureNode hsrc
  obtain ⟨g₂, hadd₂, h₂⟩ := h₁.ensureNode hdst
  -- By now both ends are listed, though the graph may know them by equal names.
  rw [List.append_assoc] at h₂
  obtain ⟨g₃, hadd₃, h₃⟩ := h₂.addEdge { src, dst } (by simp) (by simp)
  refine ⟨g₃, ?_, h₃⟩
  simp only [MemoryGraph.link, hends, hadd₁, hadd₂, hadd₃, bind, Except.bind]

/-! What all of them add. -/

theorem ensureNodes (hids : ∀ id ∈ ids, id.hashable = true) :
    ∃ g', ids.foldlM MemoryGraph.ensureNode g = .ok g' ∧ g'.Spans (listed ++ ids) edges := by
  induction ids generalizing g listed with
  | nil =>
    rw [List.append_nil]
    exact ⟨g, rfl, h⟩
  | cons id ids ih =>
    rw [List.forall_mem_cons] at hids
    obtain ⟨g₁, hadd, h₁⟩ := h.ensureNode hids.1
    obtain ⟨g', hrest, h'⟩ := ih h₁ hids.2
    rw [List.append_assoc, List.singleton_append] at h'
    refine ⟨g', ?_, h'⟩
    rw [List.foldlM_cons, hadd]
    exact hrest

theorem links {ends : List Value} {pairs : List (Value × Value)}
    (hends : List.Forall₂ (fun v pair => v.unpackPair = .ok pair) ends pairs)
    (hpairs : ∀ pair ∈ pairs, pair.1.hashable = true ∧ pair.2.hashable = true) :
    ∃ g', ends.foldlM MemoryGraph.link g = .ok g' ∧
      g'.Spans (listed ++ pairs.flatMap fun pair => [pair.1, pair.2])
        (edges ++ pairs.map fun pair => { src := pair.1, dst := pair.2 }) := by
  induction hends generalizing g listed edges with
  | nil =>
    simp only [List.flatMap_nil, List.map_nil, List.append_nil]
    exact ⟨g, rfl, h⟩
  | @cons v pair ends pairs hpair _ ih =>
    rw [List.forall_mem_cons] at hpairs
    obtain ⟨g₁, hlink, h₁⟩ := h.link hpair hpairs.1.1 hpairs.1.2
    obtain ⟨g', hrest, h'⟩ := ih h₁ hpairs.2
    rw [List.append_assoc, List.append_assoc] at h'
    refine ⟨g', ?_, h'⟩
    rw [List.foldlM_cons, hlink]
    exact hrest

end Spans

theorem ofEdges_exact (graphId : Value) {nodes edges : Value} {ids ends : List Value}
    {pairs : List (Value × Value)} (hnodes : nodes.elements = .ok ids)
    (hedges : edges.elements = .ok ends) (hends : ends.mapM Value.unpackPair = .ok pairs)
    (hids : ∀ id ∈ ids, id.hashable = true)
    (hpairs : ∀ pair ∈ pairs, pair.1.hashable = true ∧ pair.2.hashable = true) :
    ∃ g, ofEdges graphId nodes edges = .ok g ∧
      g.nodeIds =
        (ids ++ pairs.flatMap fun pair => [pair.1, pair.2]).eraseDupsBy Value.same ∧
      g.nodes = g.nodeIds.map (fun id => { id }) ∧
      (∀ id, g.outEdges id = id.lookUp ((pairs.filter fun pair => pair.1.same id).map
        fun pair => { src := pair.1, dst := pair.2 })) ∧
      g.edgeCount = pairs.length := by
  obtain ⟨g₁, hmade, h₁⟩ := (Spans.empty graphId).ensureNodes hids
  obtain ⟨g, hlinked, h⟩ := h₁.links (mapM_eq_ok_iff.1 hends) hpairs
  simp only [List.nil_append] at h
  refine ⟨g, ?_, h.nodeIds, h.nodes, ?_, ?_⟩
  · simp only [ofEdges, hnodes, hedges, hmade, bind, Except.bind]
    exact hlinked
  · intro id
    rw [h.outEdges, List.filter_map]
    rfl
  · rw [edgeCount_eq_length_edges, h.edges.length_eq, List.length_map]

theorem ofEdges_aliases_exact :
    let one : Value := .int 1
    let truth : Value := .num (.flag true)
    let ids : List Value := [truth, .text "a"]
    let pairs : List (Value × Value) := [(one, .text "b"), (.text "b", one), (truth, .text "b"),
      (one, .text "b")]
    let edges : Value := .list (pairs.map fun pair => .tuple [pair.1, pair.2])
    (∀ id ∈ ids, id.hashable = true) ∧
      (∀ pair ∈ pairs, pair.1.hashable = true ∧ pair.2.hashable = true) ∧
      ∃ g, ofEdges .null (.list ids) edges = .ok g ∧ g.nodeIds = [truth, .text "a", .text "b"] ∧
        g.outEdges one = .ok [{ src := one, dst := .text "b" }, { src := truth, dst := .text "b" },
          { src := one, dst := .text "b" }] ∧
        g.edgeCount = 4 := by
  intro one truth ids pairs edges
  have hids : ∀ id ∈ ids, id.hashable = true := by decide
  have hpairs : ∀ pair ∈ pairs, pair.1.hashable = true ∧ pair.2.hashable = true := by decide
  have hnodes : Value.elements (.list ids) = .ok ids := rfl
  have hedges : edges.elements = .ok (pairs.map fun pair => .tuple [pair.1, pair.2]) := rfl
  obtain ⟨g, hmade, hnames, _, hout, hcount⟩ := ofEdges_exact .null hnodes hedges rfl hids hpairs
  refine ⟨hids, hpairs, g, hmade, hnames.trans ?_, hout one, hcount⟩
  decide

end MemoryGraph

end FlowPaths
