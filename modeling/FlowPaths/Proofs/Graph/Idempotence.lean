import FlowPaths.Proofs.Graph.Acceptance

/-!
Merging a document a second time.  A merge adds every node that the document has and the graph has
not, and every edge that the graph did not have before; so once it is done, nothing of the document
is missing, and to merge it again is to pass over all of it.
-/

namespace FlowPaths

theorem Edge.hashable_of_key_eq {e e' : Edge} (h : e.key = e'.key) : e.hashable = e'.hashable := by
  simp only [key, Prod.mk.injEq] at h
  obtain ⟨hsrc, hdst, hkind⟩ := h
  rw [hashable, hashable, Value.hashable_of_key_eq hsrc, Value.hashable_of_key_eq hdst,
    Value.hashable_of_key_eq hkind]

namespace MemoryGraph

variable {g : MemoryGraph} {document : Value}

theorem importNodes_true_of_mem {nodes : List Node} (h : ∀ node ∈ nodes, node.id.key ∈ g.keys)
    (stats : ImportStats) : importNodes true nodes g stats =
      (g, { stats with skipped := stats.skipped + nodes.length }) := by
  induction nodes generalizing stats with
  | nil => rfl
  | cons node nodes ih =>
    rw [List.forall_mem_cons] at h
    have hthere : g.contains node.id = true := contains_iff_mem_keys.2 h.1
    simp only [importNodes, hthere, Bool.and_self, if_true, ih h.2, List.length_cons,
      Nat.add_right_comm _ 1, Nat.add_assoc]

theorem importEdges_ok_hashable {existing : List (Key × Key × Key)} {edges : List Edge}
    {stats stats' : ImportStats} (h : (importEdges existing edges g stats).2 = .ok stats') :
    ∀ edge ∈ edges, edge.hashable = true := by
  induction edges generalizing g stats with
  | nil => exact List.forall_mem_nil _
  | cons edge edges ih =>
    rw [List.forall_mem_cons]
    cases hhash : edge.hashable with
    | false => simp [importEdges, hhash] at h
    | true =>
      refine ⟨rfl, ?_⟩
      simp only [importEdges, hhash, Bool.not_true, Bool.false_eq_true, if_false] at h
      split at h
      · exact ih h
      · split at h
        · cases h
        · exact ih h

namespace Accepts

theorem hashable_kind_of_ok {merge : Bool} (h : g.Accepts document merge) {stats : ImportStats}
    (hok : (g.importDocument document merge).result = .ok stats) :
    ∀ edge ∈ edgesOf document, edge.kind.hashable = true := by
  intro edge hedge
  rw [h.importDocument_eq.2] at hok
  rw [← h.hashable_edge hedge]
  exact importEdges_ok_hashable hok edge hedge

theorem importDocument_of_held (h : g.Accepts document true) (hg : g.WellFormed)
    (hnodes : ∀ node ∈ nodesOf document, node.id.key ∈ g.keys)
    (hedges : ∀ edge ∈ edgesOf document, edge.key ∈ g.edges.map Edge.key) :
    (g.importDocument document true).graph = g ∧
      (g.importDocument document true).result =
        .ok ⟨0, 0, (listed document "nodes").length + (listed document "edges").length⟩ := by
  have hkinds : ∀ edge ∈ edgesOf document, edge.kind.hashable = true := by
    intro edge hedge
    obtain ⟨held, hheld, hkey⟩ := List.mem_map.1 (hedges edge hedge)
    rw [← h.hashable_edge hedge, ← Edge.hashable_of_key_eq hkey]
    exact h.hashable rfl held hheld
  have hheld : ∀ edge ∈ edgesOf document, (g.held true).contains edge.key = true :=
    fun edge hedge => List.contains_iff_mem.2 (hedges edge hedge)
  have hnone : (edgesOf document).filter (fun edge => !(g.held true).contains edge.key) = [] := by
    rw [List.filter_eq_nil_iff]
    intro edge hedge
    rw [hheld edge hedge]
    exact Bool.false_ne_true
  obtain ⟨hgraph, hresult⟩ := h.importDocument_ok hg hkinds
  have hpassed : importNodes true (nodesOf document) (g.base true) {} = _ :=
    importNodes_true_of_mem hnodes {}
  rw [hpassed] at hgraph hresult
  rw [hnone] at hgraph
  rw [List.countP_eq_length_filter, hnone, List.countP_eq_length.2 hheld] at hresult
  refine ⟨hgraph, hresult.trans ?_⟩
  rw [← length_nodesOf, ← length_edgesOf]
  simp

theorem of_merged (h : g.Accepts document true) (hg : g.WellFormed)
    (hkinds : ∀ edge ∈ edgesOf document, edge.kind.hashable = true) :
    let merged := (g.importDocument document true).graph
    merged.Accepts document true ∧ (∀ node ∈ nodesOf document, node.id.key ∈ merged.keys) ∧
      ∀ edge ∈ edgesOf document, edge.key ∈ merged.edges.map Edge.key := by
  intro merged
  have hkeys : ∀ {k}, k ∈ merged.keys ↔ k ∈ g.keys ∨ k ∈ (nodesOf document).map (·.id.key) :=
    h.mem_keys_importDocument hg hkinds
  have hedges : ∀ {edge}, edge ∈ merged.edges ↔
      edge ∈ g.edges ∨ edge ∈ edgesOf document ∧ edge.key ∉ g.edges.map Edge.key := by
    intro edge
    rw [(h.edges_importDocument_perm hg hkinds).mem_iff, List.mem_append, List.mem_filter]
    simp [base, held]
  refine ⟨⟨?_, ?_⟩, ?_, ?_⟩
  · obtain ⟨entries, hentries, hreadable⟩ := h.readable
    exact ⟨entries, hentries, hreadable.mono fun _ hk => hkeys.2 (.inl hk)⟩
  · intro _ edge hedge
    obtain hold | ⟨hnew, _⟩ := hedges.1 hedge
    · exact h.hashable rfl edge hold
    · rw [h.hashable_edge hnew]
      exact hkinds edge hnew
  · exact fun node hnode => hkeys.2 (.inr (List.mem_map_of_mem hnode))
  · intro edge hedge
    by_cases hold : edge.key ∈ g.edges.map Edge.key
    · obtain ⟨held, hheld, hkey⟩ := List.mem_map.1 hold
      exact List.mem_map.2 ⟨held, hedges.2 (.inl hheld), hkey⟩
    · exact List.mem_map_of_mem (hedges.2 (.inr ⟨hedge, hold⟩))

end Accepts

theorem WellFormed.accepts_toDocument (h : g.WellFormed)
    (hkinds : ∀ edge ∈ g.edges, edge.kind.hashable = true) (time : Value) :
    g.Accepts (g.toDocument time) true ∧ nodesOf (g.toDocument time) = g.nodes ∧
      edgesOf (g.toDocument time) = g.edges := by
  obtain ⟨entries, hentries, _, hread⟩ := h.readDocument_toDocument time g.keys
  obtain ⟨hreadable, hnodes, hedges⟩ := readDocument_eq_ok_iff.1 hread
  rw [hentries]
  refine ⟨⟨⟨entries, rfl, hreadable⟩, fun _ edge hedge => ?_⟩, hnodes, hedges⟩
  exact WellFormed.hashable_edge h hedge (hkinds edge hedge)

/-- Merging a document twice comes to merging it once: the second time finds everything there, and
passes over as many entries as the document has.  So does merging what the graph itself exports. -/
theorem Reachable.merge_again (hg : g.Reachable) :
    (∀ (document : Value) (stats : ImportStats),
      (g.importDocument document true).result = .ok stats →
        let merged := (g.importDocument document true).graph
        (merged.importDocument document true).graph = merged ∧
          (merged.importDocument document true).result =
            .ok { nodesImported := 0, edgesImported := 0,
                  skipped := (listed document "nodes").length +
                    (listed document "edges").length }) ∧
      ((∀ edge ∈ g.edges, edge.kind.hashable = true) → ∀ time : Value,
        (g.importDocument (g.toDocument time) true).graph = g ∧
          (g.importDocument (g.toDocument time) true).result =
            .ok { nodesImported := 0, edgesImported := 0,
                  skipped := g.nodeCount + g.edgeCount }) := by
  have h := hg.wellFormed
  refine ⟨fun document stats hok => ?_, fun hkinds time => ?_⟩
  · have haccepts := accepts_of_ok hok
    obtain ⟨hagain, hnodes, hedges⟩ := haccepts.of_merged h (haccepts.hashable_kind_of_ok hok)
    exact hagain.importDocument_of_held (h.importDocument _ _) hnodes hedges
  · obtain ⟨haccepts, hnodes, hedges⟩ := h.accepts_toDocument hkinds time
    rw [nodeCount_eq_length_nodes, edgeCount_eq_length_edges, ← hnodes, ← hedges, length_nodesOf,
      length_edgesOf]
    refine haccepts.importDocument_of_held h (fun node hnode => ?_) fun edge hedge => ?_
    · rw [hnodes] at hnode
      exact h.map_key_nodes ▸ List.mem_map_of_mem hnode
    · rw [hedges] at hedge
      exact List.mem_map_of_mem hedge

def repetitive : Value :=
  listing
    [nodeEntry (.int 1) (.text "Entry"), nodeEntry (.text "c") (.text "Call"),
      nodeEntry (.text "c") .null]
    [edgeEntry (.int 1) (.text "a"), edgeEntry (.text "c") (.int 1),
      edgeEntry (.text "c") (.num (.flag true)), edgeEntry (.text "a") (.int 1)]

theorem aliased_merge_again :
    let merged := (aliased.importDocument repetitive true).graph
    aliased.Reachable ∧
      (aliased.importDocument repetitive true).result =
        .ok { nodesImported := 1, edgesImported := 3, skipped := 3 } ∧
      (merged.importDocument repetitive true).graph = merged ∧
      (merged.importDocument repetitive true).result =
        .ok { nodesImported := 0, edgesImported := 0, skipped := 7 } ∧
      (∀ edge ∈ aliased.edges, edge.kind.hashable = true) ∧
      (aliased.importDocument (aliased.toDocument .null) true).graph = aliased ∧
      (aliased.importDocument (aliased.toDocument .null) true).result =
        .ok { nodesImported := 0, edgesImported := 0, skipped := 6 } := by
  intro merged
  have hfirst : (aliased.importDocument repetitive true).result = .ok ⟨1, 3, 3⟩ := rfl
  obtain ⟨htwice, hown⟩ := aliased_reachable.merge_again
  obtain ⟨hgraph, hresult⟩ := htwice repetitive _ hfirst
  obtain ⟨hsame, hskipped⟩ := hown aliased_kinds .null
  exact ⟨aliased_reachable, hfirst, hgraph, hresult, aliased_kinds, hsame, hskipped⟩

end MemoryGraph

end FlowPaths
