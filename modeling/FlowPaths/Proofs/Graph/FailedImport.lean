import FlowPaths.Proofs.Graph.Idempotence

/-!
What a failed import leaves behind.  All is checked before the graph is touched but one thing, that
the label of an edge can be hashed.  An import that meets a label which cannot be hashed stops
there, and the graph is then what the document up to that edge makes of it.
-/

namespace FlowPaths.MemoryGraph

variable {g : MemoryGraph} {document : Value} {merge : Bool}

theorem importEdges_append (existing : List (Key × Key × Key)) (before after : List Edge)
    (g : MemoryGraph) (stats : ImportStats) :
    importEdges existing (before ++ after) g stats =
      match importEdges existing before g stats with
      | (g, .error fault) => (g, .error fault)
      | (g, .ok stats) => importEdges existing after g stats := by
  induction before generalizing g stats with
  | nil => rfl
  | cons edge before ih =>
    rw [List.cons_append, importEdges, importEdges]
    split
    · rfl
    · split
      · exact ih ..
      · split
        · rfl
        · exact ih ..

def excerpt (document : Value) (edges : List Value) : Value :=
  listing (listed document "nodes") edges

theorem Accepts.of_subset (h : g.Accepts document merge) {edges : List Value}
    (hedges : edges ⊆ listed document "edges") : g.Accepts (excerpt document edges) merge := by
  obtain ⟨⟨entries, rfl, hreadable⟩, hhash⟩ := h
  exact ⟨⟨_, rfl, {
    lists := ⟨⟨_, rfl⟩, ⟨_, rfl⟩⟩
    nodes := hreadable.nodes
    ends := fun entry hentry => hreadable.ends entry (hedges hentry) }⟩, hhash⟩

theorem importEdges_unhashable {edge : Edge} (h : edge.kind.hashable = false)
    (existing : List (Key × Key × Key)) (edges : List Edge) (g : MemoryGraph)
    (stats : ImportStats) :
    importEdges existing (edge :: edges) g stats = (g, .error .unhashable) := by
  rw [importEdges, Edge.hashable, h, Bool.and_false, Bool.not_false, if_pos rfl]

theorem Accepts.importDocument_unhashable (h : g.Accepts document merge)
    (hbase : (g.base merge).WellFormed) {before after : List Value} {entry : Value}
    (hedges : listed document "edges" = before ++ entry :: after)
    (hbefore : ∀ entry ∈ before, (entry.label "kind").hashable = true)
    (hentry : (entry.label "kind").hashable = false) :
    let sound := g.importDocument (excerpt document before) merge
    (g.importDocument document merge).result = .error .unhashable ∧
      (g.importDocument document merge).graph = sound.graph ∧
        ∃ stats, sound.result = .ok stats := by
  intro sound
  have hsound : g.Accepts (excerpt document before) merge :=
    h.of_subset (hedges ▸ List.subset_append_left _ _)
  have hok := (hsound.importDocument_ok hbase (List.forall_mem_map.2 hbefore)).2
  obtain ⟨hgraph, hresult⟩ := h.importDocument_eq
  obtain ⟨hgraph', hresult'⟩ := hsound.importDocument_eq
  have hedgesOf : edgesOf document =
      edgesOf (excerpt document before) ++ Edge.ofEntry entry :: after.map Edge.ofEntry := by
    rw [edgesOf, hedges, List.map_append, List.map_cons]
    rfl
  have hpart : importEdges (g.held merge) (edgesOf (excerpt document before))
      (importNodes merge (nodesOf document) (g.base merge) {}).1
      (importNodes merge (nodesOf document) (g.base merge) {}).2 = (sound.graph, sound.result) :=
    Prod.ext hgraph'.symm hresult'.symm
  have hlabel : (Edge.ofEntry entry).kind.hashable = false := hentry
  rw [hedgesOf, importEdges_append, hpart, hok] at hgraph hresult
  simp only [importEdges_unhashable hlabel] at hgraph hresult
  exact ⟨hresult, hgraph, _, hok⟩

theorem Accepts.importDocument_error_iff (h : g.Accepts document merge)
    (hbase : (g.base merge).WellFormed) :
    (∃ fault, (g.importDocument document merge).result = .error fault) ↔
      ∃ entry ∈ listed document "edges", (entry.label "kind").hashable = false := by
  constructor
  · rintro ⟨fault, hfault⟩
    by_contra hlabels
    push Not at hlabels
    have hkinds : ∀ edge ∈ edgesOf document, edge.kind.hashable = true :=
      List.forall_mem_map.2 fun entry hentry => eq_true_of_ne_false (hlabels entry hentry)
    cases hfault.symm.trans (h.importDocument_ok hbase hkinds).2
  · rintro ⟨entry, hentry, hlabel⟩
    -- The import ends at the first such label, which may come before this one.
    have hfirst : ((listed document "edges").find? fun entry =>
        !(entry.label "kind").hashable).isSome = true := by
      rw [List.find?_isSome]
      exact ⟨entry, hentry, by rw [hlabel]; rfl⟩
    obtain ⟨first, hfirst⟩ := Option.isSome_iff_exists.1 hfirst
    obtain ⟨hlabel, before, after, hedges, hbefore⟩ := List.find?_eq_some_iff_append.1 hfirst
    simp only [Bool.not_not, Bool.not_eq_eq_eq_not, Bool.not_true] at hbefore hlabel
    exact ⟨_, (h.importDocument_unhashable hbase hedges hbefore hlabel).1⟩

/-- A failed import leaves the graph as it was, unless all that failed is that a label cannot be
hashed.  The nodes and the edges before the first such label are then in the graph, and nothing else
is if they were to replace what it held. -/
theorem Reachable.importDocument_failed (hg : g.Reachable) (document : Value) (merge : Bool) :
    let outcome := g.importDocument document merge
    ((∃ fault, outcome.result = .error fault) ↔ (g.Accepts document merge →
        ∃ entry ∈ listed document "edges", (entry.label "kind").hashable = false)) ∧
      (∀ fault, outcome.result = .error fault →
        (g.Accepts document merge →
          ∀ entry ∈ listed document "edges", (entry.label "kind").hashable = true) →
        outcome.graph = g) ∧
      (g.Accepts document merge → ∀ before entry after,
        listed document "edges" = before ++ entry :: after →
        (∀ entry ∈ before, (entry.label "kind").hashable = true) →
        (entry.label "kind").hashable = false →
        let sound := g.importDocument (excerpt document before) merge
        outcome.result = .error .unhashable ∧ outcome.graph = sound.graph ∧
          ∃ stats, sound.result = .ok stats) := by
  intro outcome
  have hbase : (g.base merge).WellFormed := base_wellFormed fun _ => hg.wellFormed
  refine ⟨?_, ?_, fun haccepts _ _ _ => haccepts.importDocument_unhashable hbase⟩
  · by_cases haccepts : g.Accepts document merge
    · rw [haccepts.importDocument_error_iff hbase, forall_prop_of_true haccepts]
    · obtain ⟨fault, hfault, _⟩ := importDocument_of_not_accepts haccepts
      exact ⟨fun _ => (absurd · haccepts), fun _ => ⟨fault, hfault⟩⟩
  · intro fault hfault hlabels
    have hnot : ¬g.Accepts document merge := by
      intro haccepts
      obtain ⟨entry, hentry, hlabel⟩ := (haccepts.importDocument_error_iff hbase).1 ⟨fault, hfault⟩
      cases hlabel.symm.trans (hlabels haccepts entry hentry)
    obtain ⟨_, _, hgraph, _⟩ := importDocument_of_not_accepts hnot
    exact hgraph

def linked : MemoryGraph where
  records := ⟨[(.text "x", { id := .text "x" }), (.text "y", { id := .text "y" })]⟩
  out := ⟨[(.text "x", [{ src := .text "x", dst := .text "y" }]), (.text "y", [])]⟩

theorem linked_reachable : linked.Reachable := by
  have hmade : ofEdges (.text "in_memory") (.list [])
      (.list [.tuple [Value.text "x", Value.text "y"]]) = .ok linked := rfl
  exact .ofEdges hmade

def mislabelled : Value :=
  let a : Value := .text "a"
  listing [nameEntry a] [edgeEntry a a, Edge.toDocument { src := a, dst := a, kind := .list [] }]

theorem linked_accepts_mislabelled (merge : Bool) : linked.Accepts mislabelled merge := by
  cases merge <;> exact (prepareImport_eq_ok_iff.1 rfl).1

theorem importDocument_linked_failed :
    let outcome := linked.importDocument mislabelled false
    let refused := linked.importDocument repetitive false
    linked.Reachable ∧ linked.Accepts mislabelled false ∧
      outcome.result = .error .unhashable ∧ outcome.graph.nodeIds = [.text "a"] ∧
      outcome.graph.outEdges (.text "a") = .ok [{ src := .text "a", dst := .text "a" }] ∧
      refused.result = .error (.endpointNotFound (.text "a")) ∧ refused.graph = linked := by
  intro outcome refused
  obtain ⟨_, _, hstops⟩ := linked_reachable.importDocument_failed mislabelled false
  have haccepts := linked_accepts_mislabelled false
  obtain ⟨hresult, hgraph, _⟩ := hstops haccepts [_] _ [] rfl (by decide) rfl
  have hrefused : refused.result = .error (.endpointNotFound (.text "a")) := rfl
  obtain ⟨_, hkept, _⟩ := linked_reachable.importDocument_failed repetitive false
  refine ⟨linked_reachable, haccepts, hresult, ?_, ?_, hrefused, ?_⟩
  · rw [hgraph]
    rfl
  · rw [hgraph]
    rfl
  · exact hkept _ hrefused fun _ => by decide

theorem importDocument_linked_changed : linked.Reachable ∧ ∀ merge,
    (linked.importDocument mislabelled merge).result = .error .unhashable ∧
      (linked.importDocument mislabelled merge).graph ≠ linked := by
  refine ⟨linked_reachable, fun merge => ?_⟩
  cases merge <;> exact ⟨rfl, by decide⟩

end FlowPaths.MemoryGraph
