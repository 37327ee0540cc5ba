import FlowPaths.Proofs.Graph.Acceptance

/-!
What a load leaves in the tables: all listed nodes and then all listed edges are put, as the tables
keep them, into what the tables showed before.  Nothing that is done to a stored graph, not even a
load that breaks off, leaves tables that show no graph.
-/

namespace FlowPaths

namespace MemoryGraph

variable {m base : MemoryGraph}

def storedNode (row : Value × Node) : Node := { row.2 with id := row.1 : Node }.stored

def storedNodes (m : MemoryGraph) : List Node := m.records.rows.map storedNode
def storedEdges (m : MemoryGraph) : List Edge := m.edges.map Edge.stored

def storedOnto (m base : MemoryGraph) : MemoryGraph :=
  m.storedEdges.foldl putEdge (m.storedNodes.foldl putNode base)

/-! Nodes that are put one by one are imported without a merge. -/

theorem mem_keys_foldl_putNode (nodes : List Node) {k : Key} :
    k ∈ (nodes.foldl putNode base).keys ↔ k ∈ base.keys ∨ k ∈ nodes.map (·.id.key) := by
  have hkeys := mem_keys_importNodes (g := base) false nodes {} (k := k)
  rwa [importNodes_false] at hkeys

theorem nodeIds_foldl_putNode (nodes : List Node) (base : MemoryGraph) :
    (nodes.foldl putNode base).nodeIds = base.nodeIds ++
      ((nodes.map Node.id).filter fun id => !base.contains id).eraseDupsBy Value.same := by
  have hids := nodeIds_importNodes (g := base) false nodes {}
  rwa [importNodes_false] at hids

theorem WellFormed.foldl_putNode (h : base.WellFormed) {nodes : List Node}
    (hnodes : ∀ node ∈ nodes, node.id.hashable = true) :
    (nodes.foldl MemoryGraph.putNode base).WellFormed := by
  have hfilled := h.importNodes false hnodes {}
  rwa [importNodes_false] at hfilled

theorem WellFormed.outEdges_foldl_putNode (h : base.WellFormed) {nodes : List Node}
    (hnodes : ∀ node ∈ nodes, node.id.hashable = true) (id : Value) :
    (nodes.foldl MemoryGraph.putNode base).outEdges id = base.outEdges id := by
  have hedges := h.outEdges_importNodes false hnodes {} id
  rwa [importNodes_false] at hedges

theorem keys_foldl_putEdge (edges : List Edge) (base : MemoryGraph) :
    (edges.foldl putEdge base).keys = base.keys :=
  congrArg (List.map Value.key) (nodeIds_foldl_putEdge edges base)

theorem mem_keys_storedNodes {s : String} :
    (Value.text s).key ∈ (m.storedNodes.foldl putNode base).keys ↔
      (Value.text s).key ∈ base.keys ∨ s ∈ m.nodeIds.map Value.toText := by
  rw [mem_keys_foldl_putNode, storedNodes, List.map_map, nodeIds, Table.keys, List.map_map]
  simp [storedNode, Node.stored]

def HasEnds (g : MemoryGraph) (edge : Edge) : Prop :=
  edge.src.key ∈ g.keys ∧ edge.dst.key ∈ g.keys

def Spells (m : MemoryGraph) (edge : Edge) : Prop :=
  edge.src.toText ∈ m.nodeIds.map Value.toText ∧ edge.dst.toText ∈ m.nodeIds.map Value.toText

def EndsWritten (m : MemoryGraph) : Prop := ∀ edge ∈ m.edges, m.Spells edge

theorem Spells.hasEnds {edge : Edge} (h : m.Spells edge) (base : MemoryGraph) :
    (m.storedNodes.foldl putNode base).HasEnds edge.stored :=
  ⟨mem_keys_storedNodes.2 (.inr h.1), mem_keys_storedNodes.2 (.inr h.2)⟩

theorem WellFormed.map_entries (h : m.WellFormed) :
    (m.entries.map fun item => { item.node with id := item.id : Node }.stored) = m.storedNodes := by
  rw [h.entries_eq, List.map_map]
  rfl

namespace Textual

variable (htext : m.Textual) (hm : m.WellFormed)

include htext hm

/-! Texts are kept as they are. -/

theorem storedNodes_eq : m.storedNodes = m.nodes := by
  apply List.map_congr_left
  intro row hrow
  obtain ⟨id, kind, function, hnode⟩ := htext.exists_node hm (List.mem_map_of_mem hrow)
  rw [storedNode, ← htext.node_id hm row hrow, hnode]
  rfl

theorem storedEdges_eq : m.storedEdges = m.edges := by
  refine (List.map_congr_left ?_).trans (List.map_id m.edges)
  intro edge hedge
  obtain ⟨src, dst, kind, rfl, _⟩ := htext.exists_edge hm hedge
  rfl

theorem endsWritten : m.EndsWritten := by
  have hwritten : ∀ s : String, (Value.text s).key ∈ m.keys → s ∈ m.nodeIds.map Value.toText := by
    intro s hs
    obtain ⟨id, hid, hkey⟩ := List.mem_map.1 hs
    rw [Value.key_eq_text.1 hkey] at hid
    exact List.mem_map_of_mem (f := Value.toText) hid
  intro edge hedge
  obtain ⟨src, dst, kind, rfl, hsrc, hdst⟩ := htext.exists_edge hm hedge
  exact ⟨hwritten src hsrc, hwritten dst hdst⟩

end Textual

end MemoryGraph

open MemoryGraph

namespace StoredGraph

variable {δ : Type} {g : StoredGraph δ} {m : MemoryGraph}

section

variable {α : Type} {add : StoredGraph δ → α → Except Fault (StoredGraph δ)} {items : List α}

theorem addEach_append (items' : List α) :
    addEach add (items ++ items') g = match addEach add items g with
      | (g, .error fault) => (g, .error fault)
      | (g, .ok ()) => addEach add items' g := by
  induction items generalizing g with
  | nil => rfl
  | cons item items ih =>
    rw [List.cons_append, addEach, addEach]
    cases add g item with
    | error fault => rfl
    | ok g' => exact ih

theorem addEach_keeps {P : StoredGraph δ → Prop}
    (hadd : ∀ item ∈ items, ∀ g g', P g → add g item = .ok g' → P g') (h : P g) :
    P (addEach add items g).1 := by
  induction items generalizing g with
  | nil => exact h
  | cons item items ih =>
    rw [List.forall_mem_cons] at hadd
    rw [addEach]
    cases hitem : add g item with
    | error fault => exact h
    | ok g' => exact ih hadd.2 (hadd.1 g g' h hitem)

end

variable [Store δ]

namespace Numbered

variable (h : g.Numbered)

include h

theorem addEach_addNode (nodes : List Node) :
    ∃ g', addEach (fun g node => return (← g.addNode node).1) nodes g = (g', .ok ()) ∧
      g'.Numbered ∧ g'.view = (nodes.map Node.stored).foldl putNode g.view := by
  induction nodes generalizing g with
  | nil => exact ⟨g, rfl, h, rfl⟩
  | cons node nodes ih =>
    obtain ⟨g₁, added, hadd, h₁, hview₁⟩ := h.addNode node
    obtain ⟨g', hrest, h', hview'⟩ := ih h₁
    refine ⟨g', ?_, h', ?_⟩
    · rw [addEach, hadd]
      exact hrest
    · rw [hview', hview₁]
      rfl

theorem addEach_addEdge {edges : List Edge}
    (hends : ∀ edge ∈ edges, g.view.HasEnds edge.stored) :
    ∃ g', addEach (fun g edge => return (← g.addEdge edge).1) edges g = (g', .ok ()) ∧
      g'.Numbered ∧ g'.view = (edges.map Edge.stored).foldl putEdge g.view := by
  induction edges generalizing g with
  | nil => exact ⟨g, rfl, h, rfl⟩
  | cons edge edges ih =>
    rw [List.forall_mem_cons] at hends
    obtain ⟨⟨hsrc, hdst⟩, hends⟩ := hends
    rw [← contains_iff_mem_keys] at hsrc hdst
    obtain ⟨g₁, added, hadd, h₁, hview₁⟩ := h.addEdge_of_hasNode
      ((contains_view _).symm.trans hsrc) ((contains_view _).symm.trans hdst)
    obtain ⟨g', hrest, h', hview'⟩ := ih h₁ (by rw [hview₁]; exact hends)
    refine ⟨g', ?_, h', ?_⟩
    · rw [addEach, hadd]
      exact hrest
    · rw [hview', hview₁]
      rfl

theorem addEach_entries (hm : m.WellFormed) :
    ∃ g', addEach (fun g node => return (← g.addNode node).1)
        (m.entries.map fun item => { item.node with id := item.id }) g = (g', .ok ()) ∧
      g'.Numbered ∧ g'.view = m.storedNodes.foldl putNode g.view := by
  obtain ⟨g', hnodes, h', hview⟩ :=
    h.addEach_addNode (m.entries.map fun item => { item.node with id := item.id })
  rw [List.map_map, Function.comp_def, hm.map_entries] at hview
  exact ⟨g', hnodes, h', hview⟩

theorem loadFrom_eq (hm : m.WellFormed) (hends : m.EndsWritten) :
    ∃ g', g.loadFrom m.entries = ⟨g', [.loaded m.nodeCount m.edgeCount g'.graphId],
        .ok ⟨m.nodeCount, m.edgeCount⟩⟩ ∧ g'.Numbered ∧ g'.view = m.storedOnto g.view := by
  obtain ⟨g₁, hnodes, h₁, hview₁⟩ := h.addEach_entries hm
  have hknown : ∀ edge ∈ m.edges, g₁.view.HasEnds edge.stored := by
    intro edge hedge
    rw [hview₁]
    exact (hends edge hedge).hasEnds g.view
  obtain ⟨g₂, hedges, h₂, hview₂⟩ := h₁.addEach_addEdge hknown
  refine ⟨g₂, ?_, h₂, ?_⟩
  · have hcount : m.entries.length = m.nodeCount := by
      rw [hm.entries_eq, List.length_map]
      rfl
    simp only [loadFrom, hnodes, hm.flatMap_entries, hedges, List.length_map, hcount,
      edgeCount_eq_length_edges]
  · rw [hview₂, hview₁]
    rfl

end Numbered

theorem loadFrom_entries (hm : m.WellFormed) (htext : m.Textual) (graphId automatic : Value) :
    let outcome := (openOn (Store.empty : δ) graphId automatic).loadFrom m.entries
    outcome.result = .ok ⟨m.nodeCount, m.edgeCount⟩ ∧ outcome.graph.Numbered ∧
      outcome.graph.view = { records := m.records, out := m.out } := by
  intro outcome
  obtain ⟨g, hload, hg, hview⟩ :=
    (numbered_openOn_empty (δ := δ) graphId automatic).loadFrom_eq hm (htext.endsWritten hm)
  have houtcome : outcome = _ := hload
  rw [houtcome]
  refine ⟨rfl, hg, hview.trans ?_⟩
  rw [storedOnto, htext.storedNodes_eq hm, htext.storedEdges_eq hm, view_openOn_empty, hm.rebuild,
    hm.renamed_eq (htext.node_id hm)]

/-- What the operations can make of a graph on a database that was empty at first, while it is open.
Its database may be closed and opened again. -/
inductive Reachable : StoredGraph δ → Prop
  | empty (graphId automatic : Value) : Reachable (openOn Store.empty graphId automatic)
  | addNode {g g' : StoredGraph δ} {node added : Node} :
      Reachable g → g.addNode node = .ok (g', added) → Reachable g'
  | addEdge {g g' : StoredGraph δ} {edge added : Edge} :
      Reachable g → g.addEdge edge = .ok (g', added) → Reachable g'
  | load {g : StoredGraph δ} (source : LoadSource δ) :
      Reachable g → Reachable (g.load source).graph
  | reopen {g : StoredGraph δ} {db : δ} (graphId automatic : Value) :
      Reachable g → Store.Reopens g.database db → Reachable (openOn db graphId automatic)

theorem Numbered.of_addNode (h : g.Numbered) {node added : Node} {g' : StoredGraph δ}
    (hadd : g.addNode node = .ok (g', added)) : g'.Numbered := by
  obtain ⟨g₁, added₁, hadd₁, h₁, _⟩ := h.addNode node
  cases hadd.symm.trans hadd₁
  exact h₁

theorem Numbered.of_addEdge (h : g.Numbered) {edge added : Edge} {g' : StoredGraph δ}
    (hadd : g.addEdge edge = .ok (g', added)) : g'.Numbered := by
  obtain ⟨g₁, added₁, hadd₁, h₁, _⟩ | ⟨fault, _, hadd₁, _⟩ := h.addEdge edge
  · cases hadd.symm.trans hadd₁
    exact h₁
  · cases hadd.symm.trans hadd₁

/-! A load, whether it ends or breaks off, keeps what the additions it is made of keep. -/

theorem Numbered.addEach_addNode_fst (h : g.Numbered) (nodes : List Node) :
    (addEach (fun g node => return (← g.addNode node).1) nodes g).1.Numbered := by
  apply addEach_keeps _ h
  intro node _ g g' h hadd
  obtain ⟨⟨g₁, added⟩, hadd₁, heq⟩ := bind_eq_ok hadd
  cases heq
  exact h.of_addNode hadd₁

theorem Numbered.addEach_addEdge_fst (h : g.Numbered) (edges : List Edge) :
    (addEach (fun g edge => return (← g.addEdge edge).1) edges g).1.Numbered := by
  apply addEach_keeps _ h
  intro edge _ g g' h hadd
  obtain ⟨⟨g₁, added⟩, hadd₁, heq⟩ := bind_eq_ok hadd
  cases heq
  exact h.of_addEdge hadd₁

theorem Numbered.loadFrom (h : g.Numbered) (source : List Entry) :
    (g.loadFrom source).graph.Numbered := by
  have hnodes := h.addEach_addNode_fst (source.map fun item => { item.node with id := item.id })
  have hedges := hnodes.addEach_addEdge_fst (source.flatMap (·.out))
  unfold StoredGraph.loadFrom
  grind

theorem Numbered.repeatEdges (h : g.Numbered) (ids : List Value) (loaded : Nat) :
    (repeatEdges ids g loaded).1.Numbered := by
  induction ids generalizing g loaded with
  | nil => exact h
  | cons id ids ih =>
    rw [StoredGraph.repeatEdges]
    split
    · exact h
    · rename_i edges _
      have hedges := h.addEach_addEdge_fst edges
      split
      · rename_i hadd
        rwa [hadd] at hedges
      · rename_i hadd
        rw [hadd] at hedges
        exact ih hedges _

theorem Numbered.loadItself (h : g.Numbered) : g.loadItself.graph.Numbered := by
  have hnodes : ∀ ids, (addEach repeatNode ids g).1.Numbered := by
    intro ids
    apply addEach_keeps _ h
    intro id _ g g' h hadd
    obtain ⟨node?, _, hadd⟩ := bind_eq_ok hadd
    cases node? with
    | none => cases hadd
    | some node =>
      obtain ⟨⟨g₁, added⟩, hadd₁, heq⟩ := bind_eq_ok hadd
      cases heq
      exact h.of_addNode hadd₁
  unfold StoredGraph.loadItself
  split
  · exact h
  · rename_i ids _
    have hids := hnodes ids
    have hedges := hids.repeatEdges ids 0
    grind

theorem Reachable.numbered (h : g.Reachable) : g.Numbered := by
  induction h with
  | empty graphId automatic => exact numbered_openOn_empty graphId automatic
  | addNode _ hadd ih => exact ih.of_addNode hadd
  | addEdge _ hadd ih => exact ih.of_addEdge hadd
  | load source _ ih =>
    cases source with
    | memory m => exact ih.loadFrom m.entries
    | stored s =>
      simp only [StoredGraph.load]
      split
      · exact ih.loadFrom _
      · exact ih
    | itself => exact ih.loadItself
  | reopen graphId automatic _ hdb ih => exact ih.openOn hdb graphId automatic

end StoredGraph

end FlowPaths
