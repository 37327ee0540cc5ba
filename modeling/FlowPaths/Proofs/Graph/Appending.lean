import FlowPaths.Proofs.Graph.Storing

/-!
Loads into a graph that holds something already.  What it holds stays in its place, and what the
source lists comes behind; the records of nodes that both have are those of the source.  A graph
can be loaded into itself: when the turn of a node comes, nothing that was loaded before concerns
it, so that it is read as it was at the call.
-/

namespace FlowPaths

theorem eraseDupsBy_same_of_nodup {ids : List Value} (h : (ids.map Value.key).Nodup) :
    ids.eraseDupsBy Value.same = ids := by
  induction ids with
  | nil => rfl
  | cons id ids ih =>
    rw [List.map_cons, List.nodup_cons] at h
    have hother : (ids.filter fun other => other.same id = false) = ids := by
      rw [List.filter_eq_self]
      intro other hmem
      rw [decide_eq_true_eq, ← Bool.not_eq_true, Value.same_iff]
      intro hkey
      exact h.1 (hkey ▸ List.mem_map_of_mem hmem)
    rw [List.eraseDupsBy_cons, hother, ih h.2]

theorem Table.set_of_find? {α : Type} {t : Table α} (hnodup : (t.keys.map Value.key).Nodup)
    {k : Value} {a : α} (h : t.find? k = some a) : t.set k a = t := by
  have hcontains : t.contains k = true := by rw [← t.isSome_find?, h, Option.isSome_some]
  rw [set, if_pos hcontains, modify]
  congr 1
  refine (List.map_congr_left fun row hrow => ?_).trans (List.map_id t.rows)
  split
  · rename_i hsame
    have hfind := t.find?_of_mem hnodup hrow
    rw [t.find?_congr ((Value.same_iff _ _).1 hsame), h] at hfind
    rw [Option.some.inj hfind]
    rfl
  · rfl

namespace MemoryGraph

variable {m base : MemoryGraph}

theorem WellFormed.putNode_of_find? (hm : m.WellFormed) {node : Node}
    (h : m.records.find? node.id = some node) : m.putNode node = m := by
  have hcontains : m.contains node.id = true := by
    rw [contains, ← Table.isSome_find?, h, Option.isSome_some]
  rw [MemoryGraph.putNode, hcontains, if_pos rfl, Table.set_of_find? hm.nodup h]

theorem WellFormed.outEdges_putEdge_of_ne (hm : m.WellFormed) {edge : Edge} {id : Value}
    (hsrc : edge.src.key ∈ m.keys) (hne : edge.src.key ≠ id.key) :
    (m.putEdge edge).outEdges id = m.outEdges id := by
  have hother : edge.src.same id = false := by
    rwa [← Bool.not_eq_true, Value.same_iff]
  have hedges : ([edge].foldl MemoryGraph.putEdge m).outEdges id =
      (m.outEdges id).map (· ++ [edge].filter fun edge => edge.src.same id) :=
    hm.outEdges_foldl_putEdge (by simpa using hsrc)
  rw [List.filter_cons_of_neg (by simp [hother]), List.filter_nil] at hedges
  simp only [List.append_nil] at hedges
  exact hedges.trans (id_map (m.outEdges id))

theorem WellFormed.outEdges_entry (hm : m.WellFormed) {item : Entry} (hitem : item ∈ m.entries) :
    m.outEdges item.id = .ok item.out := by
  rw [hm.entries_eq] at hitem
  obtain ⟨row, hrow, rfl⟩ := List.mem_map.1 hitem
  exact Value.lookUp_eq_ok.2 ⟨hm.hashable _ (List.mem_map_of_mem hrow), rfl⟩

theorem WellFormed.find?_nodes (hm : m.WellFormed) (id : Value) :
    (m.nodes.reverse.find? fun node => node.id.same id) = m.records.find? id := by
  cases hfind : m.nodes.reverse.find? fun node => node.id.same id with
  | some node =>
    have hsame := List.find?_some hfind
    obtain ⟨row, hrow, rfl⟩ := List.mem_map.1 (List.mem_reverse.1 (List.mem_of_find?_eq_some hfind))
    rw [← Table.find?_congr ((hm.node row hrow).symm.trans ((Value.same_iff _ _).1 hsame))]
    exact (hm.find?_records hrow).symm
  | none =>
    rw [List.find?_eq_none] at hfind
    cases hrecord : m.records.find? id with
    | none => rfl
    | some node =>
      obtain ⟨name, hrow, hkey⟩ := Table.mem_of_find? hrecord
      have hnode : node ∈ m.nodes := List.mem_map.2 ⟨_, hrow, rfl⟩
      have hid : node.id.key = id.key := (hm.node _ hrow).trans hkey
      exact absurd ((Value.same_iff _ _).2 hid) (hfind node (List.mem_reverse.2 hnode))

namespace Textual

variable (htext : m.Textual) (hm : m.WellFormed)

include htext hm

theorem map_id_nodes : m.nodes.map Node.id = m.nodeIds := by
  rw [nodes, Table.values, List.map_map]
  exact List.map_congr_left (htext.node_id hm)

theorem src_entry {item : Entry} (hitem : item ∈ m.entries) :
    ∀ edge ∈ item.out, edge.src = item.id := by
  rw [hm.entries_eq] at hitem
  obtain ⟨row, hrow, rfl⟩ := List.mem_map.1 hitem
  obtain ⟨s, hs⟩ := htext.ids row.1 (List.mem_map_of_mem hrow)
  intro edge hedge
  cases hfind : m.out.find? row.1 with
  | none =>
    rw [hfind] at hedge
    cases hedge
  | some out =>
    rw [hfind] at hedge
    obtain ⟨name, hname, hkey⟩ := Table.mem_of_find? hfind
    have hsrc := (hm.src _ hname edge hedge).trans hkey
    dsimp only
    rw [hs] at hsrc ⊢
    exact Value.key_eq_text.1 hsrc

theorem nodeIds_storedOnto (base : MemoryGraph) : (m.storedOnto base).nodeIds =
    base.nodeIds ++ m.nodeIds.filter fun id => !base.contains id := by
  have hnodup : ((m.nodeIds.filter fun id => !base.contains id).map Value.key).Nodup :=
    hm.nodup.sublist (List.filter_sublist.map _)
  rw [storedOnto, nodeIds_foldl_putEdge, nodeIds_foldl_putNode, htext.storedNodes_eq hm,
    htext.map_id_nodes hm, eraseDupsBy_same_of_nodup hnodup]

theorem getNode_storedOnto (base : MemoryGraph) (id : Value) : (m.storedOnto base).getNode id =
    id.lookUp ((m.records.find? id).or (base.records.find? id)) := by
  rw [storedOnto, getNode_foldl_putEdge, getNode, find?_foldl_putNode, htext.storedNodes_eq hm,
    hm.find?_nodes]

theorem outEdges_storedOnto (hbase : base.WellFormed) (id : Value) :
    (m.storedOnto base).outEdges id =
      (base.outEdges id).map (· ++ (m.out.find? id).getD []) := by
  have hnodes : ∀ node ∈ m.nodes, node.id.hashable = true := fun _ => hm.hashable_node
  have hsrc : ∀ edge ∈ m.edges, edge.src.key ∈ (m.nodes.foldl putNode base).keys := by
    intro edge hedge
    rw [mem_keys_foldl_putNode, hm.map_key_nodes]
    exact .inr (hm.ends_mem_keys hedge).1
  rw [storedOnto, htext.storedNodes_eq hm, htext.storedEdges_eq hm,
    (hbase.foldl_putNode hnodes).outEdges_foldl_putEdge hsrc, hbase.outEdges_foldl_putNode hnodes,
    ← hm.filter_edges id]
  simp only [Value.same_comm id]

end Textual

end MemoryGraph

open MemoryGraph

namespace StoredGraph

variable {δ : Type} [Store δ] {g g' : StoredGraph δ}

/-! The graph that the tables show is one that can be loaded. -/

theorem view_wellFormed (g : StoredGraph δ) : g.view.WellFormed where
  aligned := by
    simp only [view, Table.named, Table.keys, List.map_map]
    rfl
  nodup := by
    have hnames : ((Store.nodesInOrder g.database).map (·.id)).Nodup :=
      ((Store.nodes_ordered g.database).perm.map _).nodup_iff.2 (Store.unique_key _)
    rw [keys, nodeIds_view, List.map_map]
    apply hnames.map
    intro s t hkey
    simpa using hkey
  hashable := by
    intro id hid
    rw [nodeIds_view] at hid
    obtain ⟨s, _, rfl⟩ := List.mem_map.1 hid
    rfl
  node := by
    intro row hrow
    obtain ⟨row, _, rfl⟩ := List.mem_map.1 hrow
    rfl
  src := by
    intro row hrow edge hedge
    obtain ⟨node, _, rfl⟩ := List.mem_map.1 hrow
    obtain ⟨stored, hstored, rfl⟩ := List.mem_map.1 hedge
    rw [edgeOfRow, (Store.mem_edgesInOrder.1 hstored).2]
  dst := by
    intro row hrow edge hedge
    obtain ⟨node, _, rfl⟩ := List.mem_map.1 hrow
    obtain ⟨stored, hstored, rfl⟩ := List.mem_map.1 hedge
    have hjoined := Store.joins_nodes _ stored (Store.mem_edgesInOrder.1 hstored).1
    rw [← contains_iff_mem_keys]
    exact (contains_view _).trans (Store.hasNode_iff.2 hjoined.2)

theorem view_textual (g : StoredGraph δ) : g.view.Textual where
  ids := by
    intro id hid
    rw [nodeIds_view] at hid
    obtain ⟨s, _, rfl⟩ := List.mem_map.1 hid
    exact ⟨s, rfl⟩
  labels := by
    intro node hnode
    simp only [MemoryGraph.nodes, view, Table.named, Table.values, List.map_map] at hnode
    obtain ⟨row, _, rfl⟩ := List.mem_map.1 hnode
    exact ⟨row.kind, row.function, rfl, rfl⟩
  kinds := by
    intro edge hedge
    obtain ⟨row, _, rfl⟩ := List.mem_map.1 (g.edges_view_perm.mem_iff.1 hedge)
    exact ⟨row.kind, rfl⟩

namespace Numbered

variable (h : g.Numbered)

include h

theorem find?_records_view (s : String) :
    g.view.records.find? (.text s) = (Store.node? g.database s).map nodeOfRow := by
  have hnode := h.getNode_text s
  rw [StoredGraph.getNode, h.tables] at hnode
  exact (Except.ok.inj hnode).symm

theorem find?_out_view (s : String) :
    (g.view.out.find? (.text s)).getD [] =
      (Store.edgesInOrder g.database s).map edgeOfRow := by
  have hedges := h.outEdges_text s
  rw [StoredGraph.outEdges, h.tables] at hedges
  exact (Except.ok.inj hedges).symm

theorem entries_eq : g.entries = .ok g.view.entries := by
  rw [StoredGraph.entries, h.tables, MemoryGraph.entries, nodeIds_view, List.filterMap_map]
  apply congrArg Except.ok
  apply List.filterMap_congr
  intro s _
  rw [Function.comp_apply, h.find?_records_view, h.find?_out_view, Option.map_map]
  rfl

end Numbered

/-! A graph that is loaded into itself. -/

namespace Numbered

variable (h : g.Numbered)

include h

theorem getNode_entry {item : Entry} (hitem : item ∈ g.view.entries) :
    g.getNode item.id = .ok (some item.node) ∧ { item.node with id := item.id } = item.node ∧
      item.node.stored = item.node ∧ g.view.records.find? item.node.id = some item.node := by
  have hm := g.view_wellFormed
  rw [hm.entries_eq] at hitem
  obtain ⟨row, hrow, rfl⟩ := List.mem_map.1 hitem
  have hid := g.view_textual.node_id hm row hrow
  have hfind := hm.find?_records hrow
  obtain ⟨s, kind, function, hnode⟩ := g.view_textual.exists_node hm (List.mem_map_of_mem hrow)
  dsimp only
  rw [← hid] at hfind ⊢
  refine ⟨?_, rfl, ?_, hfind⟩
  · have hs : row.2.id = .text s := by rw [hnode]
    rw [hs] at hfind ⊢
    rw [h.getNode_text, MemoryGraph.getNode, hfind]
    rfl
  · rw [hnode]
    rfl

theorem addEach_again {items : List Entry} (hitems : ∀ item ∈ items, item ∈ g.view.entries) :
    ∃ g', addEach repeatNode (items.map (·.id)) g = (g', .ok ()) ∧
      addEach (fun g node => return (← g.addNode node).1)
        (items.map fun item => { item.node with id := item.id }) g = (g', .ok ()) ∧
      g'.Numbered ∧ g'.view = g.view := by
  induction items generalizing g with
  | nil => exact ⟨g, rfl, rfl, h, rfl⟩
  | cons item items ih =>
    rw [List.forall_mem_cons] at hitems
    obtain ⟨hget, hid, hstored, hfind⟩ := h.getNode_entry hitems.1
    obtain ⟨g₁, added, hadd, h₁, hview₁⟩ := h.addNode item.node
    rw [hstored, g.view_wellFormed.putNode_of_find? hfind] at hview₁
    obtain ⟨g', hrepeated, hadded, h', hview'⟩ := ih h₁ (by rw [hview₁]; exact hitems.2)
    refine ⟨g', ?_, ?_, h', hview'.trans hview₁⟩
    · have hrepeat : g.repeatNode item.id = .ok g₁ := by
        simp only [repeatNode, hget, bind, Except.bind, hid, hadd]
        rfl
      rw [List.map_cons, addEach, hrepeat]
      exact hrepeated
    · rw [List.map_cons, addEach, hid, hadd]
      exact hadded

theorem addEach_addEdge_other {edges : List Edge} {s : String}
    (hother : ∀ edge ∈ edges, edge.src.toText ≠ s) :
    (addEach (fun g edge => return (← g.addEdge edge).1) edges g).1.outEdges (.text s) =
      g.outEdges (.text s) := by
  refine (addEach_keeps (P := fun g' => g'.Numbered ∧
    g'.outEdges (.text s) = g.outEdges (.text s)) ?_ ⟨h, rfl⟩).2
  intro edge hedge g₁ g₂ hkept hadd
  obtain ⟨⟨g₃, added⟩, hadd₁, heq⟩ := bind_eq_ok hadd
  cases heq
  obtain ⟨g', added', hadd', h', hview⟩ | ⟨fault, _, hadd', _⟩ := hkept.1.addEdge edge
  · cases hadd₁.symm.trans hadd'
    obtain ⟨hsrc, _, hput⟩ := MemoryGraph.addEdge_eq_ok hview
    refine ⟨h', ?_⟩
    rw [h'.outEdges_text, hput, g₁.view_wellFormed.outEdges_putEdge_of_ne hsrc,
      ← hkept.1.outEdges_text, hkept.2]
    intro hkey
    cases Value.key_eq_text.1 hkey
    exact hother edge hedge rfl
  · cases hadd₁.symm.trans hadd'

/-- Nodes are read one after another while the graph grows, and each one still has the edges that it
had at first. -/
theorem repeatEdges_eq {items : List Entry} (hids : ∀ item ∈ items, ∃ s, item.id = .text s)
    (hnodup : (items.map (·.id)).Nodup)
    (hsrc : ∀ item ∈ items, ∀ edge ∈ item.out, edge.src = item.id)
    (hout : ∀ item ∈ items, g.outEdges item.id = .ok item.out) (loaded : Nat) :
    StoredGraph.repeatEdges (items.map (·.id)) g loaded =
      match addEach (fun g edge => return (← g.addEdge edge).1) (items.flatMap (·.out)) g with
      | (g, .error fault) => (g, .error fault)
      | (g, .ok ()) => (g, .ok (loaded + (items.flatMap (·.out)).length)) := by
  induction items generalizing g loaded with
  | nil => rfl
  | cons item items ih =>
    rw [List.map_cons, List.nodup_cons] at hnodup
    rw [List.forall_mem_cons] at hids hsrc hout
    -- Before the others are read only edges of `item` are added.
    have hkept : ∀ other ∈ items,
        (addEach (fun g edge => return (← g.addEdge edge).1) item.out g).1.outEdges other.id =
          .ok other.out := by
      intro other hother
      obtain ⟨s, hs⟩ := hids.1
      obtain ⟨t, ht⟩ := hids.2 other hother
      rw [← hout.2 other hother, ht]
      apply h.addEach_addEdge_other
      intro edge hedge heq
      rw [hsrc.1 edge hedge, hs] at heq
      apply hnodup.1
      rw [hs, show s = t from heq, ← ht]
      exact List.mem_map_of_mem hother
    have hadded := h.addEach_addEdge_fst item.out
    rw [List.map_cons, StoredGraph.repeatEdges, hout.1, List.flatMap_cons, addEach_append,
      List.length_append, ← Nat.add_assoc]
    dsimp only
    generalize addEach (fun g edge => return (← g.addEdge edge).1) item.out g = added
      at hkept hadded
    obtain ⟨g', fault | ⟨⟩⟩ := added
    · rfl
    · exact ih hadded hids.2 hnodup.2 hsrc.2 hkept _

theorem loadItself_eq : g.loadItself = g.loadFrom g.view.entries := by
  have hm := g.view_wellFormed
  have hids : g.view.nodeIds = g.view.entries.map (·.id) := by
    rw [hm.entries_eq, List.map_map]
    rfl
  have htexts : ∀ item ∈ g.view.entries, ∃ s, item.id = .text s := fun item hitem =>
    g.view_textual.ids _ (hids ▸ List.mem_map_of_mem hitem)
  have hnodup : (g.view.entries.map (·.id)).Nodup := hids ▸ hm.nodup.of_map Value.key
  obtain ⟨g', hrepeated, hadded, h', hview⟩ := h.addEach_again fun _ hitem => hitem
  have hout : ∀ item ∈ g.view.entries, g'.outEdges item.id = .ok item.out := by
    intro item hitem
    obtain ⟨s, hs⟩ := htexts item hitem
    rw [hs, h'.outEdges_text, hview, ← hs]
    exact hm.outEdges_entry hitem
  have hread := h'.repeatEdges_eq htexts hnodup (fun _ => g.view_textual.src_entry hm) hout 0
  simp only [StoredGraph.loadItself, StoredGraph.loadFrom, h.nodeIds, hids, hrepeated, hadded,
    hread]
  generalize addEach _ (g.view.entries.flatMap (·.out)) g' = added
  obtain ⟨g'', fault | ⟨⟩⟩ := added
  · rfl
  · simp only [Nat.zero_add, List.length_map]

end Numbered

end StoredGraph

namespace LoadSource

variable {δ : Type} [Store δ]

def ask {α : Type} (source : LoadSource δ) (g : StoredGraph δ)
    (ofMemory : MemoryGraph → Except Fault α) (ofStored : StoredGraph δ → Except Fault α) :
    Except Fault α :=
  match source with
  | .memory m => ofMemory m
  | .stored s => ofStored s
  | .itself => ofStored g

def nodeIds (source : LoadSource δ) (g : StoredGraph δ) : Except Fault (List Value) :=
  source.ask g (fun m => .ok m.nodeIds) StoredGraph.nodeIds

def nodeCount (source : LoadSource δ) (g : StoredGraph δ) : Except Fault Nat :=
  source.ask g (fun m => .ok m.nodeCount) StoredGraph.nodeCount

def edgeCount (source : LoadSource δ) (g : StoredGraph δ) : Except Fault Nat :=
  source.ask g (fun m => .ok m.edgeCount) StoredGraph.edgeCount

def getNode (source : LoadSource δ) (g : StoredGraph δ) (id : Value) : Except Fault (Option Node) :=
  source.ask g (fun m => m.getNode id) (fun s => s.getNode id)

def outEdges (source : LoadSource δ) (g : StoredGraph δ) (id : Value) : Except Fault (List Edge) :=
  source.ask g (fun m => m.outEdges id) (fun s => s.outEdges id)

/-- The source is a graph that its operations can make, and its names and labels are texts, as those
of stored graphs always are. -/
def Sound : LoadSource δ → Prop
  | .memory m => m.Reachable ∧ m.Textual
  | .stored s => s.Reachable
  | .itself => True

structure Shows (source : LoadSource δ) (g : StoredGraph δ) (m : MemoryGraph) : Prop where
  wellFormed : m.WellFormed
  textual : m.Textual
  nodeIds : source.nodeIds g = .ok m.nodeIds
  nodeCount : source.nodeCount g = .ok m.nodeCount
  edgeCount : source.edgeCount g = .ok m.edgeCount
  getNode : ∀ s : String, source.getNode g (.text s) = m.getNode (.text s)
  outEdges : ∀ s : String, source.outEdges g (.text s) = m.outEdges (.text s)
  load : g.load source = g.loadFrom m.entries

theorem Sound.shows {source : LoadSource δ} (h : source.Sound) {g : StoredGraph δ}
    (hg : g.Numbered) : ∃ m, source.Shows g m := by
  cases source with
  | memory m => exact ⟨m, h.1.wellFormed, h.2, rfl, rfl, rfl, fun _ => rfl, fun _ => rfl, rfl⟩
  | stored s =>
    have hs : s.Numbered := StoredGraph.Reachable.numbered h
    refine ⟨s.view, s.view_wellFormed, s.view_textual, hs.nodeIds, hs.nodeCount, hs.edgeCount,
      hs.getNode_text, hs.outEdges_text, ?_⟩
    simp only [StoredGraph.load, hs.entries_eq]
  | itself =>
    exact ⟨g.view, g.view_wellFormed, g.view_textual, hg.nodeIds, hg.nodeCount, hg.edgeCount,
      hg.getNode_text, hg.outEdges_text, hg.loadItself_eq⟩

end LoadSource

namespace StoredGraph

variable {δ : Type} [Store δ] {g : StoredGraph δ}

theorem contains_view_eq {id : Value} (hid : ∃ s, id = .text s) :
    g.view.contains id = g.view.nodeIds.contains id := by
  obtain ⟨s, rfl⟩ := hid
  rw [Bool.eq_iff_iff, contains_iff_mem_keys, List.contains_iff_mem]
  constructor
  · intro hkey
    obtain ⟨id, hid, hkey⟩ := List.mem_map.1 hkey
    rwa [← Value.key_eq_text.1 hkey]
  · exact List.mem_map_of_mem

/-- A load fails in no state of the graph and from no source of texts, the graph itself among them.
Names keep their places and new ones come behind; a node has the labels that the source has for it,
or else its own; its edges are followed by those that the source had for it when the load began. -/
theorem Reachable.load_appends (hg : g.Reachable) (source : LoadSource δ) (hsource : source.Sound) :
    let outcome := g.load source
    (∃ nodes edges, source.nodeCount g = .ok nodes ∧ source.edgeCount g = .ok edges ∧
        outcome.result = .ok ⟨nodes, edges⟩) ∧
      (∃ old listed, g.nodeIds = .ok old ∧ source.nodeIds g = .ok listed ∧
        outcome.graph.nodeIds = .ok (old ++ listed.filter fun id => !old.contains id)) ∧
      (∀ s : String, ∃ old listed, g.getNode (.text s) = .ok old ∧
        source.getNode g (.text s) = .ok listed ∧
        outcome.graph.getNode (.text s) = .ok (listed.or old)) ∧
      ∀ s : String, ∃ old listed, g.outEdges (.text s) = .ok old ∧
        source.outEdges g (.text s) = .ok listed ∧
        outcome.graph.outEdges (.text s) = .ok (old ++ listed) := by
  intro outcome
  have h := hg.numbered
  obtain ⟨m, hshows⟩ := hsource.shows h
  obtain ⟨hm, htext⟩ := And.intro hshows.wellFormed hshows.textual
  obtain ⟨g', hload, h', hview⟩ := h.loadFrom_eq hm (htext.endsWritten hm)
  have houtcome : outcome = _ := hshows.load.trans hload
  rw [houtcome]
  refine ⟨⟨_, _, hshows.nodeCount, hshows.edgeCount, rfl⟩, ⟨_, _, h.nodeIds, hshows.nodeIds, ?_⟩,
    fun s => ⟨_, _, h.getNode_text s, hshows.getNode s, ?_⟩,
    fun s => ⟨_, _, h.outEdges_text s, hshows.outEdges s, ?_⟩⟩
  · rw [h'.nodeIds, hview, htext.nodeIds_storedOnto hm]
    apply congrArg fun ids => Except.ok (g.view.nodeIds ++ ids)
    apply List.filter_congr
    intro id hid
    rw [contains_view_eq (htext.ids id hid)]
  · rw [h'.getNode_text, hview, htext.getNode_storedOnto hm]
    rfl
  · rw [h'.outEdges_text, hview, htext.outEdges_storedOnto hm g.view_wellFormed]
    rfl

def rearranged : StoredGraph Database where
  graphId := .text "k"
  database :=
    { nodes := [⟨"b", "", "", 1⟩, ⟨"a", "Entry", "main", 0⟩]
      edges := [⟨"b", "a", "", 1⟩, ⟨"a", "b", "call", 0⟩]
      unique := by decide
      joined := by decide }
  nextNode := 2
  nextEdge := 2

theorem rearranged_reachable : rearranged.Reachable := by
  have h := Reachable.empty (δ := Database) .null .null
  have h := @Reachable.addNode _ _ _ _ ⟨.text "a", .text "Entry", .text "main"⟩ _ h rfl
  have h := @Reachable.addNode _ _ _ _ { id := .text "b" } _ h rfl
  have h := @Reachable.addEdge _ _ _ _ ⟨.text "a", .text "b", .text "call"⟩ _ h rfl
  have h := @Reachable.addEdge _ _ _ _ { src := .text "b", dst := .text "a" } _ h rfl
  exact h.reopen (.text "k") .null (Database.Rearranges.mk (List.Perm.swap ..) (List.Perm.swap ..))

theorem rearranged_load_appends :
    let outcome := rearranged.load .itself
    let call : Edge := ⟨.text "a", .text "b", .text "call"⟩
    rearranged.Reachable ∧ (LoadSource.itself (δ := Database)).Sound ∧ outcome.result = .ok ⟨2, 2⟩ ∧
      outcome.graph.nodeIds = .ok [.text "a", .text "b"] ∧
      outcome.graph.getNode (.text "a") =
        .ok (some ⟨.text "a", .text "Entry", .text "main"⟩) ∧
      outcome.graph.outEdges (.text "a") = .ok [call, call] := by
  intro outcome call
  have hids : rearranged.nodeIds = .ok [.text "a", .text "b"] := by
    simp [StoredGraph.nodeIds, tables, rearranged, Store.nodesInOrder, List.mergeSort, bind,
      Except.bind, pure, Except.pure]
  have hnode : rearranged.getNode (.text "a") =
      .ok (some ⟨.text "a", .text "Entry", .text "main"⟩) := by decide +kernel
  have hedges : rearranged.outEdges (.text "a") = .ok [call] := by decide +kernel
  obtain ⟨⟨nodes, edges, hnodes, hcount, hresult⟩, ⟨old, listed, hold, hlisted, hnew⟩, hget,
    hout⟩ := rearranged_reachable.load_appends .itself trivial
  obtain ⟨old', listed', hold', hlisted', hget⟩ := hget "a"
  obtain ⟨old'', listed'', hold'', hlisted'', hout⟩ := hout "a"
  cases hnodes
  cases hcount
  cases hids.symm.trans hold
  cases hids.symm.trans hlisted
  cases hnode.symm.trans hold'
  cases hnode.symm.trans hlisted'
  cases hedges.symm.trans hold''
  cases hedges.symm.trans hlisted''
  exact ⟨rearranged_reachable, trivial, hresult, hnew, hget, hout⟩

end StoredGraph

end FlowPaths
