import Mathlib.Data.List.Forall2
import FlowPaths.Proofs.Graph.Filling
import FlowPaths.Proofs.Graph.RoundTrip

/-!
What makes a document one that can be imported.  Everything that the document names is checked
before the graph is touched, and the nodes and edges that pass are those that its entries describe.
-/

namespace FlowPaths

theorem mapM_eq_ok_iff {α β : Type} {f : α → Except Fault β} {as : List α} {bs : List β} :
    as.mapM f = .ok bs ↔ List.Forall₂ (fun a b => f a = .ok b) as bs := by
  constructor
  · intro h
    induction as generalizing bs with
    | nil =>
      cases h
      exact .nil
    | cons a as ih =>
      rw [List.mapM_cons] at h
      obtain ⟨b, hb, h⟩ := bind_eq_ok h
      obtain ⟨bs, hbs, h⟩ := bind_eq_ok h
      cases h
      exact .cons hb (ih hbs)
  · intro h
    induction h with
    | nil => rfl
    | cons hb _ ih =>
      rw [List.mapM_cons, hb, ih]
      rfl

def Node.ofEntry (entry : Value) : Node where
  id := entry.label "node_id"
  kind := entry.label "kind"
  function := entry.label "function"

def Edge.ofEntry (entry : Value) : Edge where
  src := entry.label "src"
  dst := entry.label "dst"
  kind := entry.label "kind"

theorem Value.label_of_field {record v : Value} {name : String} (h : record.field name = .ok v) :
    record.label name = v := by
  unfold field at h
  split at h
  · simp only [label, fieldD]
    split at h
    · rename_i hfind
      cases h
      rw [hfind, Option.getD_some]
    · cases h
  · cases h

def Value.Lacks (record : Value) (name : String) : Prop := ∀ v, record.field name ≠ .ok v

theorem Value.exists_field_of_not_lacks {record : Value} {name : String}
    (h : ¬record.Lacks name) : ∃ v, record.field name = .ok v := by
  unfold Lacks at h
  push Not at h
  exact h

def Value.HashableAt (names : List String) (record : Value) : Prop :=
  ∃ fields, record = .dictionary fields ∧
    ∀ name ∈ names, ∀ v ∈ fields.find? name, v.hashable = true

instance (names : List String) : DecidablePred (Value.HashableAt names)
  | .dictionary fields =>
    decidable_of_iff (∀ name ∈ names, ∀ v ∈ fields.find? name, v.hashable = true)
      ⟨fun h => ⟨fields, rfl, h⟩, fun ⟨_, heq, h⟩ => by cases heq; exact h⟩
  | .atom _ => .isFalse nofun
  | .tuple _ => .isFalse nofun
  | .list _ => .isFalse nofun

theorem Value.HashableAt.of_field {names : List String} {record v : Value} {name : String}
    (h : record.HashableAt names) (hname : name ∈ names) (hv : record.field name = .ok v) :
    v.hashable = true := by
  obtain ⟨fields, rfl, h⟩ := h
  simp only [field] at hv
  split at hv
  · cases hv
    exact h name hname _ ‹_›
  · cases hv

theorem Value.HashableAt.kind_of_field {names : List String} {record : Value} {name : String}
    {fault : Fault} (h : record.HashableAt names) (hfault : record.field name = .error fault) :
    fault.kind = .lookup := by
  obtain ⟨fields, rfl, _⟩ := h
  simp only [field] at hfault
  split at hfault
  · cases hfault
  · cases hfault
    rfl

theorem Value.HashableAt.label {names : List String} {record : Value} {name : String}
    (h : record.HashableAt names) (hname : name ∈ names) : (record.label name).hashable = true := by
  obtain ⟨fields, rfl, h⟩ := h
  cases hfind : fields.find? name with
  | some v =>
    simp only [Value.label, fieldD, hfind, Option.getD_some]
    exact h name hname v hfind
  | none =>
    simp only [Value.label, fieldD, hfind]
    rfl

theorem bind_eq_error {α β : Type} {x : Except Fault α} {f : α → Except Fault β} {fault : Fault}
    (h : x >>= f = .error fault) : x = .error fault ∨ ∃ a, x = .ok a ∧ f a = .error fault := by
  cases x with
  | error fault' =>
    cases h
    exact .inl rfl
  | ok a => exact .inr ⟨a, rfl, h⟩

theorem exists_of_mapM_eq_error {α β : Type} {f : α → Except Fault β} {as : List α} {fault : Fault}
    (h : as.mapM f = .error fault) : ∃ a ∈ as, f a = .error fault := by
  induction as with
  | nil => cases h
  | cons a as ih =>
    rw [List.mapM_cons] at h
    obtain ha | ⟨b, _, h⟩ := bind_eq_error h
    · exact ⟨a, List.mem_cons_self, ha⟩
    · obtain has | ⟨bs, _, h⟩ := bind_eq_error h
      · obtain ⟨a', ha', hfault⟩ := ih has
        exact ⟨a', List.mem_cons_of_mem _ ha', hfault⟩
      · cases h

namespace MemoryGraph

variable {g : MemoryGraph} {document entry : Value} {entries : Dictionary Value} {merge : Bool}
  {known present : List Key}

def listed (document : Value) (name : String) : List Value :=
  match document with
  | .dictionary entries => (Value.fieldD entries name (.list [])).elements?.getD []
  | _ => []

theorem listed_of_elements {name : String} {items : List Value}
    (h : (Value.fieldD entries name (.list [])).elements = .ok items) :
    listed (.dictionary entries) name = items := by
  unfold Value.elements at h
  split at h
  · rename_i hitems
    cases h
    simp only [listed, hitems, Option.getD_some]
  · cases h

theorem readDocument_eq_ok {nodes : List Node} {edges : List Edge} :
    readDocument entries present = .ok (nodes, edges) ↔
    ∃ nodeEntries edgeEntries,
      (Value.fieldD entries "nodes" (.list [])).elements = .ok nodeEntries ∧
      (Value.fieldD entries "edges" (.list [])).elements = .ok edgeEntries ∧
      List.Forall₂ (fun entry node => readNode entry = .ok node) nodeEntries nodes ∧
      List.Forall₂ (fun entry edge => readEdge (nodes.map (·.id.key) ++ present) entry = .ok edge)
        edgeEntries edges := by
  constructor
  · intro h
    obtain ⟨nodeEntries, hnodeEntries, h⟩ := bind_eq_ok h
    obtain ⟨nodes, hnodes, h⟩ := bind_eq_ok h
    obtain ⟨edgeEntries, hedgeEntries, h⟩ := bind_eq_ok h
    obtain ⟨edges, hedges, h⟩ := bind_eq_ok h
    cases h
    exact ⟨nodeEntries, edgeEntries, hnodeEntries, hedgeEntries, mapM_eq_ok_iff.1 hnodes,
      mapM_eq_ok_iff.1 hedges⟩
  · rintro ⟨nodeEntries, edgeEntries, hnodeEntries, hedgeEntries, hnodes, hedges⟩
    rw [← mapM_eq_ok_iff] at hnodes hedges
    simp only [readDocument, hnodeEntries, hedgeEntries]
    change (nodeEntries.mapM readNode >>= _) = _
    rw [hnodes]
    change (edgeEntries.mapM (readEdge (nodes.map (·.id.key) ++ present)) >>= _) = _
    rw [hedges]
    rfl

theorem readNode_eq_ok {node : Node} : readNode entry = .ok node ↔
    (∃ id, entry.field "node_id" = .ok id ∧ id.hashable = true) ∧ Node.ofEntry entry = node := by
  constructor
  · intro h
    obtain ⟨id, hid, h⟩ := bind_eq_ok h
    obtain ⟨_, hhash, h⟩ := bind_eq_ok h
    cases h
    refine ⟨⟨id, hid, (Value.lookUp_eq_ok.1 hhash).1⟩, ?_⟩
    rw [Node.ofEntry, Value.label_of_field hid]
  · rintro ⟨⟨id, hid, hhash⟩, rfl⟩
    have hhash : id.hash = .ok id.key := Value.lookUp_eq_ok.2 ⟨hhash, rfl⟩
    rw [readNode, hid, Node.ofEntry, Value.label_of_field hid]
    change id.hash >>= _ = _
    rw [hhash]
    rfl

theorem kind_of_checkEndpoint {id : Value} {fault : Fault} (hhash : id.hashable = true)
    (h : checkEndpoint known id = .error fault) : fault.kind = .lookup := by
  obtain hkey | ⟨k, _, h⟩ := bind_eq_error h
  · rw [Value.hash, Value.lookUp, if_pos hhash] at hkey
    cases hkey
  · split at h
    · cases h
    · cases h
      rfl

def Gives (known : List Key) (entry : Value) (name : String) : Prop :=
  ∃ id, entry.field name = .ok id ∧ id.hashable = true ∧ id.key ∈ known

def endpoints : List String := ["src", "dst"]

theorem readEdge_eq_ok_iff {edge : Edge} : readEdge known entry = .ok edge ↔
    (∀ name ∈ endpoints, Gives known entry name) ∧ Edge.ofEntry entry = edge := by
  rw [readEdge_eq_ok, endpoints, List.forall_mem_cons, List.forall_mem_singleton]
  constructor
  · rintro ⟨hsrc, hdst, hkind, hs, hd⟩
    refine ⟨⟨⟨_, hsrc, checkEndpoint_eq_ok.1 hs⟩, ⟨_, hdst, checkEndpoint_eq_ok.1 hd⟩⟩, ?_⟩
    rw [Edge.ofEntry, Value.label_of_field hsrc, Value.label_of_field hdst, hkind]
  · rintro ⟨⟨⟨src, hsrc, hs⟩, ⟨dst, hdst, hd⟩⟩, rfl⟩
    simp only [Edge.ofEntry, Value.label_of_field hsrc, Value.label_of_field hdst]
    exact ⟨hsrc, hdst, trivial, checkEndpoint_eq_ok.2 hs, checkEndpoint_eq_ok.2 hd⟩

def nodesOf (document : Value) : List Node := (listed document "nodes").map Node.ofEntry
def edgesOf (document : Value) : List Edge := (listed document "edges").map Edge.ofEntry

theorem length_nodesOf (document : Value) :
    (nodesOf document).length = (listed document "nodes").length := List.length_map _

theorem length_edgesOf (document : Value) :
    (edgesOf document).length = (listed document "edges").length := List.length_map _

def Legible (entries : Dictionary Value) (name : String) : Prop :=
  ∃ items, (Value.fieldD entries name (.list [])).elements = .ok items

structure Readable (entries : Dictionary Value) (present : List Key) : Prop where
  lists : Legible entries "nodes" ∧ Legible entries "edges"
  nodes : ∀ entry ∈ listed (.dictionary entries) "nodes",
    ∃ id, entry.field "node_id" = .ok id ∧ id.hashable = true
  ends : ∀ entry ∈ listed (.dictionary entries) "edges", ∀ name ∈ endpoints,
    Gives ((nodesOf (.dictionary entries)).map (·.id.key) ++ present) entry name

theorem forall₂_read_iff {α : Type} {read : Value → Except Fault α} {ok : Value → Prop}
    {value : Value → α} (hread : ∀ entry a, read entry = .ok a ↔ ok entry ∧ value entry = a)
    {items : List Value} {as : List α} :
    List.Forall₂ (fun entry a => read entry = .ok a) items as ↔
      (∀ entry ∈ items, ok entry) ∧ items.map value = as := by
  simp only [hread, List.forall₂_and_left]
  rw [← List.forall₂_map_left_iff, List.forall₂_eq_eq_eq]

theorem readDocument_eq_ok_iff {nodes : List Node} {edges : List Edge} :
    readDocument entries present = .ok (nodes, edges) ↔ Readable entries present ∧
      nodesOf (.dictionary entries) = nodes ∧ edgesOf (.dictionary entries) = edges := by
  rw [readDocument_eq_ok]
  simp only [forall₂_read_iff fun _ _ => readNode_eq_ok,
    forall₂_read_iff fun _ _ => readEdge_eq_ok_iff]
  constructor
  · rintro ⟨nodeEntries, edgeEntries, hnodes, hedges, ⟨hids, rfl⟩, hends, rfl⟩
    simp only [nodesOf, edgesOf, listed_of_elements hnodes, listed_of_elements hedges]
    refine ⟨⟨⟨⟨_, hnodes⟩, ⟨_, hedges⟩⟩, ?_, ?_⟩, trivial, trivial⟩
    · rwa [listed_of_elements hnodes]
    · rwa [listed_of_elements hedges, nodesOf, listed_of_elements hnodes]
  · rintro ⟨⟨⟨⟨nodeEntries, hnodes⟩, ⟨edgeEntries, hedges⟩⟩, hids, hends⟩, rfl, rfl⟩
    rw [listed_of_elements hnodes] at hids
    rw [listed_of_elements hedges] at hends
    refine ⟨nodeEntries, edgeEntries, hnodes, hedges, ⟨hids, ?_⟩, hends, ?_⟩
    · rw [nodesOf, listed_of_elements hnodes]
    · rw [edgesOf, listed_of_elements hedges]

theorem Readable.mono {present' : List Key} (h : Readable entries present)
    (hsub : present ⊆ present') : Readable entries present' where
  lists := h.lists
  nodes := h.nodes
  ends := by
    intro entry hentry name hname
    obtain ⟨id, hid, hhash, hknown⟩ := h.ends entry hentry name hname
    refine ⟨id, hid, hhash, ?_⟩
    rw [List.mem_append] at hknown ⊢
    exact hknown.imp_right fun hthere => hsub hthere

/-- The graph passes all that is checked before it is touched. -/
structure Accepts (g : MemoryGraph) (document : Value) (merge : Bool) : Prop where
  readable : ∃ entries, document = .dictionary entries ∧
    Readable entries (if merge then g.keys else [])
  hashable : merge = true → ∀ edge ∈ g.edges, edge.hashable = true

def base (g : MemoryGraph) (merge : Bool) : MemoryGraph := if merge then g else g.clear

def held (g : MemoryGraph) (merge : Bool) : List (Key × Key × Key) :=
  if merge then g.edges.map Edge.key else []

theorem edgeKeys_eq_ok {existing : List (Key × Key × Key)} : g.edgeKeys = .ok existing ↔
    (∀ edge ∈ g.edges, edge.hashable = true) ∧ g.edges.map Edge.key = existing := by
  have hedge : ∀ (edge : Edge) (k : Key × Key × Key),
      (if edge.hashable then .ok edge.key else .error .unhashable : Except Fault _) = .ok k ↔
        edge.hashable = true ∧ edge.key = k := by
    intro edge k
    cases edge.hashable <;> simp
  simp only [edgeKeys, mapM_eq_ok_iff, hedge, List.forall₂_and_left]
  rw [← List.forall₂_map_left_iff, List.forall₂_eq_eq_eq]

theorem prepareImport_true_eq_ok {nodes : List Node} {edges : List Edge}
    {existing : List (Key × Key × Key)} :
    g.prepareImport entries true = .ok (nodes, edges, existing) ↔
      readDocument entries g.keys = .ok (nodes, edges) ∧
        (∀ edge ∈ g.edges, edge.hashable = true) ∧ g.edges.map Edge.key = existing := by
  rw [← edgeKeys_eq_ok]
  constructor
  · intro h
    obtain ⟨⟨nodes, edges⟩, hread, h⟩ := bind_eq_ok h
    obtain ⟨existing, hexisting, h⟩ := bind_eq_ok h
    cases h
    exact ⟨hread, hexisting⟩
  · rintro ⟨hread, hexisting⟩
    change (readDocument entries g.keys >>= fun read => g.edgeKeys >>= _) = _
    rw [hread, hexisting]
    rfl

theorem prepareImport_eq_ok_iff {nodes : List Node} {edges : List Edge}
    {existing : List (Key × Key × Key)} :
    g.prepareImport entries merge = .ok (nodes, edges, existing) ↔
      g.Accepts (.dictionary entries) merge ∧ nodesOf (.dictionary entries) = nodes ∧
        edgesOf (.dictionary entries) = edges ∧ g.held merge = existing := by
  have haccepts : g.Accepts (.dictionary entries) merge ↔
      Readable entries (if merge then g.keys else []) ∧
        (merge = true → ∀ edge ∈ g.edges, edge.hashable = true) := by
    constructor
    · rintro ⟨⟨_, heq, hreadable⟩, hhash⟩
      cases heq
      exact ⟨hreadable, hhash⟩
    · rintro ⟨hreadable, hhash⟩
      exact ⟨⟨_, rfl, hreadable⟩, hhash⟩
  rw [haccepts]
  cases merge with
  | true =>
    rw [prepareImport_true_eq_ok, readDocument_eq_ok_iff]
    simp only [if_true, forall_const, held]
    tauto
  | false =>
    have hprepare : g.prepareImport entries false =
        readDocument entries [] >>= fun read => pure (read.1, read.2, []) := rfl
    simp only [hprepare, Bool.false_eq_true, if_false, false_implies, and_true, held]
    constructor
    · intro h
      obtain ⟨⟨nodes, edges⟩, hread, h⟩ := bind_eq_ok h
      cases h
      obtain ⟨hreadable, hnodes, hedges⟩ := readDocument_eq_ok_iff.1 hread
      exact ⟨hreadable, hnodes, hedges, rfl⟩
    · rintro ⟨hreadable, hnodes, hedges, rfl⟩
      rw [readDocument_eq_ok_iff.2 ⟨hreadable, hnodes, hedges⟩]
      rfl

theorem importDocument_of_not_accepts (h : ¬g.Accepts document merge) :
    ∃ fault, (g.importDocument document merge).result = .error fault ∧
      (g.importDocument document merge).graph = g ∧
      ∀ entries, document = .dictionary entries → g.prepareImport entries merge = .error fault := by
  cases document with
  | dictionary entries =>
    rcases hprepare : g.prepareImport entries merge with fault | ⟨nodes, edges, existing⟩
    · simp only [importDocument, hprepare]
      refine ⟨fault, rfl, trivial, ?_⟩
      rintro _ ⟨⟩
      exact hprepare
    · exact absurd (prepareImport_eq_ok_iff.1 hprepare).1 h
  | _ => exact ⟨_, rfl, rfl, fun _ heq => by cases heq⟩

theorem Accepts.importDocument_eq (h : g.Accepts document merge) :
    let filled := importNodes merge (nodesOf document) (g.base merge) {}
    let outcome := importEdges (g.held merge) (edgesOf document) filled.1 filled.2
    (g.importDocument document merge).graph = outcome.1 ∧
      (g.importDocument document merge).result = outcome.2 := by
  obtain ⟨entries, rfl, _⟩ := h.readable
  have hprepare := prepareImport_eq_ok_iff.2 ⟨h, rfl, rfl, rfl⟩
  intro filled outcome
  have hfilled : importNodes merge (nodesOf (.dictionary entries))
      (if merge then g else g.clear) {} = (filled.1, filled.2) := rfl
  have houtcome : importEdges (g.held merge) (edgesOf (.dictionary entries)) filled.1 filled.2 =
      (outcome.1, outcome.2) := rfl
  simp only [importDocument, hprepare, hfilled, houtcome]
  cases outcome.2 with
  | error fault => exact ⟨rfl, rfl⟩
  | ok stats => exact ⟨rfl, rfl⟩

theorem mem_keys_importNodes (merge : Bool) (nodes : List Node) (stats : ImportStats) {k : Key} :
    k ∈ (importNodes merge nodes g stats).1.keys ↔ k ∈ g.keys ∨ k ∈ nodes.map (·.id.key) := by
  induction nodes generalizing g stats with
  | nil => simp [importNodes]
  | cons node nodes ih =>
    unfold importNodes
    split
    · rename_i hthere
      rw [Bool.and_eq_true, contains_iff_mem_keys] at hthere
      rw [ih, List.map_cons, List.mem_cons]
      constructor
      · exact fun h => h.imp_right .inr
      · rintro (h | rfl | h)
        · exact .inl h
        · exact .inl hthere.2
        · exact .inr h
    · rw [ih, List.map_cons, List.mem_cons, mem_keys_putNode_iff, or_assoc]

theorem nodeIds_importNodes (merge : Bool) (nodes : List Node) (stats : ImportStats) :
    (importNodes merge nodes g stats).1.nodeIds = g.nodeIds ++
      ((nodes.map Node.id).filter fun id => !g.contains id).eraseDupsBy Value.same := by
  induction nodes generalizing g stats with
  | nil => simp [importNodes]
  | cons node nodes ih =>
    cases hthere : g.contains node.id with
    | true =>
      -- Passed over or given a new record, the names stay as they are.
      have hfilter : (fun id => !(g.putNode node).contains id) = fun id => !g.contains id := by
        funext id
        rw [contains_putNode, Bool.or_eq_left_iff_imp.2]
        intro hsame
        rw [contains_congr ((Value.same_iff _ _).1 hsame), hthere]
      have hids : (g.putNode node).nodeIds = g.nodeIds := by rw [nodeIds_putNode, if_pos hthere]
      unfold importNodes
      split
      · rw [ih, List.map_cons, List.filter_cons, hthere]
        rfl
      · rw [ih, hids, hfilter, List.map_cons, List.filter_cons, hthere]
        rfl
    | false =>
      -- From here on the name is there, which takes out what repeats it further on.
      have hfilter : ∀ ids : List Value, (ids.filter fun id => !(g.putNode node).contains id) =
          (ids.filter fun id => !g.contains id).filter fun id => id.same node.id = false := by
        intro ids
        rw [List.filter_filter]
        apply List.filter_congr
        intro id _
        rw [contains_putNode]
        cases g.contains id <;> cases id.same node.id <;> rfl
      have hids : (g.putNode node).nodeIds = g.nodeIds ++ [node.id] := by
        rw [nodeIds_putNode, hthere]
        rfl
      unfold importNodes
      rw [hthere, Bool.and_false, if_neg Bool.false_ne_true, ih, hids, hfilter, List.map_cons,
        List.filter_cons, hthere, Bool.not_false, if_pos rfl, List.eraseDupsBy_cons,
        List.append_assoc]
      rfl

theorem WellFormed.outEdges_importNodes (h : g.WellFormed) (merge : Bool) {nodes : List Node}
    (hnodes : ∀ node ∈ nodes, node.id.hashable = true) (stats : ImportStats) (id : Value) :
    (MemoryGraph.importNodes merge nodes g stats).1.outEdges id = g.outEdges id := by
  induction nodes generalizing g stats with
  | nil => rfl
  | cons node nodes ih =>
    rw [List.forall_mem_cons] at hnodes
    unfold MemoryGraph.importNodes
    split
    · exact ih h hnodes.2 _
    · rw [ih (h.putNode hnodes.1) hnodes.2, h.outEdges_putNode]

theorem WellFormed.edges_importNodes (h : g.WellFormed) (merge : Bool) {nodes : List Node}
    (hnodes : ∀ node ∈ nodes, node.id.hashable = true) (stats : ImportStats) :
    (MemoryGraph.importNodes merge nodes g stats).1.edges = g.edges := by
  induction nodes generalizing g stats with
  | nil => rfl
  | cons node nodes ih =>
    rw [List.forall_mem_cons] at hnodes
    unfold MemoryGraph.importNodes
    split
    · exact ih h hnodes.2 _
    · rw [ih (h.putNode hnodes.1) hnodes.2, h.edges_putNode]

theorem base_wellFormed (h : merge = true → g.WellFormed) : (g.base merge).WellFormed := by
  cases merge with
  | true => exact h rfl
  | false => exact wellFormed_nil g.graphId

namespace Accepts

variable (h : g.Accepts document merge)

include h

theorem hashable_node {node : Node} (hnode : node ∈ nodesOf document) :
    node.id.hashable = true := by
  obtain ⟨entries, rfl, hreadable⟩ := h.readable
  obtain ⟨entry, hentry, rfl⟩ := List.mem_map.1 hnode
  obtain ⟨id, hid, hhash⟩ := hreadable.nodes entry hentry
  rwa [Node.ofEntry, Value.label_of_field hid]

theorem ends {edge : Edge} (hedge : edge ∈ edgesOf document) :
    let known := (nodesOf document).map (·.id.key) ++ (g.base merge).keys
    (edge.src.hashable = true ∧ edge.src.key ∈ known) ∧
      edge.dst.hashable = true ∧ edge.dst.key ∈ known := by
  obtain ⟨entries, rfl, hreadable⟩ := h.readable
  obtain ⟨entry, hentry, rfl⟩ := List.mem_map.1 hedge
  have hpresent : (if merge then g.keys else []) = (g.base merge).keys := by cases merge <;> rfl
  have hends := hreadable.ends entry hentry
  rw [endpoints, List.forall_mem_cons, List.forall_mem_singleton] at hends
  obtain ⟨⟨src, hsrc, hs⟩, dst, hdst, hd⟩ := hends
  rw [hpresent] at hs hd
  simp only [Edge.ofEntry, Value.label_of_field hsrc, Value.label_of_field hdst]
  exact ⟨hs, hd⟩

theorem hashable_edge {edge : Edge} (hedge : edge ∈ edgesOf document) :
    edge.hashable = edge.kind.hashable := by
  obtain ⟨⟨hs, _⟩, hd, _⟩ := h.ends hedge
  rw [Edge.hashable, hs, hd, Bool.true_and, Bool.true_and]

theorem ends_mem_keys (stats : ImportStats) {edge : Edge} (hedge : edge ∈ edgesOf document) :
    let filled := (importNodes merge (nodesOf document) (g.base merge) stats).1
    edge.src.key ∈ filled.keys ∧ edge.dst.key ∈ filled.keys := by
  obtain ⟨⟨_, hs⟩, _, hd⟩ := h.ends hedge
  rw [List.mem_append, or_comm] at hs hd
  exact ⟨(mem_keys_importNodes ..).2 hs, (mem_keys_importNodes ..).2 hd⟩

theorem src_mem_keys (stats : ImportStats) :
    ∀ edge ∈ (edgesOf document).filter fun edge => !(g.held merge).contains edge.key,
      edge.src.key ∈ (importNodes merge (nodesOf document) (g.base merge) stats).1.keys :=
  fun _ hedge => (h.ends_mem_keys stats (List.mem_filter.1 hedge).1).1

theorem filled_wellFormed (hbase : (g.base merge).WellFormed) (stats : ImportStats) :
    (importNodes merge (nodesOf document) (g.base merge) stats).1.WellFormed :=
  hbase.importNodes merge (fun _ => h.hashable_node) stats

theorem importDocument_ok (hbase : (g.base merge).WellFormed)
    (hkinds : ∀ edge ∈ edgesOf document, edge.kind.hashable = true) :
    let filled := importNodes merge (nodesOf document) (g.base merge) {}
    let isHeld (edge : Edge) : Bool := (g.held merge).contains edge.key
    (g.importDocument document merge).graph =
        ((edgesOf document).filter fun edge => !isHeld edge).foldl putEdge filled.1 ∧
      (g.importDocument document merge).result = .ok { filled.2 with
        edgesImported := filled.2.edgesImported + (edgesOf document).countP fun edge => !isHeld edge
        skipped := filled.2.skipped + (edgesOf document).countP isHeld } := by
  have hhash : ∀ edge ∈ edgesOf document, edge.hashable = true := fun edge hedge =>
    (h.hashable_edge hedge).trans (hkinds edge hedge)
  have hedges := (h.filled_wellFormed hbase {}).importEdges_eq (g.held merge) hhash
    (fun _ => h.ends_mem_keys {}) (importNodes merge (nodesOf document) (g.base merge) {}).2
  obtain ⟨hgraph, hresult⟩ := h.importDocument_eq
  rw [hedges] at hgraph hresult
  exact ⟨hgraph, hresult⟩

variable (hbase : (g.base merge).WellFormed)
  (hkinds : ∀ edge ∈ edgesOf document, edge.kind.hashable = true)

include hbase hkinds

theorem mem_keys_importDocument {k : Key} : k ∈ (g.importDocument document merge).graph.keys ↔
    k ∈ (g.base merge).keys ∨ k ∈ (nodesOf document).map (·.id.key) := by
  rw [(h.importDocument_ok hbase hkinds).1, keys, nodeIds_foldl_putEdge]
  exact mem_keys_importNodes ..

theorem edges_importDocument_perm : (g.importDocument document merge).graph.edges.Perm
    ((g.base merge).edges ++
      (edgesOf document).filter fun edge => !(g.held merge).contains edge.key) := by
  have hperm := (h.filled_wellFormed hbase {}).edges_foldl_putEdge_perm (h.src_mem_keys {})
  rw [hbase.edges_importNodes merge fun _ => h.hashable_node] at hperm
  rwa [(h.importDocument_ok hbase hkinds).1]

theorem nodeIds_importDocument :
    (g.importDocument document merge).graph.nodeIds = (g.base merge).nodeIds ++
      (((nodesOf document).map Node.id).filter fun id => !(g.base merge).contains id).eraseDupsBy
        Value.same := by
  rw [(h.importDocument_ok hbase hkinds).1, nodeIds_foldl_putEdge, nodeIds_importNodes]

theorem getNode_importDocument (id : Value) : (g.importDocument document merge).graph.getNode id =
    (importNodes merge (nodesOf document) (g.base merge) {}).1.getNode id := by
  rw [(h.importDocument_ok hbase hkinds).1, getNode_foldl_putEdge]

theorem outEdges_importDocument (id : Value) :
    (g.importDocument document merge).graph.outEdges id = ((g.base merge).outEdges id).map
      (· ++ (edgesOf document).filter fun edge =>
        edge.src.same id && !(g.held merge).contains edge.key) := by
  rw [(h.importDocument_ok hbase hkinds).1,
    (h.filled_wellFormed hbase {}).outEdges_foldl_putEdge (h.src_mem_keys {}),
    hbase.outEdges_importNodes merge (fun _ => h.hashable_node), List.filter_filter]

end Accepts

theorem accepts_of_ok {stats : ImportStats}
    (hok : (g.importDocument document merge).result = .ok stats) : g.Accepts document merge := by
  by_contra hnot
  obtain ⟨fault, hfails, _⟩ := importDocument_of_not_accepts hnot
  cases hok.symm.trans hfails

structure Tabular (document : Value) : Prop where
  lists : ∃ entries nodes edges, document = .dictionary entries ∧
    Value.fieldD entries "nodes" (.list []) = .list nodes ∧
    Value.fieldD entries "edges" (.list []) = .list edges
  nodes : ∀ entry ∈ listed document "nodes", entry.HashableAt ["node_id"]
  edges : ∀ entry ∈ listed document "edges", entry.HashableAt ("kind" :: endpoints)

/-- Something is missing: a field of an entry, or the node at an end of an edge, which is neither
named by the document nor present. -/
inductive Incomplete (document : Value) (present : List Key) : Prop
  | name {entry : Value} : entry ∈ listed document "nodes" → entry.Lacks "node_id" →
      Incomplete document present
  | endpoint {entry : Value} {name : String} : entry ∈ listed document "edges" →
      name ∈ endpoints → entry.Lacks name → Incomplete document present
  | node {entry id : Value} {name : String} : entry ∈ listed document "edges" →
      name ∈ endpoints → entry.field name = .ok id → id.key ∉ present →
      (∀ node ∈ listed document "nodes", ∀ id', node.field "node_id" = .ok id' → id'.key ≠ id.key) →
      Incomplete document present

theorem Readable.not_incomplete (h : Readable entries present) :
    ¬Incomplete (.dictionary entries) present := by
  intro hincomplete
  cases hincomplete with
  | name hentry hlacks =>
    obtain ⟨id, hid, _⟩ := h.nodes _ hentry
    exact hlacks id hid
  | endpoint hentry hname hlacks =>
    obtain ⟨id, hid, _⟩ := h.ends _ hentry _ hname
    exact hlacks id hid
  | node hentry hname hid hpresent hnamed =>
    obtain ⟨id', hid', _, hknown⟩ := h.ends _ hentry _ hname
    cases hid.symm.trans hid'
    obtain hnode | hthere := List.mem_append.1 hknown
    · simp only [nodesOf, List.map_map, List.mem_map] at hnode
      obtain ⟨node, hnode, hkey⟩ := hnode
      obtain ⟨id', hid', _⟩ := h.nodes _ hnode
      simp only [Function.comp_apply, Node.ofEntry, Value.label_of_field hid'] at hkey
      exact hnamed node hnode id' hid' hkey
    · exact hpresent hthere

namespace Tabular

theorem readable (h : Tabular (.dictionary entries))
    (hcomplete : ¬Incomplete (.dictionary entries) present) : Readable entries present where
  lists := by
    obtain ⟨_, nodes, edges, heq, hnodes, hedges⟩ := h.lists
    cases heq
    exact ⟨⟨nodes, by rw [hnodes]; rfl⟩, ⟨edges, by rw [hedges]; rfl⟩⟩
  nodes := by
    intro entry hentry
    obtain ⟨id, hid⟩ :=
      Value.exists_field_of_not_lacks fun hlacks => hcomplete (.name hentry hlacks)
    exact ⟨id, hid, (h.nodes entry hentry).of_field List.mem_cons_self hid⟩
  ends := by
    intro entry hentry name hname
    obtain ⟨id, hid⟩ :=
      Value.exists_field_of_not_lacks fun hlacks => hcomplete (.endpoint hentry hname hlacks)
    refine ⟨id, hid, (h.edges entry hentry).of_field (List.mem_cons_of_mem _ hname) hid, ?_⟩
    by_contra hunknown
    rw [List.mem_append, not_or] at hunknown
    refine hcomplete (.node hentry hname hid hunknown.2 fun node hnode id' hid' hkey => ?_)
    apply hunknown.1
    rw [← hkey, ← Value.label_of_field hid']
    exact List.mem_map_of_mem (List.mem_map_of_mem hnode)

variable (h : Tabular document)

include h

theorem accepts_iff (hedges : merge = true → ∀ edge ∈ g.edges, edge.hashable = true) :
    g.Accepts document merge ↔ ¬Incomplete document (if merge then g.keys else []) := by
  obtain ⟨entries, _, _, rfl, _⟩ := h.lists
  constructor
  · rintro ⟨⟨_, heq, hreadable⟩, _⟩
    cases heq
    exact hreadable.not_incomplete
  · intro hcomplete
    exact ⟨⟨entries, rfl, h.readable hcomplete⟩, hedges⟩

theorem kind_of_readNode {fault : Fault} (hentry : entry ∈ listed document "nodes")
    (hfault : readNode entry = .error fault) : fault.kind = .lookup := by
  have hentry := h.nodes entry hentry
  obtain hfield | ⟨id, hid, hfault⟩ := bind_eq_error hfault
  · exact hentry.kind_of_field hfield
  · obtain hhash | ⟨_, _, hfault⟩ := bind_eq_error hfault
    · rw [Value.hash, Value.lookUp, if_pos (hentry.of_field List.mem_cons_self hid)] at hhash
      cases hhash
    · cases hfault

theorem kind_of_readEdge {fault : Fault} (hentry : entry ∈ listed document "edges")
    (hfault : readEdge known entry = .error fault) : fault.kind = .lookup := by
  have hentry := h.edges entry hentry
  obtain hfield | ⟨src, hsrc, hfault⟩ := bind_eq_error hfault
  · exact hentry.kind_of_field hfield
  obtain hfield | ⟨dst, hdst, hfault⟩ := bind_eq_error hfault
  · exact hentry.kind_of_field hfield
  obtain hcheck | ⟨_, _, hfault⟩ := bind_eq_error hfault
  · exact kind_of_checkEndpoint (hentry.of_field (by decide) hsrc) hcheck
  obtain hcheck | ⟨_, _, hfault⟩ := bind_eq_error hfault
  · exact kind_of_checkEndpoint (hentry.of_field (by decide) hdst) hcheck
  · cases hfault

theorem kind_of_readDocument (hdocument : document = .dictionary entries) {fault : Fault}
    (hfault : readDocument entries present = .error fault) : fault.kind = .lookup := by
  obtain ⟨_, nodes, edges, heq, hnodes, hedges⟩ := h.lists
  cases hdocument.symm.trans heq
  have hnodeItems : (Value.fieldD entries "nodes" (.list [])).elements = .ok nodes := by
    rw [hnodes]
    rfl
  have hedgeItems : (Value.fieldD entries "edges" (.list [])).elements = .ok edges := by
    rw [hedges]
    rfl
  obtain hitems | ⟨items, hitems, hfault⟩ := bind_eq_error hfault
  · cases hnodeItems.symm.trans hitems
  cases hnodeItems.symm.trans hitems
  obtain hread | ⟨_, _, hfault⟩ := bind_eq_error hfault
  · obtain ⟨entry, hentry, hread⟩ := exists_of_mapM_eq_error hread
    refine h.kind_of_readNode ?_ hread
    rwa [hdocument, listed_of_elements hnodeItems]
  obtain hitems | ⟨items, hitems, hfault⟩ := bind_eq_error hfault
  · cases hedgeItems.symm.trans hitems
  cases hedgeItems.symm.trans hitems
  obtain hread | ⟨_, _, hfault⟩ := bind_eq_error hfault
  · obtain ⟨entry, hentry, hread⟩ := exists_of_mapM_eq_error hread
    refine h.kind_of_readEdge ?_ hread
    rwa [hdocument, listed_of_elements hedgeItems]
  · cases hfault

theorem kind_of_prepareImport (hdocument : document = .dictionary entries)
    (hedges : merge = true → ∀ edge ∈ g.edges, edge.hashable = true) {fault : Fault}
    (hfault : g.prepareImport entries merge = .error fault) : fault.kind = .lookup := by
  obtain hread | ⟨⟨nodes, edges⟩, _, hfault⟩ := bind_eq_error hfault
  · exact h.kind_of_readDocument hdocument hread
  · cases merge with
    | false => cases hfault
    | true =>
      have hkeys := edgeKeys_eq_ok.2 ⟨hedges rfl, rfl⟩
      change g.edgeKeys >>= _ = _ at hfault
      rw [hkeys] at hfault
      cases hfault

theorem hashable_kind {edge : Edge} (hedge : edge ∈ edgesOf document) :
    edge.kind.hashable = true := by
  obtain ⟨entry, hentry, rfl⟩ := List.mem_map.1 hedge
  exact (h.edges entry hentry).label List.mem_cons_self

theorem importDocument_error (hg : merge = true → g.WellFormed)
    (hedges : merge = true → ∀ edge ∈ g.edges, edge.hashable = true) :
    ((∃ fault, (g.importDocument document merge).result = .error fault) ↔
        Incomplete document (if merge then g.keys else [])) ∧
      ∀ fault, (g.importDocument document merge).result = .error fault →
        fault.kind = .lookup ∧ (g.importDocument document merge).graph = g := by
  by_cases haccepts : g.Accepts document merge
  · have hcomplete := (h.accepts_iff hedges).1 haccepts
    obtain ⟨_, hresult⟩ :=
      haccepts.importDocument_ok (base_wellFormed hg) fun _ => h.hashable_kind
    rw [hresult]
    exact ⟨⟨fun hfails => by simp at hfails, fun hmissing => absurd hmissing hcomplete⟩,
      fun _ hfails => by cases hfails⟩
  · have hincomplete := not_not.1 (mt (h.accepts_iff hedges).2 haccepts)
    obtain ⟨fault, hresult, hgraph, hprepare⟩ := importDocument_of_not_accepts haccepts
    obtain ⟨entries, _, _, hdocument, _⟩ := h.lists
    refine ⟨⟨fun _ => hincomplete, fun _ => ⟨fault, hresult⟩⟩, ?_⟩
    intro fault' hresult'
    cases hresult.symm.trans hresult'
    exact ⟨h.kind_of_prepareImport hdocument hedges (hprepare entries hdocument), hgraph⟩

end Tabular

end MemoryGraph

end FlowPaths
