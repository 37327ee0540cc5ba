import FlowPaths.Proofs.Enumeration.Pairs
import FlowPaths.Proofs.Graph.Storing

/-!
A run depends on its graph through the two questions of a search alone, and once it has begun it
asks them of hashable names only.  So graphs that give the same answers are enumerated alike, a
graph and what it was loaded into among them.
-/

namespace FlowPaths

structure Graph.Agrees (g g' : Graph) : Prop where
  hasNode : ∀ v : Value, v.hashable = true → g.hasNode v = g'.hasNode v
  outEdges : ∀ v : Value, v.hashable = true → g.outEdges v = g'.outEdges v

namespace Search

variable {g g' : Graph} {q : Query}

theorem Query.expand_congr (h : g.Agrees g') {id : Value} (hid : id.hashable = true) (w : Work) :
    q.expand g id w = q.expand g' id w := by
  rw [expand, expand, h.outEdges id hid]

theorem scan_congr (h : g.Agrees g') (pending : List Pending) (w : Work) :
    scan g q pending w = scan g' q pending w := by
  induction pending generalizing w with
  | nil => rfl
  | cons first rest ih =>
    cases first with
    | error fault => rfl
    | ok edge =>
      cases hhash : edge.dst.hashable with
      | false => simp [scan, hhash]
      | true => simp only [scan, hhash, ih, h.hasNode _ hhash, Query.expand_congr h hhash]

theorem turn_congr (h : g.Agrees g') (depth : Nat) : turn g q depth = turn g' q depth := by
  funext s
  cases hframes : s.frames with
  | nil => simp only [turn, hframes]
  | cons frame frames => simp only [turn, hframes, scan_congr h]

theorem start_congr (h : g.Agrees g') {current : Value} (hcurrent : current.hashable = true)
    (w : Work) : start g q current w = start g' q current w := by
  simp only [start, h.hasNode _ hcurrent, Query.expand_congr h hcurrent]

theorem run_congr (h : g.Agrees g') {current : Value} (hcurrent : current.hashable = true)
    {trail : Trail} {polls : Nat} (ends : Ends g q current { trail, polls })
    (ends' : Ends g' q current { trail, polls }) :
    run g q current trail polls ends = run g' q current trail polls ends' := by
  have hstart := start_congr h hcurrent (q := q) { trail, polls }
  cases hs : start g q current { trail, polls } with
  | done o => rw [run_of_done ends hs, run_of_done ends' (hstart ▸ hs)]
  | next s =>
    rw [run_of_next ends hs, run_of_next ends' (hstart ▸ hs)]
    simp only [turn_congr h]

end Search

namespace Tally

variable {c : Config} {g g' : Graph}

theorem checkNodes_congr (h : g.Agrees g') {ids : List Value}
    (hids : ∀ id ∈ ids, id.hashable = true) (t : Tally) :
    t.checkNodes g ids = t.checkNodes g' ids := by
  induction ids generalizing t with
  | nil => rfl
  | cons id ids ih =>
    rw [List.forall_mem_cons] at hids
    simp only [checkNodes, h.hasNode id hids.1, ih hids.2]

theorem searchPair_congr (h : g.Agrees g') {source sink : Value} (hg : g.Searchable c source sink)
    (hg' : g'.Searchable c source sink) (hsource : source.hashable = true) (spent : Nat)
    (t : Tally) :
    t.searchPair c g spent source sink hg = t.searchPair c g' spent source sink hg' := by
  rw [searchPair, searchPair, Search.run_congr h hsource (hg spent t.polls)
    (hg' spent t.polls)]

theorem searchPairs_congr (h : g.Agrees g') (parallel : Bool) {pairs : List (Value × Value)}
    (hg : g.Enumerable c pairs) (hg' : g'.Enumerable c pairs)
    (hpairs : ∀ pair ∈ pairs, pair.1.hashable = true) (t : Tally) :
    t.searchPairs c g parallel pairs hg = t.searchPairs c g' parallel pairs hg' := by
  induction pairs generalizing t with
  | nil => rfl
  | cons pair pairs ih =>
    rw [List.forall_mem_cons] at hpairs
    simp only [searchPairs, searchPair_congr h hg.head hg'.head hpairs.1,
      ih hg.tail hg'.tail hpairs.2]

end Tally

theorem enumerate_congr {c : Config} {g g' : Graph} {sources sinks : List Value}
    (hg : g.Enumerable c (pairsOf sources sinks)) (hg' : g'.Enumerable c (pairsOf sources sinks))
    (h : g.Agrees g') (hsources : ∀ v ∈ sources, v.hashable = true)
    (hsinks : ∀ v ∈ sinks, v.hashable = true) (polls : Nat) :
    enumerate c g sources sinks hg polls = enumerate c g' sources sinks hg' polls := by
  have hids : ∀ id ∈ sources ++ sinks, id.hashable = true := by
    intro id hid
    exact (List.mem_append.1 hid).elim (hsources id) (hsinks id)
  have hpairs : ∀ pair ∈ pairsOf sources sinks, pair.1.hashable = true := by
    intro pair hpair
    exact hsources pair.1 (mem_pairsOf.1 hpair).1
  simp only [enumerate, Tally.checkNodes_congr h hids, Tally.searchPairs_congr h _ hg hg' hpairs]

theorem Enumerator.runOn_congr {g g' : FiniteGraph} (h : g.toGraph.Agrees g'.toGraph)
    {e : Enumerator} {sources sinks : List Value} (hends : e.ends = .ok (sources, sinks))
    (hsources : ∀ v ∈ sources, v.hashable = true) (hsinks : ∀ v ∈ sinks, v.hashable = true) :
    e.runOn g = e.runOn g' := by
  rw [runOn, runOn, run_of_ends _ hends, run_of_ends _ hends,
    enumerate_congr (g.enumerable _ _) (g'.enumerable _ _) h hsources hsinks]

theorem SameAnswers.agrees {δ : Type} [Store δ] {g : StoredGraph δ} {m : MemoryGraph}
    (h : SameAnswers g m) :
    g.toGraph.toGraph.Agrees m.toGraph.toGraph where
  hasNode := h.hasNode
  outEdges := by
    intro v hv
    have hedges := h.outEdges v hv
    simp only [StoredGraph.toGraph, MemoryGraph.toGraph, hedges]

theorem MemoryGraph.edits_reopen (m : MemoryGraph) (pauses : List (Value × Value)) :
    m.edits (pauses.map fun pause => .reopen pause.1 pause.2) = m := by
  induction pauses with
  | nil => rfl
  | cons pause pauses ih => exact ih

/-- A graph of texts is loaded into an empty database as a whole, and however often the database is
then closed and opened again, every run over it is the run over the graph itself: it returns or
fails with the same, and keeps, asks and logs the same. -/
theorem Enumerator.runOn_loaded {m : MemoryGraph} (hm : m.Reachable) (htext : m.Textual)
    {δ : Type} [Store δ] {layout : δ → δ} (hlayout : ∀ db, Store.Reopens db (layout db))
    (graphId automatic : Value) (pauses : List (Value × Value)) :
    let loaded := (StoredGraph.openOn (Store.empty : δ) graphId automatic).loadFrom m.entries
    let stored := loaded.graph.edits layout (pauses.map fun pause => .reopen pause.1 pause.2)
    loaded.result = .ok ⟨m.nodeCount, m.edgeCount⟩ ∧
      ∀ (e : Enumerator) (sources sinks : List Value), e.ends = .ok (sources, sinks) →
        (∀ v ∈ sources, v.hashable = true) → (∀ v ∈ sinks, v.hashable = true) →
        e.runOn stored.toGraph = e.runOn m.toGraph := by
  intro loaded stored
  obtain ⟨hresult, hloaded, hview⟩ :=
    StoredGraph.loadFrom_entries (δ := δ) hm.wellFormed htext graphId automatic
  refine ⟨hresult, ?_⟩
  intro e sources sinks hends hsources hsinks
  obtain ⟨hstored, hviews⟩ :=
    hloaded.edits hlayout (pauses.map fun pause => .reopen pause.1 pause.2)
  rw [MemoryGraph.edits_reopen, hview] at hviews
  have hanswers : SameAnswers stored { records := m.records, out := m.out } := by
    rw [← hviews]
    exact hstored.sameAnswers
  exact runOn_congr hanswers.agrees hends hsources hsinks

theorem doubled_textual : doubled.Textual where
  ids := by simp [doubled, MemoryGraph.nodeIds, Table.keys]
  labels := by simp [doubled, MemoryGraph.nodes, Table.values]
  kinds := by simp [doubled, MemoryGraph.edges, Table.values]

theorem Enumerator.runOn_loaded_doubled :
    let pauses : List (Value × Value) := [(.text "k", .null), (.null, .null)]
    let loaded := (StoredGraph.openOn Store.empty .null .null).loadFrom doubled.entries
    let stored := loaded.graph.edits Database.reversed
      (pauses.map fun pause => .reopen pause.1 pause.2)
    let e : Enumerator := { sources := .list [Value.text "a"], sinks := .list [Value.text "d"],
                            config := { maxPaths := some (.int 2) } }
    loaded.result = .ok ⟨4, 6⟩ ∧
      (e.runOn doubled.toGraph).2.result = .error (.pathLimitExceeded (.int 2)) ∧
      e.runOn stored.toGraph = e.runOn doubled.toGraph := by
  intro pauses loaded stored e
  have hlimit : (e.runOn doubled.toGraph).2.result = .error (.pathLimitExceeded (.int 2)) := by
    subst e
    cbv
  obtain ⟨hresult, hrun⟩ := Enumerator.runOn_loaded doubled_reachable doubled_textual
    Database.reopens_reversed .null .null pauses
  exact ⟨hresult, hlimit, hrun e [.text "a"] [.text "d"] rfl (by simp [Datum.hashable])
    (by simp [Datum.hashable])⟩

end FlowPaths
