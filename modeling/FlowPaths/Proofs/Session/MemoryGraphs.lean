import FlowPaths.Proofs.Enumeration.Containment
import FlowPaths.Proofs.Session.Steps

/-!
Graphs in memory over whole sessions.  No command, whether it succeeds, fails, or fails halfway,
leaves a graph whose tables disagree or that has an edge to nowhere.
-/

namespace FlowPaths

namespace Session

/-- Whatever is done in a session, every graph in memory has two tables that agree and no edge that
leads out of it; so its edges can be listed node by node, and only a check can make a search say
that one of them does. -/
theorem Workspace.after_memoryGraph {time automaticId : Value} {commands : List Command}
    {g : MemoryGraph}
    (h : .memory g ∈ (after { time, automaticId } commands).subjects) :
    g.WellFormed ∧
      (∃ lists, g.nodeIds.mapM g.outEdges = .ok lists ∧ g.edges = lists.flatten) ∧
      g.edgeCount = g.edges.length ∧
      (g.toDocument time).field "edges" = .ok (.list (g.edges.map Edge.toDocument)) ∧
      (∀ (e : Enumerator) (u v : Value),
        (e.runOn g.toGraph).2.result = .error (.edgeLeavesGraph u v) →
          e.config.Raises (.edgeLeavesGraph u v)) ∧
      ∀ (e : Enumerator) (current target : Value) (trail : Trail) (u v : Value),
        (e.searchOn g.toGraph current target trail).2.result = .error (.edgeLeavesGraph u v) →
          e.config.Raises (.edgeLeavesGraph u v) := by
  have hempty : Sound { time, automaticId } := List.forall_mem_nil _
  have hg : g.WellFormed := (hempty.after commands _ h).wellFormed
  refine ⟨hg, ⟨_, hg.mapM_outEdges, rfl⟩, g.edgeCount_eq_length_edges, rfl, ?_, ?_⟩
  · exact fun e u v => Enumerator.runOn_edgeLeavesGraph hg
  · exact fun e current target trail u v => Enumerator.searchOn_edgeLeavesGraph hg

def troubled : List Command :=
  let one : Value := .int 1
  let truth : Value := .num (.flag true)
  let edge (src dst kind : Value) : Value := Edge.toDocument { src, dst, kind }
  let document := MemoryGraph.listing [MemoryGraph.nameEntry (.text "b")]
    [edge (.text "a") truth (.text "back"), edge one one (.list [])]
  [.newMemory "g" (.text "in_memory"), .change "g" (.addNode { id := one }),
    .change "g" (.addNode { id := truth, kind := .text "Call" }),
    .change "g" (.addNode { id := .text "a" }),
    .change "g" (.addEdge { src := truth, dst := .text "a" }),
    .change "g" (.addEdge { src := one, dst := .text "ghost" }),
    .change "g" (.importDocument document truth)]

theorem Workspace.after_troubled_memoryGraph :
    let ws : Workspace := { time := .null, automaticId := .null }
    let truth : Value := .num (.flag true)
    let g : MemoryGraph :=
      { records := ⟨[(.int 1, { id := truth, kind := .text "Call" }),
          (.text "a", { id := .text "a" }), (.text "b", { id := .text "b" })]⟩
        out := ⟨[(.int 1, [{ src := truth, dst := .text "a" }]),
          (.text "a", [{ src := .text "a", dst := truth, kind := .text "back" }]),
          (.text "b", [])]⟩ }
    ((ws.steps troubled).map Prod.fst).getLast? = some (.failed .unhashable) ∧
      .memory g ∈ (ws.after troubled).subjects ∧ g.WellFormed ∧
      ∃ lists, g.nodeIds.mapM g.outEdges = .ok lists ∧ g.edges = lists.flatten := by
  intro ws truth g
  have hlast : ((ws.steps troubled).map Prod.fst).getLast? = some (.failed .unhashable) := by
    subst ws
    cbv
  have hsubjects : (ws.after troubled).subjects = [.memory g] := by
    subst g truth ws
    cbv
  have hmem : .memory g ∈ (ws.after troubled).subjects := by
    rw [hsubjects]
    exact List.mem_singleton_self _
  obtain ⟨hg, hedges, _⟩ := after_memoryGraph hmem
  exact ⟨hlast, hmem, hg, hedges⟩

end Session

end FlowPaths
