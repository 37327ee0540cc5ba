import FlowPaths.Proofs.Enumeration.Pairs

/-!
Enumeration finds the simple paths of a graph in memory.  Each of them is among the results; it is
there once if and only if no two edges run side by side along it.
-/

namespace FlowPaths

namespace MemoryGraph

def Joins (g : MemoryGraph) (u v : Value) : Prop :=
  ∃ edges, g.outEdges u = .ok edges ∧ ∃ e ∈ edges, e.dst.key = v.key

structure SimplePath (g : MemoryGraph) (s t : Value) (p : Path) : Prop where
  starts : p.head?.map Value.key = some s.key
  ends : p.getLast?.map Value.key = some t.key
  nodup : (p.map Value.key).Nodup
  joined : p.IsChain g.Joins
  target : ∀ v ∈ p.dropLast, v.key ≠ t.key

theorem joins_toGraph {g : MemoryGraph} {u v : Value} : g.toGraph.Joins u v ↔ g.Joins u v := by
  cases hout : g.outEdges u with
  | error fault =>
    have hnone : g.toGraph.edgesOut u = [] := by
      simp only [Graph.edgesOut, toGraph, hout]
      rfl
    simp [Graph.Joins, Joins, hnone, hout]
  | ok edges =>
    rw [Graph.Joins, Graph.edgesOut_of_outEdges (toGraph_outEdges hout)]
    simp [Joins, hout]

end MemoryGraph

theorem getLast_not_mem_dropLast {p : Path} {k : Key} (hnodup : (p.map Value.key).Nodup)
    (hlast : p.getLast?.map Value.key = some k) : ∀ v ∈ p.dropLast, v.key ≠ k := by
  intro v hv heq
  obtain ⟨w, hw, rfl⟩ := Option.map_eq_some_iff.1 hlast
  obtain ⟨init, rfl⟩ := List.getLast?_eq_some_iff.1 hw
  rw [List.dropLast_concat] at hv
  rw [List.map_append, List.nodup_append] at hnodup
  exact hnodup.2.2 v.key (List.mem_map_of_mem hv) w.key (by simp) heq

namespace PairResult

variable {c : Config} {g : Graph} {r : PairResult}

theorem Complete.mem_iff (h : r.Complete c g) (hkeys : g.RespectsKeys) {p : Path} :
    (∃ p' ∈ r.paths, p'.map Value.key = p.map Value.key) ↔
      (p.head?.map Value.key = some r.source.key ∧ p.IsChain g.Joins) ∧
        (c.query r.sink 0).Admits {} p := by
  rw [← hkeys.exists_follow_iff]
  constructor
  · rintro ⟨p', hp', hmap⟩
    obtain ⟨route, hfollow, hadmits⟩ := (Lists.mem_iff h).1 hp'
    exact ⟨⟨route, p', hfollow, hmap⟩, hadmits.congr hmap⟩
  · rintro ⟨⟨route, p', hfollow, hmap⟩, hadmits⟩
    exact ⟨p', (Lists.mem_iff h).2 ⟨route, hfollow, hadmits.congr hmap.symm⟩, hmap⟩

theorem Complete.paths_of_source_eq_sink (h : r.Complete c g) (heq : r.source.key = r.sink.key) :
    r.paths = [[r.source]] := by
  refine Lists.unique h (Lists.singleton (r := []) fun route p => ?_)
  constructor
  · rintro ⟨hfollow, hadmits⟩
    cases route with
    | nil =>
      cases hfollow
      exact ⟨rfl, rfl⟩
    | cons i route =>
      obtain ⟨e, ns, _, _, rfl⟩ := Graph.follow_cons.1 hfollow
      exact absurd heq (getLast_not_mem_dropLast hadmits.nodup hadmits.ends _ (by simp))
  · rintro ⟨rfl, rfl⟩
    refine ⟨rfl, by simp, fun _ _ => List.not_mem_nil, by simp [heq, Config.query], ?_⟩
    intro n hlow hhigh
    simp only [List.length_nil, List.length_singleton] at hlow hhigh
    omega

theorem Complete.nodup_iff (h : r.Complete c g) (hkeys : g.RespectsKeys) :
    (r.paths.map (·.map Value.key)).Nodup ↔
      ∀ p, p.head?.map Value.key = some r.source.key → p.IsChain g.Joins →
        (c.query r.sink 0).Admits {} p → g.waysBy Value.key p = 1 := by
  have hcount : ∀ p : Path,
      (r.paths.map (·.map Value.key)).count (p.map Value.key) =
        r.paths.countP (fun p' => p'.map Value.key = p.map Value.key) := by
    intro p
    rw [List.count, List.countP_map]
    congr 1
    funext p'
    exact beq_eq_decide _ _
  rw [List.nodup_iff_count_eq_one]
  -- Each path is there as often as edges can be chosen along it.
  constructor
  · intro honce p hstart hchain hadmits
    obtain ⟨p', hp', hmap⟩ := (h.mem_iff hkeys).2 ⟨⟨hstart, hchain⟩, hadmits⟩
    have hmem : p.map Value.key ∈ r.paths.map (·.map Value.key) :=
      hmap ▸ List.mem_map_of_mem hp'
    rw [← Search.countP_key_paths hkeys h hadmits hstart, ← hcount]
    exact honce _ hmem
  · intro hways k hk
    obtain ⟨p, hp, rfl⟩ := List.mem_map.1 hk
    obtain ⟨⟨hstart, hchain⟩, hadmits⟩ := (h.mem_iff hkeys).1 ⟨p, hp, rfl⟩
    rw [hcount, Search.countP_key_paths hkeys h hadmits hstart]
    exact hways p hstart hchain hadmits

end PairResult

def Config.Permits (c : Config) (p : Path) : Prop :=
  ∀ n, 0 < n → n < p.length → c.maxDepth.any (fun bound => !bound.isAbove n) = false

theorem MemoryGraph.simplePath_iff {g : MemoryGraph} {c : Config} {s t : Value} {p : Path} :
    g.SimplePath s t p ∧ c.Permits p ↔
      (p.head?.map Value.key = some s.key ∧ p.IsChain g.toGraph.Joins) ∧
        (c.query t 0).Admits {} p := by
  have hjoins : g.toGraph.Joins = g.Joins := by
    funext u v
    exact propext joins_toGraph
  rw [hjoins]
  constructor
  · rintro ⟨h, hpermits⟩
    refine ⟨⟨h.starts, h.joined⟩, h.nodup, fun _ _ => List.not_mem_nil, h.ends, ?_⟩
    simpa [Config.Permits, Search.Query.isDeep, Config.query] using hpermits
  · rintro ⟨⟨hstart, hchain⟩, h⟩
    refine ⟨⟨hstart, h.ends, h.nodup, hchain, getLast_not_mem_dropLast h.nodup h.ends⟩, ?_⟩
    simpa [Config.Permits, Search.Query.isDeep, Config.query] using h.shallow

namespace Enumerator

variable {g : MemoryGraph} {e : Enumerator}

theorem runOn_of_ends {sources sinks : List Value} (hends : e.ends = .ok (sources, sinks)) :
    e.runOn g.toGraph =
      let outcome := enumerate e.config g.toGraph.toGraph sources
        sinks (g.toGraph.enumerable _ _) e.polls
      (e.keep outcome.tally, outcome) :=
  run_of_ends _ hends

theorem runOn_complete (hg : g.Reachable) (hc : e.config.Unlimited) {r : PairResult}
    (hr : r ∈ (e.runOn g.toGraph).1.pairResults) : r.Complete e.config g.toGraph.toGraph := by
  cases hends : e.ends with
  | error fault => simp [runOn, run_of_fault _ hends, reset] at hr
  | ok ends =>
    obtain ⟨sources, sinks⟩ := ends
    rw [runOn_of_ends hends] at hr
    by_cases hnodes : ∀ id ∈ sources ++ sinks, g.hasNode id = .ok true
    · have hcomplete := enumerate_complete (g.toGraph.enumerable _ _) hg.wellFormed.closed hc
        (fun id hid => MemoryGraph.isNode_toGraph.2 (hnodes id hid)) e.polls
      exact hcomplete.results r hr
    · have hnone := enumerate_pairResults_of_missing (g.toGraph.enumerable e.config _) hnodes
        e.polls
      simp [keep, hnone] at hr

theorem runOn_paths_iff (hg : g.Reachable) (hdepth : e.config.maxDepth = none)
    (hpaths : e.config.maxPaths = none) (hcheck : e.config.check = none)
    {sources sinks : List Value} (hends : e.ends = .ok (sources, sinks))
    (hnodes : ∀ id ∈ sources ++ sinks, g.hasNode id = .ok true) :
    (∃ paths, (e.runOn g.toGraph).2.result = .ok paths) ∧
      (e.runOn g.toGraph).1.pairResults.map (fun r => (r.source, r.sink)) =
        sources.product sinks ∧
      ∀ r ∈ (e.runOn g.toGraph).1.pairResults,
        (∀ p, (∃ p' ∈ r.paths, p'.map Value.key = p.map Value.key) ↔
          g.SimplePath r.source r.sink p) ∧
        (r.source.key = r.sink.key → r.paths = [[r.source]]) := by
  have hcomplete := enumerate_complete (g.toGraph.enumerable _ _) hg.wellFormed.closed
    ⟨hpaths, hcheck⟩ (fun id hid => MemoryGraph.isNode_toGraph.2 (hnodes id hid)) e.polls
  rw [runOn_of_ends hends]
  refine ⟨hcomplete.returns, hcomplete.pairs, fun r hr => ?_⟩
  have hr := hcomplete.results r hr
  refine ⟨fun p => ?_, hr.paths_of_source_eq_sink⟩
  have hpermits : e.config.Permits p := fun n _ _ => by rw [hdepth]; rfl
  rw [hr.mem_iff MemoryGraph.respectsKeys_toGraph, ← MemoryGraph.simplePath_iff]
  exact and_iff_left hpermits

theorem runOn_doubled_paths_iff :
    let e : Enumerator :=
      { sources := .list [Value.text "a"], sinks := .list [Value.text "d", Value.text "a"],
        config := { workers := .int 3 } }
    doubled.Reachable ∧ (∃ paths, (e.runOn doubled.toGraph).2.result = .ok paths) ∧
      doubled.SimplePath (.text "a") (.text "d") (["a", "c", "d"].map Value.text) ∧
      ¬doubled.SimplePath (.text "a") (.text "a") (["a", "b", "d", "a"].map Value.text) := by
  intro e
  have hnodes : ∀ id ∈ [Value.text "a"] ++ [Value.text "d", Value.text "a"],
      doubled.hasNode id = .ok true := by
    simp only [List.cons_append, List.nil_append, List.forall_mem_cons]
    exact ⟨rfl, rfl, rfl, nofun⟩
  obtain ⟨hreturns, _, hresults⟩ :=
    runOn_paths_iff (e := e) doubled_reachable rfl rfl rfl rfl hnodes
  have hrun : (e.runOn doubled.toGraph).1.pairResults =
      [⟨.text "a", .text "d", [["a", "b", "d"], ["a", "c", "d"], ["a", "b", "d"]].map
        (·.map Value.text)⟩, ⟨.text "a", .text "a", [[.text "a"]]⟩] := by
    subst e
    cbv
  rw [hrun, List.forall_mem_cons, List.forall_mem_singleton] at hresults
  obtain ⟨⟨hsink, _⟩, hself, _⟩ := hresults
  refine ⟨doubled_reachable, hreturns, (hsink _).1 ⟨_, by simp, rfl⟩, ?_⟩
  rw [← hself]
  simp

/-- Without a limit on their number, the paths of a pair are all different if and only if no simple
path between its ends, within the depth bound, has two edges for the same hop. -/
theorem runOn_paths_nodup_iff (hg : g.Reachable) (hpaths : e.config.maxPaths = none)
    (hcheck : e.config.check = none) {r : PairResult}
    (hr : r ∈ (e.runOn g.toGraph).1.pairResults) :
    (r.paths.map (·.map Value.key)).Nodup ↔
      ∀ p, g.SimplePath r.source r.sink p → e.config.Permits p →
        p.IsChain fun u v => g.toGraph.linksBy Value.key u v.key = 1 := by
  have hcomplete := runOn_complete hg ⟨hpaths, hcheck⟩ hr
  rw [hcomplete.nodup_iff MemoryGraph.respectsKeys_toGraph]
  constructor
  · intro hways p hsimple hpermits
    obtain ⟨⟨hstart, hchain⟩, hadmits⟩ := MemoryGraph.simplePath_iff.1 ⟨hsimple, hpermits⟩
    exact Graph.waysBy_eq_one_iff.1 (hways p hstart hchain hadmits)
  · intro hsingle p hstart hchain hadmits
    obtain ⟨hsimple, hpermits⟩ := MemoryGraph.simplePath_iff.2 ⟨⟨hstart, hchain⟩, hadmits⟩
    exact Graph.waysBy_eq_one_iff.2 (hsingle p hsimple hpermits)

theorem runOn_doubled_paths_nodup_iff :
    let e : Enumerator :=
      { sources := .list [Value.text "a"], sinks := .list [Value.text "c", Value.text "d"],
        config := { maxDepth := some (.int 4) } }
    (∀ p, doubled.SimplePath (.text "a") (.text "c") p → e.config.Permits p →
      p.IsChain fun u v => doubled.toGraph.linksBy Value.key u v.key = 1) ∧
    ¬∀ p, doubled.SimplePath (.text "a") (.text "d") p → e.config.Permits p →
      p.IsChain fun u v => doubled.toGraph.linksBy Value.key u v.key = 1 := by
  intro e
  have hrun : (e.runOn doubled.toGraph).1.pairResults =
      [⟨.text "a", .text "c", [["a", "c"]].map (·.map Value.text)⟩,
        ⟨.text "a", .text "d", [["a", "b", "d"], ["a", "c", "d"], ["a", "b", "d"]].map
          (·.map Value.text)⟩] := by
    subst e
    cbv
  have hnodup : ∀ r ∈ (e.runOn doubled.toGraph).1.pairResults, _ := fun r hr =>
    runOn_paths_nodup_iff doubled_reachable rfl rfl hr
  rw [hrun, List.forall_mem_cons, List.forall_mem_singleton] at hnodup
  obtain ⟨hc, hd⟩ := hnodup
  exact ⟨hc.1 (by decide), fun hsingle => absurd (hd.2 hsingle) (by decide)⟩

def parallel : MemoryGraph :=
  let edge : Edge := { src := .text "A", dst := .text "B" }
  { records := ⟨["A", "B"].map fun u => (.text u, { id := .text u })⟩
    out := ⟨[(.text "A", [edge, edge]), (.text "B", [])]⟩ }

theorem runOn_parallel_repeats :
    let e : Enumerator := { sources := .list [Value.text "A"], sinks := .list [Value.text "B"] }
    parallel.Reachable ∧ e.config.maxPaths = none ∧ e.config.check = none ∧
      ∃ r ∈ (e.runOn parallel.toGraph).1.pairResults,
        r.paths = [[.text "A", .text "B"], [.text "A", .text "B"]] ∧
        ¬(r.paths.map (·.map Value.key)).Nodup := by
  intro e
  have hmade : MemoryGraph.ofEdges (.text "in_memory") (.list []) (.list
      [.tuple [Value.text "A", Value.text "B"], .tuple [Value.text "A", Value.text "B"]]) =
        .ok parallel := rfl
  have hrun : (e.runOn parallel.toGraph).1.pairResults =
      [⟨.text "A", .text "B", [[.text "A", .text "B"], [.text "A", .text "B"]]⟩] := by
    subst e
    cbv
  rw [hrun]
  exact ⟨.ofEdges hmade, rfl, rfl, _, List.mem_singleton_self _, rfl, by decide⟩

end Enumerator

end FlowPaths
