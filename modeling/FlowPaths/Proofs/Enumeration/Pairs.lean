import Mathlib
import FlowPaths.Enumeration
import FlowPaths.Proofs.Graph.WellFormed
import FlowPaths.Proofs.Search.Discovery

/-!
Runs without limits.  If all sources and sinks are nodes, such a run searches every pair to the
end, and the result of a pair lists its paths in the order of discovery.
-/

namespace FlowPaths

def Config.Unlimited (c : Config) : Prop := c.maxPaths = none ∧ c.check = none

/-- The result has the path of every route between its ends, in the order of the routes. -/
def PairResult.Complete (c : Config) (g : Graph) (r : PairResult) : Prop :=
  Lists ((c.query r.sink 0).Leads g r.source) r.paths

structure RunOutcome.Complete (c : Config) (g : Graph) (pairs : List (Value × Value))
    (outcome : RunOutcome) : Prop where
  returns : ∃ paths, outcome.result = .ok paths
  pairs : outcome.tally.pairResults.map (fun r => (r.source, r.sink)) = pairs
  results : ∀ r ∈ outcome.tally.pairResults, r.Complete c g

variable {c : Config} {g : Graph}

theorem Config.leads_query {s sink : Value} {spent : Nat} {r : List Nat} {p : Path} :
    (c.query sink spent).Leads g s r p ↔ (c.query sink 0).Leads g s r p :=
  ⟨fun ⟨hfollow, h⟩ => ⟨hfollow, h.nodup, h.unvisited, h.ends, h.shallow⟩,
    fun ⟨hfollow, h⟩ => ⟨hfollow, h.nodup, h.unvisited, h.ends, h.shallow⟩⟩

namespace Tally

theorem merge_eq (hc : c.Unlimited) (t : Tally) (r : PairResult) :
    t.merge c r =
      .ok { t with pairResults := t.pairResults ++ [r], paths := t.paths ++ r.paths } := by
  simp [merge, Config.isExceededBy, hc.1]

theorem searchPair_complete {source sink : Value} (hg : g.Searchable c source sink)
    (hclosed : g.Closed) (hc : c.Unlimited) (hsource : g.IsNode source) (spent : Nat) (t : Tally) :
    ∃ t' paths, t.searchPair c g spent source sink hg = (.ok (), t') ∧
      t'.pairResults = t.pairResults ++ [⟨source, sink, paths⟩] ∧
      PairResult.Complete c g ⟨source, sink, paths⟩ := by
  obtain ⟨paths, hresult, hlists⟩ :=
    Search.run_lists (q := c.query sink spent) hclosed hc hsource (hg spent t.polls)
  have hcomplete : PairResult.Complete c g ⟨source, sink, paths⟩ :=
    hlists.congr fun _ _ => Config.leads_query
  simp only [searchPair, hresult, merge_eq hc]
  exact ⟨_, paths, rfl, rfl, hcomplete⟩

theorem searchPairs_complete {pairs : List (Value × Value)} (hg : g.Enumerable c pairs)
    (hclosed : g.Closed) (hc : c.Unlimited) (parallel : Bool)
    (hpairs : ∀ pair ∈ pairs, g.IsNode pair.1) (t : Tally) :
    ∃ t' results, t.searchPairs c g parallel pairs hg = (.ok (), t') ∧
      t'.pairResults = t.pairResults ++ results ∧
      results.map (fun r => (r.source, r.sink)) = pairs ∧ ∀ r ∈ results, r.Complete c g := by
  induction pairs generalizing t with
  | nil => exact ⟨t, [], rfl, by simp, rfl, by simp⟩
  | cons pair pairs ih =>
    obtain ⟨source, sink⟩ := pair
    -- How much is spent makes no difference without a limit.
    obtain ⟨t₁, paths, hsearch, hpair, hcomplete⟩ :=
      searchPair_complete hg.head hclosed hc (hpairs _ List.mem_cons_self)
        (if parallel then 0 else t.paths.length) t
    obtain ⟨t', results, hsearches, hresults, hmap, hall⟩ :=
      ih hg.tail (fun pair hmem => hpairs pair (List.mem_cons_of_mem _ hmem)) t₁
    refine ⟨t', ⟨source, sink, paths⟩ :: results, ?_, ?_, ?_, ?_⟩
    · simp only [searchPairs, hsearch, hsearches]
    · rw [hresults, hpair, List.append_assoc, List.singleton_append]
    · rw [List.map_cons, hmap]
    · intro r hr
      obtain rfl | hr := List.mem_cons.1 hr
      · exact hcomplete
      · exact hall r hr

theorem checkNodes_pairResults (ids : List Value) (t : Tally) :
    (t.checkNodes g ids).2.pairResults = t.pairResults := by
  induction ids generalizing t with
  | nil => rfl
  | cons id ids ih =>
    unfold checkNodes
    split
    · rfl
    · rfl
    · exact ih _

theorem checkNodes_eq_ok {ids : List Value} {t : Tally} :
    (t.checkNodes g ids).1 = .ok () ↔ ∀ id ∈ ids, g.hasNode id = .ok true := by
  induction ids generalizing t with
  | nil => simp [checkNodes]
  | cons id ids ih =>
    unfold checkNodes
    rw [List.forall_mem_cons]
    split
    · rename_i h
      simp [h]
    · rename_i h
      simp [h]
    · rename_i h
      simp [h, ih]

end Tally

theorem mem_pairsOf {sources sinks : List Value} {pair : Value × Value} :
    pair ∈ pairsOf sources sinks ↔ pair.1 ∈ sources ∧ pair.2 ∈ sinks := by
  obtain ⟨source, sink⟩ := pair
  simp [pairsOf]

theorem enumerate_complete {sources sinks : List Value}
    (hg : g.Enumerable c (pairsOf sources sinks)) (hclosed : g.Closed) (hc : c.Unlimited)
    (hnodes : ∀ id ∈ sources ++ sinks, g.IsNode id) (polls : Nat) :
    (enumerate c g sources sinks hg polls).Complete c g (pairsOf sources sinks) := by
  have hsources : ∀ pair ∈ pairsOf sources sinks, g.IsNode pair.1 := fun pair hpair =>
    hnodes _ (List.mem_append_left _ (mem_pairsOf.1 hpair).1)
  have hok : (Tally.checkNodes g (sources ++ sinks) { polls }).1 = .ok () :=
    Tally.checkNodes_eq_ok.2 fun id hid => (hnodes id hid).2
  have hempty := Tally.checkNodes_pairResults (g := g) (sources ++ sinks) { polls }
  unfold enumerate
  dsimp only
  split
  · rename_i hnone
    rw [List.isEmpty_iff.1 hnone]
    exact ⟨⟨[], rfl⟩, rfl, by simp [Tally.log]⟩
  · split
    · rename_i hcheck
      rw [hcheck] at hok
      cases hok
    · rename_i t hcheck
      simp only [hcheck] at hempty
      obtain ⟨t', results, hsearch, hresults, hmap, hall⟩ :=
        Tally.searchPairs_complete hg hclosed hc (c.isParallel (pairsOf sources sinks).length)
          hsources (t.log (.started (pairsOf sources sinks).length sources.length sinks.length))
      have hfound : t'.pairResults = results := by
        rw [hresults]
        simp [Tally.log, hempty]
      rw [hsearch]
      rw [← hfound] at hmap hall
      exact ⟨⟨_, rfl⟩, hmap, hall⟩

theorem enumerate_pairResults_of_missing {sources sinks : List Value}
    (hg : g.Enumerable c (pairsOf sources sinks))
    (hmissing : ¬∀ id ∈ sources ++ sinks, g.hasNode id = .ok true) (polls : Nat) :
    (enumerate c g sources sinks hg polls).tally.pairResults = [] := by
  rw [← Tally.checkNodes_eq_ok (t := { polls })] at hmissing
  have hempty := Tally.checkNodes_pairResults (g := g) (sources ++ sinks) { polls }
  unfold enumerate
  dsimp only
  split
  · rfl
  · split
    · rename_i hcheck
      rw [hcheck] at hempty
      exact hempty
    · rename_i hcheck
      rw [hcheck] at hmissing
      exact absurd rfl hmissing

/-- The paths of a pair come in the lexicographic order of their routes, each route once; so a path
comes up as often as there are ways to choose an edge for each of its hops. -/
theorem enumerate_in_route_order {sources sinks : List Value}
    (hg : g.Enumerable c (pairsOf sources sinks)) (hclosed : g.Closed)
    (hpaths : c.maxPaths = none) (hcheck : c.check = none)
    (hnodes : ∀ id ∈ sources ++ sinks, g.IsNode id) (polls : Nat) :
    (∃ paths, (enumerate c g sources sinks hg polls).result = .ok paths) ∧
      (enumerate c g sources sinks hg polls).tally.pairResults.map (fun r => (r.source, r.sink)) =
        pairsOf sources sinks ∧
      ∀ r ∈ (enumerate c g sources sinks hg polls).tally.pairResults,
        (∃ routes : List (List Nat), routes.Pairwise (List.Lex (· < ·)) ∧ routes.Nodup ∧
          List.Forall₂ ((c.query r.sink 0).Leads g r.source) routes r.paths ∧
          ∀ route, route ∈ routes ↔ ∃ p, (c.query r.sink 0).Leads g r.source route p) ∧
        (∀ p, (c.query r.sink 0).Admits {} p → p.head? = some r.source →
          r.paths.countP (fun p' => p' = p) = g.waysBy id p) ∧
        (g.RespectsKeys → ∀ p, (c.query r.sink 0).Admits {} p →
          p.head?.map Value.key = some r.source.key →
          r.paths.countP (fun p' => p'.map Value.key = p.map Value.key) =
            g.waysBy Value.key p) := by
  have hcomplete := enumerate_complete hg hclosed ⟨hpaths, hcheck⟩ hnodes polls
  refine ⟨hcomplete.returns, hcomplete.pairs, fun r hr => ?_⟩
  have hlists : Lists ((c.query r.sink 0).Leads g r.source) r.paths := hcomplete.results r hr
  exact ⟨hlists.exists_routes, fun p hp hstart => Search.countP_eq_paths hlists hp hstart,
    fun hkeys p hp hstart => Search.countP_key_paths hkeys hlists hp hstart⟩

def doubled : MemoryGraph :=
  let edge (u v : String) : Edge := { src := .text u, dst := .text v }
  { records := ⟨["a", "b", "c", "d"].map fun u => (.text u, { id := .text u })⟩
    out :=
      ⟨[(.text "a", [edge "a" "b", edge "a" "c", edge "a" "b"]), (.text "b", [edge "b" "d"]),
        (.text "c", [edge "c" "d"]), (.text "d", [edge "d" "a"])]⟩ }

theorem doubled_reachable : doubled.Reachable := by
  let link (u v : String) : Value := .tuple [Value.text u, Value.text v]
  have hmade : MemoryGraph.ofEdges (.text "in_memory") (.list [])
      (.list [link "a" "b", link "a" "c", link "b" "d", link "c" "d", link "a" "b",
        link "d" "a"]) = .ok doubled := rfl
  exact .ofEdges hmade

theorem enumerate_doubled_in_route_order :
    let c : Config := { maxDepth := some (.int 3), workers := .int 2 }
    let outcome := enumerate c doubled.toGraph.toGraph [.text "a"]
      [.text "b", .text "d"] (doubled.toGraph.enumerable c _) 0
    let paths := [["a", "b", "d"], ["a", "c", "d"], ["a", "b", "d"]].map (·.map Value.text)
    (∃ paths, outcome.result = .ok paths) ∧
      ⟨.text "a", .text "d", paths⟩ ∈ outcome.tally.pairResults ∧
      (∃ routes : List (List Nat), routes.Pairwise (List.Lex (· < ·)) ∧ routes.Nodup ∧
        List.Forall₂ ((c.query (.text "d") 0).Leads doubled.toGraph.toGraph (.text "a"))
          routes paths) ∧
      doubled.toGraph.waysBy id (["a", "b", "d"].map Value.text) = 2 ∧
      paths.countP (fun p => p = ["a", "b", "d"].map Value.text) = 2 := by
  intro c outcome paths
  have hnodes : ∀ id ∈ [.text "a"] ++ [.text "b", .text "d"], doubled.toGraph.IsNode id := by
    simp only [List.cons_append, List.nil_append, List.forall_mem_cons]
    exact ⟨⟨rfl, rfl⟩, ⟨rfl, rfl⟩, ⟨rfl, rfl⟩, nofun⟩
  obtain ⟨hreturns, _, hresults⟩ := enumerate_in_route_order (doubled.toGraph.enumerable c _)
    doubled_reachable.wellFormed.closed rfl rfl hnodes 0
  have hmem : ⟨.text "a", .text "d", paths⟩ ∈ outcome.tally.pairResults := by
    have hrun : outcome.tally.pairResults = [⟨.text "a", .text "b",
        [["a", "b"], ["a", "b"]].map (·.map Value.text)⟩, ⟨.text "a", .text "d", paths⟩] := by
      subst outcome paths c
      cbv
    rw [hrun]
    exact List.mem_cons_of_mem _ List.mem_cons_self
  obtain ⟨⟨routes, hlex, hnodup, hpaths, _⟩, hcount, _⟩ := hresults _ hmem
  refine ⟨hreturns, hmem, ⟨routes, hlex, hnodup, hpaths⟩, rfl, hcount _ ?_ rfl⟩
  refine ⟨by decide, fun _ _ => List.not_mem_nil, rfl, fun n hlow hhigh => ?_⟩
  have hn : n = 1 ∨ n = 2 := by
    simp at hlow hhigh
    omega
  obtain rfl | rfl := hn <;> rfl

end FlowPaths
