import FlowPaths.Proofs.Enumeration.Merging
import FlowPaths.Proofs.Search.Depth

/-!
The depth bound of a run.  Nodes at the bound are not expanded, long before it is known which paths
would lead through them; still the paths of a run are those that it has without a bound, less the
ones with too many nodes.
-/

namespace FlowPaths

theorem Lists.filter {P : List Nat → Path → Prop} {paths : List Path} (h : Lists P paths)
    (S : Path → Bool) : Lists (fun r p => P r p ∧ S p = true) (paths.filter S) := by
  obtain ⟨routes, rfl, horder, hroutes⟩ := h
  refine ⟨routes.filter (S ·.2), ?_, horder.sublist List.filter_sublist, fun r p => ?_⟩
  · rw [List.filter_map]
    rfl
  · rw [List.mem_filter, hroutes]

theorem Search.Query.admits_iff_of_depth {q q' : Query} {d : Int} (htarget : q'.target = q.target)
    (hfree : q.maxDepth = none) (hdepth : q'.maxDepth = some (.int d)) (hd : 1 ≤ d) {p : Path} :
    q'.Admits {} p ↔ q.Admits {} p ∧ (p.length : Int) ≤ d := by
  have hshallow := shallow_iff none hfree nofun p.length
  have hshallow' := shallow_iff (some d) hdepth (by simpa using hd) p.length
  constructor
  · intro h
    exact ⟨⟨h.nodup, h.unvisited, htarget ▸ h.ends, hshallow.2 nofun⟩, hshallow'.1 h.shallow d rfl⟩
  · rintro ⟨h, hlength⟩
    exact ⟨h.nodup, h.unvisited, htarget ▸ h.ends, hshallow'.2 (by simpa using hlength)⟩

namespace PairResult

variable {c c' : Config} {g : Graph}

def within (r : PairResult) (d : Int) : PairResult :=
  { r with paths := r.paths.filter fun p => (p.length : Int) ≤ d }

theorem Complete.within {r : PairResult} {d : Int} (h : r.Complete c g) (hfree : c.maxDepth = none)
    (hdepth : c'.maxDepth = some (.int d)) (hd : 1 ≤ d) : (r.within d).Complete c' g := by
  refine (Lists.filter h _).congr fun route p => ?_
  have hadmits : (c'.query r.sink 0).Admits {} p ↔
      (c.query r.sink 0).Admits {} p ∧ (p.length : Int) ≤ d := by
    apply Search.Query.admits_iff_of_depth
    exacts [rfl, hfree, hdepth, hd]
  simp only [Search.Query.Leads, PairResult.within, hadmits, decide_eq_true_eq, and_assoc]

theorem Complete.eq {r r' : PairResult} (h : r.Complete c g) (h' : r'.Complete c g)
    (hends : r.ends = r'.ends) : r = r' := by
  obtain ⟨source, sink, paths⟩ := r
  obtain ⟨source', sink', paths'⟩ := r'
  cases hends
  obtain rfl : paths = paths' := Lists.unique h h'
  rfl

theorem eq_of_complete {results results' : List PairResult} (h : ∀ r ∈ results, r.Complete c g)
    (h' : ∀ r ∈ results', r.Complete c g)
    (hends : results.map PairResult.ends = results'.map PairResult.ends) : results = results' := by
  induction results generalizing results' with
  | nil => exact (List.map_eq_nil_iff.1 hends.symm).symm
  | cons r results ih =>
    obtain ⟨r', results', rfl, hr, hrest⟩ := List.map_eq_cons_iff.1 hends.symm
    rw [List.forall_mem_cons] at h h'
    rw [h.1.eq h'.1 hr.symm, ih h.2 h'.2 hrest.symm]

end PairResult

theorem Graph.enumerable_of_depth (g : Graph) {c : Config} {d : Int}
    (hdepth : c.maxDepth = some (.int d)) (pairs : List (Value × Value)) : g.Enumerable c pairs :=
  fun _ _ _ polls => Search.ends_of_depth hdepth List.not_mem_nil polls

theorem enumerate_keeps_complete {c : Config} {g : Graph} {sources sinks : List Value}
    (hg : g.Enumerable c (pairsOf sources sinks)) (hclosed : g.Closed) (hc : c.Unlimited)
    (hnodes : ∀ id ∈ sources ++ sinks, g.IsNode id) (polls : Nat) :
    ∃ results, (enumerate c g sources sinks hg polls).Keeps (.ok ()) results ∧
      results.map PairResult.ends = pairsOf sources sinks ∧ ∀ r ∈ results, r.Complete c g := by
  have hcomplete := enumerate_complete hg hclosed hc hnodes polls
  obtain ⟨paths, hreturns⟩ := hcomplete.returns
  obtain ⟨results, hkeeps, hpairs, _⟩ := enumerate_ok hg hreturns
  exact ⟨results, hkeeps, hpairs, hkeeps.pairResults ▸ hcomplete.results⟩

namespace Enumerator

variable {e : Enumerator} {g : Graph} {sources sinks : List Value}

theorem run_withDepth (hclosed : g.Closed) (hpaths : e.config.maxPaths = none)
    (hcheck : e.config.check = none) (hends : e.ends = .ok (sources, sinks))
    (hnodes : ∀ id ∈ sources ++ sinks, g.IsNode id)
    (hg : g.Enumerable (e.withDepth none).config e.pairs) {d : Int} (hd : 1 ≤ d) :
    let all := (e.withDepth none).run g hg
    let bounded := (e.withDepth (some (.int d))).run g (g.enumerable_of_depth rfl _)
    all.2.result = .ok all.1.paths ∧ bounded.2.result = .ok bounded.1.paths ∧
      bounded.1.pairResults = all.1.pairResults.map (·.within d) ∧
      bounded.1.paths = all.1.paths.filter fun p => (p.length : Int) ≤ d := by
  intro all bounded
  have hfree : g.Enumerable (e.withDepth none).config (pairsOf sources sinks) :=
    pairs_of_ends hends ▸ hg
  have hbounded := g.enumerable_of_depth (c := (e.withDepth (some (.int d))).config) rfl
  obtain ⟨results, hkeeps, hpairs, hresults⟩ :=
    enumerate_keeps_complete hfree hclosed ⟨hpaths, hcheck⟩ hnodes (e.withDepth none).polls
  obtain ⟨results', hkeeps', hpairs', hresults'⟩ :=
    enumerate_keeps_complete (hbounded _) hclosed ⟨hpaths, hcheck⟩ hnodes
      (e.withDepth (some (.int d))).polls
  have hwithin : results' = results.map (·.within d) := by
    apply PairResult.eq_of_complete hresults'
    · intro r hr
      obtain ⟨r, hmem, rfl⟩ := List.mem_map.1 hr
      exact (hresults r hmem).within rfl rfl hd
    · rw [hpairs', ← hpairs, List.map_map]
      rfl
  have houtcome : all = (keep _ _, _) := run_of_ends (e := e.withDepth none) hg hends
  have houtcome' : bounded = (keep _ _, _) :=
    run_of_ends (e := e.withDepth (some (.int d))) (hbounded _) hends
  rw [houtcome, houtcome']
  simp only [keep, hkeeps.pairResults, hkeeps.paths, hkeeps.result, hkeeps'.pairResults,
    hkeeps'.paths, hkeeps'.result]
  refine ⟨rfl, rfl, hwithin, ?_⟩
  rw [hwithin, List.filter_flatMap, List.flatMap_map]
  rfl

theorem run_doubled_withDepth :
    let e : Enumerator :=
      { sources := .list (["a", "d"].map Value.text), sinks := .list (["d", "b"].map Value.text),
        config := { workers := .int 2 } }
    let all := (e.withDepth none).runOn doubled.toGraph
    let bounded := (e.withDepth (some (.int 2))).runOn doubled.toGraph
    all.1.pairResults.map (fun r => r.paths.length) = [3, 2, 1, 2] ∧
      bounded.1.pairResults.map (fun r => r.paths.length) = [0, 2, 1, 0] ∧
      bounded.2.result = .ok bounded.1.paths ∧
      bounded.1.pairResults = all.1.pairResults.map (·.within 2) := by
  intro e all bounded
  have hnodes : ∀ id ∈ ["a", "d"].map Value.text ++ ["d", "b"].map Value.text,
      doubled.toGraph.IsNode id := by
    simp only [List.map_cons, List.map_nil, List.cons_append, List.nil_append, List.forall_mem_cons]
    exact ⟨⟨rfl, rfl⟩, ⟨rfl, rfl⟩, ⟨rfl, rfl⟩, ⟨rfl, rfl⟩, nofun⟩
  have hall : all.1.pairResults.map (fun r => r.paths.length) = [3, 2, 1, 2] := by
    subst all e
    cbv
  have hbounded : bounded.1.pairResults.map (fun r => r.paths.length) = [0, 2, 1, 0] := by
    subst bounded e
    cbv
  obtain ⟨_, hreturns, hresults, _⟩ := run_withDepth (e := e) (d := 2)
    doubled_reachable.wellFormed.closed rfl rfl rfl hnodes (doubled.toGraph.enumerable _ _)
    (by decide)
  exact ⟨hall, hbounded, hreturns, hresults⟩

end Enumerator

end FlowPaths
