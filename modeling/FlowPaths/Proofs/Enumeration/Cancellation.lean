import FlowPaths.Proofs.Enumeration.Merging
import FlowPaths.Proofs.Search.Depth
import FlowPaths.Proofs.Search.Polling

/-!
When a run is cancelled.  The check is asked a fixed number of times for each pair, which the graph
alone determines; so the number of the first answer that cancels tells how far the run gets.
-/

namespace FlowPaths

/-- The routes from `s` that come back to no node, keep away from `t` and have no more nodes than
the bound, if there is one. -/
def Graph.sidesteps (g : Graph) (bound : Option Nat) (s t : Value) : Set (List Nat) :=
  {r | ∃ p, g.follow s r = some p ∧ (p.map Value.key).Nodup ∧ (∀ v ∈ p, v.key ≠ t.key) ∧
    ∀ d ∈ bound, p.length ≤ d}

noncomputable def Graph.pollCount (g : Graph) (bound : Option Nat) (s t : Value) : Nat :=
  if s.key = t.key then 0 else 2 * (g.sidesteps bound s t).ncard - 1

namespace Config

variable {c : Config} {g : Graph} {bound : Option Nat} {s t : Value}

theorem roams_freeQuery (hdepth : c.maxDepth = bound.map fun d => .int d)
    (hbound : ∀ d ∈ bound, 1 ≤ d) : (c.freeQuery t).roams g {} s = g.sidesteps bound s t := by
  have hshallow := Search.Query.shallow_iff (q := c.freeQuery t)
    (bound.map fun d : Nat => (d : Int)) (hdepth.trans (Option.map_map _ _ bound).symm)
    (by simpa using hbound)
  ext r
  apply exists_congr
  intro p
  apply and_congr_right
  intro _
  constructor
  · intro h
    exact ⟨h.nodup, h.avoids, by simpa using (hshallow p.length).1 h.shallow⟩
  · rintro ⟨hnodup, havoids, hlength⟩
    exact ⟨hnodup, fun v _ => List.not_mem_nil, havoids,
      (hshallow p.length).2 (by simpa using hlength)⟩

theorem pollCount_freeQuery (hdepth : c.maxDepth = bound.map fun d => .int d)
    (hbound : ∀ d ∈ bound, 1 ≤ d) :
    (c.freeQuery t).pollCount g {} s = g.pollCount bound s t := by
  rw [Search.Query.pollCount, Graph.pollCount, roams_freeQuery hdepth hbound]
  rfl

structure Asks (c : Config) (answers : Nat → Bool) : Prop where
  maxPaths : c.maxPaths = none
  check : c.check = some fun i => .ok (answers i)

theorem Asks.query {answers : Nat → Bool} (h : c.Asks answers) (sink : Value) (spent : Nat) :
    (c.query sink spent).Asks answers := ⟨h.maxPaths, h.check⟩

end Config

noncomputable def PairResult.cost (c : Config) (g : Graph) (r : PairResult) : Nat :=
  (c.freeQuery r.sink).pollCount g {} r.source

theorem PairResult.Exhaustive.asked {c : Config} {g : Graph} {answers : Nat → Bool} {r : PairResult}
    (h : r.Exhaustive c g) (hclosed : g.Closed) (hasks : c.Asks answers) (hnode : g.IsNode r.source)
    (spent polls : Nat) :
    ((c.freeQuery r.sink).roams g {} r.source).Finite ∧
      ((∀ i < r.cost c g, answers (polls + i) = false) →
        Search.Concludes g (c.query r.sink spent) r.source polls (.ok r.paths)
          (polls + r.cost c g)) ∧
      ∀ n < r.cost c g, (∀ i < n, answers (polls + i) = false) → answers (polls + n) = true →
        Search.Concludes g (c.query r.sink spent) r.source polls (.error .cancelled)
          (polls + (n + 1)) := by
  have haim : (c.freeQuery r.sink).SameAim (c.query r.sink spent) := ⟨rfl, rfl⟩
  exact Search.Yields.asked hclosed (c.freeQuery_unlimited r.sink) haim (hasks.query r.sink spent)
    hnode h polls

namespace Tally

variable {c : Config} {g : Graph} {answers : Nat → Bool} {t : Tally} {r : PairResult}

theorem searchPair_of_concludes_ok (hg : g.Searchable c r.source r.sink) (hmax : c.maxPaths = none)
    {spent n : Nat}
    (h : Search.Concludes g (c.query r.sink spent) r.source t.polls (.ok r.paths) n) :
    ∃ t', t.searchPair c g spent r.source r.sink hg = (.ok (), t') ∧ t.Gains [r] t' ∧
      t'.polls = n := by
  obtain ⟨ends, hresult, hpolls⟩ := h
  simp only [searchPair, hresult, merge, Config.isExceededBy, hmax]
  exact ⟨_, rfl, ⟨rfl, by simp [log]⟩, hpolls⟩

theorem searchPair_of_concludes_error {source sink : Value} (hg : g.Searchable c source sink)
    {spent n : Nat} {fault : Fault}
    (h : Search.Concludes g (c.query sink spent) source t.polls (.error fault) n) :
    ∃ t', t.searchPair c g spent source sink hg = (.error fault, t') ∧ t.Gains [] t' ∧
      t'.polls = n := by
  obtain ⟨ends, hresult, hpolls⟩ := h
  simp only [searchPair, hresult]
  exact ⟨_, rfl, ⟨by simp, by simp⟩, hpolls⟩

variable {results : List PairResult} {pairs : List (Value × Value)}

theorem searchPairs_of_false (hg : g.Enumerable c pairs) (hclosed : g.Closed)
    (hasks : c.Asks answers) (parallel : Bool) (hpairs : results.map PairResult.ends = pairs)
    (hnodes : ∀ r ∈ results, g.IsNode r.source)
    (hall : ∀ r ∈ results, r.Exhaustive c g)
    (hanswers : ∀ i < (results.map (·.cost c g)).sum, answers (t.polls + i) = false) :
    ∃ t', t.searchPairs c g parallel pairs hg = (.ok (), t') ∧
      t.Gains results t' ∧ t'.polls = t.polls + (results.map (·.cost c g)).sum := by
  subst hpairs
  induction results generalizing t with
  | nil => exact ⟨t, rfl, .refl t, rfl⟩
  | cons r results ih =>
    rw [List.forall_mem_cons] at hnodes hall
    simp only [List.map_cons, List.sum_cons] at hanswers ⊢
    obtain ⟨_, hreturns, _⟩ := hall.1.asked hclosed hasks hnodes.1
      (if parallel then 0 else t.paths.length) t.polls
    obtain ⟨t₁, hsearch, hgains, hpolls⟩ := searchPair_of_concludes_ok hg.head hasks.maxPaths
      (hreturns fun i hi => hanswers i (by omega))
    have hlater : ∀ i < (results.map (·.cost c g)).sum, answers (t₁.polls + i) = false := by
      intro i hi
      rw [hpolls, Nat.add_assoc]
      exact hanswers _ (by omega)
    obtain ⟨t', hsearches, hgains', hpolls'⟩ := ih hnodes.2 hall.2 hlater hg.tail
    exact ⟨t', (searchPairs_cons_ok hg hsearch).trans hsearches, hgains.trans hgains', by omega⟩

theorem searchPairs_of_true (hg : g.Enumerable c pairs) (hclosed : g.Closed)
    (hasks : c.Asks answers) (parallel : Bool) (hpairs : results.map PairResult.ends = pairs)
    (hnodes : ∀ r ∈ results, g.IsNode r.source)
    (hall : ∀ r ∈ results, r.Exhaustive c g) {n : Nat} (hn : n < (results.map (·.cost c g)).sum)
    (hbefore : ∀ i < n, answers (t.polls + i) = false) (hat : answers (t.polls + n) = true) :
    ∃ t' k, t.searchPairs c g parallel pairs hg = (.error .cancelled, t') ∧
      t.Gains (results.take k) t' ∧ t'.polls = t.polls + (n + 1) ∧
      ((results.map (·.cost c g)).take k).sum ≤ n ∧
      n < ((results.map (·.cost c g)).take (k + 1)).sum := by
  subst hpairs
  induction results generalizing t n with
  | nil => exact absurd hn (Nat.not_lt_zero n)
  | cons r results ih =>
    rw [List.forall_mem_cons] at hnodes hall
    rw [List.map_cons, List.sum_cons] at hn
    obtain ⟨_, hreturns, hcancels⟩ := hall.1.asked hclosed hasks hnodes.1
      (if parallel then 0 else t.paths.length) t.polls
    by_cases hr : n < r.cost c g
    · obtain ⟨t', hsearch, hgains, hpolls⟩ :=
        searchPair_of_concludes_error hg.head (hcancels n hr hbefore hat)
      refine ⟨t', 0, searchPairs_cons_error hg hsearch, hgains, hpolls, ?_, ?_⟩
      · simp
      · simpa using hr
    · obtain ⟨m, rfl⟩ := Nat.exists_eq_add_of_le (Nat.le_of_not_lt hr)
      obtain ⟨t₁, hsearch, hgains, hpolls⟩ := searchPair_of_concludes_ok hg.head hasks.maxPaths
        (hreturns fun i hi => hbefore i (by omega))
      have hlater : ∀ i < m, answers (t₁.polls + i) = false := by
        intro i hi
        rw [hpolls, Nat.add_assoc]
        exact hbefore _ (by omega)
      have hat' : answers (t₁.polls + m) = true := by
        rw [hpolls, Nat.add_assoc]
        exact hat
      obtain ⟨t', k, hsearches, hgains', hpolls', hle, hlt⟩ :=
        ih hnodes.2 hall.2 (by omega) hlater hat' hg.tail
      refine ⟨t', k + 1, (searchPairs_cons_ok hg hsearch).trans hsearches, hgains.trans hgains',
        by omega, ?_, ?_⟩
      · rw [List.map_cons, List.take_succ_cons, List.sum_cons]
        omega
      · rw [List.map_cons, List.take_succ_cons, List.sum_cons]
        omega

theorem checkNodes_polls (ids : List Value) (t : Tally) :
    (t.checkNodes g ids).2.polls = t.polls := by
  induction ids generalizing t with
  | nil => rfl
  | cons id ids ih =>
    unfold checkNodes
    split
    · rfl
    · rfl
    · exact ih _

end Tally

theorem enumerate_searches {g : Graph} {sources sinks : List Value}
    (hnodes : ∀ id ∈ sources ++ sinks, g.hasNode id = .ok true) (polls : Nat) :
    ∃ t : Tally, t.paths = [] ∧ t.pairResults = [] ∧ t.polls = polls ∧
      ∀ c hg answer, t.searchPairs c g (c.isParallel (pairsOf sources sinks).length)
          (pairsOf sources sinks) hg = answer →
        (enumerate c g sources sinks hg polls).Reports answer ∧
          (enumerate c g sources sinks hg polls).tally.polls = answer.2.polls := by
  by_cases hpairs : pairsOf sources sinks = []
  · refine ⟨{ polls }, rfl, rfl, rfl, ?_⟩
    rintro c hg _ rfl
    simp only [enumerate, hpairs]
    exact ⟨⟨rfl, rfl, rfl⟩, rfl⟩
  · have hgains := Tally.checkNodes_gains (g := g) (sources ++ sinks) { polls }
    have hpolls := Tally.checkNodes_polls (g := g) (sources ++ sinks) { polls }
    have hok : (Tally.checkNodes g (sources ++ sinks) { polls }).1 = .ok () :=
      Tally.checkNodes_eq_ok.2 hnodes
    rcases hcheck : Tally.checkNodes g (sources ++ sinks) { polls } with ⟨answer, t⟩
    rw [hcheck] at hgains hpolls hok
    cases hok
    refine ⟨t.log (.started (pairsOf sources sinks).length sources.length sinks.length),
      hgains.paths, hgains.pairResults, hpolls, ?_⟩
    rintro c hg ⟨answer, t'⟩ hsearch
    simp only [enumerate, List.isEmpty_iff, hpairs, hcheck, hsearch]
    cases answer with
    | error fault => exact ⟨⟨rfl, rfl, rfl⟩, rfl⟩
    | ok => exact ⟨⟨rfl, rfl, rfl⟩, rfl⟩

section

variable {c : Config} {g : Graph} {answers : Nat → Bool} {sources sinks : List Value}
  {results : List PairResult} {polls : Nat}

theorem isNode_source (hnodes : ∀ id ∈ sources ++ sinks, g.IsNode id)
    (hpairs : results.map PairResult.ends = pairsOf sources sinks) :
    ∀ r ∈ results, g.IsNode r.source := by
  intro r hr
  have hmem : r.ends ∈ pairsOf sources sinks := hpairs ▸ List.mem_map_of_mem hr
  exact hnodes _ (List.mem_append_left _ (mem_pairsOf.1 hmem).1)

theorem enumerate_of_false (hg : g.Enumerable c (pairsOf sources sinks)) (hclosed : g.Closed)
    (hasks : c.Asks answers)
    (hnodes : ∀ id ∈ sources ++ sinks, g.IsNode id)
    (hpairs : results.map PairResult.ends = pairsOf sources sinks)
    (hall : ∀ r ∈ results, r.Exhaustive c g)
    (hanswers : ∀ i < (results.map (·.cost c g)).sum, answers (polls + i) = false) :
    (enumerate c g sources sinks hg polls).Keeps (.ok ()) results ∧
      (enumerate c g sources sinks hg polls).tally.polls =
        polls + (results.map (·.cost c g)).sum := by
  obtain ⟨t, hpaths, hresults, rfl, hreports⟩ :=
    enumerate_searches (fun id hid => (hnodes id hid).2) polls
  obtain ⟨t', hsearch, hgains, hpolls⟩ := Tally.searchPairs_of_false hg hclosed hasks
    (c.isParallel (pairsOf sources sinks).length) hpairs (isNode_source hnodes hpairs) hall hanswers
  obtain ⟨hreport, hasked⟩ := hreports c hg _ hsearch
  exact ⟨hreport.keeps hgains hpaths hresults, hasked.trans hpolls⟩

theorem enumerate_of_true (hg : g.Enumerable c (pairsOf sources sinks)) (hclosed : g.Closed)
    (hasks : c.Asks answers)
    (hnodes : ∀ id ∈ sources ++ sinks, g.IsNode id)
    (hpairs : results.map PairResult.ends = pairsOf sources sinks)
    (hall : ∀ r ∈ results, r.Exhaustive c g) {n : Nat} (hn : n < (results.map (·.cost c g)).sum)
    (hbefore : ∀ i < n, answers (polls + i) = false) (hat : answers (polls + n) = true) :
    ∃ k, (enumerate c g sources sinks hg polls).Keeps (.error .cancelled) (results.take k) ∧
      (enumerate c g sources sinks hg polls).tally.polls = polls + (n + 1) ∧
      ((results.map (·.cost c g)).take k).sum ≤ n ∧
      n < ((results.map (·.cost c g)).take (k + 1)).sum := by
  obtain ⟨t, hpaths, hresults, rfl, hreports⟩ :=
    enumerate_searches (fun id hid => (hnodes id hid).2) polls
  obtain ⟨t', k, hsearch, hgains, hpolls, hsums⟩ := Tally.searchPairs_of_true hg hclosed hasks
    (c.isParallel (pairsOf sources sinks).length) hpairs (isNode_source hnodes hpairs) hall hn
    hbefore hat
  obtain ⟨hreport, hasked⟩ := hreports c hg _ hsearch
  exact ⟨k, hreport.keeps hgains hpaths hresults, hasked.trans hpolls, hsums⟩

end

def Enumerator.withCheck (e : Enumerator) (check : Option CancelCheck) : Enumerator :=
  { e with config := { e.config with check } }

theorem Graph.Enumerable.withCheck {g : Graph} {e : Enumerator} {pairs : List (Value × Value)}
    (hclosed : g.Closed) (hpaths : e.config.maxPaths = none)
    (hg : g.Enumerable (e.withCheck none).config pairs) (answers : Nat → Bool) :
    g.Enumerable (e.withCheck (some fun i => .ok (answers i))).config pairs := by
  rintro ⟨source, sink⟩ hpair spent polls
  have haim : (Config.query (e.withCheck none).config sink spent).SameAim
      (Config.query (e.withCheck (some fun i => .ok (answers i))).config sink spent) := ⟨rfl, rfl⟩
  exact Search.Ends.asked hclosed ⟨hpaths, rfl⟩ haim ⟨hpaths, rfl⟩ (hg _ hpair spent polls)

namespace Enumerator

variable {g : Graph} {e : Enumerator} {sources sinks : List Value} {bound : Option Nat}

theorem polls?_keep (hsingle : e.config.isSingle = true) (check : CancelCheck) (t : Tally) :
    ((e.withCheck (some check)).keep t).polls? = some (some t.polls) := by
  have hone : ((e.withCheck (some check)).keep t).config.isSingle = true := hsingle
  rw [polls?, hone]
  rfl

/-- The first answer that cancels ends a run at the pair to which it falls, as many questions as the
pairs take being counted from the first pair on; if it comes too late for all of them, or not at
all, the run is the one without a check. -/
theorem run_withCheck (hclosed : g.Closed) (hpaths : e.config.maxPaths = none)
    (hsingle : e.config.isSingle = true) (hdepth : e.config.maxDepth = bound.map fun d => .int d)
    (hbound : ∀ d ∈ bound, 1 ≤ d) (hends : e.ends = .ok (sources, sinks))
    (hnodes : ∀ id ∈ sources ++ sinks, g.IsNode id)
    (hg : g.Enumerable (e.withCheck none).config e.pairs) (answers : Nat → Bool) :
    let costs := (sources.product sinks).map fun pair => g.pollCount bound pair.1 pair.2
    let all := (e.withCheck none).run g hg
    let checked := (e.withCheck (some fun i => .ok (answers i))).run g
      (hg.withCheck hclosed hpaths answers)
    (∀ pair ∈ sources.product sinks, (g.sidesteps bound pair.1 pair.2).Finite) ∧
      all.2.result = .ok all.1.paths ∧
      (∀ n < costs.sum, (∀ i < n, answers (e.polls + i) = false) → answers (e.polls + n) = true →
        checked.2.result = .error .cancelled ∧
          checked.1.polls? = some (some (e.polls + (n + 1))) ∧
          ∃ k, (costs.take k).sum ≤ n ∧ n < (costs.take (k + 1)).sum ∧
            checked.1.pairResults = all.1.pairResults.take k ∧
            checked.1.paths = checked.1.pairResults.flatMap PairResult.paths) ∧
      ((∀ i < costs.sum, answers (e.polls + i) = false) →
        checked.2.result = all.2.result ∧
          checked.1.polls? = some (some (e.polls + costs.sum)) ∧
          checked.1.pairResults = all.1.pairResults ∧ checked.1.paths = all.1.paths) := by
  intro costs all checked
  have hfree : g.Enumerable (e.withCheck none).config (pairsOf sources sinks) :=
    pairs_of_ends hends ▸ hg
  have hchecked := hfree.withCheck hclosed hpaths answers
  have hasks : (e.withCheck (some fun i => .ok (answers i))).config.Asks answers := ⟨hpaths, rfl⟩
  obtain ⟨paths, hreturns⟩ := (enumerate_complete hfree hclosed ⟨hpaths, rfl⟩ hnodes
    (e.withCheck none).polls).returns
  obtain ⟨results, hkeeps, hpairs, hall⟩ := enumerate_ok _ hreturns
  have hall : ∀ r ∈ results,
      r.Exhaustive (e.withCheck (some fun i => .ok (answers i))).config g := hall
  have hsources := isNode_source hnodes hpairs
  have hproduct : results.map PairResult.ends = sources.product sinks := hpairs
  have hcosts : results.map (·.cost e.config g) = costs := by
    change _ = (sources.product sinks).map fun pair => g.pollCount bound pair.1 pair.2
    rw [← hproduct, List.map_map]
    apply List.map_congr_left
    intro r _
    exact Config.pollCount_freeQuery hdepth hbound
  have hall₁ : all = (keep _ _, _) := run_of_ends (e := e.withCheck none) hg hends
  have hchecked₁ : checked = (keep _ _, _) :=
    run_of_ends (e := e.withCheck (some fun i => .ok (answers i))) _ hends
  rw [hall₁, hchecked₁, polls?_keep hsingle]
  simp only [keep, hkeeps.pairResults, hkeeps.paths, hkeeps.result]
  refine ⟨?_, rfl, ?_, ?_⟩
  · intro pair hpair
    rw [← hproduct] at hpair
    obtain ⟨r, hr, rfl⟩ := List.mem_map.1 hpair
    obtain ⟨hfinite, _⟩ := (hall r hr).asked hclosed hasks (hsources r hr) 0 0
    rw [← Config.roams_freeQuery hdepth hbound]
    exact hfinite
  · intro n hn hbefore hat
    rw [← hcosts] at hn ⊢
    obtain ⟨k, hkept, hasked, hle, hlt⟩ :=
      enumerate_of_true hchecked hclosed hasks hnodes hpairs hall hn hbefore hat
    refine ⟨hkept.result, congrArg (some <| some ·) hasked, k, hle, hlt, hkept.pairResults, ?_⟩
    exact hkept.paths.trans (congrArg _ hkept.pairResults.symm)
  · intro hanswers
    rw [← hcosts] at hanswers ⊢
    obtain ⟨hkept, hasked⟩ :=
      enumerate_of_false hchecked hclosed hasks hnodes hpairs hall hanswers
    exact ⟨hkept.result, congrArg (some <| some ·) hasked, hkept.pairResults, hkept.paths⟩

/-- The run takes eleven questions, none of them for the third pair, which is one node twice.  The
last question is the only one of the last pair, and cancels it. -/
theorem run_doubled_withCheck :
    let e : Enumerator :=
      { sources := .list (["a", "b"].map Value.text), sinks := .list (["b", "d"].map Value.text),
        config := { maxDepth := some (.int 2) } }
    let all := (e.withCheck none).runOn doubled.toGraph
    let checked (answers : Nat → Bool) :=
      (e.withCheck (some fun i => .ok (answers i))).runOn doubled.toGraph
    let costs := ((["a", "b"].map Value.text).product (["b", "d"].map Value.text)).map fun pair =>
      doubled.toGraph.pollCount (some 2) pair.1 pair.2
    costs.sum = 11 ∧
      (checked fun i => i == 11).2.result = all.2.result ∧
      (checked fun i => i == 10).2.result = .error .cancelled ∧
      (checked fun i => i == 10).1.polls? = some (some 11) ∧
      (checked fun i => i == 10).1.pairResults.length = 3 ∧
      ∃ k, (costs.take k).sum ≤ 10 ∧ 10 < (costs.take (k + 1)).sum ∧
        (checked fun i => i == 10).1.pairResults = all.1.pairResults.take k := by
  intro e all checked costs
  have hnodes : ∀ id ∈ ["a", "b"].map Value.text ++ ["b", "d"].map Value.text,
      doubled.toGraph.IsNode id := by
    simp only [List.map_cons, List.map_nil, List.cons_append, List.nil_append, List.forall_mem_cons]
    exact ⟨⟨rfl, rfl⟩, ⟨rfl, rfl⟩, ⟨rfl, rfl⟩, ⟨rfl, rfl⟩, nofun⟩
  have hdepth : e.config.maxDepth = Option.map (fun d : Nat => .int d) (some 2) := rfl
  have hrun := run_withCheck doubled_reachable.wellFormed.closed rfl rfl hdepth (by simp) rfl hnodes
    (doubled.toGraph.enumerable _ _)
  have hfree : (checked fun _ => false).1.polls? = some (some 11) := by
    subst checked e
    cbv
  have hkept : (checked fun i => i == 10).1.pairResults.length = 3 := by
    subst checked e
    cbv
  have hsum : costs.sum = 11 := by
    obtain ⟨_, _, _, hwhole⟩ := hrun fun _ => false
    have htotal : some (some (0 + costs.sum)) = some (some 11) :=
      (hwhole fun _ _ => rfl).2.1.symm.trans hfree
    simpa using htotal
  obtain ⟨_, _, _, hwhole⟩ := hrun fun i => i == 11
  obtain ⟨_, _, hstopped, _⟩ := hrun fun i => i == 10
  have hbefore : ∀ n, ∀ i < n, (0 + i == n) = false := by
    intro n i hi
    simpa using hi.ne
  obtain ⟨hcancelled, hpolls, k, hle, hlt, hresults, _⟩ :=
    hstopped 10 (hsum ▸ by decide) (hbefore 10) rfl
  refine ⟨hsum, (hwhole ?_).1, hcancelled, hpolls, hkept, k, hle, hlt, hresults⟩
  exact fun i hi => hbefore 11 i (hsum ▸ hi)

end Enumerator

end FlowPaths
