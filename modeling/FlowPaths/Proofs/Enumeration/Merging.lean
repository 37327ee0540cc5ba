import Mathlib
import FlowPaths.Proofs.Enumeration.Pairs
import FlowPaths.Proofs.Search.Bounds

/-!
What a run keeps of the pairs it searches.  The result of a pair is merged as a whole, and only
after its search has returned; so whatever ends a run, it keeps the complete results of the pairs
before, and nothing else.
-/

namespace FlowPaths

def Config.freeQuery (c : Config) (sink : Value) : Search.Query where
  target := sink
  maxDepth := c.maxDepth

theorem Config.freeQuery_unlimited (c : Config) (sink : Value) : (c.freeQuery sink).Unlimited :=
  ⟨rfl, rfl⟩

theorem Config.query_sameAim (c : Config) (sink : Value) (spent : Nat) :
    (c.query sink spent).SameAim (c.freeQuery sink) := ⟨rfl, rfl⟩

/-- The paths are all there are from the source to the sink. -/
def PairResult.Exhaustive (c : Config) (g : Graph) (r : PairResult) : Prop :=
  Search.Yields g (c.freeQuery r.sink) r.source {} 0 (.ok r.paths)

def PairResult.ends (r : PairResult) : Value × Value := (r.source, r.sink)

theorem PairResult.Exhaustive.paths_eq {c : Config} {g : Graph} {source sink : Value}
    {paths paths' : List Path} (h : PairResult.Exhaustive c g ⟨source, sink, paths⟩)
    (h' : PairResult.Exhaustive c g ⟨source, sink, paths'⟩) : paths = paths' := by
  cases Search.Yields.unique h h'
  rfl

namespace Report

theorem totalPaths_eq_length (results : List PairResult) :
    totalPaths results = (results.flatMap PairResult.paths).length := by
  have hfold : ∀ n, results.foldl (fun total r => total + r.paths.length) n =
      n + (results.flatMap PairResult.paths).length := by
    induction results with
    | nil => simp
    | cons r results ih =>
      intro n
      rw [List.foldl_cons, ih, List.flatMap_cons, List.length_append]
      omega
  rw [totalPaths, hfold, Nat.zero_add]

theorem totalPaths_nil : totalPaths [] = 0 := rfl

theorem totalPaths_singleton (r : PairResult) : totalPaths [r] = r.paths.length := by
  simp [totalPaths_eq_length]

theorem totalPaths_cons (r : PairResult) (results : List PairResult) :
    totalPaths (r :: results) = r.paths.length + totalPaths results := by
  simp [totalPaths_eq_length]

end Report

def Config.limitFault (c : Config) : Fault := .pathLimitExceeded (Config.boundValue c.maxPaths)

namespace Tally

structure Gains (t : Tally) (results : List PairResult) (t' : Tally) : Prop where
  pairResults : t'.pairResults = t.pairResults ++ results
  paths : t'.paths = t.paths ++ results.flatMap PairResult.paths

theorem Gains.refl (t : Tally) : t.Gains [] t := ⟨by simp, by simp⟩

theorem Gains.trans {t t' t'' : Tally} {results results' : List PairResult}
    (h : t.Gains results t') (h' : t'.Gains results' t'') : t.Gains (results ++ results') t'' := by
  refine ⟨?_, ?_⟩
  · rw [h'.pairResults, h.pairResults, List.append_assoc]
  · rw [h'.paths, h.paths, List.flatMap_append, List.append_assoc]

theorem Gains.log {t t' : Tally} {results : List PairResult} (h : t.Gains results t')
    (event : Event) : t.Gains results (t'.log event) :=
  ⟨h.pairResults, h.paths⟩

theorem Gains.length_paths {t t' : Tally} {results : List PairResult} (h : t.Gains results t') :
    t'.paths.length = t.paths.length + Report.totalPaths results := by
  rw [h.paths, List.length_append, Report.totalPaths_eq_length]

inductive Searched (c : Config) (g : Graph) (spent : Nat) (source sink : Value) (t : Tally) :
    Except Fault Unit × Tally → Prop
  | merged {paths t'} :
      Search.Yields g (c.query sink spent) source {} t.polls (.ok paths) →
      c.isExceededBy (t.paths.length + paths.length) = false →
      t.Gains [⟨source, sink, paths⟩] t' → Searched c g spent source sink t (.ok (), t')
  | exceeded {paths t'} :
      Search.Yields g (c.query sink spent) source {} t.polls (.ok paths) →
      c.isExceededBy (t.paths.length + paths.length) = true →
      t.Gains [] t' → Searched c g spent source sink t (.error c.limitFault, t')
  | failed {fault t'} :
      Search.Yields g (c.query sink spent) source {} t.polls (.error fault) →
      t.Gains [] t' → Searched c g spent source sink t (.error fault, t')

variable {c : Config} {g : Graph} {t t' : Tally}

theorem merge_of_exceeded {r : PairResult}
    (h : c.isExceededBy (t.paths.length + r.paths.length) = true) :
    t.merge c r = .error c.limitFault := by
  simp [merge, h, Config.limitFault]

theorem merge_of_not_exceeded {r : PairResult}
    (h : c.isExceededBy (t.paths.length + r.paths.length) = false) :
    ∃ t', t.merge c r = .ok t' ∧ t.Gains [r] t' := by
  simp only [merge, h]
  exact ⟨_, rfl, rfl, by simp⟩

theorem searchPair_searched {source sink : Value} (hg : g.Searchable c source sink) (spent : Nat)
    (t : Tally) : Searched c g spent source sink t (t.searchPair c g spent source sink hg) := by
  have hyields : Search.Yields g (c.query sink spent) source {} t.polls _ :=
    ⟨hg spent t.polls, rfl⟩
  unfold searchPair
  dsimp only
  generalize Search.run g (c.query sink spent) source {} t.polls _ = outcome at hyields ⊢
  have hasked : t.Gains [] { t with polls := outcome.polls, calls := t.calls ++ outcome.calls } :=
    ⟨by simp, by simp⟩
  split
  · rename_i hresult
    rw [hresult] at hyields
    exact .failed hyields hasked
  · rename_i paths hresult
    rw [hresult] at hyields
    have hlogged := hasked.log (.pairSearched source sink paths.length)
    generalize Tally.log _ _ = t₁ at hlogged ⊢
    have hlength : t₁.paths.length = t.paths.length := hlogged.length_paths
    cases hexceeded : c.isExceededBy (t.paths.length + paths.length) with
    | true =>
      rw [merge_of_exceeded (by rwa [hlength])]
      exact .exceeded hyields hexceeded hlogged
    | false =>
      obtain ⟨t', hmerge, hgains⟩ := merge_of_not_exceeded (t := t₁) (c := c)
        (r := ⟨source, sink, paths⟩) (by rwa [hlength])
      rw [hmerge]
      exact .merged hyields hexceeded (hlogged.trans hgains)

theorem spent_le (parallel : Bool) (t : Tally) :
    (if parallel then 0 else t.paths.length) ≤ t.paths.length := by
  split
  · exact Nat.zero_le _
  · exact Nat.le_refl _

section

variable {parallel : Bool} {source sink : Value} {pairs : List (Value × Value)}
  (hg : g.Enumerable c ((source, sink) :: pairs))

theorem searchPairs_cons_ok
    (h : t.searchPair c g (if parallel then 0 else t.paths.length) source sink hg.head =
      (.ok (), t')) :
    t.searchPairs c g parallel ((source, sink) :: pairs) hg =
      t'.searchPairs c g parallel pairs hg.tail := by
  simp only [searchPairs, h]

theorem searchPairs_cons_error {fault : Fault}
    (h : t.searchPair c g (if parallel then 0 else t.paths.length) source sink hg.head =
      (.error fault, t')) :
    t.searchPairs c g parallel ((source, sink) :: pairs) hg = (.error fault, t') := by
  simp only [searchPairs, h]

end

theorem exhaustive_of_yields {source sink : Value} {spent polls : Nat} {paths : List Path}
    (h : Search.Yields g (c.query sink spent) source {} polls (.ok paths)) :
    PairResult.Exhaustive c g ⟨source, sink, paths⟩ :=
  h.unlimited (c.query_sameAim sink spent) (c.freeQuery_unlimited sink) List.not_mem_nil 0

theorem searchPairs_ok {parallel : Bool} {pairs : List (Value × Value)} (hg : g.Enumerable c pairs)
    (h : t.searchPairs c g parallel pairs hg = (.ok (), t')) :
    ∃ results, t.Gains results t' ∧ results.map PairResult.ends = pairs ∧
      ∀ r ∈ results, r.Exhaustive c g := by
  induction pairs generalizing t with
  | nil =>
    cases h
    exact ⟨[], .refl _, rfl, by simp⟩
  | cons pair pairs ih =>
    obtain ⟨source, sink⟩ := pair
    have hsearched := searchPair_searched hg.head (if parallel then 0 else t.paths.length) t
    simp only [searchPairs] at h
    generalize t.searchPair c g _ source sink hg.head = answer at h hsearched
    cases hsearched with
    | exceeded => cases h
    | failed => cases h
    | @merged paths t₁ hyields _ hgains =>
      obtain ⟨results, hgains', hends, hall⟩ := ih hg.tail h
      refine ⟨⟨source, sink, paths⟩ :: results, hgains.trans hgains', ?_, ?_⟩
      · rw [List.map_cons, hends]
        rfl
      · rw [List.forall_mem_cons]
        exact ⟨exhaustive_of_yields hyields, hall⟩

theorem searchPairs_append {parallel : Bool} {done rest : List (Value × Value)}
    (hg : g.Enumerable c (done ++ rest)) {t₁ : Tally}
    (h : t.searchPairs c g parallel done hg.left = (.ok (), t₁)) :
    t.searchPairs c g parallel (done ++ rest) hg = t₁.searchPairs c g parallel rest hg.right := by
  induction done generalizing t with
  | nil =>
    cases h
    rfl
  | cons pair done ih =>
    obtain ⟨source, sink⟩ := pair
    rcases hsearch : t.searchPair c g (if parallel then 0 else t.paths.length) source sink hg.head
      with ⟨fault | _, t₂⟩
    · rw [searchPairs_cons_error hg.left hsearch] at h
      cases h
    · rw [searchPairs_cons_ok hg.left hsearch] at h
      exact (searchPairs_cons_ok hg hsearch).trans (ih hg.tail h)

theorem searchPairs_error {parallel : Bool} {pairs : List (Value × Value)}
    (hg : g.Enumerable c pairs) {fault : Fault}
    (h : t.searchPairs c g parallel pairs hg = (.error fault, t')) :
    ∃ done source sink rest t₁,
      ∃ (hdone : g.Enumerable c done) (hpair : g.Searchable c source sink),
      pairs = done ++ (source, sink) :: rest ∧
      t.searchPairs c g parallel done hdone = (.ok (), t₁) ∧
      t₁.searchPair c g (if parallel then 0 else t₁.paths.length) source sink hpair =
        (.error fault, t') := by
  induction pairs generalizing t with
  | nil => cases h
  | cons pair pairs ih =>
    obtain ⟨source, sink⟩ := pair
    simp only [searchPairs] at h
    split at h
    · rename_i hsearch
      cases h
      exact ⟨[], source, sink, pairs, t, List.forall_mem_nil _, hg.head, rfl, rfl, hsearch⟩
    · rename_i t₀ hsearch
      obtain ⟨done, source', sink', rest, t₁, hdone, hpair, rfl, hsearched, hfail⟩ := ih hg.tail h
      have hcons : g.Enumerable c ((source, sink) :: done) :=
        List.forall_mem_cons.2 ⟨hg.head, hdone⟩
      refine ⟨(source, sink) :: done, source', sink', rest, t₁, hcons, hpair, rfl, ?_, hfail⟩
      rw [searchPairs_cons_ok hcons hsearch, hsearched]

theorem searchPair_error {spent : Nat} {source sink : Value} (hg : g.Searchable c source sink)
    {fault : Fault} (h : t.searchPair c g spent source sink hg = (.error fault, t')) :
    t.Gains [] t' := by
  have hsearched := searchPair_searched hg spent t
  rw [h] at hsearched
  cases hsearched with
  | exceeded _ _ hgains => exact hgains
  | failed _ hgains => exact hgains

theorem searchPairs_error_gains {parallel : Bool} {pairs : List (Value × Value)}
    (hg : g.Enumerable c pairs) {fault : Fault}
    (h : t.searchPairs c g parallel pairs hg = (.error fault, t')) :
    ∃ k, k < pairs.length ∧ ∃ results, t.Gains results t' ∧
      results.map PairResult.ends = pairs.take k ∧ ∀ r ∈ results, r.Exhaustive c g := by
  obtain ⟨done, source, sink, rest, t₁, hdone, hpair, rfl, hsearched, hfail⟩ :=
    searchPairs_error hg h
  obtain ⟨results, hgains, hends, hall⟩ := searchPairs_ok hdone hsearched
  refine ⟨done.length, by simp, results, ?_, by simp [hends], hall⟩
  simpa using hgains.trans (searchPair_error hpair hfail)

theorem checkNodes_gains (ids : List Value) (t : Tally) : t.Gains [] (t.checkNodes g ids).2 := by
  induction ids generalizing t with
  | nil => exact .refl t
  | cons id ids ih =>
    unfold checkNodes
    split
    · exact ⟨by simp, by simp⟩
    · exact ⟨by simp, by simp⟩
    · have hrest := ih { t with calls := t.calls ++ [.has id] }
      exact ⟨hrest.pairResults, hrest.paths⟩

end Tally

structure RunOutcome.Reports (outcome : RunOutcome) (answer : Except Fault Unit × Tally) :
    Prop where
  result : outcome.result = answer.1.map fun _ => answer.2.paths
  paths : outcome.tally.paths = answer.2.paths
  pairResults : outcome.tally.pairResults = answer.2.pairResults

/-- A run fails because of a node that is missing, or it searches its pairs.  Neither the missing
node nor the tally that the search starts with depend on the configuration. -/
theorem enumerate_reports (g : Graph) (sources sinks : List Value) (polls : Nat) :
    ∃ t : Tally, t.paths = [] ∧ t.pairResults = [] ∧
      ((pairsOf sources sinks ≠ [] ∧ (¬∀ id ∈ sources ++ sinks, g.hasNode id = .ok true) ∧
        ∃ fault, ∀ c hg, (enumerate c g sources sinks hg polls).Reports (.error fault, t)) ∨
      ((pairsOf sources sinks = [] ∨ ∀ id ∈ sources ++ sinks, g.hasNode id = .ok true) ∧
        ∀ c hg, (enumerate c g sources sinks hg polls).Reports
          (t.searchPairs c g (c.isParallel (pairsOf sources sinks).length) (pairsOf sources sinks)
            hg))) := by
  by_cases hpairs : pairsOf sources sinks = []
  · refine ⟨{ polls }, rfl, rfl, .inr ⟨.inl hpairs, fun c hg => ?_⟩⟩
    simp only [enumerate, hpairs]
    exact ⟨rfl, rfl, rfl⟩
  · have hgains := Tally.checkNodes_gains (g := g) (sources ++ sinks) { polls }
    have hok : (Tally.checkNodes g (sources ++ sinks) { polls }).1 = .ok () ↔ _ :=
      Tally.checkNodes_eq_ok
    rcases hcheck : Tally.checkNodes g (sources ++ sinks) { polls } with ⟨fault | _, t⟩
    · rw [hcheck] at hgains hok
      refine ⟨t, hgains.paths, hgains.pairResults, .inl ⟨hpairs, ?_, fault, fun c hg => ?_⟩⟩
      · rw [← hok]
        intro h
        cases h
      · simp only [enumerate, List.isEmpty_iff, hpairs, hcheck]
        exact ⟨rfl, rfl, rfl⟩
    · rw [hcheck] at hgains hok
      refine ⟨t.log (.started (pairsOf sources sinks).length sources.length sinks.length),
        hgains.paths, hgains.pairResults, .inr ⟨.inr (hok.1 rfl), fun c hg => ?_⟩⟩
      simp only [enumerate, List.isEmpty_iff, hpairs, hcheck]
      rcases Tally.searchPairs c g _ (pairsOf sources sinks) hg _ with ⟨fault | _, t'⟩
      · exact ⟨rfl, rfl, rfl⟩
      · exact ⟨rfl, rfl, rfl⟩

theorem enumerate_reports_of_nodes {g : Graph} {sources sinks : List Value}
    (hnodes : ∀ id ∈ sources ++ sinks, g.hasNode id = .ok true) (polls : Nat) :
    ∃ t : Tally, t.paths = [] ∧ t.pairResults = [] ∧
      ∀ c hg, (enumerate c g sources sinks hg polls).Reports
        (t.searchPairs c g (c.isParallel (pairsOf sources sinks).length) (pairsOf sources sinks)
          hg) := by
  obtain ⟨t, hpaths, hresults, ⟨_, hmissing, _⟩ | ⟨_, hreports⟩⟩ :=
    enumerate_reports g sources sinks polls
  · exact absurd hnodes hmissing
  · exact ⟨t, hpaths, hresults, hreports⟩

structure RunOutcome.Keeps (outcome : RunOutcome) (answer : Except Fault Unit)
    (results : List PairResult) : Prop where
  result : outcome.result = answer.map fun _ => results.flatMap PairResult.paths
  paths : outcome.tally.paths = results.flatMap PairResult.paths
  pairResults : outcome.tally.pairResults = results

theorem RunOutcome.Reports.keeps {outcome : RunOutcome} {answer : Except Fault Unit} {t t' : Tally}
    {results : List PairResult} (h : outcome.Reports (answer, t')) (hgains : t.Gains results t')
    (hpaths : t.paths = []) (hresults : t.pairResults = []) : outcome.Keeps answer results := by
  have hpaths' : t'.paths = results.flatMap PairResult.paths := by simp [hgains.paths, hpaths]
  have hresults' : t'.pairResults = results := by simp [hgains.pairResults, hresults]
  refine ⟨?_, h.paths.trans hpaths', h.pairResults.trans hresults'⟩
  rw [h.result, hpaths']

section

variable {c : Config} {g : Graph} {sources sinks : List Value} {polls : Nat}
  (hg : g.Enumerable c (pairsOf sources sinks))

theorem enumerate_ok {paths : List Path}
    (h : (enumerate c g sources sinks hg polls).result = .ok paths) :
    ∃ results, (enumerate c g sources sinks hg polls).Keeps (.ok ()) results ∧
      results.map PairResult.ends = pairsOf sources sinks ∧ ∀ r ∈ results, r.Exhaustive c g := by
  obtain ⟨t, hpaths, hresults, ⟨_, _, fault, hreports⟩ | ⟨_, hreports⟩⟩ :=
    enumerate_reports g sources sinks polls
  · rw [(hreports c hg).result] at h
    cases h
  · have hreports := hreports c hg
    rw [hreports.result] at h
    rcases hsearch : t.searchPairs c g _ (pairsOf sources sinks) hg with ⟨_ | _, t'⟩
    · rw [hsearch] at h
      cases h
    · rw [hsearch] at hreports
      obtain ⟨results, hgains, hends, hall⟩ := Tally.searchPairs_ok hg hsearch
      exact ⟨results, hreports.keeps hgains hpaths hresults, hends, hall⟩

theorem enumerate_error {fault : Fault}
    (h : (enumerate c g sources sinks hg polls).result = .error fault) :
    ∃ k, k < (pairsOf sources sinks).length ∧
      ∃ results, (enumerate c g sources sinks hg polls).Keeps (.error fault) results ∧
        results.map PairResult.ends = (pairsOf sources sinks).take k ∧
        ∀ r ∈ results, r.Exhaustive c g := by
  obtain ⟨t, hpaths, hresults, ⟨hpairs, _, fault', hreports⟩ | ⟨_, hreports⟩⟩ :=
    enumerate_reports g sources sinks polls
  · have hreports := hreports c hg
    rw [hreports.result] at h
    cases h
    exact ⟨0, List.length_pos_iff.2 hpairs, [], hreports.keeps (.refl t) hpaths hresults, rfl,
      nofun⟩
  · have hreports := hreports c hg
    rw [hreports.result] at h
    rcases hsearch : t.searchPairs c g _ (pairsOf sources sinks) hg with ⟨fault' | _, t'⟩
    · rw [hsearch] at h hreports
      cases h
      obtain ⟨k, hk, results, hgains, hends, hall⟩ := Tally.searchPairs_error_gains hg hsearch
      exact ⟨k, hk, results, hreports.keeps hgains hpaths hresults, hends, hall⟩
    · rw [hsearch] at h
      cases h

end

namespace Enumerator

variable {e : Enumerator} {g : Graph} {sources sinks : List Value}

/-- Whatever makes a run fail, and whatever was found before it, what it keeps are the complete
results of the pairs before the one that it failed at. -/
theorem run_keeps_complete_results (hg : g.Enumerable e.config e.pairs)
    (hends : e.ends = .ok (sources, sinks)) {fault : Fault}
    (hfail : (e.run g hg).2.result = .error fault) :
    ∃ k, k < (sources.product sinks).length ∧
      (e.run g hg).1.pairResults.map PairResult.ends = (sources.product sinks).take k ∧
      (∀ r ∈ (e.run g hg).1.pairResults, r.Exhaustive e.config g) ∧
      (e.run g hg).1.paths = (e.run g hg).1.pairResults.flatMap PairResult.paths := by
  rw [run_of_ends hg hends] at hfail ⊢
  obtain ⟨k, hk, results, hkeeps, hpairs, hall⟩ := enumerate_error _ hfail
  simp only [keep, hkeeps.pairResults, hkeeps.paths]
  exact ⟨k, hk, hpairs, hall, trivial⟩

theorem run_doubled_keeps_complete_results :
    let config : Config :=
      { workers := .int 2, maxPaths := some (.int 9), check := some fun calls => .ok (calls == 7) }
    let e : Enumerator :=
      { sources := .list [Value.text "a"], sinks := .list [Value.text "b", Value.text "d"],
        config := config, paths := [[.text "z"]],
        pairResults := [⟨.text "z", .text "z", [[.text "z"]]⟩] }
    let kept := (e.runOn doubled.toGraph).1
    (e.runOn doubled.toGraph).2.result = .error .cancelled ∧
      kept.paths = [["a", "b"], ["a", "b"]].map (·.map Value.text) ∧
      ∃ k, k < 2 ∧
        kept.pairResults.map PairResult.ends =
          [(Value.text "a", Value.text "b"), (Value.text "a", Value.text "d")].take k ∧
        (∀ r ∈ kept.pairResults, r.Exhaustive e.config doubled.toGraph.toGraph) ∧
        kept.paths = kept.pairResults.flatMap PairResult.paths := by
  intro config e kept
  have hfail : (e.runOn doubled.toGraph).2.result = .error .cancelled := by
    rw [runOn, run_of_ends _ rfl]
    subst kept e config
    cbv
  have hkept : kept.paths = [["a", "b"], ["a", "b"]].map (·.map Value.text) := by
    subst kept e config
    cbv
  have hends : e.ends = .ok ([.text "a"], [.text "b", .text "d"]) := rfl
  exact ⟨hfail, hkept, run_keeps_complete_results (doubled.toGraph.enumerable _ _) hends hfail⟩

end Enumerator

end FlowPaths
