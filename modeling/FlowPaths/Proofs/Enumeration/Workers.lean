import FlowPaths.Proofs.Enumeration.PathLimit

/-!
Runs with several workers.  Each pair then has the limit to itself, and only the merging adds the
paths up.  The run ends at the same pair as with one worker, with the same results, but the search
of that pair may go on for longer, and meet a fault of the graph in place of the limit.
-/

namespace FlowPaths

namespace Tally

structure SameResults (t t' : Tally) : Prop where
  paths : t.paths = t'.paths
  pairResults : t.pairResults = t'.pairResults

theorem SameResults.refl (t : Tally) : t.SameResults t := ⟨rfl, rfl⟩

theorem SameResults.symm {t t' : Tally} (h : t.SameResults t') : t'.SameResults t :=
  ⟨h.paths.symm, h.pairResults.symm⟩

theorem SameResults.trans {t t' t'' : Tally} (h : t.SameResults t') (h' : t'.SameResults t'') :
    t.SameResults t'' :=
  ⟨h.paths.trans h'.paths, h.pairResults.trans h'.pairResults⟩

theorem SameResults.gained {t t' t'' : Tally} {results : List PairResult}
    (h : t'.SameResults t'') (hgains : t.Gains results t') : t.Gains results t'' :=
  ⟨h.pairResults.symm.trans hgains.pairResults, h.paths.symm.trans hgains.paths⟩

theorem SameResults.gains {t t' t₁ t₁' : Tally} {results : List PairResult}
    (h : t.SameResults t') (hgains : t.Gains results t₁) (hgains' : t'.Gains results t₁') :
    t₁.SameResults t₁' := by
  refine ⟨?_, ?_⟩
  · rw [hgains.paths, hgains'.paths, h.paths]
  · rw [hgains.pairResults, hgains'.pairResults, h.pairResults]

variable {c : Config} {g : Graph} {t t' t₁ : Tally} {source sink : Value}
  {pairs : List (Value × Value)}

theorem searchPair_ok_again (hg : g.Searchable c source sink) (hcheck : c.check = none)
    {spent spent' : Nat}
    (h : t.searchPair c g spent source sink hg = (.ok (), t₁)) (hsame : t.SameResults t')
    (hspent : spent' ≤ t'.paths.length) :
    ∃ t₁', t'.searchPair c g spent' source sink hg = (.ok (), t₁') ∧ t₁.SameResults t₁' := by
  have hsearched := searchPair_searched hg spent t
  rw [h] at hsearched
  cases hsearched with
  | merged hyields hfits hgains =>
    rw [hsame.paths] at hfits
    obtain ⟨t₁', hsearch, hgains'⟩ :=
      searchPair_of_fits hg hcheck (exhaustive_of_yields hyields) hspent hfits
    exact ⟨t₁', hsearch, hsame.gains hgains hgains'⟩

theorem searchPairs_ok_again (hg : g.Enumerable c pairs) (hcheck : c.check = none)
    {parallel : Bool} (h : t.searchPairs c g parallel pairs hg = (.ok (), t₁))
    (hsame : t.SameResults t') (parallel' : Bool) :
    ∃ t₁', t'.searchPairs c g parallel' pairs hg = (.ok (), t₁') ∧ t₁.SameResults t₁' := by
  induction pairs generalizing t t' with
  | nil =>
    cases h
    exact ⟨t', rfl, hsame⟩
  | cons pair pairs ih =>
    obtain ⟨source, sink⟩ := pair
    simp only [searchPairs] at h
    split at h
    · cases h
    · rename_i t₀ hsearch
      obtain ⟨t₀', hsearch', hsame₀⟩ :=
        searchPair_ok_again hg.head hcheck hsearch hsame (spent_le parallel' t')
      rw [searchPairs_cons_ok hg hsearch']
      exact ih hg.tail h hsame₀

theorem searchPairs_error_at (hg : g.Enumerable c pairs) (hcheck : c.check = none)
    {parallel : Bool} {fault : Fault}
    (h : t.searchPairs c g parallel pairs hg = (.error fault, t₁)) (hsame : t.SameResults t')
    (parallel' : Bool) :
    ∃ done source sink rest t₀ t₀' fault' t₁',
      ∃ (hdone : g.Enumerable c done) (hpair : g.Searchable c source sink),
      pairs = done ++ (source, sink) :: rest ∧
      t.searchPairs c g parallel done hdone = (.ok (), t₀) ∧
      t'.searchPairs c g parallel' done hdone = (.ok (), t₀') ∧ t₀.SameResults t₀' ∧
      t₀.searchPair c g (if parallel then 0 else t₀.paths.length) source sink hpair =
        (.error fault, t₁) ∧
      t₀'.searchPair c g (if parallel' then 0 else t₀'.paths.length) source sink hpair =
        (.error fault', t₁') := by
  obtain ⟨done, source, sink, rest, t₀, hdone, hpair, hpairs, hsearched, hfail⟩ :=
    searchPairs_error hg h
  obtain ⟨t₀', hsearched', hsame₀⟩ := searchPairs_ok_again hdone hcheck hsearched hsame parallel'
  rcases hsearch : t₀'.searchPair c g (if parallel' then 0 else t₀'.paths.length) source sink hpair
    with ⟨fault' | _, t₁'⟩
  · exact ⟨done, source, sink, rest, t₀, t₀', fault', t₁', hdone, hpair, hpairs, hsearched,
      hsearched', hsame₀, hfail, hsearch⟩
  · obtain ⟨_, hok, _⟩ :=
      searchPair_ok_again hpair hcheck hsearch hsame₀.symm (spent_le parallel t₀)
    rw [hfail] at hok
    cases hok

theorem searchPairs_error_again (hg : g.Enumerable c pairs) (hcheck : c.check = none)
    {parallel : Bool} {fault : Fault}
    (h : t.searchPairs c g parallel pairs hg = (.error fault, t₁)) (hsame : t.SameResults t')
    (parallel' : Bool) :
    ∃ fault' t₁', t'.searchPairs c g parallel' pairs hg = (.error fault', t₁') ∧
      t₁.SameResults t₁' := by
  obtain ⟨done, source, sink, rest, t₀, t₀', fault', t₁', _, hpair, rfl, _, hdone', hsame₀, hfail,
    hfail'⟩ := searchPairs_error_at hg hcheck h hsame parallel'
  refine ⟨fault', t₁', ?_,
    hsame₀.gains (searchPair_error hpair hfail) (searchPair_error hpair hfail')⟩
  rw [searchPairs_append hg hdone', searchPairs_cons_error hg.right hfail']

theorem searchPairs_agree (hg : g.Enumerable c pairs) (hcheck : c.check = none)
    (parallel parallel' : Bool) (t : Tally) :
    ((t.searchPairs c g parallel pairs hg).1 = .ok () ↔
        (t.searchPairs c g parallel' pairs hg).1 = .ok ()) ∧
      (t.searchPairs c g parallel pairs hg).2.SameResults
        (t.searchPairs c g parallel' pairs hg).2 := by
  rcases h : t.searchPairs c g parallel pairs hg with ⟨fault | _, t₁⟩
  · obtain ⟨fault', t₁', h', hsame⟩ := searchPairs_error_again hg hcheck h (.refl t) parallel'
    rw [h']
    exact ⟨iff_of_false nofun nofun, hsame⟩
  · obtain ⟨t₁', h', hsame⟩ := searchPairs_ok_again hg hcheck h (.refl t) parallel'
    rw [h']
    exact ⟨.rfl, hsame⟩

section

variable {spent : Nat} {t₁' : Tally} {fault fault' : Fault}

theorem searchPair_limited_or_faulty (hg : g.Searchable c source sink) (hcheck : c.check = none)
    (h : t.searchPair c g spent source sink hg = (.error fault, t₁)) :
    fault = c.limitFault ∨ Search.Yields g (c.freeQuery sink) source {} 0 (.error fault) := by
  have hsearched := searchPair_searched hg spent t
  rw [h] at hsearched
  cases hsearched with
  | exceeded => exact .inl rfl
  | failed hyields =>
    exact hyields.limited_or_faulty (c.query_sameAim sink spent) hcheck (c.freeQuery_unlimited sink)
      List.not_mem_nil 0

theorem searchPair_limited_or_alone (hg : g.Searchable c source sink) (hcheck : c.check = none)
    (h : t.searchPair c g spent source sink hg = (.error fault, t₁)) (polls : Nat) :
    fault = c.limitFault ∨ Search.Yields g (c.query sink 0) source {} polls (.error fault) := by
  have hsearched := searchPair_searched hg spent t
  rw [h] at hsearched
  cases hsearched with
  | exceeded => exact .inl rfl
  | failed hyields =>
    have haim : (c.query sink spent).SameAim (c.query sink 0) := ⟨rfl, rfl⟩
    obtain halone | ⟨_, n, hfull, hfull', _⟩ | ⟨fault, n, herror, hinterrupts⟩ :=
      hyields.retrace haim hcheck List.not_mem_nil polls
    · exact .inr halone
    · rw [Config.isFull_query_of_zero hfull] at hfull'
      cases hfull'
    · cases herror
      exact .inl (hinterrupts.eq_limitFault hcheck).2

theorem searchPair_error_alone (hg : g.Searchable c source sink) (hcheck : c.check = none)
    (h : t.searchPair c g spent source sink hg = (.error fault, t₁))
    (h' : t'.searchPair c g 0 source sink hg = (.error fault', t₁')) :
    fault' = fault ∨ Search.Yields g (c.freeQuery sink) source {} 0 (.error fault') := by
  obtain rfl | halone := searchPair_limited_or_alone hg hcheck h t'.polls
  · exact searchPair_limited_or_faulty hg hcheck h'
  · have hsearched := searchPair_searched hg 0 t'
    rw [h'] at hsearched
    cases hsearched with
    | exceeded hyields => cases halone.unique hyields
    | failed hyields =>
      cases halone.unique hyields
      exact .inl rfl

theorem searchPair_error_alone_iff (hg : g.Searchable c source sink) (hcheck : c.check = none)
    (h : t.searchPair c g spent source sink hg = (.error fault, t₁)) (hsame : t.SameResults t')
    (h' : t'.searchPair c g 0 source sink hg = (.error fault', t₁')) (polls : Nat) :
    fault' = fault ↔
      ∀ other, Search.Yields g (c.query sink 0) source {} polls (.error other) → other = fault := by
  have hsearched := searchPair_searched hg 0 t'
  rw [h'] at hsearched
  cases hsearched with
  | exceeded hyields hexceeded =>
    -- The whole result of the pair is too much for the limit, however it is searched.
    rw [← hsame.paths] at hexceeded
    obtain ⟨_, hsearch, _⟩ :=
      searchPair_of_exceeds hg hcheck (exhaustive_of_yields hyields) hexceeded
    cases h.symm.trans hsearch
    refine iff_of_true rfl fun other hother => ?_
    cases hother.unique_of_no_check hcheck List.not_mem_nil hyields
  | failed hyields =>
    constructor
    · rintro rfl other hother
      cases hother.unique_of_no_check hcheck List.not_mem_nil hyields
      rfl
    · intro honly
      exact honly _ (hyields.again hcheck List.not_mem_nil (hg 0 polls))

end

/-- When the pairs are searched each on its own, the one that the run fails at may show a fault of
the graph that was out of reach before. -/
theorem searchPairs_error_alone (hg : g.Enumerable c pairs) (hcheck : c.check = none)
    {fault : Fault} (h : t.searchPairs c g false pairs hg = (.error fault, t₁))
    (hpaths : t.paths = []) (hresults : t.pairResults = []) (polls : Nat) :
    ∃ source sink fault' t₁', pairs[t₁.pairResults.length]? = some (source, sink) ∧
      t.searchPairs c g (1 < pairs.length) pairs hg = (.error fault', t₁') ∧
      (fault' = fault ∨ Search.Yields g (c.freeQuery sink) source {} 0 (.error fault')) ∧
      (fault' = fault ↔ ∀ other,
        Search.Yields g (c.query sink 0) source {} polls (.error other) → other = fault) := by
  obtain ⟨done, source, sink, rest, t₀, t₀', fault', t₁', hg', hpair, rfl, hdone, hdone', hsame,
    hfail, hfail'⟩ := searchPairs_error_at hg hcheck h (.refl t) (1 < pairs.length)
  have hspent : (if decide (1 < (done ++ (source, sink) :: rest).length) then 0
      else t₀'.paths.length) = 0 := by
    split
    · rfl
    · -- There is no other pair, so nothing is spent.
      rename_i hlone
      obtain rfl : done = [] := by
        rw [decide_eq_true_iff, List.length_append, List.length_cons] at hlone
        exact List.length_eq_zero_iff.1 (by omega)
      cases hdone'
      rw [hpaths, List.length_nil]
  have hindex : t₁.pairResults.length = done.length := by
    obtain ⟨results, hgains, hends, _⟩ := searchPairs_ok hg' hdone
    rw [(searchPair_error hpair hfail).pairResults, hgains.pairResults, hresults, ← hends]
    simp
  refine ⟨source, sink, fault', t₁', by simp [hindex], ?_, ?_, ?_⟩
  · rw [searchPairs_append hg hdone', searchPairs_cons_error hg.right hfail']
  · rw [hspent] at hfail'
    exact searchPair_error_alone hpair hcheck hfail hfail'
  · rw [hspent] at hfail'
    exact searchPair_error_alone_iff hpair hcheck hfail hsame hfail' polls

end Tally

theorem RunOutcome.Reports.result_eq_ok {outcome : RunOutcome} {answer : Except Fault Unit × Tally}
    (h : outcome.Reports answer) (paths : List Path) :
    outcome.result = .ok paths ↔ answer.1 = .ok () ∧ answer.2.paths = paths := by
  rw [h.result]
  obtain ⟨fault | _, t⟩ := answer
  · exact iff_of_false nofun nofun
  · simp [Except.map]

theorem RunOutcome.Reports.eq_error {outcome : RunOutcome} {answer : Except Fault Unit × Tally}
    (h : outcome.Reports answer) {fault : Fault} (hfail : outcome.result = .error fault) :
    answer = (.error fault, answer.2) := by
  rw [h.result] at hfail
  obtain ⟨fault' | _, t⟩ := answer
  · cases hfail
    rfl
  · cases hfail

def Enumerator.withWorkers (e : Enumerator) (workers : Number) : Enumerator :=
  { e with config := { e.config with workers } }

section

variable {g : Graph} {e : Enumerator} {sources sinks : List Value} {pairs : List (Value × Value)}

theorem Graph.Enumerable.withWorkers (hg : g.Enumerable e.config pairs) (workers : Number) :
    g.Enumerable (e.withWorkers workers).config pairs := hg

theorem Tally.searchPairs_withWorkers (hg : g.Enumerable e.config pairs) (workers : Number)
    (parallel : Bool) (t : Tally) :
    t.searchPairs (e.withWorkers workers).config g parallel pairs (hg.withWorkers workers) =
      t.searchPairs e.config g parallel pairs hg := by
  induction pairs generalizing t with
  | nil => rfl
  | cons pair pairs ih =>
    obtain ⟨source, sink⟩ := pair
    have hpair (spent : Nat) :
        t.searchPair (e.withWorkers workers).config g spent source sink
            (hg.withWorkers workers).head =
          t.searchPair e.config g spent source sink hg.head := rfl
    simp only [searchPairs, hpair, ih hg.tail]

namespace Enumerator

theorem run_of_reports {hg : g.Enumerable e.config e.pairs} {answer : Except Fault Unit × Tally}
    (h : (e.run g hg).2.Reports answer) :
    (e.run g hg).1.paths = answer.2.paths ∧ (e.run g hg).1.pairResults = answer.2.pairResults := by
  rw [← h.paths, ← h.pairResults, run]
  split
  · exact ⟨rfl, rfl⟩
  · exact ⟨rfl, rfl⟩

theorem run_withWorkers_reports (hg : g.Enumerable e.config e.pairs)
    (hends : e.ends = .ok (sources, sinks)) :
    ∃ t : Tally, t.paths = [] ∧ t.pairResults = [] ∧
      (((¬∀ id ∈ sources ++ sinks, g.hasNode id = .ok true) ∧ ∃ fault, ∀ workers,
        ((e.withWorkers workers).run g (hg.withWorkers workers)).2.Reports (.error fault, t)) ∨
      ((pairsOf sources sinks = [] ∨ ∀ id ∈ sources ++ sinks, g.hasNode id = .ok true) ∧
        ∀ workers, ((e.withWorkers workers).run g (hg.withWorkers workers)).2.Reports
          (t.searchPairs e.config g (workers.isAbove 1 && 1 < (pairsOf sources sinks).length)
            (pairsOf sources sinks) (pairs_of_ends hends ▸ hg)))) := by
  have hrun (workers : Number) :=
    run_of_ends (e := e.withWorkers workers) (hg.withWorkers workers) hends
  obtain ⟨t, hpaths, hresults, ⟨_, hmissing, fault, hreports⟩ | ⟨hnodes, hreports⟩⟩ :=
    enumerate_reports g sources sinks e.polls
  · refine ⟨t, hpaths, hresults, .inl ⟨hmissing, fault, fun workers => ?_⟩⟩
    rw [hrun]
    exact hreports _ _
  · refine ⟨t, hpaths, hresults, .inr ⟨hnodes, fun workers => ?_⟩⟩
    rw [hrun, ← Tally.searchPairs_withWorkers _ workers]
    exact hreports _ _

theorem run_withWorkers_agree (hg : g.Enumerable e.config e.pairs) (hcheck : e.config.check = none)
    (workers workers' : Number) :
    ∃ answer answer',
      ((e.withWorkers workers).run g (hg.withWorkers workers)).2.Reports answer ∧
      ((e.withWorkers workers').run g (hg.withWorkers workers')).2.Reports answer' ∧
      (answer.1 = .ok () ↔ answer'.1 = .ok ()) ∧ answer.2.SameResults answer'.2 := by
  rcases hends : e.ends with fault | ⟨sources, sinks⟩
  · have hrefused (workers : Number) :
        ((e.withWorkers workers).run g (hg.withWorkers workers)).2.Reports (.error fault, {}) := by
      have hends' : (e.withWorkers workers).ends = .error fault := hends
      rw [run_of_fault (e := e.withWorkers workers) (hg.withWorkers workers) hends']
      exact ⟨rfl, rfl, rfl⟩
    exact ⟨_, _, hrefused workers, hrefused workers', .rfl, .refl _⟩
  · obtain ⟨t, _, _, ⟨_, fault, hreports⟩ | ⟨_, hreports⟩⟩ := run_withWorkers_reports hg hends
    · exact ⟨_, _, hreports workers, hreports workers', .rfl, .refl t⟩
    · exact ⟨_, _, hreports workers, hreports workers', Tally.searchPairs_agree _ hcheck _ _ t⟩

/-- The number of workers makes no difference to what a run returns, nor to what it keeps. -/
theorem run_withWorkers (hg : g.Enumerable e.config e.pairs) (hcheck : e.config.check = none)
    (workers : Number) :
    let serial := (e.withWorkers (.int 1)).run g (hg.withWorkers _)
    let parallel := (e.withWorkers workers).run g (hg.withWorkers _)
    (∀ paths, parallel.2.result = .ok paths ↔ serial.2.result = .ok paths) ∧
      parallel.1.paths = serial.1.paths ∧ parallel.1.pairResults = serial.1.pairResults := by
  obtain ⟨answer, answer', hparallel, hserial, hok, hsame⟩ :=
    run_withWorkers_agree hg hcheck workers (.int 1)
  obtain ⟨hpaths, hresults⟩ := run_of_reports hparallel
  obtain ⟨hpaths', hresults'⟩ := run_of_reports hserial
  refine ⟨fun paths => ?_, ?_, ?_⟩
  · rw [hparallel.result_eq_ok, hserial.result_eq_ok, hok, hsame.paths]
  · rw [hpaths, hpaths', hsame.paths]
  · rw [hresults, hresults', hsame.pairResults]

end Enumerator

def loose : ScriptedGraph where
  nodes := ["a", "s", "t"].map Value.text
  out :=
    [(.text "a", [.edge [.text "a", .text "t"]]),
      (.text "s", [.edge [.text "s", .text "t"], .edge [.text "s", .text "u"]])]

namespace Enumerator

theorem run_loose_withWorkers :
    let config : Config := { maxPaths := some (.int 1) }
    let e : Enumerator :=
      { sources := .list [Value.text "a", Value.text "s"], sinks := .list [Value.text "t"],
        config := config }
    let serial := (e.withWorkers (.int 1)).runOn loose.toGraph
    let parallel := (e.withWorkers (.int 2)).runOn loose.toGraph
    serial.1.paths = [["a", "t"].map Value.text] ∧
      (∀ paths, parallel.2.result = .ok paths ↔ serial.2.result = .ok paths) ∧
      parallel.1.paths = serial.1.paths ∧ parallel.1.pairResults = serial.1.pairResults := by
  intro config e serial parallel
  have hserial : serial.1.paths = [["a", "t"].map Value.text] := by
    subst serial e config
    cbv
  exact ⟨hserial, run_withWorkers (loose.toGraph.enumerable e.config _) rfl (.int 2)⟩

/-- If a run with one worker exceeds the limit, a run with more of them fails at the same pair.  It
fails with the limit just if the search of that pair, with the whole limit to itself, meets no fault
of the graph; in a graph without loose ends there is none to be met. -/
theorem run_withWorkers_of_limit (hg : g.Enumerable e.config e.pairs)
    (hcheck : e.config.check = none) (hends : e.ends = .ok (sources, sinks))
    {workers : Number} (hworkers : workers.isAbove 1 = true)
    {limit : Value} (hlimit : ((e.withWorkers (.int 1)).run g (hg.withWorkers _)).2.result =
      .error (.pathLimitExceeded limit)) :
    let serial := (e.withWorkers (.int 1)).run g (hg.withWorkers _)
    let parallel := (e.withWorkers workers).run g (hg.withWorkers _)
    ((¬∀ id ∈ sources ++ sinks, g.hasNode id = .ok true) →
        parallel.2.result = .error (.pathLimitExceeded limit)) ∧
      ((∀ id ∈ sources ++ sinks, g.hasNode id = .ok true) →
        ∃ source sink fault,
          (sources.product sinks)[serial.1.pairResults.length]? = some (source, sink) ∧
          parallel.2.result = .error fault ∧
          (fault = .pathLimitExceeded limit ↔ ∀ other,
            Search.Yields g (e.config.query sink 0) source {} e.polls (.error other) →
              other = .pathLimitExceeded limit) ∧
          (fault = .pathLimitExceeded limit ∨
            Search.Yields g (e.config.freeQuery sink) source {} 0 (.error fault)) ∧
          (g.Closed → g.IsNode source → fault = .pathLimitExceeded limit)) := by
  intro serial parallel
  obtain ⟨t, hpaths, hresults, ⟨hmissing, fault, hreports⟩ | ⟨hnodes, hreports⟩⟩ :=
    run_withWorkers_reports hg hends
  · refine ⟨fun _ => ?_, fun hfound => absurd hfound hmissing⟩
    exact (hreports workers).result.trans ((hreports (.int 1)).result.symm.trans hlimit)
  · have hserial : serial.2.Reports
        (t.searchPairs e.config g false (pairsOf sources sinks) (pairs_of_ends hends ▸ hg)) :=
      hreports (.int 1)
    have hparallel := hreports workers
    rw [hworkers, Bool.true_and] at hparallel
    have hsearch := hserial.eq_error hlimit
    obtain hempty | hnodes := hnodes
    · simp only [hempty] at hsearch
      cases hsearch
    refine ⟨fun hmissing => absurd hnodes hmissing, fun _ => ?_⟩
    obtain ⟨source, sink, fault, t₁', hpair, hsearch', hfault, hiff⟩ :=
      Tally.searchPairs_error_alone _ hcheck hsearch hpaths hresults e.polls
    rw [hsearch'] at hparallel
    refine ⟨source, sink, fault, ?_, hparallel.result, hiff, hfault, fun hclosed hsource => ?_⟩
    · rw [(run_of_reports hserial).2]
      exact hpair
    · have hunlimited := e.config.freeQuery_unlimited sink
      exact hfault.resolve_right
        (Search.not_yields_error_of_closed hclosed hunlimited hsource fault)

theorem run_doubled_withWorkers_of_limit :
    let config : Config := { maxPaths := some (.int 4) }
    let e : Enumerator :=
      { sources := .list [Value.text "a"], sinks := .list [Value.text "b", Value.text "d"],
        config := config }
    let serial := (e.withWorkers (.int 1)).runOn doubled.toGraph
    let parallel := (e.withWorkers (.int 2)).runOn doubled.toGraph
    serial.2.result = .error (.pathLimitExceeded (.int 4)) ∧
      parallel.2.result = .error (.pathLimitExceeded (.int 4)) := by
  intro config e serial parallel
  have hlimit : serial.2.result = .error (.pathLimitExceeded (.int 4)) := by
    subst serial
    rw [runOn, run_of_ends _ rfl]
    subst e config
    cbv
  have hnodes : ∀ id ∈ [Value.text "a"] ++ [Value.text "b", Value.text "d"],
      doubled.toGraph.hasNode id = .ok true := by
    simp only [List.cons_append, List.nil_append, List.forall_mem_cons]
    exact ⟨rfl, rfl, rfl, List.forall_mem_nil _⟩
  obtain ⟨_, hsame⟩ := run_withWorkers_of_limit (e := e)
    (doubled.toGraph.enumerable e.config _) rfl rfl
    (by decide : (Number.int 2).isAbove 1 = true) hlimit
  obtain ⟨source, sink, fault, hpair, hresult, _, _, hclosed⟩ := hsame hnodes
  have hkept : serial.1.pairResults.length = 1 := by
    subst serial e config
    cbv
  obtain rfl : fault = .pathLimitExceeded (.int 4) := by
    change (List.product _ _)[serial.1.pairResults.length]? = _ at hpair
    rw [hkept] at hpair
    cases hpair
    exact hclosed doubled_reachable.wellFormed.closed ⟨rfl, rfl⟩
  exact ⟨hlimit, hresult⟩

theorem runOn_loose_limit_missed :
    let config : Config := { maxPaths := some (.int 1) }
    let e : Enumerator :=
      { sources := .list [Value.text "a", Value.text "s"], sinks := .list [Value.text "t"],
        config := config }
    ((e.withWorkers (.int 1)).runOn loose.toGraph).2.result =
        .error (.pathLimitExceeded (.int 1)) ∧
      ((e.withWorkers (.int 2)).runOn loose.toGraph).2.result =
        .error (.edgeLeavesGraph (.text "s") (.text "u")) := by
  intro config e
  rw [runOn, run_of_ends _ rfl, runOn, run_of_ends _ rfl]
  subst e config
  constructor
  · cbv
  · cbv

end Enumerator

end

end FlowPaths
