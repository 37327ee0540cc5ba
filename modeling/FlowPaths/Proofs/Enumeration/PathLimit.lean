import FlowPaths.Proofs.Enumeration.Merging

/-!
The limit on the number of paths.  A run whose paths are within the limit does not notice it; any
other run fails, and keeps the results of as many pairs as there is room for.
-/

namespace FlowPaths

namespace Number

theorem compare_eq_gt_of_lt {a j k : Int} (h : compare a k ≠ .lt) (hlt : j < k) :
    compare a j = .gt := by
  rw [ne_eq, Int.compare_eq_lt] at h
  rw [Int.compare_eq_gt]
  omega

theorem compareInt_eq_gt_of_lt {x : Number} {j k : Int} (h : x.compareInt k ≠ .lt) (hlt : j < k) :
    x.compareInt j = .gt := by
  cases x with
  | flag b => exact compare_eq_gt_of_lt h hlt
  | int n => exact compare_eq_gt_of_lt h hlt
  | real x =>
    cases x with
    | infinite negative =>
      cases negative with
      | true => exact absurd rfl h
      | false => rfl
    | finite negative m e h64 =>
      simp only [compareInt, Binary64.compareInt] at h ⊢
      split at h
      · rw [if_pos ‹_›]
        exact compare_eq_gt_of_lt h hlt
      · rw [if_neg ‹_›]
        have hunit : (0 : Int) < (Ratio.powerOf 2 e : Nat) := by
          exact Int.natCast_pos.2 (Nat.pow_pos (by decide))
        exact compare_eq_gt_of_lt h (Int.mul_lt_mul_of_pos_right hlt hunit)

theorem isAbove_of_not_isBelow {x : Number} {j k : Int} (h : x.isBelow k = false) (hlt : j < k) :
    x.isAbove j = true := by
  simp only [isBelow, beq_eq_false_iff_ne] at h
  simp only [isAbove, compareInt_eq_gt_of_lt h hlt]
  rfl

theorem isAbove_of_le {x : Number} {j k : Int} (h : x.isAbove k = true) (hle : j ≤ k) :
    x.isAbove j = true := by
  obtain rfl | hlt := Int.le_iff_eq_or_lt.1 hle
  · exact h
  · simp only [isAbove, beq_iff_eq] at h
    exact isAbove_of_not_isBelow (by simp [isBelow, h]) hlt

end Number

namespace Config

variable {c : Config} {sink : Value} {spent n : Nat}

theorem isFull_query_eq_false {count : Nat} (h : c.isExceededBy count = false)
    (hlt : spent + n < count) : (c.query sink spent).isFull n = false := by
  simp only [isExceededBy, Search.Query.isFull, query] at h ⊢
  cases hlimit : c.maxPaths with
  | none => rfl
  | some limit =>
    rw [hlimit] at h
    have habove : limit.isAbove ((spent + n : Nat) : Int) = true :=
      Number.isAbove_of_not_isBelow h (by omega)
    simp only [Option.any_some, habove, Bool.not_true]

theorem isExceededBy_of_int {limit : Int} (h : c.maxPaths = some (.int limit)) (count : Nat) :
    c.isExceededBy count = decide (limit < count) := by
  rw [isExceededBy, h, Option.any_some, Number.isBelow, Number.compareInt, Bool.eq_iff_iff]
  simp [Int.compare_eq_lt]

theorem isFull_query_of_zero (h : (c.query sink 0).isFull n = true) (spent : Nat) :
    (c.query sink spent).isFull n = true := by
  simp only [Search.Query.isFull, query] at h ⊢
  cases hlimit : c.maxPaths with
  | none => simp [hlimit] at h
  | some limit =>
    rw [hlimit] at h
    simp only [Option.any_some, Bool.not_eq_true', ← Bool.not_eq_true] at h ⊢
    exact fun habove => h (Number.isAbove_of_le habove (by omega))

end Config

structure LongestWithin (room : Nat) (all results : List PairResult) : Prop where
  initial : results <+: all
  within : Report.totalPaths results ≤ room
  longest : ∀ others, others <+: all → Report.totalPaths others ≤ room → others <+: results

namespace LongestWithin

variable {room : Nat} {r : PairResult} {all results : List PairResult}

theorem nil (h : room < r.paths.length) : LongestWithin room (r :: all) [] := by
  refine ⟨List.nil_prefix, Nat.zero_le _, fun others hothers hwithin => ?_⟩
  cases others with
  | nil => exact List.nil_prefix
  | cons r' others =>
    obtain ⟨rfl, _⟩ := List.cons_prefix_cons.1 hothers
    rw [Report.totalPaths_cons] at hwithin
    omega

theorem cons (hr : r.paths.length ≤ room) (h : LongestWithin (room - r.paths.length) all results) :
    LongestWithin room (r :: all) (r :: results) := by
  refine ⟨List.cons_prefix_cons.2 ⟨rfl, h.initial⟩, ?_, fun others hothers hwithin => ?_⟩
  · have hwithin := h.within
    rw [Report.totalPaths_cons]
    omega
  · cases others with
    | nil => exact List.nil_prefix
    | cons r' others =>
      obtain ⟨rfl, hrest⟩ := List.cons_prefix_cons.1 hothers
      rw [Report.totalPaths_cons] at hwithin
      exact List.cons_prefix_cons.2 ⟨rfl, h.longest others hrest (by omega)⟩

end LongestWithin

section

variable {c : Config} {g : Graph} {source sink : Value} {paths : List Path}

theorem PairResult.Exhaustive.yields (h : PairResult.Exhaustive c g ⟨source, sink, paths⟩)
    (hcheck : c.check = none) (spent polls : Nat) :
    Search.Yields g (c.query sink spent) source {} polls (.ok paths) ∨
      (Search.Yields g (c.query sink spent) source {} polls (.error c.limitFault) ∧
        ∃ n, n < paths.length ∧ (c.query sink spent).isFull n = true) := by
  have haim : (c.freeQuery sink).SameAim (c.query sink spent) := ⟨rfl, rfl⟩
  obtain hyields | ⟨hyields, n, hfull, hlt⟩ :=
    Search.Yields.limited haim (c.freeQuery_unlimited sink) hcheck List.not_mem_nil h polls
  · exact .inl hyields
  · exact .inr ⟨hyields, n, hlt paths rfl, hfull⟩

namespace Tally

variable {t : Tally} {spent : Nat}

theorem searchPair_of_fits (hg : g.Searchable c source sink) (hcheck : c.check = none)
    (hall : PairResult.Exhaustive c g ⟨source, sink, paths⟩) (hspent : spent ≤ t.paths.length)
    (hfits : c.isExceededBy (t.paths.length + paths.length) = false) :
    ∃ t', t.searchPair c g spent source sink hg = (.ok (), t') ∧
      t.Gains [⟨source, sink, paths⟩] t' := by
  have hsearched := searchPair_searched hg spent t
  generalize t.searchPair c g spent source sink hg = answer at hsearched
  cases hsearched with
  | merged hyields _ hgains =>
    cases hall.paths_eq (exhaustive_of_yields hyields)
    exact ⟨_, rfl, hgains⟩
  | exceeded hyields hexceeded =>
    cases hall.paths_eq (exhaustive_of_yields hyields)
    rw [hfits] at hexceeded
    cases hexceeded
  | failed hyields =>
    obtain hyields' | ⟨_, n, hlt, hfull⟩ := hall.yields hcheck spent t.polls
    · cases hyields.unique hyields'
    · rw [Config.isFull_query_eq_false hfits (by omega)] at hfull
      cases hfull

theorem searchPair_of_exceeds (hg : g.Searchable c source sink) (hcheck : c.check = none)
    (hall : PairResult.Exhaustive c g ⟨source, sink, paths⟩)
    (hexceeds : c.isExceededBy (t.paths.length + paths.length) = true) :
    ∃ t', t.searchPair c g spent source sink hg = (.error c.limitFault, t') ∧ t.Gains [] t' := by
  have hsearched := searchPair_searched hg spent t
  generalize t.searchPair c g spent source sink hg = answer at hsearched
  cases hsearched with
  | merged hyields hfits =>
    cases hall.paths_eq (exhaustive_of_yields hyields)
    rw [hexceeds] at hfits
    cases hfits
  | exceeded _ _ hgains => exact ⟨_, rfl, hgains⟩
  | failed hyields hgains =>
    obtain hyields' | ⟨hyields', _⟩ := hall.yields hcheck spent t.polls
    · cases hyields.unique hyields'
    · cases hyields.unique hyields'
      exact ⟨_, rfl, hgains⟩

variable {m : Nat} {pairs : List (Value × Value)} {results : List PairResult}

theorem searchPairs_of_fits (hg : g.Enumerable c pairs) (hcheck : c.check = none)
    (hlimit : c.maxPaths = some (.int m)) (parallel : Bool)
    (hpairs : results.map PairResult.ends = pairs) (hall : ∀ r ∈ results, r.Exhaustive c g)
    (hfits : t.paths.length + Report.totalPaths results ≤ m) :
    ∃ t', t.searchPairs c g parallel pairs hg = (.ok (), t') ∧ t.Gains results t' := by
  subst hpairs
  induction results generalizing t with
  | nil => exact ⟨t, rfl, .refl t⟩
  | cons r results ih =>
    rw [List.forall_mem_cons] at hall
    rw [Report.totalPaths_cons] at hfits
    have hroom : c.isExceededBy (t.paths.length + r.paths.length) = false := by
      rw [c.isExceededBy_of_int hlimit, decide_eq_false_iff_not]
      omega
    obtain ⟨t₁, hsearch, hgains⟩ :=
      searchPair_of_fits hg.head hcheck hall.1 (spent_le parallel t) hroom
    have hlength : t₁.paths.length = t.paths.length + r.paths.length := by
      rw [hgains.length_paths, Report.totalPaths_singleton]
    obtain ⟨t', hsearches, hgains'⟩ := ih hall.2 (t := t₁) (by omega) hg.tail
    exact ⟨t', (searchPairs_cons_ok hg hsearch).trans hsearches, hgains.trans hgains'⟩

theorem searchPairs_of_exceeds (hg : g.Enumerable c pairs) (hcheck : c.check = none)
    (hlimit : c.maxPaths = some (.int m)) (parallel : Bool)
    (hpairs : results.map PairResult.ends = pairs) (hall : ∀ r ∈ results, r.Exhaustive c g)
    (hroom : t.paths.length ≤ m) (hexceeds : m < t.paths.length + Report.totalPaths results) :
    ∃ t' kept, t.searchPairs c g parallel pairs hg = (.error c.limitFault, t') ∧
      t.Gains kept t' ∧ LongestWithin (m - t.paths.length) results kept := by
  subst hpairs
  induction results generalizing t with
  | nil =>
    rw [Report.totalPaths_nil] at hexceeds
    omega
  | cons r results ih =>
    rw [List.forall_mem_cons] at hall
    rw [Report.totalPaths_cons] at hexceeds
    have hexceeded := c.isExceededBy_of_int hlimit (t.paths.length + r.paths.length)
    by_cases hr : (m : Int) < (t.paths.length + r.paths.length : Nat)
    · rw [decide_eq_true hr] at hexceeded
      obtain ⟨t', hsearch, hgains⟩ := searchPair_of_exceeds hg.head hcheck hall.1 hexceeded
      exact ⟨t', [], searchPairs_cons_error hg hsearch, hgains, .nil (by omega)⟩
    · rw [decide_eq_false hr] at hexceeded
      obtain ⟨t₁, hsearch, hgains⟩ :=
        searchPair_of_fits hg.head hcheck hall.1 (spent_le parallel t) hexceeded
      have hlength : t₁.paths.length = t.paths.length + r.paths.length := by
        rw [hgains.length_paths, Report.totalPaths_singleton]
      obtain ⟨t', kept, hsearches, hgains', hlongest⟩ :=
        ih hall.2 (t := t₁) (by omega) (by omega) hg.tail
      rw [hlength, Nat.sub_add_eq] at hlongest
      exact ⟨t', r :: kept, (searchPairs_cons_ok hg hsearch).trans hsearches, hgains.trans hgains',
        .cons (by omega) hlongest⟩

end Tally

end

section

variable {c : Config} {g : Graph} {sources sinks : List Value} {m : Nat}
  {results : List PairResult}

theorem enumerate_of_fits (hg : g.Enumerable c (pairsOf sources sinks)) (hcheck : c.check = none)
    (hlimit : c.maxPaths = some (.int m))
    (hnodes : ∀ id ∈ sources ++ sinks, g.hasNode id = .ok true)
    (hpairs : results.map PairResult.ends = pairsOf sources sinks)
    (hall : ∀ r ∈ results, r.Exhaustive c g) (hfits : Report.totalPaths results ≤ m)
    (polls : Nat) : (enumerate c g sources sinks hg polls).Keeps (.ok ()) results := by
  obtain ⟨t, hpaths, hresults, hreports⟩ := enumerate_reports_of_nodes hnodes polls
  have hreports := hreports c hg
  obtain ⟨t', hsearch, hgains⟩ := Tally.searchPairs_of_fits (t := t) hg hcheck hlimit
    (c.isParallel (pairsOf sources sinks).length) hpairs hall (by simpa [hpaths])
  rw [hsearch] at hreports
  exact hreports.keeps hgains hpaths hresults

theorem enumerate_of_exceeds (hg : g.Enumerable c (pairsOf sources sinks)) (hcheck : c.check = none)
    (hlimit : c.maxPaths = some (.int m))
    (hnodes : ∀ id ∈ sources ++ sinks, g.hasNode id = .ok true)
    (hpairs : results.map PairResult.ends = pairsOf sources sinks)
    (hall : ∀ r ∈ results, r.Exhaustive c g) (hexceeds : m < Report.totalPaths results)
    (polls : Nat) :
    ∃ kept, (enumerate c g sources sinks hg polls).Keeps (.error c.limitFault) kept ∧
      LongestWithin m results kept := by
  obtain ⟨t, hpaths, hresults, hreports⟩ := enumerate_reports_of_nodes hnodes polls
  have hreports := hreports c hg
  obtain ⟨t', kept, hsearch, hgains, hlongest⟩ := Tally.searchPairs_of_exceeds (t := t) hg hcheck
    hlimit (c.isParallel (pairsOf sources sinks).length) hpairs hall (by simp [hpaths])
    (by simpa [hpaths])
  rw [hsearch] at hreports
  rw [hpaths] at hlongest
  exact ⟨kept, hreports.keeps hgains hpaths hresults, hlongest⟩

end

def Enumerator.withLimit (e : Enumerator) (limit : Option Number) : Enumerator :=
  { e with config := { e.config with maxPaths := limit } }

theorem Graph.Enumerable.withLimit {g : Graph} {e : Enumerator} {pairs : List (Value × Value)}
    (hcheck : e.config.check = none) (hg : g.Enumerable (e.withLimit none).config pairs)
    (limit : Option Number) : g.Enumerable (e.withLimit limit).config pairs := by
  rintro ⟨source, sink⟩ hpair spent polls
  have haim : (Config.query (e.withLimit none).config sink spent).SameAim
      (Config.query (e.withLimit limit).config sink spent) := ⟨rfl, rfl⟩
  exact Search.Ends.limited haim ⟨rfl, hcheck⟩ hcheck List.not_mem_nil (hg _ hpair spent polls)

namespace Enumerator

variable {g : Graph} {e : Enumerator} {sources sinks : List Value}

/-- A limit of `m` paths has no effect on a run with no more than `m` paths.  With more of them the
run fails, and keeps the longest initial part of the results that the limit has room for. -/
theorem run_withLimit (hclosed : g.Closed) (hcheck : e.config.check = none)
    (hends : e.ends = .ok (sources, sinks)) (hnodes : ∀ id ∈ sources ++ sinks, g.IsNode id)
    (hg : g.Enumerable (e.withLimit none).config e.pairs) (m : Nat) :
    let all := (e.withLimit none).run g hg
    let limited := (e.withLimit (some (.int m))).run g (hg.withLimit hcheck _)
    all.2.result = .ok all.1.paths ∧
      (Report.totalPaths all.1.pairResults ≤ m →
        limited.2.result = .ok all.1.paths ∧ limited.1.paths = all.1.paths ∧
          limited.1.pairResults = all.1.pairResults) ∧
      (m < Report.totalPaths all.1.pairResults →
        limited.2.result = .error (.pathLimitExceeded (.int m)) ∧
          LongestWithin m all.1.pairResults limited.1.pairResults ∧
          limited.1.paths = limited.1.pairResults.flatMap PairResult.paths) := by
  have hfree : g.Enumerable (e.withLimit none).config (pairsOf sources sinks) :=
    pairs_of_ends hends ▸ hg
  have hlimit := hfree.withLimit hcheck (some (.int m))
  have hfound : ∀ id ∈ sources ++ sinks, g.hasNode id = .ok true := fun id hid => (hnodes id hid).2
  obtain ⟨paths, hreturns⟩ := (enumerate_complete hfree hclosed ⟨rfl, hcheck⟩ hnodes
    (e.withLimit none).polls).returns
  obtain ⟨results, hkeeps, hpairs, hall⟩ := enumerate_ok _ hreturns
  rw [run_of_ends (e := e.withLimit none) hg hends,
    run_of_ends (e := e.withLimit (some (.int m))) (hg.withLimit hcheck _) hends]
  simp only [keep, hkeeps.pairResults, hkeeps.paths]
  refine ⟨hkeeps.result, fun hfits => ?_, fun hexceeds => ?_⟩
  · have hkeeps' := enumerate_of_fits hlimit hcheck rfl hfound hpairs hall hfits e.polls
    exact ⟨hkeeps'.result, hkeeps'.paths, hkeeps'.pairResults⟩
  · obtain ⟨kept, hkeeps', hlongest⟩ :=
      enumerate_of_exceeds hlimit hcheck rfl hfound hpairs hall hexceeds e.polls
    rw [← hkeeps'.pairResults] at hlongest
    refine ⟨hkeeps'.result, hlongest, ?_⟩
    exact hkeeps'.paths.trans (congrArg _ hkeeps'.pairResults.symm)

theorem run_doubled_withLimit :
    let e : Enumerator :=
      { sources := .list [Value.text "a"], sinks := .list (["b", "d", "c"].map Value.text),
        config := { maxDepth := some (.int 2), workers := .int 3 } }
    let all := ((e.withLimit none).runOn doubled.toGraph).1
    let limited (m : Nat) := (e.withLimit (some (.int m))).runOn doubled.toGraph
    all.pairResults.map (fun r => r.paths.length) = [2, 0, 1] ∧
      (limited 3).2.result = .ok all.paths ∧
      (limited 2).2.result = .error (.pathLimitExceeded (.int 2)) ∧
      LongestWithin 2 all.pairResults (limited 2).1.pairResults ∧
      (limited 2).1.pairResults.length = 2 := by
  intro e all limited
  have hnodes : ∀ id ∈ [Value.text "a"] ++ ["b", "d", "c"].map Value.text,
      doubled.toGraph.IsNode id := by
    simp only [List.map_cons, List.map_nil, List.cons_append, List.nil_append, List.forall_mem_cons]
    exact ⟨⟨rfl, rfl⟩, ⟨rfl, rfl⟩, ⟨rfl, rfl⟩, ⟨rfl, rfl⟩, nofun⟩
  have hlengths : all.pairResults.map (fun r => r.paths.length) = [2, 0, 1] := by
    subst all e
    cbv
  have htotal : Report.totalPaths all.pairResults = 3 := by
    subst all e
    cbv
  have hmore : 2 < Report.totalPaths all.pairResults := by
    rw [htotal]
    decide
  have hkept : (limited 2).1.pairResults.length = 2 := by
    subst limited e
    cbv
  have hrun := run_withLimit (e := e) doubled_reachable.wellFormed.closed rfl rfl hnodes
    (doubled.toGraph.enumerable _ _)
  obtain ⟨_, hfits, _⟩ := hrun 3
  obtain ⟨_, _, hexceeds⟩ := hrun 2
  obtain ⟨hresult, _⟩ := hfits htotal.le
  obtain ⟨hfault, hlongest, _⟩ := hexceeds hmore
  exact ⟨hlengths, hresult, hfault, hlongest, hkept⟩

end Enumerator

end FlowPaths
