import FlowPaths.Proofs.Enumeration.Workers
import FlowPaths.Proofs.Search.LooseEnds

/-!
When a run reports that the graph is not fit for it.  A graph that answers all questions can still
miss a source or a sink, which is reported before anything is searched, or have a loose end that the
search of some pair comes to.  There is no other way for an unlimited run to fail.
-/

namespace FlowPaths

theorem Tally.checkNodes_cases {g : Graph} {ids : List Value}
    (hids : ∀ id ∈ ids, ∃ known, g.hasNode id = .ok known) (t : Tally) :
    (∀ id ∈ ids, g.hasNode id = .ok true) ∨
      ∃ before id after, ids = before ++ id :: after ∧ (∀ v ∈ before, g.hasNode v = .ok true) ∧
        g.hasNode id = .ok false ∧ t.checkNodes g ids =
          (.error (.nodeNotInGraph id),
            { t with calls := t.calls ++ (before ++ [id]).map .has }) := by
  induction ids generalizing t with
  | nil => exact .inl (List.forall_mem_nil _)
  | cons id ids ih =>
    obtain ⟨⟨known, hnode⟩, hids⟩ := List.forall_mem_cons.1 hids
    cases known with
    | false =>
      refine .inr ⟨[], id, ids, rfl, List.forall_mem_nil _, hnode, ?_⟩
      simp [checkNodes, hnode]
    | true =>
      obtain hall | ⟨before, missing, after, rfl, hbefore, hmissing, hcheck⟩ :=
        ih hids { t with calls := t.calls ++ [.has id] }
      · exact .inl (List.forall_mem_cons.2 ⟨hnode, hall⟩)
      · refine .inr ⟨id :: before, missing, after, rfl, List.forall_mem_cons.2 ⟨hnode, hbefore⟩,
          hmissing, ?_⟩
        simp only [checkNodes, hnode, hcheck]
        simp

theorem Tally.searchPairs_exposes {c : Config} {g : Graph} {pairs : List (Value × Value)}
    (hg : g.Enumerable c pairs) (hanswers : g.Answers) (hc : c.Unlimited) (bound : Option Int)
    (hdepth : c.maxDepth = bound.map .int) (parallel : Bool)
    (hpairs : ∀ pair ∈ pairs, g.IsNode pair.1) (t : Tally) :
    Search.Exposes (∃ pair ∈ pairs, g.HasLooseEnd bound pair.1 pair.2)
      (t.searchPairs c g parallel pairs hg).1 := by
  rcases h : t.searchPairs c g parallel pairs hg with ⟨fault | _, t'⟩
  · obtain ⟨done, source, sink, rest, t₁, _, hpair, rfl, _, hfail⟩ := searchPairs_error hg h
    have hmem : (source, sink) ∈ done ++ (source, sink) :: rest := by simp
    have hsearched := searchPair_searched hpair (if parallel then 0 else t₁.paths.length) t₁
    rw [hfail] at hsearched
    cases hsearched with
    | exceeded _ hexceeded => simp [Config.isExceededBy, hc.1] at hexceeded
    | failed hyields =>
      have hunlimited (spent : Nat) : (c.query sink spent).Unlimited := hc
      cases hyields.exposes hanswers (hunlimited _) bound hdepth (hpairs _ hmem) with
      | broken hbroken => exact .broken ⟨_, hmem, hbroken⟩
  · obtain ⟨results, _, hends, hall⟩ := searchPairs_ok hg h
    refine .sound ?_
    rintro ⟨pair, hmem, hloose⟩
    obtain ⟨r, hr, rfl⟩ := List.mem_map.1 (hends ▸ hmem)
    have hyields : Search.Yields g (c.freeQuery r.sink) r.source {} 0 (.ok r.paths) := hall r hr
    cases hyields.exposes hanswers (c.freeQuery_unlimited r.sink) bound hdepth (hpairs _ hmem) with
    | sound hsound => exact hsound hloose

inductive RunOutcome.Checked (g : Graph) (bound : Option Int) (sources sinks : List Value)
    (outcome : RunOutcome) : Prop
  | idle {paths} : outcome.result = .ok paths → pairsOf sources sinks = [] →
      Checked g bound sources sinks outcome
  | missing {before id after} : pairsOf sources sinks ≠ [] →
      sources ++ sinks = before ++ id :: after → (∀ v ∈ before, g.hasNode v = .ok true) →
      g.hasNode id = .ok false → outcome.result = .error (.nodeNotInGraph id) →
      outcome.tally.calls = (before ++ [id]).map .has → Checked g bound sources sinks outcome
  | broken {src dst pair} : (∀ id ∈ sources ++ sinks, g.hasNode id = .ok true) →
      pair ∈ pairsOf sources sinks → g.HasLooseEnd bound pair.1 pair.2 →
      outcome.result = .error (.edgeLeavesGraph src dst) → Checked g bound sources sinks outcome
  | sound {paths} : (∀ id ∈ sources ++ sinks, g.hasNode id = .ok true) →
      (∀ pair ∈ pairsOf sources sinks, ¬g.HasLooseEnd bound pair.1 pair.2) →
      outcome.result = .ok paths → Checked g bound sources sinks outcome

theorem enumerate_checked {c : Config} {g : Graph} {sources sinks : List Value}
    (hg : g.Enumerable c (pairsOf sources sinks)) (hanswers : g.Answers) (hc : c.Unlimited)
    (bound : Option Int) (hdepth : c.maxDepth = bound.map .int)
    (hhash : ∀ id ∈ sources ++ sinks, id.hashable = true) (polls : Nat) :
    (enumerate c g sources sinks hg polls).Checked g bound sources sinks := by
  by_cases hpairs : pairsOf sources sinks = []
  · have hresult : (enumerate c g sources sinks hg polls).result = .ok [] := by
      simp [enumerate, hpairs]
    exact .idle hresult hpairs
  obtain hnodes | ⟨before, id, after, hids, hbefore, hid, hcheck⟩ := Tally.checkNodes_cases
    (fun id hid => hanswers.hasNode id (hhash id hid)) { polls }
  · obtain ⟨t, _, _, hreports⟩ := enumerate_reports_of_nodes hnodes polls
    have hresult := (hreports c hg).result
    have hsources : ∀ pair ∈ pairsOf sources sinks, g.IsNode pair.1 := fun pair hpair =>
      have hmem := List.mem_append_left sinks (mem_pairsOf.1 hpair).1
      ⟨hhash _ hmem, hnodes _ hmem⟩
    have hexposes := Tally.searchPairs_exposes hg hanswers hc bound hdepth
      (c.isParallel (pairsOf sources sinks).length) hsources t
    generalize t.searchPairs c g _ (pairsOf sources sinks) hg = answer at hresult hexposes
    obtain ⟨result, t'⟩ := answer
    cases hexposes with
    | sound hsound =>
      exact .sound hnodes (fun pair hpair hloose => hsound ⟨pair, hpair, hloose⟩) hresult
    | broken hbroken =>
      obtain ⟨pair, hpair, hloose⟩ := hbroken
      exact .broken hnodes hpair hloose hresult
  · have houtcome : enumerate c g sources sinks hg polls =
        ⟨.error (.nodeNotInGraph id), { polls, calls := (before ++ [id]).map .has }⟩ := by
      simp [enumerate, hpairs, hcheck]
    rw [houtcome]
    exact .missing hpairs hids hbefore hid rfl rfl

namespace RunOutcome.Checked

variable {g : Graph} {bound : Option Int} {sources sinks : List Value} {outcome : RunOutcome}

theorem kind_eq (h : outcome.Checked g bound sources sinks) {fault : Fault}
    (hfail : outcome.result = .error fault) : fault.kind = .precondition := by
  cases h with
  | idle hresult => cases hresult.symm.trans hfail
  | missing _ _ _ _ hresult =>
    cases hresult.symm.trans hfail
    rfl
  | broken _ _ _ hresult =>
    cases hresult.symm.trans hfail
    rfl
  | sound _ _ hresult => cases hresult.symm.trans hfail

theorem fails_iff (h : outcome.Checked g bound sources sinks) :
    (∃ fault, outcome.result = .error fault ∧ fault.kind = .precondition) ↔
      pairsOf sources sinks ≠ [] ∧ ((∃ id ∈ sources ++ sinks, g.hasNode id = .ok false) ∨
        ∃ s ∈ sources, ∃ t ∈ sinks, s.key ≠ t.key ∧ g.HasLooseEnd bound s t) := by
  cases h with
  | idle hresult hpairs => exact iff_of_false (by simp [hresult]) fun h => h.1 hpairs
  | @missing before id after hpairs hids _ hid hresult =>
    exact iff_of_true ⟨_, hresult, rfl⟩ ⟨hpairs, .inl ⟨id, by simp [hids], hid⟩⟩
  | broken _ hpair hloose hresult =>
    obtain ⟨hs, ht⟩ := mem_pairsOf.1 hpair
    exact iff_of_true ⟨_, hresult, rfl⟩
      ⟨List.ne_nil_of_mem hpair, .inr ⟨_, hs, _, ht, hloose.key_ne, hloose⟩⟩
  | sound hnodes hsound hresult =>
    refine iff_of_false (by simp [hresult]) ?_
    rintro ⟨_, ⟨id, hid, hmissing⟩ | ⟨s, hs, t, ht, _, hloose⟩⟩
    · cases hmissing.symm.trans (hnodes id hid)
    · exact hsound (s, t) (mem_pairsOf.2 ⟨hs, ht⟩) hloose

theorem first_missing (h : outcome.Checked g bound sources sinks)
    (hpairs : pairsOf sources sinks ≠ [])
    (hmissing : ∃ id ∈ sources ++ sinks, g.hasNode id = .ok false) :
    ∃ before id after, sources ++ sinks = before ++ id :: after ∧
      (∀ v ∈ before, g.hasNode v = .ok true) ∧ g.hasNode id = .ok false ∧
      outcome.result = .error (.nodeNotInGraph id) ∧
      outcome.tally.calls = (before ++ [id]).map .has := by
  obtain ⟨id, hid, habsent⟩ := hmissing
  cases h with
  | idle _ hnone => exact absurd hnone hpairs
  | missing _ hids hbefore hid hresult hcalls =>
    exact ⟨_, _, _, hids, hbefore, hid, hresult, hcalls⟩
  | broken hnodes => cases habsent.symm.trans (hnodes id hid)
  | sound hnodes => cases habsent.symm.trans (hnodes id hid)

end RunOutcome.Checked

namespace Enumerator

variable {e : Enumerator} {g : Graph} {sources sinks : List Value}

/-- An unlimited run over a graph that answers fails just when it has a pair to search and either a
source or a sink is missing or some pair has a loose end.  All its faults are of one kind; and a
missing node is reported before the graph is asked for any edges. -/
theorem run_precondition_iff (hanswers : g.Answers) (hpaths : e.config.maxPaths = none)
    (hcheck : e.config.check = none) (bound : Option Int)
    (hdepth : e.config.maxDepth = bound.map .int) (hends : e.ends = .ok (sources, sinks))
    (hhash : ∀ id ∈ sources ++ sinks, id.hashable = true) (hg : g.Enumerable e.config e.pairs) :
    let outcome := (e.run g hg).2
    let fails := ∃ fault, outcome.result = .error fault ∧ fault.kind = .precondition
    let missing := ∃ id ∈ sources ++ sinks, g.hasNode id = .ok false
    (fails ↔ sources.product sinks ≠ [] ∧ (missing ∨
        ∃ s ∈ sources, ∃ t ∈ sinks, s.key ≠ t.key ∧ ∃ p edge, g.LooseEnd bound s t p edge ∧
          ∀ v ∈ p, v.key ≠ edge.dst.key)) ∧
      ((∀ u v : Value, u.key = v.key → g.hasNode u = g.hasNode v) →
        (fails ↔ sources.product sinks ≠ [] ∧ (missing ∨
          ∃ s ∈ sources, ∃ t ∈ sinks, s.key ≠ t.key ∧ ∃ p edge, g.LooseEnd bound s t p edge))) ∧
      (∀ fault, outcome.result = .error fault → fault.kind = .precondition) ∧
      (sources.product sinks ≠ [] → missing →
        ∃ before id after, sources ++ sinks = before ++ id :: after ∧
          (∀ v ∈ before, g.hasNode v = .ok true) ∧ g.hasNode id = .ok false ∧
          outcome.result = .error (.nodeNotInGraph id) ∧
          (Fault.nodeNotInGraph id).message? = some ("Node not in graph: " ++ id.literal) ∧
          outcome.tally.calls = (before ++ [id]).map .has) := by
  intro outcome fails missing
  have hchecked : (e.run g hg).2.Checked g bound sources sinks := by
    rw [run_of_ends hg hends]
    exact enumerate_checked _ hanswers ⟨hpaths, hcheck⟩ bound hdepth hhash e.polls
  refine ⟨hchecked.fails_iff, fun hkeys => ?_, fun _ => hchecked.kind_eq, fun hpairs hmissing => ?_⟩
  · have hfails := hchecked.fails_iff
    simp only [Graph.hasLooseEnd_iff hkeys] at hfails
    exact hfails
  · obtain ⟨before, id, after, hids, hbefore, hid, hresult, hcalls⟩ :=
      hchecked.first_missing hpairs hmissing
    exact ⟨before, id, after, hids, hbefore, hid, hresult, rfl, hcalls⟩

end Enumerator

namespace ScriptedGraph

variable {g : ScriptedGraph}

theorem hasNode_congr {u v : Value} (h : u.key = v.key) :
    g.toGraph.hasNode u = g.toGraph.hasNode v := by
  simp only [toGraph, hasNode, Value.same_congr h]

theorem answers (hhas : g.failHas = []) (hout : g.failOut = [])
    (hitems : ∀ row ∈ g.out, ∀ item ∈ row.2, ∃ e, item.reach = .ok e ∧ e.dst.hashable = true) :
    g.toGraph.Answers := by
  refine ⟨fun v _ => ⟨g.nodes.any v.same, by simp [toGraph, hasNode, hhas]⟩, fun v _ => ?_⟩
  have hreach : ∀ x ∈ (g.out.filter fun row => v.same row.1).flatMap fun row =>
      row.2.map ScriptItem.reach, ∃ e, Except.ok e = x ∧ e.dst.hashable = true := by
    intro x hx
    obtain ⟨row, hrow, hx⟩ := List.mem_flatMap.1 hx
    obtain ⟨item, hitem, rfl⟩ := List.mem_map.1 hx
    obtain ⟨e, he, hhash⟩ := hitems row (List.mem_of_mem_filter hrow) item hitem
    exact ⟨e, he.symm, hhash⟩
  have hrange := Set.range_list_map (Except.ok (ε := Fault) (α := Edge))
  obtain ⟨edges, hedges⟩ := hrange.ge fun x hx => (hreach x hx).imp fun e he => he.1
  refine ⟨edges, by simp [toGraph, outEdges, hout, hedges], fun e he => ?_⟩
  obtain ⟨e', heq, hhash⟩ := hreach (.ok e) (hedges ▸ List.mem_map_of_mem he)
  cases heq
  exact hhash

end ScriptedGraph

theorem loose_answers : loose.toGraph.Answers := by
  apply ScriptedGraph.answers rfl rfl
  simp only [loose, List.forall_mem_cons, ScriptItem.reach]
  exact ⟨⟨⟨_, rfl, rfl⟩, List.forall_mem_nil _⟩,
    ⟨⟨_, rfl, rfl⟩, ⟨_, rfl, rfl⟩, List.forall_mem_nil _⟩, List.forall_mem_nil _⟩

theorem Enumerator.runOn_loose_precondition :
    let sources := ["a", "s"].map Value.text
    let e : Enumerator :=
      { sources := .list sources, sinks := .list [Value.text "t"],
        config := { maxDepth := some (.int 2) } }
    (e.runOn loose.toGraph).2.result = .error (.edgeLeavesGraph (.text "s") (.text "u")) ∧
      ∃ s ∈ sources, ∃ t ∈ [Value.text "t"], s.key ≠ t.key ∧
        ∃ p edge, loose.toGraph.LooseEnd (some 2) s t p edge := by
  intro sources e
  have hfails : (e.runOn loose.toGraph).2.result =
      .error (.edgeLeavesGraph (.text "s") (.text "u")) := by
    subst e sources
    cbv
  have hhash : ∀ id ∈ sources ++ [Value.text "t"], id.hashable = true := by decide
  have hnodes : ∀ id ∈ sources ++ [Value.text "t"], loose.toGraph.hasNode id ≠ .ok false := by
    decide
  obtain ⟨_, hiff, _⟩ := run_precondition_iff (e := e) loose_answers rfl rfl (some 2) rfl rfl hhash
    (loose.toGraph.enumerable e.config _)
  obtain ⟨_, ⟨id, hid, hmissing⟩ | hloose⟩ :=
    (hiff fun _ _ => ScriptedGraph.hasNode_congr).1 ⟨_, hfails, rfl⟩
  · exact absurd hmissing (hnodes id hid)
  · exact ⟨hfails, hloose⟩

end FlowPaths
