import FlowPaths.Proofs.Enumeration.PathLimit
import FlowPaths.Proofs.Report.Reading
import FlowPaths.Session.Step

/-!
The results of an enumerator over its whole life.  The paths and the pair results are kept apart,
but they agree after every operation, whatever the operations are and however the runs among them
end.
-/

namespace FlowPaths

namespace Config

variable {c : Config}

def Made (c : Config) : Prop :=
  ∃ maxDepth maxPaths workers check, make maxDepth maxPaths workers check = .ok c

theorem isBelow_of_bound {least : Int} {fault : Fault} {v : Value} {limit : Number}
    (h : bound least fault v = .ok (some limit)) : limit.isBelow least = false := by
  unfold bound at h
  split at h
  · cases h
  · obtain ⟨n, -, h⟩ := bind_eq_ok h
    cases hbelow : n.isBelow least with
    | true =>
      rw [hbelow] at h
      cases h
    | false =>
      rw [hbelow] at h
      cases h
      exact hbelow

theorem Made.not_isExceededBy_zero (h : c.Made) : c.isExceededBy 0 = false := by
  obtain ⟨maxDepth, maxPaths, workers, check, h⟩ := h
  obtain ⟨_, _, h⟩ := bind_eq_ok h
  obtain ⟨limit?, hlimit, h⟩ := bind_eq_ok h
  obtain ⟨workers, _, h⟩ := bind_eq_ok h
  have hmax : c.maxPaths = limit? := by
    split at h
    · cases h
    · cases h
      rfl
  cases limit? with
  | none => simp [isExceededBy, hmax]
  | some limit => simpa [isExceededBy, hmax] using isBelow_of_bound hlimit

end Config

namespace Report

theorem text_eq (paths : List Path) :
    text paths = "\nTotal paths found: " ++ toString paths.length ++ "\n" ++
      String.join ((pathLines 1 paths).map (· ++ "\n")) := by
  have hblank : "\nTotal paths found: " = "" ++ "\n" ++ "Total paths found: " := rfl
  rw [text, intercalate_newline, List.map_cons, List.map_cons, String.join_cons, String.join_cons,
    hblank]
  simp only [String.append_assoc]

theorem field_document (results : List PairResult) :
    (document results).field "total_paths" =
      .ok (.nat (results.flatMap PairResult.paths).length) := by
  rw [← totalPaths_eq_length]
  rfl

end Report

namespace Tally

variable {c : Config} {g : Graph} {t : Tally}

theorem searchPair_not_isExceededBy {source sink : Value} (hg : g.Searchable c source sink)
    (spent : Nat) (h : c.isExceededBy t.paths.length = false) :
    c.isExceededBy (t.searchPair c g spent source sink hg).2.paths.length = false := by
  have hsearched := searchPair_searched hg spent t
  generalize t.searchPair c g spent source sink hg = answer at hsearched ⊢
  cases hsearched with
  | merged _ hfits hgains => rwa [hgains.length_paths, Report.totalPaths_singleton]
  | exceeded _ _ hgains => rwa [hgains.length_paths]
  | failed _ hgains => rwa [hgains.length_paths]

theorem searchPairs_not_isExceededBy {pairs : List (Value × Value)} (hg : g.Enumerable c pairs)
    (parallel : Bool) (h : c.isExceededBy t.paths.length = false) :
    c.isExceededBy (t.searchPairs c g parallel pairs hg).2.paths.length = false := by
  induction pairs generalizing t with
  | nil => exact h
  | cons pair pairs ih =>
    obtain ⟨source, sink⟩ := pair
    have hfirst := searchPair_not_isExceededBy hg.head (if parallel then 0 else t.paths.length) h
    rcases hsearch : t.searchPair c g (if parallel then 0 else t.paths.length) source sink hg.head
      with ⟨fault | _, t'⟩
    · rw [searchPairs_cons_error hg hsearch]
      rwa [hsearch] at hfirst
    · rw [searchPairs_cons_ok hg hsearch]
      rw [hsearch] at hfirst
      exact ih hg.tail hfirst

end Tally

section

variable {c : Config} {g : Graph} {sources sinks : List Value}

theorem enumerate_not_isExceededBy (hg : g.Enumerable c (pairsOf sources sinks))
    (h : c.isExceededBy 0 = false) (polls : Nat) :
    c.isExceededBy (enumerate c g sources sinks hg polls).tally.paths.length = false := by
  obtain ⟨t, hpaths, _, ⟨_, _, _, hreports⟩ | ⟨_, hreports⟩⟩ :=
    enumerate_reports g sources sinks polls
  · rw [(hreports c hg).paths, hpaths]
    exact h
  · rw [(hreports c hg).paths]
    apply Tally.searchPairs_not_isExceededBy
    rwa [hpaths]

theorem enumerate_keeps (hg : g.Enumerable c (pairsOf sources sinks)) (polls : Nat) :
    ∃ answer results, (enumerate c g sources sinks hg polls).Keeps answer results ∧
      results.map PairResult.ends <+: sources.product sinks := by
  cases hresult : (enumerate c g sources sinks hg polls).result with
  | ok paths =>
    obtain ⟨results, hkeeps, hends, _⟩ := enumerate_ok hg hresult
    exact ⟨_, results, hkeeps, hends ▸ List.prefix_rfl⟩
  | error fault =>
    obtain ⟨k, _, results, hkeeps, hends, _⟩ := enumerate_error hg hresult
    exact ⟨_, results, hkeeps, hends ▸ List.take_prefix k _⟩

end

namespace Enumerator

/-- What becomes of an enumerator by one operation after another.  Beside it stands what it was when
its last run began, or nothing if there was no run since it was made or reset. -/
inductive History : Option Enumerator → Enumerator → Prop
  | made {config : Config} {sources sinks : Value} {e : Enumerator} :
      config.Made → make sources sinks config = .ok e → History none e
  | assignSources {begun? e} (sources : Value) :
      History begun? e → History begun? { e with sources }
  | assignSinks {begun? e} (sinks : Value) : History begun? e → History begun? { e with sinks }
  | configure {begun? e} {config : Config} :
      config.Made → History begun? e → History begun? (e.configure config)
  | run {begun? e} {g : Graph} (hg : g.Enumerable e.config e.pairs) :
      History begun? e → History (some e) (e.run g hg).1
  | search {begun? e} {g : Graph} {current target : Value} {trail : Trail}
      (ends : Search.Ends g (e.config.query target 0) current { trail, polls := e.polls }) :
      History begun? e → History begun? (e.search g current target trail ends).1
  | reset {begun? e} : History begun? e → History none e.reset

structure Consistent (begun? : Option Enumerator) (e : Enumerator) : Prop where
  paths : e.paths = e.pairResults.flatMap PairResult.paths
  ends : e.pairResults.map PairResult.ends <+: begun?.elim [] pairs
  within : ∀ begun ∈ begun?, begun.config.isExceededBy e.paths.length = false

variable {begun? : Option Enumerator} {e e' : Enumerator}

theorem Consistent.of_eq (h : Consistent begun? e) (hpaths : e'.paths = e.paths)
    (hresults : e'.pairResults = e.pairResults) : Consistent begun? e' := by
  refine ⟨?_, ?_, ?_⟩
  · rw [hpaths, hresults, h.paths]
  · rw [hresults]
    exact h.ends
  · rw [hpaths]
    exact h.within

theorem Consistent.of_empty (hpaths : e.paths = []) (hresults : e.pairResults = []) :
    Consistent none e := by
  refine ⟨?_, ?_, ?_⟩
  · rw [hpaths, hresults]
    rfl
  · rw [hresults]
    exact List.nil_prefix
  · intro begun hbegun
    cases hbegun

theorem consistent_run {g : Graph} (hg : g.Enumerable e.config e.pairs)
    (hzero : e.config.isExceededBy 0 = false) : Consistent (some e) (e.run g hg).1 := by
  cases hends : e.ends with
  | error fault =>
    rw [run_of_fault hg hends]
    refine ⟨rfl, List.nil_prefix, ?_⟩
    rintro _ ⟨⟩
    exact hzero
  | ok ends =>
    obtain ⟨sources, sinks⟩ := ends
    rw [run_of_ends hg hends]
    obtain ⟨answer, results, hkeeps, hprefix⟩ := enumerate_keeps (pairs_of_ends hends ▸ hg) e.polls
    refine ⟨?_, ?_, ?_⟩
    · simp only [keep, hkeeps.paths, hkeeps.pairResults]
    · simp only [keep, hkeeps.pairResults, Option.elim_some, pairs_of_ends hends]
      exact hprefix
    · rintro _ ⟨⟩
      exact enumerate_not_isExceededBy _ hzero e.polls

theorem make_eq_ok {sources sinks : Value} {config : Config}
    (h : make sources sinks config = .ok e) :
    e.config = config ∧ e.paths = [] ∧ e.pairResults = [] := by
  obtain ⟨_, _, h⟩ := bind_eq_ok h
  obtain ⟨_, _, h⟩ := bind_eq_ok h
  cases h
  exact ⟨rfl, rfl, rfl⟩

theorem run_config {g : Graph} (hg : g.Enumerable e.config e.pairs) :
    (e.run g hg).1.config = e.config := by
  unfold run
  split <;> rfl

theorem History.config_made (h : History begun? e) : e.config.Made := by
  induction h with
  | made hconfig hmake => rwa [(make_eq_ok hmake).1]
  | assignSources _ _ ih => exact ih
  | assignSinks _ _ ih => exact ih
  | configure hconfig _ _ => exact hconfig
  | run hg _ ih => rwa [run_config hg]
  | search _ _ ih => exact ih
  | reset _ ih => exact ih

theorem History.consistent (h : History begun? e) : Consistent begun? e := by
  induction h with
  | made _ hmake => exact .of_empty (make_eq_ok hmake).2.1 (make_eq_ok hmake).2.2
  | assignSources _ _ ih => exact ih.of_eq rfl rfl
  | assignSinks _ _ ih => exact ih.of_eq rfl rfl
  | configure _ _ ih => exact ih.of_eq rfl rfl
  | run hg h _ => exact consistent_run hg h.config_made.not_isExceededBy_zero
  | search _ _ ih => exact ih.of_eq rfl rfl
  | reset _ _ => exact .of_empty rfl rfl

/-- Whatever has been done with an enumerator, its paths are those of its pair results in order, and
every count that it answers is theirs.  Its pairs are the first ones of the sources and sinks that
the last run began with, and it has no more paths than that run was allowed.  Neither questions nor
single searches change any of this. -/
theorem History.results_agree (h : History begun? e) :
    e.paths = e.pairResults.flatMap PairResult.paths ∧
      (begun? = none → e.pairResults = []) ∧
      (∀ begun, begun? = some begun →
        e.pairResults.map PairResult.ends <+: begun.pairs ∧
          begun.config.isExceededBy e.paths.length = false ∧
          ∀ limit : Int, begun.config.maxPaths = some (.int limit) →
            (e.paths.length : Int) ≤ limit) ∧
      (∀ (ws : Session.Workspace) (name : String), Session.lookUp ws.enumerators name = .ok e →
        ws.step (.pathCount name) = ws.answer (.count e.paths.length) ∧
          ws.step (.report name) = ws.answer (.text
            ("\nTotal paths found: " ++ toString e.paths.length ++ "\n" ++
              String.join ((Report.pathLines 1 e.paths).map (· ++ "\n")))) ∧
          ∃ document, ws.step (.reportDocument name) = ws.answer (.value document) ∧
            document.field "total_paths" = .ok (.nat e.paths.length)) ∧
      ∀ g current target trail ends,
        (e.search g current target trail ends).1.paths = e.paths ∧
          (e.search g current target trail ends).1.pairResults = e.pairResults := by
  have hconsistent := h.consistent
  refine ⟨hconsistent.paths, ?_, ?_, ?_, fun _ _ _ _ _ => ⟨rfl, rfl⟩⟩
  · rintro rfl
    exact List.map_eq_nil_iff.1 (List.prefix_nil.1 hconsistent.ends)
  · rintro begun rfl
    have hwithin := hconsistent.within begun rfl
    refine ⟨hconsistent.ends, hwithin, fun limit hlimit => ?_⟩
    rw [Config.isExceededBy_of_int hlimit, decide_eq_false_iff_not] at hwithin
    exact Int.not_lt.1 hwithin
  · intro ws name hname
    have hask : ∀ ask, ws.askEnumerator name ask = ws.answer (ask e) := by
      intro ask
      rw [Session.Workspace.askEnumerator, hname]
      rfl
    refine ⟨hask _, ?_, e.document, hask _, ?_⟩
    · rw [← Report.text_eq]
      exact hask _
    · rw [hconsistent.paths]
      exact Report.field_document _

/-- A run fails at its limit of three paths.  Then the limit is lowered to none at all, the sources
are replaced by something that cannot be run through, and a single search fails as well. -/
theorem History.doubled_results_agree :
    let made : Enumerator :=
      { sources := .list [Value.text "a"], sinks := .list [Value.text "b", Value.text "d"],
        config := { maxPaths := some (.int 3) } }
    let ran := (made.runOn doubled.toGraph).1
    let changed :=
      Enumerator.configure { ran with sources := .null } { maxPaths := some (.int 0) }
    let e := (changed.searchOn doubled.toGraph (.text "a") (.text "b") {}).1
    (made.runOn doubled.toGraph).2.result = .error (.pathLimitExceeded (.int 3)) ∧
      e.paths = [["a", "b"], ["a", "b"]].map (·.map Value.text) ∧
      History (some made) e ∧
      e.paths = e.pairResults.flatMap PairResult.paths ∧
      e.pairResults.map PairResult.ends <+: made.pairs ∧ (e.paths.length : Int) ≤ 3 := by
  intro made ran changed e
  have hfail : (made.runOn doubled.toGraph).2.result = .error (.pathLimitExceeded (.int 3)) := by
    subst e changed ran made
    cbv
  have hpaths : e.paths = [["a", "b"], ["a", "b"]].map (·.map Value.text) := by
    subst e changed ran made
    cbv
  have hmake : Enumerator.make made.sources made.sinks made.config = .ok made := rfl
  have hmade : History none made := .made ⟨.null, .int 3, .int 1, none, rfl⟩ hmake
  have hran : History (some made) ran := hmade.run (doubled.toGraph.enumerable made.config _)
  have hchanged : History (some made) changed :=
    (hran.assignSources .null).configure ⟨.null, .int 0, .int 1, none, rfl⟩
  have hsearched : History (some made) e := hchanged.search (doubled.toGraph.ends _ _ _)
  obtain ⟨hagree, _, hbegun, _⟩ := hsearched.results_agree
  obtain ⟨hends, _, hlimit⟩ := hbegun made rfl
  exact ⟨hfail, hpaths, hsearched, hagree, hends, hlimit 3 rfl⟩

end Enumerator

end FlowPaths
