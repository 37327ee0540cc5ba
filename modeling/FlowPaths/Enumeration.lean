import FlowPaths.Report
import FlowPaths.Search.Halting

/-!
Enumeration of the simple paths from every source to every sink.  Pairs are searched sources first,
and what each search finds is merged into the result set as a whole or not at all.
-/

namespace FlowPaths

/-- Sources and sinks are only run through when a run begins.  `polls` counts the calls of the
configured check. -/
structure Enumerator where
  sources : Value
  sinks : Value
  config : Config := {}
  polls : Nat := 0
  paths : List Path := []
  pairResults : List PairResult := []

structure Tally where
  paths : List Path := []
  pairResults : List PairResult := []
  polls : Nat := 0
  calls : List Call := []
  events : List Event := []

structure RunOutcome where
  result : Except Fault (List Path)
  tally : Tally

namespace Config

def query (c : Config) (sink : Value) (spent : Nat) : Search.Query where
  target := sink
  maxDepth := c.maxDepth
  maxPaths := c.maxPaths
  spent := spent
  check := c.check

def isExceededBy (c : Config) (count : Nat) : Bool :=
  c.maxPaths.any fun limit => limit.isBelow count

def assign (_ : Config) (_name : String) : Except Fault Config := .error .readOnly

end Config

namespace Graph

/-- Under the configuration, the search of the pair comes to an end, however much of the limit is
spent and however often the check has been asked. -/
def Searchable (g : Graph) (c : Config) (source sink : Value) : Prop :=
  ∀ spent polls, Search.Ends g (c.query sink spent) source { polls }

def Enumerable (g : Graph) (c : Config) (pairs : List (Value × Value)) : Prop :=
  ∀ pair ∈ pairs, g.Searchable c pair.1 pair.2

namespace Enumerable

variable {g : Graph} {c : Config} {pairs done : List (Value × Value)} {source sink : Value}

theorem head (h : g.Enumerable c ((source, sink) :: pairs)) : g.Searchable c source sink :=
  h _ List.mem_cons_self

theorem tail (h : g.Enumerable c ((source, sink) :: pairs)) : g.Enumerable c pairs :=
  fun pair hpair => h pair (List.mem_cons_of_mem _ hpair)

theorem left (h : g.Enumerable c (done ++ pairs)) : g.Enumerable c done :=
  fun pair hpair => h pair (List.mem_append_left _ hpair)

theorem right (h : g.Enumerable c (done ++ pairs)) : g.Enumerable c pairs :=
  fun pair hpair => h pair (List.mem_append_right _ hpair)

end Enumerable

end Graph

theorem FiniteGraph.searchable (g : FiniteGraph) (c : Config) (source sink : Value) :
    g.toGraph.Searchable c source sink :=
  fun spent polls => g.ends (c.query sink spent) source { polls }

theorem FiniteGraph.enumerable (g : FiniteGraph) (c : Config) (pairs : List (Value × Value)) :
    g.toGraph.Enumerable c pairs :=
  fun pair _ => g.searchable c pair.1 pair.2

namespace Tally

def merge (t : Tally) (c : Config) (result : PairResult) : Except Fault Tally :=
  if c.isExceededBy (t.paths.length + result.paths.length) then
    .error (.pathLimitExceeded (Config.boundValue c.maxPaths))
  else
    .ok { t with
      pairResults := t.pairResults ++ [result]
      paths := t.paths ++ result.paths }

def log (t : Tally) (event : Event) : Tally := { t with events := t.events ++ [event] }

def checkNodes (g : Graph) : List Value → Tally → Except Fault Unit × Tally
  | [], t => (.ok (), t)
  | id :: ids, t =>
    let t := { t with calls := t.calls ++ [.has id] }
    match g.hasNode id with
    | .error fault => (.error fault, t)
    | .ok false => (.error (.nodeNotInGraph id), t)
    | .ok true => checkNodes g ids t

def searchPair (c : Config) (g : Graph) (spent : Nat) (source sink : Value)
    (hg : g.Searchable c source sink) (t : Tally) : Except Fault Unit × Tally :=
  let outcome := Search.run g (c.query sink spent) source {} t.polls (hg spent t.polls)
  let t := { t with polls := outcome.polls, calls := t.calls ++ outcome.calls }
  match outcome.result with
  | .error fault => (.error fault, t)
  | .ok paths =>
    let t := t.log (.pairSearched source sink paths.length)
    match t.merge c { source, sink, paths } with
    | .error fault => (.error fault, t)
    | .ok t => (.ok (), t)

/-- Searches pairs in order.  One after another they share the limit; in parallel each has the
limit to itself, and only the merging, which is in order too, adds them up.  Either way the check is
asked for one pair after the other. -/
def searchPairs (c : Config) (g : Graph) (parallel : Bool) :
    (pairs : List (Value × Value)) → g.Enumerable c pairs → Tally → Except Fault Unit × Tally
  | [], _, t => (.ok (), t)
  | (source, sink) :: pairs, hg, t =>
    let spent := if parallel then 0 else t.paths.length
    match t.searchPair c g spent source sink hg.head with
    | (.error fault, t) => (.error fault, t)
    | (.ok (), t) => searchPairs c g parallel pairs hg.tail t

end Tally

def pairsOf (sources sinks : List Value) : List (Value × Value) :=
  sources.flatMap fun source => sinks.map fun sink => (source, sink)

def enumerate (c : Config) (g : Graph) (sources sinks : List Value)
    (hg : g.Enumerable c (pairsOf sources sinks)) (polls : Nat) : RunOutcome :=
  let pairs := pairsOf sources sinks
  let t : Tally := { polls }
  if pairs.isEmpty then ⟨.ok [], t.log .noPairs⟩
  else
    match t.checkNodes g (sources ++ sinks) with
    | (.error fault, t) => ⟨.error fault, t⟩
    | (.ok (), t) =>
      let t := t.log (.started pairs.length sources.length sinks.length)
      match t.searchPairs c g (c.isParallel pairs.length) pairs hg with
      | (.error fault, t) => ⟨.error fault, t⟩
      | (.ok (), t) => ⟨.ok t.paths, t.log (.finished t.paths.length pairs.length)⟩

namespace Enumerator

def make (sources sinks : Value) (config : Config) : Except Fault Enumerator :=
  return { sources := .list (← sources.elements), sinks := .list (← sinks.elements), config }

def reset (e : Enumerator) : Enumerator := { e with paths := [], pairResults := [] }

/-- A new configuration brings a new check, whose calls are counted afresh. -/
def configure (e : Enumerator) (config : Config) : Enumerator := { e with config, polls := 0 }

def keep (e : Enumerator) (t : Tally) : Enumerator :=
  { e with paths := t.paths, pairResults := t.pairResults, polls := t.polls }

def ends (e : Enumerator) : Except Fault (List Value × List Value) :=
  return (← e.sources.elements, ← e.sinks.elements)

def pairs (e : Enumerator) : List (Value × Value) :=
  match e.ends with
  | .error _ => []
  | .ok (sources, sinks) => pairsOf sources sinks

theorem pairs_of_ends {e : Enumerator} {sources sinks : List Value}
    (h : e.ends = .ok (sources, sinks)) : e.pairs = pairsOf sources sinks := by
  simp only [pairs, h]

def run (e : Enumerator) (g : Graph) (hg : g.Enumerable e.config e.pairs) :
    Enumerator × RunOutcome :=
  match hends : e.ends with
  | .error fault => (e.reset, ⟨.error fault, { polls := e.polls }⟩)
  | .ok (sources, sinks) =>
    let outcome := enumerate e.config g sources sinks (pairs_of_ends hends ▸ hg) e.polls
    (e.keep outcome.tally, outcome)

section

variable {e : Enumerator} {g : Graph} (hg : g.Enumerable e.config e.pairs)

theorem run_of_ends {sources sinks : List Value} (hends : e.ends = .ok (sources, sinks)) :
    e.run g hg =
      (e.keep (enumerate e.config g sources sinks (pairs_of_ends hends ▸ hg) e.polls).tally,
        enumerate e.config g sources sinks (pairs_of_ends hends ▸ hg) e.polls) := by
  unfold run
  split
  · rename_i hfault
    cases hends.symm.trans hfault
  · rename_i hends'
    cases hends.symm.trans hends'
    rfl

theorem run_of_fault {fault : Fault} (hends : e.ends = .error fault) :
    e.run g hg = (e.reset, ⟨.error fault, { polls := e.polls }⟩) := by
  unfold run
  split
  · rename_i hfault
    cases hends.symm.trans hfault
    rfl
  · rename_i hends'
    cases hends.symm.trans hends'

end

def search (e : Enumerator) (g : Graph) (current target : Value) (trail : Trail)
    (ends : Search.Ends g (e.config.query target 0) current { trail, polls := e.polls }) :
    Enumerator × Search.Outcome :=
  let outcome := Search.run g (e.config.query target 0) current trail e.polls ends
  ({ e with polls := outcome.polls }, outcome)

def runOn (e : Enumerator) (g : FiniteGraph) : Enumerator × RunOutcome :=
  e.run g.toGraph (g.enumerable e.config e.pairs)

def searchOn (e : Enumerator) (g : FiniteGraph) (current target : Value) (trail : Trail) :
    Enumerator × Search.Outcome :=
  e.search g.toGraph current target trail (g.ends _ _ _)

def text (e : Enumerator) : String := Report.text e.paths
def document (e : Enumerator) : Value := Report.document e.pairResults

/-- Drops the paths of one pair.  The paths of the whole run are kept apart and stay. -/
def clearPair (e : Enumerator) (i : Int) : Except Fault Enumerator := do
  let i ← position e.pairResults.length i
  let clear (result : PairResult) : PairResult := { result with paths := [] }
  return { e with pairResults := e.pairResults.modify i clear }

def polls? (e : Enumerator) : Option (Option Nat) :=
  e.config.check.map fun _ => if e.config.isSingle then some e.polls else none

end Enumerator

end FlowPaths
