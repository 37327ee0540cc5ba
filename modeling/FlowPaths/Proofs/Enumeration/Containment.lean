import FlowPaths.Proofs.Enumeration.Merging

/-!
Graphs without loose ends.  As every edge leads to a node, a search has nothing to complain of but
its first node; whatever else ends it is a limit or the check.
-/

namespace FlowPaths

inductive Graph.Misses (g : Graph) (id : Value) : Fault → Prop
  | refused {fault} : g.hasNode id = .error fault → Misses g id fault
  | absent : g.hasNode id = .ok false → Misses g id (.nodeNotInGraph id)
  | unhashable : id.hashable = false → Misses g id .unhashable

namespace Search

variable {g : Graph} {q : Query}

def Contained (g : Graph) (pending : List Pending) : Prop :=
  ∀ x ∈ pending, ∃ e : Edge, x = .ok e ∧ g.IsNode e.dst

def Scan.Contained (g : Graph) (q : Query) : Scan → Prop
  | .failed fault _ => ∃ n, q.Interrupts n fault
  | .dry _ => True
  | .entered _ pending rest _ => Search.Contained g pending ∧ Search.Contained g rest

def State.Contained (g : Graph) (s : State) : Prop :=
  ∀ frame ∈ s.frames, Search.Contained g frame.pending

theorem contained_of_expand (hg : g.Closed) {v : Value} (hv : g.IsNode v) {w w' : Work}
    {answer : Except Fault (List Pending)} (h : q.expand g v w = (answer, w')) :
    ∃ pending, answer = .ok pending ∧ Contained g pending := by
  unfold Query.expand at h
  split at h
  · cases h
    exact ⟨[], rfl, List.forall_mem_nil _⟩
  · obtain ⟨edges, hout, hedges⟩ := hg v hv
    rw [hout] at h
    cases h
    refine ⟨_, rfl, ?_⟩
    intro x hx
    obtain ⟨e, he, rfl⟩ := List.mem_map.1 hx
    exact ⟨e, rfl, hedges e he⟩

theorem Query.interrupts_of_record {w : Work} {fault : Fault} (h : q.record w = .error fault) :
    q.Interrupts w.found.size fault := by
  unfold record at h
  split at h
  · cases h
    exact .limit ‹_›
  · cases h

theorem scan_contained (hg : g.Closed) {pending : List Pending} (h : Contained g pending)
    (w : Work) : (scan g q pending w).Contained g q := by
  have hnode : ∀ {edge : Edge} {rest : List Pending}, Contained g (.ok edge :: rest) →
      g.IsNode edge.dst := by
    intro edge rest h
    obtain ⟨e, heq, he⟩ := h _ List.mem_cons_self
    cases heq
    exact he
  fun_induction scan g q pending w with
  | case1 => trivial
  | case2 fault rest w =>
    obtain ⟨e, heq, _⟩ := h _ List.mem_cons_self
    cases heq
  | case3 edge rest w hhash => simp [(hnode h).1] at hhash
  | case4 edge rest w _ _ ih => exact ih fun x hx => h x (List.mem_cons_of_mem _ hx)
  | case5 edge rest w _ _ _ fault hfault =>
    rw [(hnode h).2] at hfault
    cases hfault
  | case6 edge rest w _ _ _ habsent =>
    rw [(hnode h).2] at habsent
    cases habsent
  | case7 edge rest w _ _ _ _ _ _ fault hrecord => exact ⟨_, Query.interrupts_of_record hrecord⟩
  | case8 edge rest w _ _ _ _ _ _ w' _ ih => exact ih fun x hx => h x (List.mem_cons_of_mem _ hx)
  | case9 edge rest w _ _ _ _ _ _ fault w' hexpand =>
    obtain ⟨pending, hok, _⟩ := contained_of_expand hg (hnode h) hexpand
    cases hok
  | case10 edge rest w _ _ _ _ _ _ pending w' hexpand =>
    obtain ⟨pending, hok, hpending⟩ := contained_of_expand hg (hnode h) hexpand
    cases hok
    exact ⟨hpending, fun x hx => h x (List.mem_cons_of_mem _ hx)⟩

def Outcome.Interrupted (q : Query) (o : Outcome) : Prop :=
  ∀ fault, o.result = .error fault → ∃ n, q.Interrupts n fault

theorem turn_contained (hg : g.Closed) (depth : Nat) {s : State} (h : s.Contained g) :
    (turn g q depth s).Holds (State.Contained g) (Outcome.Interrupted q) := by
  unfold turn
  split
  · intro fault hfault
    cases hfault
  · rename_i frame frames hframes
    rw [State.Contained, hframes, List.forall_mem_cons] at h
    split
    · rename_i hpoll
      intro fault hfault
      cases hfault
      exact ⟨0, .check hpoll⟩
    · rename_i w _
      have hscan := scan_contained (q := q) hg h.1 w
      split
      · rename_i hfailed
        rw [hfailed] at hscan
        intro fault hfault
        cases hfault
        exact hscan
      · exact h.2
      · rename_i hentered
        rw [hentered] at hscan
        simp only [Turn.Holds, State.Contained, List.forall_mem_cons]
        exact ⟨hscan.1, hscan.2, h.2⟩

theorem start_contained (hg : g.Closed) (current : Value) (w : Work) :
    (start g q current w).Holds (State.Contained g) fun o =>
      ∀ fault, o.result = .error fault → g.Misses current fault ∨ ∃ n, q.Interrupts n fault := by
  unfold start
  dsimp only
  split
  · rename_i hrefused
    intro fault hfault
    cases hfault
    exact .inl (.refused hrefused)
  · rename_i habsent
    intro fault hfault
    cases hfault
    exact .inl (.absent habsent)
  · rename_i hnode
    split
    · rename_i hhash
      intro fault hfault
      cases hfault
      exact .inl (.unhashable (by simpa using hhash))
    · rename_i hhash
      split
      · split
        · rename_i hrecord
          intro fault hfault
          cases hfault
          exact .inr ⟨_, Query.interrupts_of_record hrecord⟩
        · intro fault hfault
          cases hfault
      · -- The first node is one, so there is no complaint about its edges.
        have hcurrent : g.IsNode current := ⟨by simpa using hhash, hnode⟩
        split
        · rename_i hexpand
          obtain ⟨pending, hok, _⟩ := contained_of_expand hg hcurrent hexpand
          cases hok
        · rename_i hexpand
          obtain ⟨pending, hok, hpending⟩ := contained_of_expand hg hcurrent hexpand
          cases hok
          simp only [Turn.Holds, State.Contained, List.forall_mem_singleton]
          exact hpending

theorem run_error_of_closed (hg : g.Closed) {current : Value} {trail : Trail} {polls : Nat}
    (ends : Ends g q current { trail, polls }) {fault : Fault}
    (hfault : (run g q current trail polls ends).result = .error fault) :
    g.Misses current fault ∨ ∃ n, q.Interrupts n fault := by
  refine run_induction ends (start_contained hg current _) (fun s hs => ?_) fault hfault
  apply (turn_contained (q := q) hg trail.path.length hs).imp
  exact fun o ho fault hfault => .inr (ho fault hfault)

end Search

inductive Config.Stops (c : Config) : Fault → Prop
  | limit : Stops c c.limitFault
  | cancelled : Stops c .cancelled
  | raised {check n fault} : c.check = some check → check n = .error fault → Stops c fault

theorem Config.stops_of_interrupts {c : Config} {sink : Value} {spent n : Nat} {fault : Fault}
    (h : (c.query sink spent).Interrupts n fault) : c.Stops fault := by
  cases h with
  | limit => exact .limit
  | check hpoll =>
    unfold Search.Query.poll at hpoll
    split at hpoll
    · cases hpoll
    · rename_i check hcheck
      dsimp only at hpoll
      split at hpoll
      · rename_i hraised
        cases hpoll
        exact .raised hcheck hraised
      · cases hpoll
        exact .cancelled
      · cases hpoll

variable {c : Config} {g : Graph}

theorem Tally.checkNodes_error {ids : List Value} {t t' : Tally} {fault : Fault}
    (h : t.checkNodes g ids = (.error fault, t')) : ∃ id ∈ ids, g.Misses id fault := by
  induction ids generalizing t with
  | nil => cases h
  | cons id ids ih =>
    unfold checkNodes at h
    dsimp only at h
    split at h
    · rename_i hrefused
      cases h
      exact ⟨id, List.mem_cons_self, .refused hrefused⟩
    · rename_i habsent
      cases h
      exact ⟨id, List.mem_cons_self, .absent habsent⟩
    · obtain ⟨id', hmem, hmisses⟩ := ih h
      exact ⟨id', List.mem_cons_of_mem _ hmem, hmisses⟩

theorem Tally.searchPair_error_of_closed {source sink : Value} (hg : g.Searchable c source sink)
    (hclosed : g.Closed) {spent : Nat} {t t' : Tally} {fault : Fault}
    (h : t.searchPair c g spent source sink hg = (.error fault, t')) :
    g.Misses source fault ∨ c.Stops fault := by
  have hsearched := searchPair_searched hg spent t
  rw [h] at hsearched
  cases hsearched with
  | exceeded => exact .inr .limit
  | failed hyields =>
    obtain ⟨ends, hfault⟩ := hyields
    obtain hmisses | ⟨n, hinterrupts⟩ := Search.run_error_of_closed hclosed ends hfault
    · exact .inl hmisses
    · exact .inr (Config.stops_of_interrupts hinterrupts)

theorem enumerate_error_of_closed {sources sinks : List Value}
    (hg : g.Enumerable c (pairsOf sources sinks)) (hclosed : g.Closed) {polls : Nat} {fault : Fault}
    (h : (enumerate c g sources sinks hg polls).result = .error fault) :
    (∃ id ∈ sources ++ sinks, g.Misses id fault) ∨ c.Stops fault := by
  unfold enumerate at h
  dsimp only at h
  split at h
  · cases h
  · split at h
    · rename_i hcheck
      cases h
      exact .inl (Tally.checkNodes_error hcheck)
    · split at h
      · rename_i hsearch
        cases h
        obtain ⟨done, source, sink, rest, t₁, _, hpair, hpairs, _, hfail⟩ :=
          Tally.searchPairs_error hg hsearch
        have hmem : (source, sink) ∈ pairsOf sources sinks := by simp [hpairs]
        obtain hmisses | hstops := Tally.searchPair_error_of_closed hpair hclosed hfail
        · exact .inl ⟨source, List.mem_append_left _ (mem_pairsOf.1 hmem).1, hmisses⟩
        · exact .inr hstops
      · cases h

theorem MemoryGraph.misses_eq {g : MemoryGraph} {id : Value} {fault : Fault}
    (h : g.toGraph.Misses id fault) : fault = .unhashable ∨ fault = .nodeNotInGraph id := by
  cases h with
  | refused hrefused =>
    simp only [toGraph, hasNode, Value.lookUp] at hrefused
    split at hrefused
    · cases hrefused
    · cases hrefused
      exact .inl rfl
  | absent => exact .inr rfl
  | unhashable => exact .inl rfl

theorem Value.elements_eq_error {v : Value} {fault : Fault} (h : v.elements = .error fault) :
    fault = .notIterable := by
  unfold elements at h
  split at h
  · cases h
  · cases h
    rfl

def Config.Raises (c : Config) (fault : Fault) : Prop :=
  ∃ check n, c.check = some check ∧ check n = .error fault

theorem Config.Stops.raises_edgeLeavesGraph {u v : Value} (h : c.Stops (.edgeLeavesGraph u v)) :
    c.Raises (.edgeLeavesGraph u v) := by
  cases h with
  | raised hcheck hraised => exact ⟨_, _, hcheck, hraised⟩

namespace Enumerator

variable {g : MemoryGraph} {e : Enumerator} {u v : Value}

theorem ends_eq_error {fault : Fault} (h : e.ends = .error fault) : fault = .notIterable := by
  unfold ends at h
  cases hsources : e.sources.elements with
  | error fault' =>
    rw [hsources] at h
    cases h
    exact Value.elements_eq_error hsources
  | ok sources =>
    cases hsinks : e.sinks.elements with
    | error fault' =>
      rw [hsources, hsinks] at h
      cases h
      exact Value.elements_eq_error hsinks
    | ok sinks =>
      rw [hsources, hsinks] at h
      cases h

theorem runOn_edgeLeavesGraph (hg : g.WellFormed)
    (h : (e.runOn g.toGraph).2.result = .error (.edgeLeavesGraph u v)) :
    e.config.Raises (.edgeLeavesGraph u v) := by
  cases hends : e.ends with
  | error fault =>
    rw [runOn, run_of_fault _ hends] at h
    cases h
    cases ends_eq_error hends
  | ok ends =>
    rw [runOn, run_of_ends _ hends] at h
    obtain ⟨id, _, hmisses⟩ | hstops := enumerate_error_of_closed _ hg.closed h
    · obtain heq | heq := MemoryGraph.misses_eq hmisses <;> cases heq
    · exact hstops.raises_edgeLeavesGraph

theorem searchOn_edgeLeavesGraph (hg : g.WellFormed) {current target : Value} {trail : Trail}
    (h : (e.searchOn g.toGraph current target trail).2.result = .error (.edgeLeavesGraph u v)) :
    e.config.Raises (.edgeLeavesGraph u v) := by
  obtain hmisses | ⟨n, hinterrupts⟩ := Search.run_error_of_closed hg.closed _ h
  · obtain heq | heq := MemoryGraph.misses_eq hmisses <;> cases heq
  · exact (Config.stops_of_interrupts hinterrupts).raises_edgeLeavesGraph

end Enumerator

end FlowPaths
