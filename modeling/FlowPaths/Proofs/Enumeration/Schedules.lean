import FlowPaths.Proofs.Enumeration.Workers

/-!
Searches that run at the same time ask one check, in an order that nothing fixes.  A search depends
on the check only through the answers to its own questions, so a run in which every pair gets some
answers, in whatever order they were asked for, keeps the results of a run that searches the pairs
one by one, under a check that gives the same answers.
-/

namespace FlowPaths

namespace Search

def Query.asking (q : Query) (check : CancelCheck) : Query := { q with check := some check }

def Work.askedAt (w : Work) (polls : Nat) : Work := { w with polls }
def State.askedAt (s : State) (polls : Nat) : State := { s with work := s.work.askedAt polls }
def Outcome.askedAt (o : Outcome) (polls : Nat) : Outcome := { o with polls }

def Scan.askedAt (polls : Nat) : Scan → Scan
  | .failed fault w => .failed fault (w.askedAt polls)
  | .dry w => .dry (w.askedAt polls)
  | .entered node pending rest w => .entered node pending rest (w.askedAt polls)

def turnAskedAt (polls : Nat) : Turn State Outcome → Turn State Outcome
  | .next s => .next (s.askedAt polls)
  | .done o => .done (o.askedAt polls)

section

variable {g : Graph} {q : Query} (check check' : CancelCheck)

theorem Query.record_askedAt (w : Work) (polls : Nat) :
    (q.asking check').record (w.askedAt polls) =
      ((q.asking check).record w).map (·.askedAt polls) := by
  change q.record (w.askedAt polls) = (q.record w).map (·.askedAt polls)
  unfold record
  cases hfull : q.isFull w.found.size <;> simp [Work.askedAt, Except.map, hfull]

theorem Query.expand_askedAt (id : Value) (w : Work) (polls : Nat) :
    (q.asking check').expand g id (w.askedAt polls) =
      (((q.asking check).expand g id w).1, ((q.asking check).expand g id w).2.askedAt polls) := by
  change q.expand g id (w.askedAt polls) = ((q.expand g id w).1, (q.expand g id w).2.askedAt polls)
  unfold expand
  cases hdeep : q.isDeep w.trail.path.length <;> simp [Work.askedAt, Work.note, hdeep]

theorem scan_askedAt (pending : List Pending) (w : Work) (polls : Nat) :
    scan g (q.asking check') pending (w.askedAt polls) =
      (scan g (q.asking check) pending w).askedAt polls := by
  induction pending generalizing w with
  | nil => rfl
  | cons first rest ih =>
    cases first with
    | error fault => rfl
    | ok edge =>
      have htrail : (w.askedAt polls).trail = w.trail := rfl
      have henter : ((w.askedAt polls).note (.has edge.dst)).enter edge.dst =
        ((w.note (.has edge.dst)).enter edge.dst).askedAt polls := rfl
      have htarget : ∀ check, (q.asking check).target = q.target := fun _ => rfl
      simp only [scan, htrail, henter, htarget, Query.record_askedAt check check',
        Query.expand_askedAt check check']
      split
      · rfl
      split
      · exact ih w
      rcases g.hasNode edge.dst with fault | _ | _
      · rfl
      · rfl
      dsimp only
      split
      · rcases (q.asking check).record ((w.note (.has edge.dst)).enter edge.dst) with fault | w'
        · rfl
        · exact ih w'.leave
      · rcases (q.asking check).expand g edge.dst ((w.note (.has edge.dst)).enter edge.dst)
          with ⟨_ | _, w'⟩ <;> rfl

theorem start_askedAt (current : Value) (w : Work) (polls : Nat) :
    start g (q.asking check') current (w.askedAt polls) =
      turnAskedAt polls (start g (q.asking check) current w) := by
  have henter : ((w.askedAt polls).note (.has current)).enter current =
    ((w.note (.has current)).enter current).askedAt polls := rfl
  have htarget : ∀ check, (q.asking check).target = q.target := fun _ => rfl
  simp only [start, henter, htarget, Query.record_askedAt check check',
    Query.expand_askedAt check check']
  rcases g.hasNode current with fault | _ | _
  · rfl
  · rfl
  dsimp only
  split
  · rfl
  split
  · rcases (q.asking check).record ((w.note (.has current)).enter current) with fault | w' <;> rfl
  · rcases (q.asking check).expand g current ((w.note (.has current)).enter current)
      with ⟨_ | _, w'⟩ <;> rfl

end

section

variable (g : Graph) (q : Query) (depth : Nat)

theorem turn_askedAt {check check' : CancelCheck} {s : State} (hframes : s.frames ≠ [])
    {polls : Nat} (hsame : check' polls = check s.work.polls) :
    turn g (q.asking check') depth (s.askedAt polls) =
      turnAskedAt (polls + 1) (turn g (q.asking check) depth s) := by
  obtain ⟨_ | ⟨frame, frames⟩, w⟩ := s
  · exact absurd rfl hframes
  have hscan := scan_askedAt (g := g) (q := q) check check' frame.pending
    (w.askedAt (w.polls + 1)) (polls + 1)
  simp only [turn, Query.poll, Query.asking, State.askedAt, Work.askedAt] at hsame hscan ⊢
  rw [hsame]
  rcases check w.polls with fault | _ | _
  · rfl
  · dsimp only
    rw [hscan]
    generalize scan g _ frame.pending _ = scanned
    cases scanned <;> rfl
  · rfl

-- What is shifted to where it stands shows how far one turn takes it.
theorem turn_eq_askedAt (check : CancelCheck) {s : State} (hframes : s.frames ≠ []) :
    turn g (q.asking check) depth s =
      turnAskedAt (s.work.polls + 1) (turn g (q.asking check) depth s) :=
  turn_askedAt g q depth (s := s) hframes rfl

theorem start_eq_askedAt (check : CancelCheck) (current : Value) (w : Work) :
    start g (q.asking check) current w = turnAskedAt w.polls (start g (q.asking check) current w) :=
  start_askedAt check check current w w.polls

end

variable {g : Graph} {q : Query} {check check' : CancelCheck} {depth : Nat}

theorem frames_of_turn_next {s s' : State} (h : turn g (q.asking check) depth s = .next s') :
    s.frames ≠ [] := by
  intro hnil
  simp [turn, hnil] at h

theorem polls_of_turn_next {s s' : State} (h : turn g (q.asking check) depth s = .next s') :
    s'.work.polls = s.work.polls + 1 := by
  have hself := turn_eq_askedAt g q depth check (frames_of_turn_next h)
  rw [h] at hself
  exact congrArg (·.work.polls) (Turn.next.inj hself)

theorem polls_of_turn_done {s : State} {o : Outcome} (hframes : s.frames ≠ [])
    (h : turn g (q.asking check) depth s = .done o) : o.polls = s.work.polls + 1 := by
  have hself := turn_eq_askedAt g q depth check hframes
  rw [h] at hself
  exact congrArg Outcome.polls (Turn.done.inj hself)

theorem polls_le_iterate {s : State} (halts : Halts (turn g (q.asking check) depth) s) :
    s.work.polls ≤ (iterate _ s halts).polls := by
  refine iterate_induction (I := fun s' => s.work.polls ≤ s'.work.polls)
    (Q := fun o => s.work.polls ≤ o.polls) (fun s' hle => ?_) halts le_rfl
  cases hturn : turn g (q.asking check) depth s' with
  | next s₁ =>
    change s.work.polls ≤ s₁.work.polls
    rw [polls_of_turn_next hturn]
    omega
  | done o =>
    by_cases hframes : s'.frames = []
    · simp only [turn, hframes] at hturn
      cases hturn
      exact hle
    · change s.work.polls ≤ o.polls
      rw [polls_of_turn_done hframes hturn]
      omega

theorem iterate_askedAt {s : State} (halts : Halts (turn g (q.asking check) depth) s)
    {polls n : Nat} (halts' : Halts (turn g (q.asking check') depth) (s.askedAt polls))
    (hn : (iterate _ s halts).polls = s.work.polls + n)
    (hsame : ∀ i < n, check' (polls + i) = check (s.work.polls + i)) :
    iterate _ (s.askedAt polls) halts' = (iterate _ s halts).askedAt (polls + n) := by
  induction (halts : Acc _ s) generalizing polls n with
  | intro s h ih =>
    have halts : Halts (turn g (q.asking check) depth) s := .intro h
    cases hturn : turn g (q.asking check) depth s with
    | next s' =>
      rw [iterate_of_next halts hturn] at hn ⊢
      have hpolls := polls_of_turn_next hturn
      have hle := polls_le_iterate (halts.next hturn)
      obtain ⟨n, rfl⟩ : ∃ m, n = m + 1 := ⟨n - 1, by omega⟩
      have hnext := turn_askedAt g q depth (frames_of_turn_next hturn)
        (by simpa using hsame 0 (by omega) : check' polls = check s.work.polls)
      rw [hturn] at hnext
      rw [iterate_of_next halts' hnext, show polls + (n + 1) = polls + 1 + n by omega]
      refine ih s' hturn _ (by omega) fun i hi => ?_
      rw [hpolls, Nat.add_assoc, Nat.add_assoc, Nat.add_comm 1 i]
      exact hsame (i + 1) (by omega)
    | done o =>
      rw [iterate_of_done halts hturn] at hn ⊢
      by_cases hframes : s.frames = []
      · simp only [turn, hframes] at hturn
        cases hturn
        obtain rfl : n = 0 := by
          change s.work.polls = s.work.polls + n at hn
          omega
        refine iterate_of_done halts' ?_
        simp only [turn, State.askedAt, hframes]
        rfl
      · have hpolls := polls_of_turn_done hframes hturn
        obtain rfl : n = 1 := by omega
        have hdone := turn_askedAt g q depth hframes
          (by simpa using hsame 0 (by omega) : check' polls = check s.work.polls)
        rw [hturn] at hdone
        exact iterate_of_done halts' hdone

variable {current : Value} {trail : Trail} {polls polls' n : Nat}
  (ends : Ends g (q.asking check) current { trail, polls })

theorem polls_le_run : polls ≤ (run g (q.asking check) current trail polls ends).polls := by
  have hself := start_eq_askedAt g q check current { trail, polls }
  cases hstart : start g (q.asking check) current { trail, polls } with
  | next s =>
    rw [run_of_next ends hstart]
    rw [hstart] at hself
    have hpolls : s.work.polls = polls := congrArg (·.work.polls) (Turn.next.inj hself)
    rw [← hpolls]
    exact polls_le_iterate _
  | done o =>
    rw [run_of_done ends hstart]
    rw [hstart] at hself
    exact (congrArg Outcome.polls (Turn.done.inj hself)).ge

/-- A search that asks `n` questions goes the same way under every check that answers them alike,
wherever it stands in the order of all questions. -/
theorem run_askedAt (ends' : Ends g (q.asking check') current { trail, polls := polls' })
    (hn : (run g (q.asking check) current trail polls ends).polls = polls + n)
    (hsame : ∀ i < n, check' (polls' + i) = check (polls + i)) :
    run g (q.asking check') current trail polls' ends' =
      (run g (q.asking check) current trail polls ends).askedAt (polls' + n) := by
  have hself := start_eq_askedAt g q check current { trail, polls }
  have hshift := start_askedAt (g := g) (q := q) check check' current { trail, polls } polls'
  cases hstart : start g (q.asking check) current { trail, polls } with
  | next s =>
    rw [hstart] at hself hshift
    have hpolls : s.work.polls = polls := congrArg (·.work.polls) (Turn.next.inj hself)
    subst hpolls
    rw [run_of_next ends hstart] at hn ⊢
    rw [run_of_next ends' hshift]
    exact iterate_askedAt _ _ hn hsame
  | done o =>
    rw [hstart] at hself hshift
    have hpolls : o.polls = polls := congrArg Outcome.polls (Turn.done.inj hself)
    rw [run_of_done ends hstart] at hn ⊢
    obtain rfl : n = 0 := by omega
    exact run_of_done ends' hshift

end Search

def Config.asking (c : Config) (check : CancelCheck) : Config := { c with check := some check }

namespace Tally

def askedAt (t : Tally) (polls : Nat) : Tally := { t with polls }

section

variable {c : Config} {g : Graph} {check check' : CancelCheck} {t : Tally} {spent n : Nat}
  {source sink : Value} (hg : g.Searchable (c.asking check) source sink)

theorem polls_searchPair :
    (t.searchPair (c.asking check) g spent source sink hg).2.polls =
      (Search.run g ((c.asking check).query sink spent) source {} t.polls
        (hg spent t.polls)).polls := by
  unfold searchPair
  dsimp only
  split
  · rfl
  · split
    · rfl
    · rename_i hmerge
      unfold merge at hmerge
      split at hmerge
      · cases hmerge
      · cases hmerge
        rfl

theorem searchPair_askedAt (hg' : g.Searchable (c.asking check') source sink) (polls : Nat)
    (hn : (t.searchPair (c.asking check) g spent source sink hg).2.polls = t.polls + n)
    (hsame : ∀ i < n, check' (polls + i) = check (t.polls + i)) :
    (t.askedAt polls).searchPair (c.asking check') g spent source sink hg' =
      ((t.searchPair (c.asking check) g spent source sink hg).1,
        (t.searchPair (c.asking check) g spent source sink hg).2.askedAt (polls + n)) := by
  rw [polls_searchPair] at hn
  have hrun := Search.run_askedAt (q := c.query sink spent) (hg spent t.polls) (hg' spent polls) hn
    hsame
  change Search.run g ((c.asking check').query sink spent) source {} (t.askedAt polls).polls _ = _
    at hrun
  simp only [searchPair]
  rw [hrun]
  generalize hasked : Search.run g ((c.asking check).query sink spent) source {} t.polls _ = o
  change Search.run g ((c.query sink spent).asking check) source {} t.polls _ = o at hasked
  rw [hasked]
  obtain ⟨fault | paths, trail, calls, asked⟩ := o
  · rfl
  · have hexceeded : ∀ check, (c.asking check).isExceededBy = c.isExceededBy := fun _ => rfl
    simp only [Search.Outcome.askedAt, askedAt, merge, log, hexceeded]
    cases c.isExceededBy (t.paths.length + paths.length) <;> rfl

theorem polls_le_searchPair (t : Tally) (spent : Nat) :
    t.polls ≤ (t.searchPair (c.asking check) g spent source sink hg).2.polls := by
  rw [polls_searchPair]
  exact Search.polls_le_run (q := c.query sink spent) (hg spent t.polls)

end

section

variable {c : Config} {g : Graph} {t t' : Tally} {source sink : Value}
  {pairs : List (Value × Value)} (hg : g.Enumerable c ((source, sink) :: pairs))

theorem searchPairs_parallel_ok
    (h : t.searchPair c g 0 source sink hg.head = (.ok (), t')) :
    t.searchPairs c g true ((source, sink) :: pairs) hg =
      t'.searchPairs c g true pairs hg.tail := searchPairs_cons_ok hg h

theorem searchPairs_parallel_error {fault : Fault}
    (h : t.searchPair c g 0 source sink hg.head = (.error fault, t')) :
    t.searchPairs c g true ((source, sink) :: pairs) hg = (.error fault, t') :=
  searchPairs_cons_error hg h

end

end Tally

def CancelCheck.splice (first n : Nat) (answers later : CancelCheck) : CancelCheck :=
  fun i => if i < first + n then answers (i - first) else later i

theorem CancelCheck.splice_inside {first n i : Nat} (h : i < n) (answers later : CancelCheck) :
    splice first n answers later (first + i) = answers i := by
  simp only [splice, Nat.add_lt_add_left h first, if_true, Nat.add_sub_cancel_left]

theorem CancelCheck.splice_later {first n i : Nat} (h : first + n ≤ i)
    (answers later : CancelCheck) : splice first n answers later i = later i :=
  if_neg (Nat.not_lt.2 h)

structure Job where
  source : Value
  sink : Value
  answers : CancelCheck

def Job.ends (job : Job) : Value × Value := (job.source, job.sink)

namespace Tally

variable {c : Config} {g : FiniteGraph} {t t' : Tally}

/-- Searches pairs side by side, each with its own answers, and merges what they find in order. -/
def searchApart (c : Config) (g : FiniteGraph) : List Job → Tally → Except Fault Unit × Tally
  | [], t => (.ok (), t)
  | job :: jobs, t =>
    match (t.askedAt 0).searchPair (c.asking job.answers) g.toGraph 0 job.source job.sink
      (g.searchable _ _ _) with
    | (.error fault, t) => (.error fault, t)
    | (.ok (), t) => t.searchApart c g jobs

theorem searchApart_askedAt (jobs : List Job) (t : Tally) (polls : Nat) :
    ((t.askedAt polls).searchApart c g jobs).1 = (t.searchApart c g jobs).1 ∧
      ((t.askedAt polls).searchApart c g jobs).2.SameResults (t.searchApart c g jobs).2 := by
  cases jobs with
  | nil => exact ⟨rfl, rfl, rfl⟩
  | cons job jobs => exact ⟨rfl, .refl _⟩

theorem searchPairs_eq_searchApart (check : CancelCheck) (pairs : List (Value × Value))
    (t : Tally) :
    ∃ jobs : List Job, jobs.map Job.ends = pairs ∧
      (∀ job ∈ jobs, ∃ first, job.answers = fun i => check (first + i)) ∧
      (t.searchPairs (c.asking check) g.toGraph true pairs (g.enumerable _ _)).1 =
        (t.searchApart c g jobs).1 ∧
      (t.searchPairs (c.asking check) g.toGraph true pairs (g.enumerable _ _)).2.SameResults
        (t.searchApart c g jobs).2 := by
  induction pairs generalizing t with
  | nil => exact ⟨[], rfl, List.forall_mem_nil _, rfl, .refl _⟩
  | cons pair pairs ih =>
    obtain ⟨source, sink⟩ := pair
    have hpair := g.searchable (c.asking check) source sink
    rcases hsearch : t.searchPair (c.asking check) g.toGraph 0 source sink hpair with ⟨answer, t₁⟩
    obtain ⟨n, hn⟩ := Nat.le.dest (polls_le_searchPair hpair t 0)
    let job : Job := ⟨source, sink, fun i => check (t.polls + i)⟩
    have hjob := searchPair_askedAt hpair (g.searchable (c.asking job.answers) _ _) 0 hn.symm
      fun i _ => by rw [Nat.zero_add]
    rw [hsearch] at hjob
    obtain ⟨jobs, hends, hanswers, hanswer, hsame⟩ := ih t₁
    refine ⟨job :: jobs, by rw [List.map_cons, hends]; rfl, ?_, ?_⟩
    · exact List.forall_mem_cons.2 ⟨⟨_, rfl⟩, hanswers⟩
    cases answer with
    | error fault =>
      rw [searchPairs_parallel_error _ hsearch, searchApart, hjob]
      exact ⟨rfl, rfl, rfl⟩
    | ok =>
      obtain ⟨hanswer', hsame'⟩ := searchApart_askedAt (c := c) (g := g) jobs t₁ (0 + n)
      rw [searchPairs_parallel_ok _ hsearch, searchApart, hjob]
      exact ⟨hanswer.trans hanswer'.symm, hsame.trans hsame'.symm⟩

/-- The answers can be put in the order of the pairs, from the question `first` on.  Earlier
answers do not matter, which is what lets the pairs be put together one by one. -/
theorem exists_check_from (jobs : List Job) (t : Tally) (first : Nat) :
    ∃ check : CancelCheck, ∀ check' : CancelCheck, (∀ i, first ≤ i → check' i = check i) →
      ∃ polls, (t.askedAt first).searchPairs (c.asking check') g.toGraph true (jobs.map Job.ends)
          (g.enumerable _ _) =
        ((t.searchApart c g jobs).1, (t.searchApart c g jobs).2.askedAt polls) := by
  induction jobs generalizing t first with
  | nil => exact ⟨fun _ => .ok false, fun _ _ => ⟨first, rfl⟩⟩
  | cons job jobs ih =>
    have hjob := g.searchable (c.asking job.answers) job.source job.sink
    rcases hsearch : (t.askedAt 0).searchPair (c.asking job.answers) g.toGraph 0 job.source job.sink
      hjob with ⟨answer, t₁⟩
    have hn : ((t.askedAt 0).searchPair (c.asking job.answers) g.toGraph 0 job.source job.sink
        hjob).2.polls = 0 + t₁.polls := by
      rw [hsearch, Nat.zero_add]
    obtain ⟨later, hlater⟩ := ih t₁ (first + t₁.polls)
    refine ⟨.splice first t₁.polls job.answers later, fun check' hcheck' => ?_⟩
    have hanswers : ∀ i < t₁.polls, check' (first + i) = job.answers (0 + i) := by
      intro i hi
      rw [hcheck' _ (Nat.le_add_right _ _), CancelCheck.splice_inside hi, Nat.zero_add]
    have hpair := searchPair_askedAt (t := t.askedAt 0) hjob (g.searchable _ _ _) first hn hanswers
    rw [hsearch] at hpair
    cases answer with
    | error fault =>
      refine ⟨first + t₁.polls, ?_⟩
      rw [searchApart, hsearch]
      exact searchPairs_parallel_error _ hpair
    | ok =>
      obtain ⟨polls, hsearched⟩ := hlater check' fun i hi => by
        rw [hcheck' i (Nat.le_trans (Nat.le_add_right _ _) hi), CancelCheck.splice_later hi]
      refine ⟨polls, ?_⟩
      rw [searchApart, hsearch]
      exact (searchPairs_parallel_ok _ hpair).trans hsearched

/-- Whatever answers the searches get, there is a check under which the pairs, searched in order,
end the same way. -/
theorem exists_check_searchPairs {jobs : List Job} {answer : Except Fault Unit}
    (h : t.searchApart c g jobs = (answer, t')) :
    ∃ (check : CancelCheck) (t₁ : Tally), t₁.SameResults t' ∧
      t.searchPairs (c.asking check) g.toGraph true (jobs.map Job.ends) (g.enumerable _ _) =
        (answer, t₁) := by
  obtain ⟨check, hcheck⟩ := exists_check_from (c := c) (g := g) jobs t t.polls
  obtain ⟨polls, hsearched⟩ := hcheck check fun _ _ => rfl
  rw [h] at hsearched
  exact ⟨check, t'.askedAt polls, ⟨rfl, rfl⟩, hsearched⟩

/-- The pairs with the answers of one common check, of which the `i`th question of the `k`th pair
is number `place k i` of all. -/
def interleaved (check : CancelCheck) (place : Nat → Nat → Nat) (pairs : List (Value × Value)) :
    List Job :=
  pairs.mapIdx fun k pair => ⟨pair.1, pair.2, fun i => check (place k i)⟩

variable {check : CancelCheck} {place : Nat → Nat → Nat} {pairs : List (Value × Value)}

theorem ends_interleaved : (interleaved check place pairs).map Job.ends = pairs := by
  apply List.ext_getElem
  · simp [interleaved]
  · intro i _ _
    simp [interleaved, Job.ends]

theorem interleaved_ok_gains
    (h : t.searchApart c g (interleaved check place pairs) = (.ok (), t')) :
    ∃ results, t.Gains results t' ∧ results.map PairResult.ends = pairs ∧
      ∀ r ∈ results, r.Exhaustive c g.toGraph := by
  obtain ⟨check', t₁, hsame, hsearched⟩ := exists_check_searchPairs h
  obtain ⟨results, hgains, hends, hall⟩ := searchPairs_ok _ hsearched
  rw [ends_interleaved] at hends
  exact ⟨results, hsame.gained hgains, hends, hall⟩

theorem interleaved_error_gains {fault : Fault}
    (h : t.searchApart c g (interleaved check place pairs) = (.error fault, t')) :
    ∃ k, k < pairs.length ∧ ∃ results, t.Gains results t' ∧
      results.map PairResult.ends = pairs.take k ∧ ∀ r ∈ results, r.Exhaustive c g.toGraph := by
  obtain ⟨check', t₁, hsame, hsearched⟩ := exists_check_searchPairs h
  obtain ⟨k, hk, results, hgains, hends, hall⟩ := searchPairs_error_gains _ hsearched
  rw [ends_interleaved] at hk hends
  exact ⟨k, hk, results, hsame.gained hgains, hends, hall⟩

end Tally

end FlowPaths
