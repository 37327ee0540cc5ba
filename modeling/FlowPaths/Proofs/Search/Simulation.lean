import FlowPaths.Graph.Scripted
import FlowPaths.Proofs.Search.Recursion

/-!
The loop of the search and the recursion come to the same.  A frame of the stack is a call of the
recursion that waits for the search below one of its edges.
-/

namespace FlowPaths

section

variable {σ ο : Type} {turn : σ → Turn σ ο}

inductive EndsIn (turn : σ → Turn σ ο) : Nat → Turn σ ο → ο → Prop
  | done {o} : EndsIn turn 0 (.done o) o
  | next {n s o} : EndsIn turn n (turn s) o → EndsIn turn (n + 1) (.next s) o

theorem endsIn_done_iff {o o' : ο} :
    (∃ n, EndsIn turn n (.done o') o) ↔ o' = o := by
  constructor
  · rintro ⟨n, h⟩
    cases h
    rfl
  · rintro rfl
    exact ⟨0, .done⟩

theorem EndsIn.iterate_eq {n : Nat} {s : σ} {o : ο} (h : EndsIn turn n (.next s) o) :
    ∃ halts : Halts turn s, iterate turn s halts = o := by
  generalize ht : Turn.next s = t at h
  induction h generalizing s with
  | done => cases ht
  | @next n s' o h ih =>
    injection ht with ht
    subst ht
    cases hs : turn s with
    | done o' =>
      rw [hs] at h
      cases h
      have halts : Halts turn s := .intro fun s' hs' => by simp [hs] at hs'
      exact ⟨halts, iterate_of_done halts hs⟩
    | next s' =>
      obtain ⟨halts', heq⟩ := ih hs.symm
      have halts : Halts turn s := .intro fun s'' hs'' => by
        cases hs.symm.trans hs''
        exact halts'
      exact ⟨halts, (iterate_of_next halts hs).trans heq⟩

theorem Halts.endsIn {s : σ} (h : Halts turn s) :
    ∃ n, EndsIn turn n (.next s) (iterate turn s h) := by
  induction (h : Acc _ s) with
  | intro s hs ih =>
    have halts : Halts turn s := .intro hs
    cases hturn : turn s with
    | done o =>
      rw [iterate_of_done halts hturn]
      exact ⟨1, .next (hturn ▸ .done)⟩
    | next s' =>
      obtain ⟨n, hn⟩ := ih s' hturn
      rw [iterate_of_next halts hturn]
      exact ⟨n + 1, .next (hturn ▸ hn)⟩

end

theorem Trail.unwindTo_leave {t : Trail} {depth : Nat} (h : depth < t.path.length) :
    t.leave.unwindTo depth = t.unwindTo depth := by
  obtain ⟨path, visited⟩ := t
  obtain rfl | ⟨front, last, rfl⟩ := List.eq_nil_or_concat path
  · simp at h
  · have hle : depth ≤ front.length := by simpa [Nat.lt_succ_iff] using h
    simp only [List.concat_eq_append, leave, unwindTo, List.getLast?_concat, List.dropLast_concat,
      List.take_append_of_le_length hle, List.drop_append_of_le_length hle, List.map_append,
      List.filter_filter]
    congr 1
    apply List.filter_congr
    intro k _
    simp [List.contains_eq_mem]

namespace Search

theorem Work.finish_leave {w : Work} {depth : Nat} (h : depth < w.trail.path.length)
    (result : Except Fault (List Path)) : w.leave.finish depth result = w.finish depth result := by
  simp [finish, Work.leave, Trail.unwindTo_leave h]

def resume (g : Graph) (q : Query) (depth : Nat) (frame : Frame) (frames : List Frame) (w : Work) :
    Turn State Outcome :=
  match scan g q frame.pending w with
  | .failed fault w => .done (w.finish depth (.error fault))
  | .dry w => .next ⟨frames, w.leave⟩
  | .entered node pending rest w =>
    .next ⟨⟨node, pending⟩ :: { frame with pending := rest } :: frames, w⟩

def settle (depth : Nat) (frames : List Frame) (w : Work) : Except Fault Unit → Turn State Outcome
  | .ok () => .next ⟨frames, w.leave⟩
  | .error fault => .done (w.finish depth (.error fault))

section

variable {g : Graph} {q : Query} {depth : Nat} {frame : Frame} {frames : List Frame} {w w' : Work}
  {fault : Fault} {node : Value} {x : Pending} {rest pending : List Pending}

theorem turn_of_poll_error (h : q.poll w = (.error fault, w')) :
    turn g q depth ⟨frame :: frames, w⟩ = .done (w'.finish depth (.error fault)) := by
  simp [turn, h]

theorem turn_of_poll_ok (h : q.poll w = (.ok (), w')) :
    turn g q depth ⟨frame :: frames, w⟩ = resume g q depth frame frames w' := by
  simp only [turn, h]
  rfl

theorem endsIn_of_poll_error {n : Nat} {o : Outcome} (frame : Frame)
    (hpoll : q.poll w = (.error fault, w'))
    (h : EndsIn (turn g q depth) n (.done (w'.finish depth (.error fault))) o) :
    EndsIn (turn g q depth) (n + 1) (.next ⟨frame :: frames, w⟩) o :=
  .next (turn_of_poll_error hpoll ▸ h)

theorem endsIn_of_poll_ok {n : Nat} {o : Outcome} (hpoll : q.poll w = (.ok (), w'))
    (h : EndsIn (turn g q depth) n (resume g q depth frame frames w') o) :
    EndsIn (turn g q depth) (n + 1) (.next ⟨frame :: frames, w⟩) o :=
  .next (turn_of_poll_ok hpoll ▸ h)

theorem resume_cons (hdepth : depth < w.trail.path.length) :
    resume g q depth ⟨node, x :: rest⟩ frames w =
      match look g q x w with
      | .failed fault w => .done (w.finish depth (.error fault))
      | .passed w => resume g q depth ⟨node, rest⟩ frames w
      | .entered id pending w => .next ⟨⟨id, pending⟩ :: ⟨node, rest⟩ :: frames, w⟩ := by
  have hleave : ∀ {id : Value} {w₁ : Work} (fault : Fault), w₁.trail = w.trail.enter id →
      w₁.leave.finish depth (.error fault) = w₁.finish depth (.error fault) := by
    intro id w₁ fault h₁
    apply Work.finish_leave
    simp only [h₁, Trail.enter, List.length_append, List.length_singleton]
    omega
  fun_cases look g q x w with
  | case1 => rfl
  | case2 edge w hhash => simp only [resume, scan, hhash, if_true]
  | case3 edge w hhash hvisited =>
    simp only [resume, scan, hhash, hvisited]
    rfl
  | case4 edge w hhash hvisited _ fault hnode =>
    simp only [resume, scan, hhash, hvisited, hnode]
    rfl
  | case5 edge w hhash hvisited _ hnode =>
    simp only [resume, scan, hhash, hvisited, hnode]
    rfl
  | case6 edge w hhash hvisited _ hnode w₂ htarget fault hrecord =>
    have hrecord : q.record ((w.note (.has edge.dst)).enter edge.dst) = .error fault := hrecord
    simp only [resume, scan, hhash, hvisited, hnode, htarget, hrecord]
    exact congrArg Turn.done (hleave fault rfl).symm
  | case7 edge w hhash hvisited _ hnode w₂ htarget w₁ hrecord =>
    have hrecord : q.record ((w.note (.has edge.dst)).enter edge.dst) = .ok w₁ := hrecord
    simp only [resume, scan, hhash, hvisited, hnode, htarget, hrecord]
    rfl
  | case8 edge w hhash hvisited _ hnode w₂ htarget fault w₁ hexpand =>
    have hexpand : q.expand g edge.dst ((w.note (.has edge.dst)).enter edge.dst) =
      (.error fault, w₁) := hexpand
    simp only [resume, scan, hhash, hvisited, hnode, htarget, hexpand]
    exact congrArg Turn.done (hleave fault (Query.trail_of_expand hexpand)).symm
  | case9 edge w hhash hvisited _ hnode w₂ htarget pending w₁ hexpand =>
    have hexpand : q.expand g edge.dst ((w.note (.has edge.dst)).enter edge.dst) =
      (.ok pending, w₁) := hexpand
    simp only [resume, scan, hhash, hvisited, hnode, htarget, hexpand]
    rfl

theorem length_lt_of_entered {id : Value} {w₁ w₂ : Work} (h : look g q x w = .entered id pending w₁)
    (h₂ : w₂.trail = w₁.trail) (hdepth : depth < w.trail.path.length) :
    depth < w₂.trail.path.length := by
  rw [h₂, (trail_of_look_entered h).1]
  simp only [Trail.enter, List.length_append, List.length_singleton]
  omega

theorem Explores.endsIn {result : Except Fault Unit} {n : Nat} {o : Outcome}
    (h : Explores g q pending w result w') (node : Value) (hdepth : depth < w.trail.path.length)
    (hend : EndsIn (turn g q depth) n (settle depth frames w' result) o) :
    ∃ m, EndsIn (turn g q depth) m (resume g q depth ⟨node, pending⟩ frames w) o := by
  induction h generalizing node frames n with
  | nil => exact ⟨n, hend⟩
  | failed hlook =>
    rw [resume_cons hdepth, hlook]
    exact ⟨n, hend⟩
  | passed hlook _ ih =>
    rw [resume_cons hdepth, hlook]
    exact ih node (by rwa [trail_of_look_passed hlook]) hend
  | stopped hlook hpoll =>
    have hlt := length_lt_of_entered hlook (Query.trail_of_poll hpoll) hdepth
    rw [resume_cons hdepth, hlook]
    rw [settle, Work.finish_leave hlt] at hend
    exact ⟨n + 1, endsIn_of_poll_error _ hpoll hend⟩
  | broken hlook hpoll hexplores ih =>
    have hlt := length_lt_of_entered hlook (Query.trail_of_poll hpoll) hdepth
    rw [resume_cons hdepth, hlook]
    rw [settle, Work.finish_leave (by rwa [hexplores.trail_eq])] at hend
    obtain ⟨m, hm⟩ := ih _ hlt hend
    exact ⟨m + 1, endsIn_of_poll_ok hpoll hm⟩
  | @cancelled x rest w id pending w₁ w₂ w₃ fault w₄ hlook hpoll hexplores hpoll' ih =>
    have hlt := length_lt_of_entered hlook (Query.trail_of_poll hpoll) hdepth
    rw [resume_cons hdepth, hlook]
    obtain ⟨m, hm⟩ := ih _ hlt (endsIn_of_poll_error ⟨node, rest⟩ hpoll' hend)
    exact ⟨m + 1, endsIn_of_poll_ok hpoll hm⟩
  | @returned x rest w id pending w₁ w₂ w₃ w₄ result w' hlook hpoll hexplores hpoll' _ ih ih' =>
    have hlt := length_lt_of_entered hlook (Query.trail_of_poll hpoll) hdepth
    rw [resume_cons hdepth, hlook]
    have htrail : w₄.trail = w.trail := by
      rw [Query.trail_of_poll hpoll']
      exact leave_of_look_entered hlook (hexplores.trail_eq.trans (Query.trail_of_poll hpoll))
    obtain ⟨k, hk⟩ := ih' node (by rwa [htrail]) hend
    obtain ⟨m, hm⟩ := ih _ hlt (endsIn_of_poll_ok hpoll' hk)
    exact ⟨m + 1, endsIn_of_poll_ok hpoll hm⟩

/-- If the loop ends, then so does the recursion over the edges of the top frame, and the loop
takes no more turns from there than it did before. -/
theorem explores_of_endsIn {n : Nat} {o : Outcome} (hdepth : depth < w.trail.path.length)
    (h : EndsIn (turn g q depth) n (resume g q depth ⟨node, pending⟩ frames w) o) :
    ∃ result w', Explores g q pending w result w' ∧
      ∃ m, m ≤ n ∧ EndsIn (turn g q depth) m (settle depth frames w' result) o := by
  -- The turns bound the depth of the recursion, and the edges its breadth.
  induction n using Nat.strongRecOn generalizing node pending frames w with
  | ind n ihn =>
    induction pending generalizing w with
    | nil => exact ⟨_, _, .nil, n, n.le_refl, h⟩
    | cons x rest ihx =>
      rw [resume_cons hdepth] at h
      cases hlook : look g q x w with
      | failed fault w' =>
        rw [hlook] at h
        exact ⟨_, _, .failed hlook, n, n.le_refl, h⟩
      | passed w₁ =>
        rw [hlook] at h
        obtain ⟨result, w', hexplores, hend⟩ := ihx (by rwa [trail_of_look_passed hlook]) h
        exact ⟨result, w', .passed hlook hexplores, hend⟩
      | entered id pending w₁ =>
        rw [hlook] at h
        cases h with | @next k _ _ h =>
        rcases hpoll : q.poll w₁ with ⟨_ | _, w₂⟩
        · rename_i fault
          have hlt := length_lt_of_entered hlook (Query.trail_of_poll hpoll) hdepth
          rw [turn_of_poll_error hpoll, ← Work.finish_leave hlt] at h
          exact ⟨_, _, .stopped hlook hpoll, k, k.le_succ, h⟩
        · have hlt := length_lt_of_entered hlook (Query.trail_of_poll hpoll) hdepth
          rw [turn_of_poll_ok hpoll] at h
          obtain ⟨result, w₃, hexplores, m, hm, hend⟩ := ihn k k.lt_succ_self hlt h
          cases result with
          | error fault =>
            rw [settle, ← Work.finish_leave (by rwa [hexplores.trail_eq])] at hend
            exact ⟨_, _, .broken hlook hpoll hexplores, m, by omega, hend⟩
          | ok =>
            cases hend with | @next j _ _ hend =>
            rcases hpoll' : q.poll w₃.leave with ⟨_ | _, w₄⟩
            · rw [turn_of_poll_error hpoll'] at hend
              exact ⟨_, _, .cancelled hlook hpoll hexplores hpoll', j, by omega, hend⟩
            · have htrail : w₄.trail = w.trail := by
                rw [Query.trail_of_poll hpoll']
                exact leave_of_look_entered hlook
                  (hexplores.trail_eq.trans (Query.trail_of_poll hpoll))
              rw [turn_of_poll_ok hpoll'] at hend
              obtain ⟨result, w', hrest, i, hi, hend⟩ :=
                ihn j (by omega) (by rwa [htrail]) hend
              exact ⟨result, w', .returned hlook hpoll hexplores hpoll' hrest, i, by omega, hend⟩

end

section

variable {g : Graph} {q : Query} {current : Value} {trail : Trail} {polls : Nat} {o : Outcome}

theorem run_eq_iff_endsIn :
    (∃ ends, run g q current trail polls ends = o) ↔
      ∃ n, EndsIn (turn g q trail.path.length) n (start g q current { trail, polls }) o := by
  constructor
  · rintro ⟨ends, rfl⟩
    cases hs : start g q current { trail, polls } with
    | done outcome => exact ⟨0, run_of_done ends hs ▸ .done⟩
    | next s => exact run_of_next ends hs ▸ (ends s hs).endsIn
  · rintro ⟨n, h⟩
    cases hs : start g q current { trail, polls } with
    | done outcome =>
      have ends : Ends g q current { trail, polls } := fun s hs' => by simp [hs] at hs'
      rw [hs] at h
      cases h
      exact ⟨ends, run_of_done ends hs⟩
    | next s =>
      rw [hs] at h
      obtain ⟨halts, heq⟩ := h.iterate_eq
      have ends : Ends g q current { trail, polls } := fun s' hs' => by
        cases hs.symm.trans hs'
        exact halts
      exact ⟨ends, (run_of_next ends hs).trans heq⟩

theorem finish_of_entered {w : Work} (h : w.trail = trail.enter current)
    (hnew : current.key ∉ trail.visited) (result : Except Fault Unit) :
    w.finish trail.path.length (result.map fun _ => w.found.toList) = w.leave.outcome result := by
  have hlt : trail.path.length < w.trail.path.length := by simp [h, Trail.enter]
  have hback : w.leave.trail = trail := by rw [Work.leave_trail, h, Trail.leave_enter hnew]
  rw [← Work.finish_leave hlt, Work.finish, Work.outcome, hback, Trail.unwindTo_length]
  rfl

theorem endsIn_settle_nil {w : Work} (h : w.trail = trail.enter current)
    (hnew : current.key ∉ trail.visited) (result : Except Fault Unit) :
    (∃ n, EndsIn (turn g q trail.path.length) n (settle trail.path.length [] w result) o) ↔
      o = w.leave.outcome result := by
  have hfinish := finish_of_entered h hnew result
  cases result with
  | error fault =>
    rw [← hfinish]
    constructor
    · rintro ⟨n, hend⟩
      cases hend
      rfl
    · rintro rfl
      exact ⟨0, .done⟩
  | ok =>
    have hlt : trail.path.length < w.trail.path.length := by simp [h, Trail.enter]
    have hturn : turn g q trail.path.length ⟨[], w.leave⟩ = .done (w.leave.outcome (.ok ())) := by
      rw [← hfinish, ← Work.finish_leave hlt]
      rfl
    constructor
    · rintro ⟨n, hend⟩
      cases hend with | next hend =>
      rw [hturn] at hend
      cases hend
      rfl
    · rintro rfl
      exact ⟨1, .next (hturn ▸ .done)⟩

theorem start_of_node (hnode : g.hasNode current = .ok true) (hhash : current.hashable = true) :
    start g q current { trail, polls } =
      if current.same q.target then
        match q.record ((Work.note { trail, polls } (.has current)).enter current) with
        | .error fault =>
          .done (((Work.note { trail, polls } (.has current)).enter current).finish
            trail.path.length (.error fault))
        | .ok w => .done (w.finish trail.path.length (.ok w.found.toList))
      else
        match q.expand g current ((Work.note { trail, polls } (.has current)).enter current) with
        | (.error fault, w) => .done (w.finish trail.path.length (.error fault))
        | (.ok pending, w) => .next ⟨[⟨current, pending⟩], w⟩ := by
  simp only [start, hnode, hhash]
  rfl

theorem Descends.endsIn_start {result : Except Fault Unit} {w' : Work}
    (h : Descends g q current (Work.note { trail, polls } (.has current)) result w')
    (hnode : g.hasNode current = .ok true) (hhash : current.hashable = true)
    (hnew : current.key ∉ trail.visited) :
    ∃ n, EndsIn (turn g q trail.path.length) n (start g q current { trail, polls })
      (w'.outcome result) := by
  rw [start_of_node hnode hhash]
  cases h with
  | full htarget hrecord =>
    simp only [Value.same_iff, htarget, if_true, hrecord]
    rw [← finish_of_entered rfl hnew]
    exact ⟨0, .done⟩
  | target htarget hrecord =>
    simp only [Value.same_iff, htarget, if_true, hrecord]
    rw [← finish_of_entered (Query.record_trail hrecord) hnew]
    exact ⟨0, .done⟩
  | closed htarget hexpand =>
    simp only [Value.same_iff, htarget, if_false, hexpand]
    rw [← finish_of_entered (Query.trail_of_expand hexpand) hnew]
    exact ⟨0, .done⟩
  | stopped htarget hexpand hpoll =>
    simp only [Value.same_iff, htarget, if_false, hexpand]
    have htrail := (Query.trail_of_poll hpoll).trans (Query.trail_of_expand hexpand)
    rw [← finish_of_entered htrail hnew]
    exact ⟨1, endsIn_of_poll_error _ hpoll .done⟩
  | explored htarget hexpand hpoll hexplores =>
    simp only [Value.same_iff, htarget, if_false, hexpand]
    have htrail := (Query.trail_of_poll hpoll).trans (Query.trail_of_expand hexpand)
    obtain ⟨n, hend⟩ := (endsIn_settle_nil (g := g) (q := q)
      (hexplores.trail_eq.trans htrail) hnew result).2 rfl
    obtain ⟨m, hm⟩ := hexplores.endsIn current (by simp [htrail, Trail.enter]) hend
    exact ⟨m + 1, endsIn_of_poll_ok hpoll hm⟩

theorem descends_of_endsIn_start {n : Nat}
    (h : EndsIn (turn g q trail.path.length) n (start g q current { trail, polls }) o)
    (hnode : g.hasNode current = .ok true) (hhash : current.hashable = true)
    (hnew : current.key ∉ trail.visited) :
    ∃ result w', Descends g q current (Work.note { trail, polls } (.has current)) result w' ∧
      o = w'.outcome result := by
  rw [start_of_node hnode hhash] at h
  by_cases htarget : current.key = q.target.key
  · simp only [Value.same_iff, htarget, if_true] at h
    cases hrecord : q.record ((Work.note { trail, polls } (.has current)).enter current) with
    | error fault =>
      rw [hrecord] at h
      cases h
      exact ⟨_, _, .full htarget hrecord, finish_of_entered rfl hnew (.error fault)⟩
    | ok w₁ =>
      rw [hrecord] at h
      cases h
      exact ⟨_, _, .target htarget hrecord,
        finish_of_entered (Query.record_trail hrecord) hnew (.ok ())⟩
  · simp only [Value.same_iff, htarget, if_false] at h
    rcases hexpand : q.expand g current ((Work.note { trail, polls } (.has current)).enter current)
      with ⟨fault | pending, w₁⟩
    · rw [hexpand] at h
      cases h
      exact ⟨_, _, .closed htarget hexpand,
        finish_of_entered (Query.trail_of_expand hexpand) hnew (.error fault)⟩
    · rw [hexpand] at h
      cases h with | next h =>
      rcases hpoll : q.poll w₁ with ⟨fault | _, w₂⟩
      · rw [turn_of_poll_error hpoll] at h
        cases h
        have htrail := (Query.trail_of_poll hpoll).trans (Query.trail_of_expand hexpand)
        exact ⟨_, _, .stopped htarget hexpand hpoll, finish_of_entered htrail hnew (.error fault)⟩
      · rw [turn_of_poll_ok hpoll] at h
        have htrail := (Query.trail_of_poll hpoll).trans (Query.trail_of_expand hexpand)
        obtain ⟨result, w₃, hexplores, m, _, hend⟩ :=
          explores_of_endsIn (by simp [htrail, Trail.enter]) h
        exact ⟨_, _, .explored htarget hexpand hpoll hexplores,
          (endsIn_settle_nil (hexplores.trail_eq.trans htrail) hnew result).1 ⟨m, hend⟩⟩

theorem Recursive.run_of_node (hnode : g.hasNode current = .ok true)
    (hhash : current.hashable = true) :
    (∃ n, Recursive.run g q current trail polls n = some o) ↔
      ∃ result w', Descends g q current (Work.note { trail, polls } (.has current)) result w' ∧
        o = w'.outcome result := by
  have hrun : ∀ n, Recursive.run g q current trail polls n =
      (Recursive.descend g q n current (Work.note { trail, polls } (.has current))).map
        fun answer => answer.2.outcome answer.1 := by
    intro n
    simp only [Recursive.run, hnode, hhash]
    cases Recursive.descend g q n current (Work.note { trail, polls } (.has current)) <;> rfl
  constructor
  · rintro ⟨n, h⟩
    rw [hrun, Option.map_eq_some_iff] at h
    obtain ⟨⟨result, w'⟩, hdescend, rfl⟩ := h
    exact ⟨result, w', Recursive.descends_of_descend hdescend, rfl⟩
  · rintro ⟨result, w', hdescends, rfl⟩
    obtain ⟨n, hn⟩ := Recursive.descend_of_descends hdescends
    exact ⟨n, by rw [hrun, hn]; rfl⟩

theorem finish_of_asked (fault : Fault) :
    (Work.note { trail, polls } (.has current)).finish trail.path.length (.error fault) =
      (Work.note { trail, polls } (.has current)).outcome (.error fault) := by
  simp [Work.finish, Work.outcome, Except.map]

/-- The recursion comes to an answer exactly when the search ends, and then they agree on the paths
or the fault, on the questions put to the graph, on the calls of the check, and on the trail. -/
theorem Recursive.run_eq_some_iff (hnew : current.key ∉ trail.visited) :
    (∃ n, Recursive.run g q current trail polls n = some o) ↔
      ∃ ends, Search.run g q current trail polls ends = o := by
  rw [run_eq_iff_endsIn]
  cases hnode : g.hasNode current with
  | error fault => simp [Recursive.run, start, hnode, endsIn_done_iff, finish_of_asked]
  | ok known =>
    cases known with
    | false => simp [Recursive.run, start, hnode, endsIn_done_iff, finish_of_asked]
    | true =>
      by_cases hhash : current.hashable = true
      · rw [Recursive.run_of_node hnode hhash]
        constructor
        · rintro ⟨result, w', hdescends, rfl⟩
          exact hdescends.endsIn_start hnode hhash hnew
        · rintro ⟨n, hend⟩
          exact descends_of_endsIn_start hend hnode hhash hnew
      · simp [Recursive.run, start, hnode, hhash, endsIn_done_iff, finish_of_asked]

end

def cyclic : ScriptedGraph where
  nodes := [.text "A", .text "B", .text "C"]
  out :=
    [(.text "A", [.edge [.text "A", .text "B"], .edge [.text "A", .text "C"]]),
      (.text "B", [.edge [.text "B", .text "A"], .edge [.text "B", .text "C"],
        .edge [.text "B", .text "Z"]])]

theorem Recursive.run_cyclic :
    let q : Query := { target := .text "C", check := some (CancelPlan.after 9).check }
    let trail : Trail := { path := [.text "Z"], visited := [Value.key (.text "Z")] }
    Value.key (.text "A") ∉ trail.visited ∧
      ∃ o, (∃ n, Recursive.run cyclic.toGraph.toGraph q (.text "A") trail 0 n = some o) ∧
        (∃ ends, Search.run cyclic.toGraph.toGraph q (.text "A") trail 0 ends = o) ∧
        o.result = .ok [[.text "Z", .text "A", .text "B", .text "C"],
          [.text "Z", .text "A", .text "C"]] ∧ o.polls = 3 := by
  refine ⟨by decide, _, ⟨3, rfl⟩, (Recursive.run_eq_some_iff (by decide)).1 ⟨3, rfl⟩, ?_, ?_⟩
  · cbv
  · cbv

end Search

end FlowPaths
