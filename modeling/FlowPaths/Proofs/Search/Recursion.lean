import FlowPaths.Search.Halting

/-!
The search as a recursion.  A node is entered, what lies behind its edges is searched in turn, and
the node is left again, whatever happened in between.  The check is asked before the edges of a
node are looked at, and once more after each search below them.  The recursion need not come to an
end: it is given the number of calls that may be nested, and has no answer if they do not suffice.
-/

namespace FlowPaths.Search

def Work.outcome (w : Work) (result : Except Fault Unit) : Outcome where
  result := result.map fun _ => w.found.toList
  trail := w.trail
  calls := w.calls.reverse
  polls := w.polls

namespace Recursive

def explore (g : Graph) (q : Query) (descend : Value → Work → Option (Except Fault Unit × Work)) :
    List Pending → Work → Option (Except Fault Unit × Work)
  | [], w => some (.ok (), w)
  | .error fault :: _, w => some (.error fault, w)
  | .ok edge :: rest, w =>
    if !edge.dst.hashable then some (.error .unhashable, w)
    else if w.trail.hasVisited edge.dst then explore g q descend rest w
    else
      let w := w.note (.has edge.dst)
      match g.hasNode edge.dst with
      | .error fault => some (.error fault, w)
      | .ok false => some (.error (.edgeLeavesGraph edge.src edge.dst), w)
      | .ok true =>
        match descend edge.dst w with
        | none => none
        | some (.error fault, w) => some (.error fault, w)
        | some (.ok (), w) =>
          -- A target has no edges to look at, and the check is not asked after it.
          if edge.dst.same q.target then explore g q descend rest w
          else
            match q.poll w with
            | (.error fault, w) => some (.error fault, w)
            | (.ok (), w) => explore g q descend rest w

def descend (g : Graph) (q : Query) : Nat → Value → Work → Option (Except Fault Unit × Work)
  | 0, _, _ => none
  | n + 1, id, w =>
    let w := w.enter id
    if id.same q.target then
      match q.record w with
      | .error fault => some (.error fault, w.leave)
      | .ok w => some (.ok (), w.leave)
    else
      match q.expand g id w with
      | (.error fault, w) => some (.error fault, w.leave)
      | (.ok pending, w) =>
        match q.poll w with
        | (.error fault, w) => some (.error fault, w.leave)
        | (.ok (), w) =>
          match explore g q (descend g q n) pending w with
          | none => none
          | some (result, w) => some (result, w.leave)

def run (g : Graph) (q : Query) (current : Value) (trail : Trail) (polls : Nat) (n : Nat) :
    Option Outcome :=
  let w : Work := { trail, polls }
  let w := w.note (.has current)
  match g.hasNode current with
  | .error fault => some (w.outcome (.error fault))
  | .ok false => some (w.outcome (.error (.nodeNotInGraph current)))
  | .ok true =>
    if !current.hashable then some (w.outcome (.error .unhashable))
    else
      match descend g q n current w with
      | none => none
      | some (result, w) => some (w.outcome result)

end Recursive

inductive Look
  | failed (fault : Fault) (w : Work)
  | passed (w : Work)
  | entered (node : Value) (pending : List Pending) (w : Work)

def look (g : Graph) (q : Query) : Pending → Work → Look
  | .error fault, w => .failed fault w
  | .ok edge, w =>
    if !edge.dst.hashable then .failed .unhashable w
    else if w.trail.hasVisited edge.dst then .passed w
    else
      let w := w.note (.has edge.dst)
      match g.hasNode edge.dst with
      | .error fault => .failed fault w
      | .ok false => .failed (.edgeLeavesGraph edge.src edge.dst) w
      | .ok true =>
        let w := w.enter edge.dst
        if edge.dst.same q.target then
          match q.record w with
          | .error fault => .failed fault w.leave
          | .ok w => .passed w.leave
        else
          match q.expand g edge.dst w with
          | (.error fault, w) => .failed fault w.leave
          | (.ok pending, w) => .entered edge.dst pending w

section

variable (g : Graph) (q : Query)

/-- The recursion over the edges of a node as a derivation, one rule for each way it can go on. -/
inductive Explores : List Pending → Work → Except Fault Unit → Work → Prop
  | nil {w} : Explores [] w (.ok ()) w
  | failed {x rest w fault w'} : look g q x w = .failed fault w' →
      Explores (x :: rest) w (.error fault) w'
  | passed {x rest w w₁ result w'} : look g q x w = .passed w₁ →
      Explores rest w₁ result w' → Explores (x :: rest) w result w'
  | stopped {x rest w node pending w₁ fault w₂} : look g q x w = .entered node pending w₁ →
      q.poll w₁ = (.error fault, w₂) → Explores (x :: rest) w (.error fault) w₂.leave
  | broken {x rest w node pending w₁ w₂ fault w₃} : look g q x w = .entered node pending w₁ →
      q.poll w₁ = (.ok (), w₂) → Explores pending w₂ (.error fault) w₃ →
      Explores (x :: rest) w (.error fault) w₃.leave
  | cancelled {x rest w node pending w₁ w₂ w₃ fault w₄} :
      look g q x w = .entered node pending w₁ → q.poll w₁ = (.ok (), w₂) →
      Explores pending w₂ (.ok ()) w₃ → q.poll w₃.leave = (.error fault, w₄) →
      Explores (x :: rest) w (.error fault) w₄
  | returned {x rest w node pending w₁ w₂ w₃ w₄ result w'} :
      look g q x w = .entered node pending w₁ → q.poll w₁ = (.ok (), w₂) →
      Explores pending w₂ (.ok ()) w₃ → q.poll w₃.leave = (.ok (), w₄) →
      Explores rest w₄ result w' → Explores (x :: rest) w result w'

inductive Descends : Value → Work → Except Fault Unit → Work → Prop
  | full {id w fault} : id.key = q.target.key → q.record (w.enter id) = .error fault →
      Descends id w (.error fault) (w.enter id).leave
  | target {id w w₁} : id.key = q.target.key → q.record (w.enter id) = .ok w₁ →
      Descends id w (.ok ()) w₁.leave
  | closed {id w fault w₁} : id.key ≠ q.target.key →
      q.expand g id (w.enter id) = (.error fault, w₁) → Descends id w (.error fault) w₁.leave
  | stopped {id w pending w₁ fault w₂} : id.key ≠ q.target.key →
      q.expand g id (w.enter id) = (.ok pending, w₁) → q.poll w₁ = (.error fault, w₂) →
      Descends id w (.error fault) w₂.leave
  | explored {id w pending w₁ w₂ result w₃} : id.key ≠ q.target.key →
      q.expand g id (w.enter id) = (.ok pending, w₁) → q.poll w₁ = (.ok (), w₂) →
      Explores g q pending w₂ result w₃ → Descends id w result w₃.leave

end

structure LeadsOn (g : Graph) (edge : Edge) (w : Work) : Prop where
  hashable : edge.dst.hashable = true
  unvisited : edge.dst.key ∉ w.trail.visited
  node : g.hasNode edge.dst = .ok true

section

variable {g : Graph} {q : Query} {edge : Edge} {rest : List Pending} {w w₁ w₂ w' : Work}
  {fault : Fault} {result : Except Fault Unit}

theorem look_of_leadsOn (h : LeadsOn g edge w) :
    look g q (.ok edge) w =
      if edge.dst.same q.target then
        match q.record ((w.note (.has edge.dst)).enter edge.dst) with
        | .error fault => .failed fault ((w.note (.has edge.dst)).enter edge.dst).leave
        | .ok w => .passed w.leave
      else
        match q.expand g edge.dst ((w.note (.has edge.dst)).enter edge.dst) with
        | (.error fault, w) => .failed fault w.leave
        | (.ok pending, w) => .entered edge.dst pending w := by
  simp only [look, h.hashable, Trail.hasVisited_iff, h.unvisited, h.node]
  rfl

theorem Explores.of_descends_error (hedge : LeadsOn g edge w)
    (h : Descends g q edge.dst (w.note (.has edge.dst)) (.error fault) w₁) :
    Explores g q (.ok edge :: rest) w (.error fault) w₁ := by
  have hlook := look_of_leadsOn (q := q) hedge
  cases h with
  | full htarget hrecord => exact .failed (by simp [hlook, htarget, hrecord])
  | closed htarget hexpand => exact .failed (by simp [hlook, htarget, hexpand])
  | stopped htarget hexpand hpoll =>
    simp only [Value.same_iff, htarget, hexpand] at hlook
    exact .stopped hlook hpoll
  | explored htarget hexpand hpoll hexplores =>
    simp only [Value.same_iff, htarget, hexpand] at hlook
    exact .broken hlook hpoll hexplores

theorem Explores.of_descends_target (hedge : LeadsOn g edge w)
    (htarget : edge.dst.key = q.target.key)
    (h : Descends g q edge.dst (w.note (.has edge.dst)) (.ok ()) w₁)
    (hrest : Explores g q rest w₁ result w') :
    Explores g q (.ok edge :: rest) w result w' := by
  have hlook := look_of_leadsOn (q := q) hedge
  cases h with
  | target _ hrecord => exact .passed (by simp [hlook, htarget, hrecord]) hrest
  | explored hother => exact absurd htarget hother

theorem Explores.of_descends_cancelled (hedge : LeadsOn g edge w)
    (htarget : edge.dst.key ≠ q.target.key)
    (h : Descends g q edge.dst (w.note (.has edge.dst)) (.ok ()) w₁)
    (hpoll : q.poll w₁ = (.error fault, w₂)) :
    Explores g q (.ok edge :: rest) w (.error fault) w₂ := by
  have hlook := look_of_leadsOn (q := q) hedge
  cases h with
  | target hsame => exact absurd hsame htarget
  | explored _ hexpand hfirst hexplores =>
    simp only [Value.same_iff, htarget, hexpand] at hlook
    exact .cancelled hlook hfirst hexplores hpoll

theorem Explores.of_descends_ok (hedge : LeadsOn g edge w)
    (htarget : edge.dst.key ≠ q.target.key)
    (h : Descends g q edge.dst (w.note (.has edge.dst)) (.ok ()) w₁)
    (hpoll : q.poll w₁ = (.ok (), w₂)) (hrest : Explores g q rest w₂ result w') :
    Explores g q (.ok edge :: rest) w result w' := by
  have hlook := look_of_leadsOn (q := q) hedge
  cases h with
  | target hsame => exact absurd hsame htarget
  | explored _ hexpand hfirst hexplores =>
    simp only [Value.same_iff, htarget, hexpand] at hlook
    exact .returned hlook hfirst hexplores hpoll hrest

end

namespace Recursive

variable {g : Graph} {q : Query}

theorem explores_of_explore {d : Value → Work → Option (Except Fault Unit × Work)}
    (hd : ∀ id w answer, d id w = some answer → Descends g q id w answer.1 answer.2)
    {pending : List Pending} {w : Work} {answer : Except Fault Unit × Work}
    (h : explore g q d pending w = some answer) : Explores g q pending w answer.1 answer.2 := by
  induction pending generalizing w with
  | nil =>
    cases h
    exact .nil
  | cons x rest ih =>
    cases x with
    | error fault =>
      cases h
      exact .failed rfl
    | ok edge =>
      simp only [explore] at h
      split at h
      · rename_i hhash
        cases h
        exact .failed (by simp only [look, hhash, if_true])
      · rename_i hhash
        split at h
        · rename_i hvisited
          exact .passed (by simp only [look, hhash, hvisited, if_true]; rfl) (ih h)
        · rename_i hvisited
          split at h
          · rename_i hnode
            cases h
            exact .failed (by simp only [look, hhash, hvisited, hnode]; rfl)
          · rename_i hnode
            cases h
            exact .failed (by simp only [look, hhash, hvisited, hnode]; rfl)
          · rename_i hnode
            have hedge : LeadsOn g edge w :=
              ⟨by simpa using hhash, mt (w.trail.hasVisited_iff edge.dst).2 hvisited, hnode⟩
            split at h
            · cases h
            · rename_i hdescend
              cases h
              exact .of_descends_error hedge (hd _ _ _ hdescend)
            · rename_i hdescend
              by_cases htarget : edge.dst.key = q.target.key
              · simp only [Value.same_iff, htarget, if_true] at h
                exact .of_descends_target hedge htarget (hd _ _ _ hdescend) (ih h)
              · simp only [Value.same_iff, htarget, if_false] at h
                split at h
                · cases h
                  exact .of_descends_cancelled hedge htarget (hd _ _ _ hdescend) ‹_›
                · exact .of_descends_ok hedge htarget (hd _ _ _ hdescend) ‹_› (ih h)

theorem descends_of_descend {n : Nat} {id : Value} {w : Work}
    {answer : Except Fault Unit × Work} (h : descend g q n id w = some answer) :
    Descends g q id w answer.1 answer.2 := by
  induction n generalizing id w answer with
  | zero => cases h
  | succ n ih =>
    simp only [descend] at h
    by_cases htarget : id.key = q.target.key
    · simp only [Value.same_iff, htarget, if_true] at h
      split at h
      · cases h
        exact .full htarget ‹_›
      · cases h
        exact .target htarget ‹_›
    · simp only [Value.same_iff, htarget, if_false] at h
      split at h
      · cases h
        exact .closed htarget ‹_›
      · split at h
        · cases h
          exact .stopped htarget ‹_› ‹_›
        · split at h
          · cases h
          · cases h
            exact .explored htarget ‹_› ‹_› (explores_of_explore (fun _ _ _ => ih) ‹_›)

theorem explore_cons (n : Nat) (x : Pending) (rest : List Pending) (w : Work) :
    explore g q (descend g q (n + 1)) (x :: rest) w =
      match look g q x w with
      | .failed fault w => some (.error fault, w)
      | .passed w => explore g q (descend g q (n + 1)) rest w
      | .entered _ pending w =>
        match q.poll w with
        | (.error fault, w) => some (.error fault, w.leave)
        | (.ok (), w) =>
          match explore g q (descend g q n) pending w with
          | none => none
          | some (.error fault, w) => some (.error fault, w.leave)
          | some (.ok (), w) =>
            match q.poll w.leave with
            | (.error fault, w) => some (.error fault, w)
            | (.ok (), w) => explore g q (descend g q (n + 1)) rest w := by
  cases x with
  | error fault => rfl
  | ok edge =>
    rw [explore, look]
    split
    · rfl
    · split
      · rfl
      · dsimp only
        cases hnode : g.hasNode edge.dst with
        | error fault => rfl
        | ok known =>
          cases known with
          | false => rfl
          | true =>
            dsimp only
            rw [descend]
            by_cases htarget : edge.dst.key = q.target.key
            · simp only [Value.same_iff, htarget, if_true]
              cases q.record ((w.note (.has edge.dst)).enter edge.dst) <;> rfl
            · simp only [Value.same_iff, htarget, if_false]
              rcases q.expand g edge.dst ((w.note (.has edge.dst)).enter edge.dst) with
                ⟨_ | pending, w₁⟩
              · rfl
              · dsimp only
                rcases q.poll w₁ with ⟨_ | _, w₂⟩
                · rfl
                · dsimp only
                  rcases explore g q (descend g q n) pending w₂ with _ | ⟨_ | _, w₃⟩ <;> rfl

theorem explore_of_explores {pending : List Pending} {w w' : Work} {result : Except Fault Unit}
    (h : Explores g q pending w result w') :
    ∃ n, ∀ m, explore g q (descend g q (n + m + 1)) pending w = some (result, w') := by
  induction h with
  | nil => exact ⟨0, fun _ => rfl⟩
  | failed hlook => exact ⟨0, fun m => by rw [explore_cons, hlook]⟩
  | passed hlook _ ih =>
    obtain ⟨n, hn⟩ := ih
    exact ⟨n, fun m => by rw [explore_cons, hlook]; exact hn m⟩
  | stopped hlook hpoll => exact ⟨0, fun m => by simp only [explore_cons, hlook, hpoll]⟩
  | broken hlook hpoll _ ih =>
    obtain ⟨n, hn⟩ := ih
    refine ⟨n + 1, fun m => ?_⟩
    rw [Nat.add_right_comm n 1 m]
    simp only [explore_cons, hlook, hpoll, hn m]
  | cancelled hlook hpoll _ hpoll' ih =>
    obtain ⟨n, hn⟩ := ih
    refine ⟨n + 1, fun m => ?_⟩
    rw [Nat.add_right_comm n 1 m]
    simp only [explore_cons, hlook, hpoll, hn m, hpoll']
  | returned hlook hpoll _ hpoll' _ ih ih' =>
    obtain ⟨n, hn⟩ := ih
    obtain ⟨n', hn'⟩ := ih'
    refine ⟨n + 1 + n', fun m => ?_⟩
    have hrest := hn' (n + 1 + m)
    rw [show n' + (n + 1 + m) + 1 = n + (n' + m) + 1 + 1 by omega] at hrest
    rw [show n + 1 + n' + m + 1 = n + (n' + m) + 1 + 1 by omega]
    simp only [explore_cons, hlook, hpoll, hn (n' + m), hpoll', hrest]

theorem descend_of_descends {id : Value} {w w' : Work} {result : Except Fault Unit}
    (h : Descends g q id w result w') : ∃ n, descend g q n id w = some (result, w') := by
  cases h with
  | full htarget hrecord => exact ⟨1, by simp [descend, htarget, hrecord]⟩
  | target htarget hrecord => exact ⟨1, by simp [descend, htarget, hrecord]⟩
  | closed htarget hexpand => exact ⟨1, by simp [descend, htarget, hexpand]⟩
  | stopped htarget hexpand hpoll => exact ⟨1, by simp [descend, htarget, hexpand, hpoll]⟩
  | explored htarget hexpand hpoll hexplores =>
    obtain ⟨n, hn⟩ := explore_of_explores hexplores
    refine ⟨n + 0 + 1 + 1, ?_⟩
    rw [descend]
    simp only [Value.same_iff, htarget, if_false, hexpand, hpoll, hn 0]

end Recursive

@[simp] theorem Work.note_trail (w : Work) (call : Call) : (w.note call).trail = w.trail := rfl

@[simp] theorem Work.enter_trail (w : Work) (id : Value) :
    (w.enter id).trail = w.trail.enter id := rfl

@[simp] theorem Work.leave_trail (w : Work) : w.leave.trail = w.trail.leave := rfl

theorem Query.trail_of_expand {q : Query} {g : Graph} {id : Value} {w w' : Work}
    {answer : Except Fault (List Pending)} (h : q.expand g id w = (answer, w')) :
    w'.trail = w.trail := by
  have htrail := q.expand_trail g id w
  rw [h] at htrail
  exact htrail

theorem Query.trail_of_poll {q : Query} {w w' : Work} {answer : Except Fault Unit}
    (h : q.poll w = (answer, w')) : w'.trail = w.trail := by
  have htrail := q.poll_trail w
  rw [h] at htrail
  exact htrail

def Look.KeepsTrail (t : Trail) : Look → Prop
  | .failed _ w => w.trail = t
  | .passed w => w.trail = t
  | .entered node _ w => w.trail = t.enter node ∧ node.key ∉ t.visited

section
variable {g : Graph} {q : Query}

theorem look_keepsTrail (x : Pending) (w : Work) : (look g q x w).KeepsTrail w.trail := by
  fun_cases look g q x w with
  | case1 | case2 | case3 | case4 | case5 => rfl
  | case6 edge w _ hvisited =>
    exact Trail.leave_enter (mt (w.trail.hasVisited_iff edge.dst).2 hvisited)
  | case7 edge w _ hvisited _ _ _ _ w' hrecord => exact Query.record_leave hrecord rfl hvisited
  | case8 edge w _ hvisited _ _ _ _ _ w' hexpand =>
    change w'.trail.leave = w.trail
    rw [Query.trail_of_expand hexpand]
    exact Trail.leave_enter (mt (w.trail.hasVisited_iff edge.dst).2 hvisited)
  | case9 edge w _ hvisited _ _ _ _ pending w' hexpand =>
    exact ⟨Query.trail_of_expand hexpand, mt (w.trail.hasVisited_iff edge.dst).2 hvisited⟩

theorem trail_of_look_failed {x : Pending} {w w' : Work} {fault : Fault}
    (h : look g q x w = .failed fault w') : w'.trail = w.trail := by
  have hkeeps := look_keepsTrail (g := g) (q := q) x w
  rw [h] at hkeeps
  exact hkeeps

theorem trail_of_look_passed {x : Pending} {w w' : Work}
    (h : look g q x w = .passed w') : w'.trail = w.trail := by
  have hkeeps := look_keepsTrail (g := g) (q := q) x w
  rw [h] at hkeeps
  exact hkeeps

theorem trail_of_look_entered {x : Pending} {w w' : Work} {node : Value} {pending : List Pending}
    (h : look g q x w = .entered node pending w') :
    w'.trail = w.trail.enter node ∧ node.key ∉ w.trail.visited := by
  have hkeeps := look_keepsTrail (g := g) (q := q) x w
  rw [h] at hkeeps
  exact hkeeps

theorem leave_of_look_entered {x : Pending} {w w₁ w₂ : Work} {node : Value} {pending : List Pending}
    (h : look g q x w = .entered node pending w₁) (h₂ : w₂.trail = w₁.trail) :
    w₂.leave.trail = w.trail := by
  obtain ⟨htrail, hnew⟩ := trail_of_look_entered h
  rw [Work.leave_trail, h₂, htrail, Trail.leave_enter hnew]

theorem Explores.trail_eq {pending : List Pending} {w w' : Work} {result : Except Fault Unit}
    (h : Explores g q pending w result w') : w'.trail = w.trail := by
  induction h with
  | nil => rfl
  | failed hlook => exact trail_of_look_failed hlook
  | passed hlook _ ih => rw [ih, trail_of_look_passed hlook]
  | stopped hlook hpoll => exact leave_of_look_entered hlook (Query.trail_of_poll hpoll)
  | broken hlook hpoll _ ih =>
    exact leave_of_look_entered hlook (ih.trans (Query.trail_of_poll hpoll))
  | cancelled hlook hpoll _ hpoll' ih =>
    rw [Query.trail_of_poll hpoll']
    exact leave_of_look_entered hlook (ih.trans (Query.trail_of_poll hpoll))
  | returned hlook hpoll _ hpoll' _ ih ih' =>
    rw [ih', Query.trail_of_poll hpoll']
    exact leave_of_look_entered hlook (ih.trans (Query.trail_of_poll hpoll))

theorem Descends.trail_eq {id : Value} {w w' : Work} {result : Except Fault Unit}
    (h : Descends g q id w result w') (hnew : id.key ∉ w.trail.visited) :
    w'.trail = w.trail := by
  have hleave : ∀ w₁ : Work, w₁.trail = w.trail.enter id → w₁.leave.trail = w.trail := by
    intro w₁ h₁
    rw [Work.leave_trail, h₁, Trail.leave_enter hnew]
  cases h with
  | full => exact hleave _ rfl
  | target _ hrecord => exact hleave _ (Query.record_trail hrecord)
  | closed _ hexpand => exact hleave _ (Query.trail_of_expand hexpand)
  | stopped _ hexpand hpoll =>
    exact hleave _ ((Query.trail_of_poll hpoll).trans (Query.trail_of_expand hexpand))
  | explored _ hexpand hpoll hexplores =>
    apply hleave
    rw [hexplores.trail_eq, Query.trail_of_poll hpoll, Query.trail_of_expand hexpand]
    rfl

end

end FlowPaths.Search
