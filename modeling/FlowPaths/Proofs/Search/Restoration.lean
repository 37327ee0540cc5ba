import Mathlib
import FlowPaths.Enumeration
import FlowPaths.Proofs.Search.Simulation

/-!
A search gives its trail back.  It enters only nodes that are new to the trail, so whatever it takes
off again, after a target, with a frame or when it is over, is what it has put there itself.
-/

namespace FlowPaths

namespace Trail

/-- The nodes, the last one first, have been entered one after another, each of them when it was not
visited. -/
inductive Extends (t : Trail) : List Value → Trail → Prop
  | refl : Extends t [] t
  | enter {nodes t' id} : Extends t nodes t' → id.key ∉ t'.visited →
      Extends t (id :: nodes) (t'.enter id)

namespace Extends

variable {t t' : Trail} {nodes : List Value} {id : Value}

theorem path_eq (h : t.Extends nodes t') : t'.path = t.path ++ nodes.reverse := by
  induction h with
  | refl => simp
  | enter _ _ ih => simp [Trail.enter, ih]

theorem leave (h : t.Extends (id :: nodes) t') : t.Extends nodes t'.leave := by
  cases h with
  | enter h hnew =>
    rw [leave_enter hnew]
    exact h

theorem unwindTo (h : t.Extends nodes t') : t'.unwindTo t.path.length = t := by
  induction h with
  | refl => exact t.unwindTo_length
  | @enter nodes t' id h hnew ih =>
    have hlt : t.path.length < (t'.enter id).path.length := by
      simp only [Trail.enter, h.path_eq, List.length_append, List.length_singleton]
      omega
    rw [← unwindTo_leave hlt, leave_enter hnew, ih]

end Extends

end Trail

namespace Search

variable {g : Graph} {q : Query} {t : Trail}

theorem scan_eq_failed {pending : List Pending} {w w' : Work} {fault : Fault}
    (h : scan g q pending w = .failed fault w') :
    w'.trail = w.trail ∨ ∃ id : Value, id.key ∉ w.trail.visited ∧ w'.trail = w.trail.enter id := by
  fun_induction scan g q pending w with
  | case1 => cases h
  | case2 | case3 | case5 | case6 =>
    injection h with _ hw
    rw [← hw]
    exact .inl rfl
  | case4 edge rest w _ _ ih => exact ih h
  | case7 edge rest w _ hvisited =>
    injection h with _ hw
    rw [← hw]
    exact .inr ⟨edge.dst, mt (w.trail.hasVisited_iff edge.dst).2 hvisited, rfl⟩
  | case8 edge rest w _ hvisited _ _ _ _ w₁ hrecord ih =>
    have htrail : w₁.leave.trail = w.trail := Query.record_leave hrecord rfl hvisited
    rw [← htrail]
    exact ih h
  | case9 edge rest w _ hvisited _ _ _ _ fault w₁ hexpand =>
    cases h
    exact .inr ⟨edge.dst, mt (w.trail.hasVisited_iff edge.dst).2 hvisited,
      Query.trail_of_expand hexpand⟩
  | case10 => cases h

def State.Extends (t : Trail) (s : State) : Prop :=
  t.Extends (s.frames.map Frame.node) s.work.trail

theorem Work.trail_finish {w : Work} {nodes : List Value} (h : t.Extends nodes w.trail)
    (result : Except Fault (List Path)) : (w.finish t.path.length result).trail = t :=
  h.unwindTo

theorem turn_extends {s : State} (h : s.Extends t) :
    (turn g q t.path.length s).Holds (State.Extends t) fun o => o.trail = t := by
  obtain ⟨frames, w⟩ := s
  cases frames with
  | nil => exact Work.trail_finish h _
  | cons frame frames =>
    rcases hpoll : q.poll w with ⟨_ | _, w₁⟩
    · rw [turn_of_poll_error hpoll]
      apply Work.trail_finish
      rw [Query.trail_of_poll hpoll]
      exact h
    · have h₁ : t.Extends (frame.node :: frames.map Frame.node) w₁.trail := by
        rw [Query.trail_of_poll hpoll]
        exact h
      rw [turn_of_poll_ok hpoll, resume]
      cases hscan : scan g q frame.pending w₁ with
      | failed fault w₂ =>
        obtain htrail | ⟨id, hnew, htrail⟩ := scan_eq_failed hscan
        · exact Work.trail_finish (htrail ▸ h₁) _
        · exact Work.trail_finish (htrail ▸ h₁.enter hnew) _
      | dry w₂ =>
        rw [← scan_eq_dry hscan] at h₁
        exact h₁.leave
      | entered node pending rest w₂ =>
        obtain ⟨htrail, hnew, _⟩ := scan_eq_entered hscan
        simp only [Turn.Holds, State.Extends, List.map_cons, htrail]
        exact h₁.enter hnew

theorem start_extends {current : Value} (hnew : current.key ∉ t.visited) (polls : Nat) :
    (start g q current { trail := t, polls }).Holds (State.Extends t) fun o => o.trail = t := by
  have hentered : t.Extends [current] (t.enter current) := .enter .refl hnew
  unfold start
  dsimp only
  split
  · exact Work.trail_finish .refl _
  · exact Work.trail_finish .refl _
  · split
    · exact Work.trail_finish .refl _
    · split
      · split
        · exact Work.trail_finish hentered _
        · rename_i hrecord
          apply Work.trail_finish
          rw [Query.record_trail hrecord]
          exact hentered
      · split
        · rename_i hexpand
          apply Work.trail_finish
          rw [Query.trail_of_expand hexpand]
          exact hentered
        · rename_i hexpand
          simp only [Turn.Holds, State.Extends, Query.trail_of_expand hexpand]
          exact hentered

theorem run_trail {current : Value} (hnew : current.key ∉ t.visited) {polls : Nat}
    (ends : Ends g q current { trail := t, polls }) : (run g q current t polls ends).trail = t :=
  run_induction ends (start_extends hnew polls) fun _ => turn_extends

end Search

namespace Enumerator

/-- Whatever graph is searched under whatever bounds, and whether the search returns or fails, the
trail that it was given is as it was, and so are the results of the last run. -/
theorem search_restores {e : Enumerator} {g : Graph} {current target : Value} {trail : Trail}
    (hnew : current.key ∉ trail.visited)
    (ends : Search.Ends g (e.config.query target 0) current { trail, polls := e.polls }) :
    (e.search g current target trail ends).2.trail = trail ∧
      (e.search g current target trail ends).1.paths = e.paths ∧
      (e.search g current target trail ends).1.pairResults = e.pairResults :=
  ⟨Search.run_trail hnew ends, rfl, rfl⟩

/-- The route given has the first node on it already and ends in a value that is no node at all; the
visited nodes are other ones.  The search fails two nodes further on. -/
theorem searchOn_cyclic_restores :
    let e : Enumerator :=
      { sources := .list [], sinks := .list [], config := { maxDepth := some (.int 5) },
        paths := [[.text "P"]], pairResults := [⟨.text "P", .text "P", [[.text "P"]]⟩] }
    let trail : Trail :=
      { path := [.text "A", .list []], visited := [Value.key (.text "Q"), Value.key (.int 1)] }
    let answer := e.searchOn Search.cyclic.toGraph (.text "A") (.text "C") trail
    Value.key (.text "A") ∉ trail.visited ∧
      answer.2.result = .error (.edgeLeavesGraph (.text "B") (.text "Z")) ∧
      answer.2.trail = trail ∧ answer.1.paths = e.paths ∧
      answer.1.pairResults = e.pairResults := by
  intro e trail answer
  have hfails : answer.2.result = .error (.edgeLeavesGraph (.text "B") (.text "Z")) := by
    subst answer trail e
    cbv
  exact ⟨by decide, hfails, search_restores (by decide) _⟩

end Enumerator

end FlowPaths
