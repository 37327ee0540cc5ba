import Mathlib
import FlowPaths.Proofs.Search.Recursion

/-!
What one turn of a search can do.  If the loop goes on, either the top frame has been left, or a new
node has been entered behind one of its edges.  Whatever holds at the head of every turn, or goes
down with every turn, is read off these two moves.
-/

namespace FlowPaths

section

variable {σ ο : Type} {turn : σ → Turn σ ο}

/-- The loop that begins with `first` is at the head of a turn, in the state given, after so many
turns. -/
inductive Passes (turn : σ → Turn σ ο) (first : Turn σ ο) : Nat → σ → Prop
  | first {s} : first = .next s → Passes turn first 0 s
  | next {n s s'} : Passes turn first n s → turn s = .next s' → Passes turn first (n + 1) s'

theorem Halts.exists_passes {first : Turn σ ο} {n : Nat} {s : σ} (h : Halts turn s)
    (hs : Passes turn first n s) : ∃ n s o, Passes turn first n s ∧ turn s = .done o := by
  induction (h : Acc _ s) generalizing n with
  | intro s _ ih =>
    cases hturn : turn s with
    | done o => exact ⟨n, s, o, hs, hturn⟩
    | next s' => exact ih s' hturn (hs.next hturn)

end

namespace Search

variable {g : Graph} {q : Query} {depth : Nat}

inductive Query.Offers (q : Query) (g : Graph) (length : Nat) (id : Value) : List Pending → Prop
  | deep : q.isDeep length = true → Offers q g length id []
  | asked {edges} : q.isDeep length = false → g.outEdges id = .ok edges → Offers q g length id edges

theorem Query.offers_of_expand {id : Value} {w w' : Work} {pending : List Pending}
    (h : q.expand g id w = (.ok pending, w')) : q.Offers g w'.trail.path.length id pending := by
  rw [trail_of_expand h]
  unfold expand at h
  split at h
  · rename_i hdeep
    cases h
    exact .deep hdeep
  · rename_i hdeep
    exact .asked (Bool.eq_false_iff.2 hdeep) (Prod.mk.inj h).1

theorem edge_of_scan_entered {pending pending' rest : List Pending} {w w' : Work} {node : Value}
    (h : scan g q pending w = .entered node pending' rest w') :
    (∃ before edge, pending = before ++ .ok edge :: rest ∧ edge.dst = node) ∧
      node.key ≠ q.target.key ∧ q.Offers g w'.trail.path.length node pending' := by
  fun_induction scan g q pending w with
  | case4 edge _ _ _ _ ih | case8 edge _ _ _ _ _ _ _ _ _ _ ih =>
    obtain ⟨⟨before, edge', rfl, hdst⟩, hnode⟩ := ih h
    exact ⟨⟨.ok edge :: before, edge', rfl, hdst⟩, hnode⟩
  | case10 edge rest w _ _ _ _ _ htarget _ _ hexpand =>
    cases h
    exact ⟨⟨[], edge, rfl, rfl⟩, mt (Value.same_iff _ _).2 htarget, Query.offers_of_expand hexpand⟩
  | _ => cases h

inductive Moves (g : Graph) (q : Query) : State → State → Prop
  | leave {frame frames} {w w' : Work} :
      w'.trail = w.trail.leave → Moves g q ⟨frame :: frames, w⟩ ⟨frames, w'⟩
  | enter {node before rest pending frames} {edge : Edge} {w w' : Work} :
      g.hasNode edge.dst = .ok true → edge.dst.key ∉ w.trail.visited →
      edge.dst.key ≠ q.target.key → w'.trail = w.trail.enter edge.dst →
      q.Offers g w'.trail.path.length edge.dst pending →
      Moves g q ⟨⟨node, before ++ .ok edge :: rest⟩ :: frames, w⟩
        ⟨⟨edge.dst, pending⟩ :: ⟨node, rest⟩ :: frames, w'⟩

theorem moves_of_turn {s s' : State} (h : turn g q depth s = .next s') : Moves g q s s' := by
  obtain ⟨frames, w⟩ := s
  cases frames with
  | nil => cases h
  | cons frame frames =>
    obtain ⟨node, edges⟩ := frame
    rcases hpoll : q.poll w with ⟨_ | _, w₁⟩
    · simp only [turn, hpoll] at h
      cases h
    have htrail := Query.trail_of_poll hpoll
    simp only [turn, hpoll] at h
    split at h
    · cases h
    · rename_i w₂ hscan
      cases h
      refine .leave ?_
      simp only [Work.leave, scan_eq_dry hscan, htrail]
    · rename_i hscan
      cases h
      obtain ⟨hentered, hnew, hnode, -⟩ := scan_eq_entered hscan
      obtain ⟨⟨before, edge, rfl, rfl⟩, htarget, hoffers⟩ := edge_of_scan_entered hscan
      rw [htrail] at hentered hnew
      exact .enter hnode hnew htarget hentered hoffers

inductive Begins (g : Graph) (q : Query) (current : Value) (trail : Trail) : State → Prop
  | intro {pending} {w : Work} : g.hasNode current = .ok true → current.key ≠ q.target.key →
      w.trail = trail.enter current → q.Offers g w.trail.path.length current pending →
      Begins g q current trail ⟨[⟨current, pending⟩], w⟩

theorem begins_of_start {current : Value} {w : Work} {s : State}
    (h : start g q current w = .next s) : Begins g q current w.trail s := by
  unfold start at h
  dsimp only at h
  split at h
  · cases h
  · cases h
  · rename_i hnode
    split at h
    · cases h
    split at h
    · split at h <;> cases h
    · rename_i htarget
      split at h
      · cases h
      · rename_i hexpand
        cases h
        exact .intro hnode (mt (Value.same_iff _ _).2 htarget) (Query.trail_of_expand hexpand)
          (Query.offers_of_expand hexpand)

theorem turn_eq_done {s : State} {o : Outcome} (h : turn g q depth s = .done o) :
    s.frames = [] ∨ ∃ fault, ∃ w : Work, o = w.finish depth (.error fault) := by
  unfold turn at h
  split at h
  · rename_i hframes
    exact .inl hframes
  · split at h
    · cases h
      exact .inr ⟨_, _, rfl⟩
    · split at h
      · cases h
        exact .inr ⟨_, _, rfl⟩
      · cases h
      · cases h

end Search

end FlowPaths
