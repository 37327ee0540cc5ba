import FlowPaths.Search.Machine

/-!
Searches of finite graphs come to an end.  A node is pushed only if it is new to the trail, so at
any time there are fewer nodes to enter than before it was pushed; and a frame that comes back to
the top has fewer edges left than when it was covered.
-/

namespace FlowPaths.Search

def unvisited (keys visited : List Key) : Nat :=
  keys.countP (!visited.contains ·)

theorem unvisited_cons (k : Key) (keys visited : List Key) :
    unvisited (k :: keys) visited =
      unvisited keys visited + if visited.contains k then 0 else 1 := by
  by_cases h : k ∈ visited <;> simp [unvisited, h]

theorem unvisited_insert_le (keys visited : List Key) (k : Key) :
    unvisited keys (visited.insert k) ≤ unvisited keys visited := by
  apply List.countP_mono_left
  intro x _ h
  simp only [Bool.not_eq_true', ← Bool.not_eq_true, List.contains_iff_mem, List.mem_insert_iff,
    not_or] at h ⊢
  exact h.2

theorem unvisited_insert_lt {keys visited : List Key} {k : Key} (hk : k ∈ keys)
    (hv : k ∉ visited) : unvisited keys (visited.insert k) < unvisited keys visited := by
  induction keys with
  | nil => simp at hk
  | cons x xs ih =>
    have hle := unvisited_insert_le xs visited k
    rw [unvisited_cons, unvisited_cons]
    simp only [List.contains_iff_mem, List.mem_insert_iff]
    by_cases hx : x = k
    · subst hx
      simp only [true_or, if_true, hv, if_false]
      omega
    · have := ih (by simpa [Ne.symm hx] using hk)
      simp only [hx, false_or]
      omega

theorem Query.record_trail {q : Query} {w w' : Work} (h : q.record w = .ok w') :
    w'.trail = w.trail := by
  unfold record at h
  split at h
  · simp at h
  · cases h
    rfl

theorem Query.expand_trail (q : Query) (g : Graph) (id : Value) (w : Work) :
    (q.expand g id w).2.trail = w.trail := by
  unfold expand
  split <;> rfl

theorem Query.poll_trail (q : Query) (w : Work) : (q.poll w).2.trail = w.trail := by
  unfold poll
  split
  · rfl
  · dsimp only
    split <;> rfl

theorem Query.record_leave {q : Query} {w w' : Work} {t : Trail} {id : Value}
    (h : q.record w = .ok w') (ht : w.trail = t.enter id) (hv : ¬t.hasVisited id = true) :
    w'.leave.trail = t := by
  simp only [Work.leave, record_trail h, ht]
  exact Trail.leave_enter (mt (t.hasVisited_iff id).2 hv)

theorem scan_eq_dry {g : Graph} {q : Query} {pending : List Pending} {w w' : Work}
    (h : scan g q pending w = .dry w') : w'.trail = w.trail := by
  fun_induction scan g q pending w with
  | case1 => cases h; rfl
  | case4 _ _ _ _ _ ih => exact ih h
  | case8 _ _ _ _ hv _ _ _ _ _ hr ih => rw [ih h, Query.record_leave hr rfl hv]; rfl
  | _ => simp at h

theorem scan_eq_entered {g : Graph} {q : Query} {pending pending' rest : List Pending}
    {w w' : Work} {node : Value} (h : scan g q pending w = .entered node pending' rest w') :
    w'.trail = w.trail.enter node ∧ node.key ∉ w.trail.visited ∧ g.hasNode node = .ok true ∧
      rest.length < pending.length := by
  fun_induction scan g q pending w with
  | case4 _ _ _ _ _ ih =>
    obtain ⟨htrail, hv, hnode, hlen⟩ := ih h
    exact ⟨htrail, hv, hnode, Nat.lt_succ_of_lt hlen⟩
  | case8 _ _ _ _ hv _ _ _ _ _ hr ih =>
    obtain ⟨htrail, hnew, hnode, hlen⟩ := ih h
    rw [Query.record_leave hr rfl hv] at htrail hnew
    exact ⟨htrail, hnew, hnode, Nat.lt_succ_of_lt hlen⟩
  | case10 edge rest w _ hv _ hn w₂ _ _ w₃ he =>
    cases h
    have htrail := Query.expand_trail q g edge.dst w₂
    rw [he] at htrail
    exact ⟨htrail, mt (w.trail.hasVisited_iff edge.dst).2 hv, hn, by simp⟩
  | _ => simp at h

theorem halts_cons {g : Graph} {keys : List Key} (hg : g.SupportedBy keys) (q : Query)
    (depth : Nat) (u n : Nat) (frame : Frame) (frames : List Frame) (w : Work)
    (hu : unvisited keys w.trail.visited ≤ u) (hn : frame.pending.length ≤ n)
    (hrest : ∀ w' : Work, w'.trail = w.trail.leave → Halts (turn g q depth) ⟨frames, w'⟩) :
    Halts (turn g q depth) ⟨frame :: frames, w⟩ := by
  induction u using Nat.strongRecOn generalizing n frame frames w with
  | ind u ihu =>
    induction n using Nat.strongRecOn generalizing frame w with
    | ind n ihn =>
      refine Halts.intro fun s hs => ?_
      have hpoll := q.poll_trail w
      simp only [turn] at hs
      split at hs
      · cases hs
      · rename_i w₁ hp
        have hpoll : w₁.trail = w.trail := by rw [hp] at hpoll; exact hpoll
        split at hs
        · cases hs
        · rename_i w₂ hscan
          cases hs
          refine hrest _ ?_
          simp only [Work.leave, scan_eq_dry hscan, hpoll]
        · rename_i node pending rest w₂ hscan
          cases hs
          obtain ⟨htrail, hv, hnode, hlen⟩ := scan_eq_entered hscan
          rw [hpoll] at htrail hv
          have hlt : unvisited keys w₂.trail.visited < u := by
            rw [htrail]
            exact Nat.lt_of_lt_of_le (unvisited_insert_lt (hg _ hnode) hv) hu
          refine ihu _ hlt pending.length ⟨node, pending⟩ _ w₂ (Nat.le_refl _) (Nat.le_refl _)
            fun w₃ h₃ => ?_
          have h₃ : w₃.trail = w.trail := by rw [h₃, htrail, Trail.leave_enter hv]
          refine ihn rest.length (Nat.lt_of_lt_of_le hlen hn) _ w₃ (by rw [h₃]; exact hu)
            (Nat.le_refl _) fun w₄ h₄ => ?_
          exact hrest w₄ (by rw [h₄, h₃])

theorem halts_turn {g : Graph} {keys : List Key} (hg : g.SupportedBy keys) (q : Query)
    (depth : Nat) (s : State) : Halts (turn g q depth) s := by
  obtain ⟨frames, w⟩ := s
  induction frames generalizing w with
  | nil => exact Halts.intro fun s hs => by simp [turn] at hs
  | cons frame frames ih =>
    exact halts_cons hg q depth _ _ frame frames w (Nat.le_refl _) (Nat.le_refl _)
      fun w' _ => ih w'

def Ends (g : Graph) (q : Query) (current : Value) (w : Work) : Prop :=
  ∀ s, start g q current w = .next s → Halts (turn g q w.trail.path.length) s

/-- Every simple path from `current` to the target of the query that extends the given trail.  The
check counts its calls from `polls` on. -/
def run (g : Graph) (q : Query) (current : Value) (trail : Trail) (polls : Nat)
    (ends : Ends g q current { trail, polls }) : Outcome :=
  match hs : start g q current { trail, polls } with
  | .done outcome => outcome
  | .next s => iterate (turn g q trail.path.length) s (ends s hs)

section

variable {g : Graph} {q : Query} {current : Value} {trail : Trail} {polls : Nat}
  (ends : Ends g q current { trail, polls })

theorem run_of_done {o : Outcome} (h : start g q current { trail, polls } = .done o) :
    run g q current trail polls ends = o := by
  unfold run
  split
  · rename_i o' ho'
    exact Turn.done.inj (ho'.symm.trans h)
  · rename_i s hs
    cases hs.symm.trans h

theorem run_of_next {s : State} (h : start g q current { trail, polls } = .next s) :
    run g q current trail polls ends = iterate _ s (ends s h) := by
  unfold run
  split
  · rename_i o ho
    cases ho.symm.trans h
  · rename_i s' hs'
    cases hs'.symm.trans h
    rfl

end

theorem run_induction {g : Graph} {q : Query} {current : Value} {trail : Trail} {polls : Nat}
    {I : State → Prop} {Q : Outcome → Prop} (ends : Ends g q current { trail, polls })
    (hstart : (start g q current { trail, polls }).Holds I Q)
    (hturn : ∀ s, I s → (turn g q trail.path.length s).Holds I Q) :
    Q (run g q current trail polls ends) := by
  cases hs : start g q current { trail, polls } with
  | done o =>
    rw [hs] at hstart
    rw [run_of_done ends hs]
    exact hstart
  | next s =>
    rw [hs] at hstart
    rw [run_of_next ends hs]
    exact iterate_induction hturn _ hstart

end FlowPaths.Search

namespace FlowPaths

theorem FiniteGraph.ends (g : FiniteGraph) (q : Search.Query) (current : Value) (w : Search.Work) :
    Search.Ends g.toGraph q current w :=
  fun s _ => g.finite.elim fun _ hg => Search.halts_turn hg q w.trail.path.length s

end FlowPaths
