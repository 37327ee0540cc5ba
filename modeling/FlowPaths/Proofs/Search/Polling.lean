import Mathlib.Data.Set.Card
import FlowPaths.Proofs.Search.Bounds

/-!
How often a search asks its check.  Every node that it enters costs two questions, one before the
edges out of the node are looked at and one after the node was left; for the first node there is no
second one.  The nodes entered are those that the routes from the first one end in, as long as these
come back to no node and keep away from the target.
-/

namespace FlowPaths.Search

section

variable (g : Graph) (q : Query)

/-- The recursion over the edges of a node when nothing cuts it short.  It enters `n` nodes. -/
inductive Tours : List Pending → Work → Nat → Work → Prop
  | nil {w} : Tours [] w 0 w
  | passed {x rest w w₁ n w'} : look g q x w = .passed w₁ → Tours rest w₁ n w' →
      Tours (x :: rest) w n w'
  | returned {x rest w node pending w₁ m w₂ n w'} : look g q x w = .entered node pending w₁ →
      Tours pending w₁ m w₂ → Tours rest w₂.leave n w' → Tours (x :: rest) w (m + 1 + n) w'

end

theorem Explores.tours {g : Graph} {q : Query} (hcheck : q.check = none) {pending : List Pending}
    {w w' : Work} (h : Explores g q pending w (.ok ()) w') : ∃ n, Tours g q pending w n w' := by
  have hgoes := Query.poll_of_no_check hcheck
  generalize hresult : (Except.ok () : Except Fault Unit) = result at h
  induction h with
  | nil => exact ⟨0, .nil⟩
  | failed => cases hresult
  | passed hlook _ ih =>
    obtain ⟨n, hn⟩ := ih hresult
    exact ⟨n, .passed hlook hn⟩
  | stopped => cases hresult
  | broken => cases hresult
  | cancelled => cases hresult
  | returned hlook hpoll _ hpoll' _ ih ih' =>
    rw [hgoes] at hpoll hpoll'
    cases hpoll
    cases hpoll'
    obtain ⟨m, hm⟩ := ih rfl
    obtain ⟨n, hn⟩ := ih' hresult
    exact ⟨m + 1 + n, .returned hlook hm hn⟩

structure Query.Asks (q : Query) (answers : Nat → Bool) : Prop where
  maxPaths : q.maxPaths = none
  check : q.check = some fun i => .ok (answers i)

namespace Query.Asks

variable {q : Query} {answers : Nat → Bool} (h : q.Asks answers) {w : Work}

include h

theorem poll_of_false (hanswer : answers w.polls = false) :
    q.poll w = (.ok (), { w with polls := w.polls + 1 }) := by
  simp only [poll, h.check, hanswer]

theorem poll_of_true (hanswer : answers w.polls = true) :
    q.poll w = (.error .cancelled, { w with polls := w.polls + 1 }) := by
  simp only [poll, h.check, hanswer]

theorem isFull_eq (n : Nat) : q.isFull n = false := by
  rw [isFull, h.maxPaths]
  rfl

end Query.Asks

section

variable {g : Graph} {q q' : Query}

theorem Query.polls_of_record {w w' : Work} (h : q.record w = .ok w') : w'.polls = w.polls := by
  unfold record at h
  split at h
  · cases h
  · cases h
    rfl

theorem Query.polls_of_expand {id : Value} {w w' : Work} {answer : Except Fault (List Pending)}
    (h : q.expand g id w = (answer, w')) : w'.polls = w.polls := by
  unfold expand at h
  split at h <;> cases h <;> rfl

theorem polls_look (x : Pending) (w : Work) : (look g q x w).work.polls = w.polls := by
  fun_cases look g q x w with
  | case1 | case2 | case3 | case4 | case5 | case6 => rfl
  | case7 edge w _ _ _ _ w₁ _ w' h =>
    have hpolls := Query.polls_of_record h
    exact hpolls
  | case8 edge w _ _ _ _ w₁ _ _ w' h =>
    have hpolls := Query.polls_of_expand h
    exact hpolls
  | case9 edge w _ _ _ _ w₁ _ _ w' h =>
    have hpolls := Query.polls_of_expand h
    exact hpolls

theorem polls_of_look {x : Pending} {w : Work} {l : Look} (h : look g q x w = l) :
    l.work.polls = w.polls := by
  rw [← h]
  exact polls_look x w

theorem look_passed_again (haim : q.SameAim q') (hfull : ∀ n, q'.isFull n = false) {x : Pending}
    {w w₁ v : Work} (hlook : look g q x w = .passed w₁) (hmatch : w.Matches v) :
    ∃ v₁, look g q' x v = .passed v₁ ∧ w₁.Matches v₁ := by
  have hfollows := look_follows (g := g) haim x hmatch
  rw [hlook] at hfollows
  generalize look g q' x v = l at hfollows ⊢
  cases hfollows with
  | passed hmatch₁ => exact ⟨_, rfl, hmatch₁⟩
  | overtaken hfull' =>
    rw [hfull] at hfull'
    cases hfull'

end

/-- A computation that leads to the work `w` without a check is done `again` with one that was asked
`polls` times before, and asks it `cost` times; or it is cancelled at the first answer that says
so. -/
structure Asked (answers : Nat → Bool) (cost : Nat) (w : Work) (polls : Nat)
    (again : Except Fault Unit → Work → Prop) : Prop where
  whole : (∀ i < cost, answers (polls + i) = false) →
    ∃ v, again (.ok ()) v ∧ w.Matches v ∧ v.polls = polls + cost
  stopped : ∀ k < cost, (∀ i < k, answers (polls + i) = false) → answers (polls + k) = true →
    ∃ v, again (.error .cancelled) v ∧ v.polls = polls + (k + 1)

namespace Asked

variable {answers : Nat → Bool} {cost polls : Nat} {w : Work}
  {again again' : Except Fault Unit → Work → Prop}

theorem nothing {v : Work} (h : again (.ok ()) v) (hmatch : w.Matches v)
    (hpolls : v.polls = polls) :
    Asked answers 0 w polls again :=
  ⟨fun _ => ⟨v, h, hmatch, hpolls⟩, fun k hk => absurd hk (Nat.not_lt_zero k)⟩

theorem imp (h : Asked answers cost w polls again)
    (himp : ∀ result v, again result v → again' result v) : Asked answers cost w polls again' where
  whole hgo := by
    obtain ⟨v, hagain, hrest⟩ := h.whole hgo
    exact ⟨v, himp _ v hagain, hrest⟩
  stopped k hk hgo hstop := by
    obtain ⟨v, hagain, hpolls⟩ := h.stopped k hk hgo hstop
    exact ⟨v, himp _ v hagain, hpolls⟩

theorem leave (h : Asked answers cost w polls again)
    (hleave : ∀ result v, again result v → again' result v.leave) :
    Asked answers cost w.leave polls again' where
  whole hgo := by
    obtain ⟨v, hagain, hmatch, hpolls⟩ := h.whole hgo
    exact ⟨v.leave, hleave _ v hagain, hmatch.leave, hpolls⟩
  stopped k hk hgo hstop := by
    obtain ⟨v, hagain, hpolls⟩ := h.stopped k hk hgo hstop
    exact ⟨v.leave, hleave _ v hagain, hpolls⟩

theorem ask (hstop : answers polls = true → ∃ v, again (.error .cancelled) v ∧ v.polls = polls + 1)
    (hgo : answers polls = false → Asked answers cost w (polls + 1) again) :
    Asked answers (1 + cost) w polls again where
  whole hall := by
    have hlater : ∀ i < cost, answers (polls + 1 + i) = false := by
      intro i hi
      rw [Nat.add_assoc]
      exact hall (1 + i) (by omega)
    obtain ⟨v, hagain, hmatch, hpolls⟩ := (hgo (hall 0 (by omega))).whole hlater
    exact ⟨v, hagain, hmatch, by omega⟩
  stopped k hk hbefore hat := by
    cases k with
    | zero => exact hstop hat
    | succ k =>
      have hlater : ∀ i < k, answers (polls + 1 + i) = false := by
        intro i hi
        rw [Nat.add_assoc]
        exact hbefore (1 + i) (by omega)
      have hat' : answers (polls + 1 + k) = true := by
        rw [Nat.add_assoc, Nat.add_comm 1 k]
        exact hat
      obtain ⟨v, hagain, hpolls⟩ :=
        (hgo (hbefore 0 (Nat.succ_pos k))).stopped k (by omega) hlater hat'
      exact ⟨v, hagain, by omega⟩

theorem andThen {first : Except Fault Unit → Work → Prop} {w₁ : Work} {cost₁ : Nat}
    (h : Asked answers cost₁ w₁ polls first)
    (hfail : ∀ v, first (.error .cancelled) v →
      ∃ v', again (.error .cancelled) v' ∧ v'.polls = v.polls)
    (hgo : ∀ v, first (.ok ()) v → w₁.Matches v → v.polls = polls + cost₁ →
      Asked answers cost w (polls + cost₁) again) :
    Asked answers (cost₁ + cost) w polls again where
  whole hall := by
    obtain ⟨v, hfirst, hmatch, hpolls⟩ := h.whole fun i hi => hall i (by omega)
    have hlater : ∀ i < cost, answers (polls + cost₁ + i) = false := by
      intro i hi
      rw [Nat.add_assoc]
      exact hall (cost₁ + i) (by omega)
    obtain ⟨v', hagain, hmatch', hpolls'⟩ := (hgo v hfirst hmatch hpolls).whole hlater
    exact ⟨v', hagain, hmatch', by omega⟩
  stopped k hk hbefore hat := by
    by_cases hfirst : k < cost₁
    · obtain ⟨v, hv, hpolls⟩ := h.stopped k hfirst hbefore hat
      obtain ⟨v', hagain, hpolls'⟩ := hfail v hv
      exact ⟨v', hagain, hpolls'.trans hpolls⟩
    · obtain ⟨j, rfl⟩ := Nat.exists_eq_add_of_le (Nat.le_of_not_lt hfirst)
      obtain ⟨v, hv, hmatch, hpolls⟩ := h.whole fun i hi => hbefore i (by omega)
      have hlater : ∀ i < j, answers (polls + cost₁ + i) = false := by
        intro i hi
        rw [Nat.add_assoc]
        exact hbefore (cost₁ + i) (by omega)
      rw [← Nat.add_assoc] at hat
      obtain ⟨v', hagain, hpolls'⟩ := (hgo v hv hmatch hpolls).stopped j (by omega) hlater hat
      exact ⟨v', hagain, by omega⟩

end Asked

section

variable {g : Graph} {q q' : Query} {answers : Nat → Bool}

theorem Tours.asked (haim : q.SameAim q') (hasks : q'.Asks answers) {pending : List Pending}
    {w w' v : Work} {n : Nat} (h : Tours g q pending w n w') (hmatch : w.Matches v) :
    Asked answers (2 * n) w' v.polls (Explores g q' pending v) := by
  induction h generalizing v with
  | nil => exact .nothing .nil hmatch rfl
  | passed hlook _ ih =>
    obtain ⟨v₁, hlook', hmatch₁⟩ := look_passed_again haim hasks.isFull_eq hlook hmatch
    have hpolls : v₁.polls = v.polls := polls_of_look hlook'
    rw [← hpolls]
    exact (ih hmatch₁).imp fun _ _ => .passed hlook'
  | @returned x rest w node pending w₁ m w₂ n w' hlook _ _ ih ih' =>
    obtain ⟨v₁, hlook', hmatch₁⟩ := look_entered_again haim hlook hmatch
    have hpolls : v₁.polls = v.polls := polls_of_look hlook'
    rw [show 2 * (m + 1 + n) = 1 + (2 * m + (1 + 2 * n)) by omega, ← hpolls]
    apply Asked.ask
    · intro hstop
      exact ⟨_, .stopped hlook' (hasks.poll_of_true hstop), rfl⟩
    · intro hgo
      have hpoll := hasks.poll_of_false hgo
      have hbelow := ih (v := { v₁ with polls := v₁.polls + 1 }) ⟨hmatch₁.trail, hmatch₁.found⟩
      apply hbelow.andThen
      · intro v₃ hexplores
        exact ⟨_, .broken hlook' hpoll hexplores, rfl⟩
      · intro v₃ hexplores hmatch₃ hpolls₃
        rw [← hpolls₃]
        apply Asked.ask
        · intro hstop
          exact ⟨_, .cancelled hlook' hpoll hexplores (hasks.poll_of_true hstop), rfl⟩
        · intro hgo'
          have hpoll' := hasks.poll_of_false (w := v₃.leave) hgo'
          have hlater := ih' (v := { v₃.leave with polls := v₃.polls + 1 })
            ⟨hmatch₃.leave.trail, hmatch₃.leave.found⟩
          exact hlater.imp fun _ _ => .returned hlook' hpoll hexplores hpoll'

end

/-- The nodes may follow the trail and keep away from the target: none comes twice or, but for the
first, was visited, and no way on is cut off by the depth bound. -/
structure Query.Skirts (q : Query) (t : Trail) (p : Path) : Prop where
  nodup : (p.map Value.key).Nodup
  unvisited : ∀ v ∈ p.tail, v.key ∉ t.visited
  avoids : ∀ v ∈ p, v.key ≠ q.target.key
  shallow : ∀ n, t.path.length < n → n < t.path.length + p.length → q.isDeep n = false

def Query.roams (q : Query) (g : Graph) (t : Trail) (v : Value) : Set (List Nat) :=
  {r | ∃ p, g.follow v r = some p ∧ q.Skirts t p}

def Query.roamsBeyond (q : Query) (g : Graph) (t : Trail) (v : Value) (k : Nat) : Set (List Nat) :=
  {r | q.isDeep t.path.length = false ∧ ∃ i e s, r = i :: s ∧ k ≤ i ∧ (g.edgesOut v)[i]? = some e ∧
    e.dst.key ∉ t.visited ∧ s ∈ q.roams g t e.dst}

section

variable {g : Graph} {q : Query} {t : Trail} {v : Value} {k : Nat}

theorem Query.skirts_singleton : q.Skirts t [v] ↔ v.key ≠ q.target.key := by
  constructor
  · intro h
    exact h.avoids v (List.mem_singleton_self v)
  · intro hne
    refine ⟨by simp, by simp, by simpa using hne, ?_⟩
    intro n hlt hle
    rw [List.length_singleton] at hle
    omega

theorem Query.skirts_cons {u : Value} {p : Path} : q.Skirts t (v :: u :: p) ↔
    v.key ≠ q.target.key ∧ q.isDeep (t.enter v).path.length = false ∧
      u.key ∉ (t.enter v).visited ∧ q.Skirts (t.enter v) (u :: p) := by
  constructor
  · intro h
    have hnodup := h.nodup
    rw [List.map_cons, List.nodup_cons] at hnodup
    obtain ⟨hne, havoids⟩ := List.forall_mem_cons.1 h.avoids
    obtain ⟨hnew, hunvisited⟩ := List.forall_mem_cons.1
      (Trail.unvisited_enter.2 ⟨hnodup.1, h.unvisited⟩)
    obtain ⟨hdeep, hshallow⟩ := shallow_enter.1 h.shallow
    exact ⟨hne, hdeep, hnew, hnodup.2, hunvisited, havoids, hshallow⟩
  · rintro ⟨hne, hdeep, hnew, h⟩
    obtain ⟨hother, hunvisited⟩ :=
      Trail.unvisited_enter.1 (List.forall_mem_cons.2 ⟨hnew, h.unvisited⟩)
    refine ⟨?_, hunvisited, List.forall_mem_cons.2 ⟨hne, h.avoids⟩,
      shallow_enter.2 ⟨hdeep, h.shallow⟩⟩
    rw [List.map_cons, List.nodup_cons]
    exact ⟨hother, h.nodup⟩

theorem Query.nil_mem_roams : [] ∈ q.roams g t v ↔ v.key ≠ q.target.key := by
  rw [← skirts_singleton (t := t)]
  constructor
  · rintro ⟨p, hp, hskirts⟩
    cases hp
    exact hskirts
  · intro hskirts
    exact ⟨[v], rfl, hskirts⟩

theorem Query.cons_mem_roams {i : Nat} {r : List Nat} : i :: r ∈ q.roams g t v ↔
    v.key ≠ q.target.key ∧ i :: r ∈ q.roamsBeyond g (t.enter v) v 0 := by
  constructor
  · rintro ⟨p, hp, hskirts⟩
    obtain ⟨e, ns, hedge, hrest, rfl⟩ := Graph.follow_cons.1 hp
    obtain ⟨hne, hdeep, hnew, hskirts⟩ := skirts_cons.1 hskirts
    exact ⟨hne, hdeep, i, e, r, rfl, Nat.zero_le i, hedge, hnew, _, hrest, hskirts⟩
  · rintro ⟨hne, hdeep, i, e, r, heq, _, hedge, hnew, p, hrest, hskirts⟩
    cases heq
    obtain ⟨ns, rfl⟩ := Graph.follow_head hrest
    exact ⟨_, Graph.follow_cons.2 ⟨e, ns, hedge, hrest, rfl⟩,
      skirts_cons.2 ⟨hne, hdeep, hnew, hskirts⟩⟩

theorem Query.roams_of_target (h : v.key = q.target.key) : q.roams g t v = ∅ := by
  rw [Set.eq_empty_iff_forall_notMem]
  intro r hr
  cases r with
  | nil => exact nil_mem_roams.1 hr h
  | cons i r => exact (cons_mem_roams.1 hr).1 h

theorem Query.roams_of_ne_target (h : v.key ≠ q.target.key) :
    q.roams g t v = insert [] (q.roamsBeyond g (t.enter v) v 0) := by
  ext r
  cases r with
  | nil => simp [nil_mem_roams, h]
  | cons i r => simp [cons_mem_roams, h]

theorem Query.nil_notMem_roamsBeyond : [] ∉ q.roamsBeyond g t v k := by
  rintro ⟨_, i, e, s, heq, _⟩
  cases heq

theorem Query.roamsBeyond_eq {e : Edge} (hdeep : q.isDeep t.path.length = false)
    (hedge : (g.edgesOut v)[k]? = some e) :
    q.roamsBeyond g t v k =
      List.cons k '' {s | e.dst.key ∉ t.visited ∧ s ∈ q.roams g t e.dst} ∪
        q.roamsBeyond g t v (k + 1) := by
  ext r
  constructor
  · rintro ⟨_, i, e', s, rfl, hi, hedge', hnew, hs⟩
    obtain rfl | hlt := Nat.eq_or_lt_of_le hi
    · cases hedge.symm.trans hedge'
      exact .inl ⟨s, ⟨hnew, hs⟩, rfl⟩
    · exact .inr ⟨hdeep, i, e', s, rfl, hlt, hedge', hnew, hs⟩
  · rintro (⟨s, ⟨hnew, hs⟩, rfl⟩ | ⟨_, i, e', s, rfl, hi, hedge', hnew, hs⟩)
    · exact ⟨hdeep, k, e, s, rfl, Nat.le_refl k, hedge, hnew, hs⟩
    · exact ⟨hdeep, i, e', s, rfl, Nat.le_of_succ_le hi, hedge', hnew, hs⟩

theorem Query.encard_roamsBeyond {e : Edge} (hdeep : q.isDeep t.path.length = false)
    (hedge : (g.edgesOut v)[k]? = some e) :
    (q.roamsBeyond g t v k).encard =
      {s | e.dst.key ∉ t.visited ∧ s ∈ q.roams g t e.dst}.encard +
        (q.roamsBeyond g t v (k + 1)).encard := by
  have hdisjoint : Disjoint (List.cons k '' {s | e.dst.key ∉ t.visited ∧ s ∈ q.roams g t e.dst})
      (q.roamsBeyond g t v (k + 1)) := by
    rw [Set.disjoint_left]
    rintro _ ⟨s, _, rfl⟩ ⟨_, i, e', s', heq, hi, _⟩
    cases heq
    omega
  rw [roamsBeyond_eq hdeep hedge, Set.encard_union_eq hdisjoint,
    (List.cons_injective).encard_image]

theorem Query.roamsBeyond_of_edgesFrom_nil (h : edgesFrom g q t v k = []) :
    q.roamsBeyond g t v k = ∅ := by
  rw [Set.eq_empty_iff_forall_notMem]
  rintro r ⟨hdeep, i, e, s, _, hi, hedge, _⟩
  rw [edgesFrom, hdeep] at h
  have hlength : (g.edgesOut v).length ≤ k := by simpa using h
  rw [List.getElem?_eq_none (hlength.trans hi)] at hedge
  cases hedge

theorem roams_of_look_passed (hg : g.Closed) {e : Edge} (he : g.IsNode e.dst) {w w₁ : Work}
    (h : look g q (.ok e) w = .passed w₁) :
    {s | e.dst.key ∉ w.trail.visited ∧ s ∈ q.roams g w.trail e.dst} = ∅ := by
  rw [Set.eq_empty_iff_forall_notMem]
  rintro s ⟨hnew, hs⟩
  by_cases htarget : e.dst.key = q.target.key
  · rw [Query.roams_of_target htarget] at hs
    exact hs
  · obtain ⟨w', _, hlook⟩ := look_of_other he (hg.outEdges_eq he) hnew htarget
    rw [hlook] at h
    cases h

theorem Tours.trail_eq {pending : List Pending} {w w' : Work} {n : Nat}
    (h : Tours g q pending w n w') : w'.trail = w.trail := by
  induction h with
  | nil => rfl
  | passed hlook _ ih => exact ih.trans (trail_of_look_passed hlook)
  | returned hlook _ _ ih ih' => exact ih'.trans (leave_of_look_entered hlook ih)

theorem Tours.encard (hg : g.Closed) (hq : q.Unlimited) {pending : List Pending} {w w' : Work}
    {n : Nat} (h : Tours g q pending w n w') {v : Value} {k : Nat} (hv : g.IsNode v)
    (hpending : edgesFrom g q w.trail v k = pending) :
    (q.roamsBeyond g w.trail v k).encard = n := by
  induction h generalizing v k with
  | nil =>
    rw [Query.roamsBeyond_of_edgesFrom_nil hpending, Set.encard_empty]
    rfl
  | passed hlook _ ih =>
    obtain ⟨hdeep, e, rfl, hedge, he, hrest⟩ := edgesFrom_eq_cons hg hv hpending
    rw [trail_of_look_passed hlook] at ih
    rw [Query.encard_roamsBeyond hdeep hedge, roams_of_look_passed hg he hlook, Set.encard_empty,
      zero_add, ih hv hrest]
  | @returned x rest w node pending w₁ m w₂ n w' hlook htours _ ih ih' =>
    obtain ⟨hdeep, e, rfl, hedge, he, hrest⟩ := edgesFrom_eq_cons hg hv hpending
    obtain ⟨rfl, htarget, _, hbelow⟩ := of_look_entered hg hq he hlook
    obtain ⟨htrail, hnew⟩ := trail_of_look_entered hlook
    have hback : w₂.leave.trail = w.trail := leave_of_look_entered hlook htours.trail_eq
    have hset : {s | e.dst.key ∉ w.trail.visited ∧ s ∈ q.roams g w.trail e.dst} =
        insert [] (q.roamsBeyond g w₁.trail e.dst 0) := by
      rw [htrail, ← Query.roams_of_ne_target htarget]
      simp only [hnew, not_false_eq_true, true_and, Set.ofPred_mem_eq]
    rw [hback] at ih'
    rw [Query.encard_roamsBeyond hdeep hedge, hset,
      Set.encard_insert_of_notMem Query.nil_notMem_roamsBeyond, ih he hbelow, ih' hv hrest]
    push_cast
    rfl

noncomputable def Query.pollCount (q : Query) (g : Graph) (t : Trail) (v : Value) : Nat :=
  if v.key = q.target.key then 0 else 2 * (q.roams g t v).ncard - 1

theorem Descends.asked {q' : Query} {answers : Nat → Bool} (hg : g.Closed) (hq : q.Unlimited)
    (haim : q.SameAim q') (hasks : q'.Asks answers) {id : Value} (hid : g.IsNode id)
    {w w' v : Work} (h : Descends g q id w (.ok ()) w') (hmatch : w.Matches v) :
    (q.roams g w.trail id).Finite ∧
      Asked answers (q.pollCount g w.trail id) w' v.polls (Descends g q' id v) := by
  have henter := hmatch.enter id
  cases h with
  | target htarget hrecord =>
    rw [Query.pollCount, if_pos htarget, Query.roams_of_target htarget]
    rw [hq.record_eq] at hrecord
    cases hrecord
    have hrecord' := Query.record_of_not_full (w := v.enter id) (hasks.isFull_eq _)
    rw [haim.target] at htarget
    exact ⟨Set.finite_empty, .nothing (.target htarget hrecord') henter.push.leave rfl⟩
  | explored htarget hexpand hpoll hexplores =>
    rw [Query.poll_of_no_check hq.2] at hpoll
    cases hpoll
    obtain ⟨n, htours⟩ := hexplores.tours hq.2
    obtain ⟨_, _, _, hedges⟩ := Query.expand_eq (q := q) (hg.outEdges_eq hid) (w.enter id)
    obtain ⟨answer, _, v₁, hexpand₁, hexpand', hmatch₁⟩ := haim.expand g id henter
    cases hexpand.symm.trans hedges
    cases hexpand.symm.trans hexpand₁
    have htrail := Query.trail_of_expand hexpand
    rw [Work.enter_trail] at htrail
    have hbeyond := htours.encard hg hq hid (by rw [htrail]; rfl)
    have hroams : (q.roams g w.trail id).encard = (n + 1 : Nat) := by
      rw [Query.roams_of_ne_target htarget,
        Set.encard_insert_of_notMem Query.nil_notMem_roamsBeyond, ← htrail, hbeyond]
      rfl
    have hcount : q.pollCount g w.trail id = 1 + 2 * n := by
      rw [Query.pollCount, if_neg htarget, Set.ncard_def, hroams, ENat.toNat_natCast]
      omega
    have hpolls : v₁.polls = (v.enter id).polls := Query.polls_of_expand hexpand'
    rw [haim.target] at htarget
    refine ⟨Set.finite_of_encard_eq_coe hroams, ?_⟩
    rw [hcount, show v.polls = v₁.polls from hpolls.symm]
    apply Asked.ask
    · intro hstop
      exact ⟨_, .stopped htarget hexpand' (hasks.poll_of_true hstop), rfl⟩
    · intro hgo
      have hpoll' := hasks.poll_of_false hgo
      have hbelow := htours.asked haim hasks (v := { v₁ with polls := v₁.polls + 1 })
        ⟨hmatch₁.trail, hmatch₁.found⟩
      exact hbelow.leave fun _ _ => .explored htarget hexpand' hpoll'

end

def Concludes (g : Graph) (q : Query) (current : Value) (polls : Nat) (r : Except Fault (List Path))
    (n : Nat) : Prop :=
  ∃ ends, (run g q current {} polls ends).result = r ∧ (run g q current {} polls ends).polls = n

section

variable {g : Graph} {q q' : Query} {answers : Nat → Bool} {current : Value}

theorem concludes_of_descends (hnode : g.IsNode current) {polls : Nat} {result : Except Fault Unit}
    {w : Work} (h : Descends g q current (Work.note { polls } (.has current)) result w) :
    Concludes g q current polls (result.map fun _ => w.found.toList) w.polls := by
  obtain ⟨ends, hrun⟩ :=
    run_eq_iff_endsIn.2 (h.endsIn_start hnode.2 hnode.1 List.not_mem_nil)
  refine ⟨ends, ?_, ?_⟩
  · rw [hrun]
    rfl
  · rw [hrun]
    rfl

theorem Yields.asked (hg : g.Closed) (hq : q.Unlimited) (haim : q.SameAim q')
    (hasks : q'.Asks answers) (hnode : g.IsNode current) {polls₀ : Nat} {paths : List Path}
    (h : Yields g q current {} polls₀ (.ok paths)) (polls : Nat) :
    (q.roams g {} current).Finite ∧
      ((∀ i < q.pollCount g {} current, answers (polls + i) = false) →
        Concludes g q' current polls (.ok paths) (polls + q.pollCount g {} current)) ∧
      ∀ k < q.pollCount g {} current, (∀ i < k, answers (polls + i) = false) →
        answers (polls + k) = true →
          Concludes g q' current polls (.error .cancelled) (polls + (k + 1)) := by
  obtain ⟨result, w, hdescends, hresult⟩ := (yields_iff_descends hnode List.not_mem_nil).1 h
  cases result with
  | error fault => cases hresult
  | ok =>
    cases hresult
    have hmatch : Work.Matches (Work.note { polls := polls₀ } (.has current))
        (Work.note { polls } (.has current)) := ⟨rfl, rfl⟩
    obtain ⟨hfinite, hasked⟩ := hdescends.asked hg hq haim hasks hnode hmatch
    refine ⟨hfinite, ?_, ?_⟩
    · intro hall
      obtain ⟨v, hagain, hmatch', hpolls⟩ := hasked.whole hall
      have hconcludes := concludes_of_descends hnode hagain
      rw [hpolls, ← hmatch'.found] at hconcludes
      exact hconcludes
    · intro k hk hbefore hat
      obtain ⟨v, hagain, hpolls⟩ := hasked.stopped k hk hbefore hat
      have hconcludes := concludes_of_descends hnode hagain
      rw [hpolls] at hconcludes
      exact hconcludes

theorem Ends.asked (hg : g.Closed) (hq : q.Unlimited) (haim : q.SameAim q')
    (hasks : q'.Asks answers) {polls : Nat} (h : Ends g q current { polls }) :
    Ends g q' current { polls } := by
  by_cases hnode : g.IsNode current
  · obtain ⟨paths, hreturns, _⟩ := run_lists hg hq hnode h
    obtain ⟨_, hwhole, hstopped⟩ := Yields.asked hg hq haim hasks hnode ⟨h, hreturns⟩ polls
    by_cases hall : ∀ i < q.pollCount g {} current, answers (polls + i) = false
    · obtain ⟨ends, _⟩ := hwhole hall
      exact ends
    · have hsome : ∃ k, k < q.pollCount g {} current ∧ answers (polls + k) = true := by
        simpa using hall
      obtain ⟨hlt, htrue⟩ := Nat.find_spec hsome
      have hbefore : ∀ i < Nat.find hsome, answers (polls + i) = false := by
        intro i hi
        have hnot := Nat.find_min hsome hi
        simpa [hi.trans hlt] using hnot
      obtain ⟨ends, _⟩ := hstopped _ hlt hbefore htrue
      exact ends
  · obtain ⟨fault, hfault⟩ := yields_of_not_isNode hnode
    obtain ⟨ends, _⟩ := hfault q' {} polls
    exact ends

end

end FlowPaths.Search
