import FlowPaths.Proofs.Search.Discovery

/-!
What a limit or a check can do to a search.  They cut it short, and change nothing else: as long as
neither steps in, searches with the same aim find the same paths and meet the same faults.
-/

namespace FlowPaths.Search

namespace Query

structure SameAim (q q' : Query) : Prop where
  target : q.target = q'.target
  maxDepth : q.maxDepth = q'.maxDepth

def limitFault (q : Query) : Fault := .pathLimitExceeded (Config.boundValue q.maxPaths)

inductive Interrupts (q : Query) (n : Nat) : Fault → Prop
  | limit : q.isFull n = true → Interrupts q n q.limitFault
  | check {w w' fault} : q.poll w = (.error fault, w') → Interrupts q n fault

theorem record_of_full {q : Query} {w : Work} (h : q.isFull w.found.size = true) :
    q.record w = .error q.limitFault := by
  simp [record, h, limitFault]

theorem record_of_not_full {q : Query} {w : Work} (h : q.isFull w.found.size = false) :
    q.record w = .ok { w with found := w.found.push w.trail.path } := by
  simp [record, h]

theorem poll_of_no_check {q : Query} (h : q.check = none) (w : Work) : q.poll w = (.ok (), w) := by
  simp [poll, h]

theorem Interrupts.eq_limitFault {q : Query} {n : Nat} {fault : Fault} (h : q.Interrupts n fault)
    (hcheck : q.check = none) : q.isFull n = true ∧ fault = q.limitFault := by
  cases h with
  | limit hfull => exact ⟨hfull, rfl⟩
  | check hpoll => simp [poll_of_no_check hcheck] at hpoll

theorem Unlimited.isFull_eq {q : Query} (h : q.Unlimited) (n : Nat) : q.isFull n = false := by
  simp [isFull, h.1]

theorem Unlimited.not_interrupts {q : Query} (h : q.Unlimited) {n : Nat} {fault : Fault} :
    ¬q.Interrupts n fault := by
  intro hinterrupts
  have hfull := (hinterrupts.eq_limitFault h.2).1
  rw [h.isFull_eq] at hfull
  cases hfull

end Query

structure Work.Matches (w v : Work) : Prop where
  trail : w.trail = v.trail
  found : w.found = v.found

namespace Work.Matches

variable {w v u : Work}

theorem trans (h : w.Matches v) (h' : v.Matches u) : w.Matches u :=
  ⟨h.trail.trans h'.trail, h.found.trans h'.found⟩

theorem note (h : w.Matches v) (call : Call) : (w.note call).Matches (v.note call) :=
  ⟨h.trail, h.found⟩

theorem enter (h : w.Matches v) (id : Value) : (w.enter id).Matches (v.enter id) :=
  ⟨congrArg (Trail.enter · id) h.trail, h.found⟩

theorem leave (h : w.Matches v) : w.leave.Matches v.leave :=
  ⟨congrArg Trail.leave h.trail, h.found⟩

theorem push (h : w.Matches v) :
    Work.Matches { w with found := w.found.push w.trail.path }
      { v with found := v.found.push v.trail.path } := by
  refine ⟨h.trail, ?_⟩
  simp only [h.trail, h.found]

end Work.Matches

theorem Query.matches_poll {q : Query} {w w' : Work} {answer : Except Fault Unit}
    (h : q.poll w = (answer, w')) : w'.Matches w := by
  refine ⟨trail_of_poll h, ?_⟩
  unfold poll at h
  split at h
  · cases h
    rfl
  · dsimp only at h
    split at h <;> cases h <;> rfl

theorem Query.SameAim.expand {q q' : Query} (haim : q.SameAim q') (g : Graph) (id : Value)
    {w v : Work} (h : w.Matches v) :
    ∃ answer w₁ v₁, q.expand g id w = (answer, w₁) ∧ q'.expand g id v = (answer, v₁) ∧
      w₁.Matches v₁ := by
  have hdeep : q'.isDeep v.trail.path.length = q.isDeep w.trail.path.length := by
    simp only [isDeep, haim.maxDepth, h.trail]
  unfold Query.expand
  rw [hdeep]
  split
  · exact ⟨_, _, _, rfl, rfl, h⟩
  · exact ⟨_, _, _, rfl, rfl, h.note _⟩

inductive Look.Follows (q q' : Query) : Look → Look → Prop
  | failed {fault w v} : w.Matches v → Follows q q' (.failed fault w) (.failed fault v)
  | passed {w v} : w.Matches v → Follows q q' (.passed w) (.passed v)
  | entered {node pending w v} : w.Matches v →
      Follows q q' (.entered node pending w) (.entered node pending v)
  | interrupted {fault w l} : q.Interrupts w.found.size fault → Follows q q' (.failed fault w) l
  | overtaken {w v} : q'.isFull v.found.size = true → q.isFull v.found.size = false →
      v.found.size < w.found.size → Follows q q' (.passed w) (.failed q'.limitFault v)

theorem Query.record_again (q q' : Query) {w v : Work} (h : w.Matches v) :
    (q.isFull w.found.size = true ∧ q.record w = .error q.limitFault) ∨
      ∃ w₁, q.record w = .ok w₁ ∧
        ((q'.isFull v.found.size = true ∧ q.isFull v.found.size = false ∧
            v.found.size < w₁.found.size ∧ q'.record v = .error q'.limitFault) ∨
          ∃ v₁, q'.record v = .ok v₁ ∧ w₁.Matches v₁) := by
  cases hfull : q.isFull w.found.size with
  | true => exact .inl ⟨rfl, record_of_full hfull⟩
  | false =>
    refine .inr ⟨_, record_of_not_full hfull, ?_⟩
    cases hfull' : q'.isFull v.found.size with
    | true => exact .inl ⟨rfl, h.found ▸ hfull, by simp [h.found], record_of_full hfull'⟩
    | false => exact .inr ⟨_, record_of_not_full hfull', h.push⟩

theorem record_follows {q q' : Query} {w v : Work} (h : w.Matches v) :
    Look.Follows q q'
      (match q.record w with
        | .error fault => .failed fault w.leave
        | .ok w => .passed w.leave)
      (match q'.record v with
        | .error fault => .failed fault v.leave
        | .ok v => .passed v.leave) := by
  obtain ⟨hfull, hrecord⟩ | ⟨w₁, hrecord, ⟨hfull', hfull, hlt, hrecord'⟩ | ⟨v₁, hrecord', h₁⟩⟩ :=
    Query.record_again q q' h
  · rw [hrecord]
    exact .interrupted (.limit hfull)
  · rw [hrecord, hrecord']
    exact .overtaken hfull' hfull hlt
  · rw [hrecord, hrecord']
    exact .passed h₁.leave

theorem look_follows {g : Graph} {q q' : Query} (haim : q.SameAim q') (x : Pending) {w v : Work}
    (h : w.Matches v) : Look.Follows q q' (look g q x w) (look g q' x v) := by
  cases x with
  | error fault => exact .failed h
  | ok edge =>
    have hvisited : w.trail.hasVisited edge.dst = v.trail.hasVisited edge.dst := by rw [h.trail]
    have henter := (h.note (.has edge.dst)).enter edge.dst
    simp only [look, hvisited, haim.target]
    split
    · exact .failed h
    · split
      · exact .passed h
      · cases g.hasNode edge.dst with
        | error fault => exact .failed (h.note _)
        | ok known =>
          cases known with
          | false => exact .failed (h.note _)
          | true =>
            dsimp only
            split
            · exact record_follows henter
            · obtain ⟨answer, w₁, v₁, hexpand, hexpand', hwork⟩ := haim.expand g edge.dst henter
              rw [hexpand, hexpand']
              cases answer with
              | error fault => exact .failed hwork.leave
              | ok pending => exact .entered hwork

def Look.work : Look → Work
  | .failed _ w => w
  | .passed w => w
  | .entered _ _ w => w

theorem Query.size_le_of_record {q : Query} {w w' : Work} (h : q.record w = .ok w') :
    w.found.size ≤ w'.found.size := by
  unfold record at h
  split at h
  · cases h
  · cases h
    simp

theorem Query.found_of_expand {q : Query} {g : Graph} {id : Value} {w w' : Work}
    {answer : Except Fault (List Pending)} (h : q.expand g id w = (answer, w')) :
    w'.found = w.found := by
  unfold expand at h
  split at h <;> cases h <;> rfl

section

variable {g : Graph} {q : Query}

theorem size_le_look (x : Pending) (w : Work) :
    w.found.size ≤ (look g q x w).work.found.size := by
  fun_cases look g q x w with
  | case1 | case2 | case3 | case4 | case5 | case6 => exact Nat.le_refl _
  | case7 edge w _ _ _ _ w₁ _ w' hrecord =>
    have hsize : w₁.found.size ≤ w'.found.size := Query.size_le_of_record hrecord
    exact hsize
  | case8 edge w _ _ _ _ _ _ _ w' hexpand => exact (Query.found_of_expand hexpand) ▸ Nat.le_refl _
  | case9 edge w _ _ _ _ _ _ _ w' hexpand => exact (Query.found_of_expand hexpand) ▸ Nat.le_refl _

theorem Explores.size_le {pending : List Pending} {w w' : Work} {result : Except Fault Unit}
    (h : Explores g q pending w result w') : w.found.size ≤ w'.found.size := by
  have hlook : ∀ {x : Pending} {w : Work} {l : Look}, look g q x w = l →
      w.found.size ≤ l.work.found.size := by
    intro x w l hl
    rw [← hl]
    exact size_le_look x w
  have hpolled : ∀ {w w' : Work} {answer : Except Fault Unit}, q.poll w = (answer, w') →
      w.found.size = w'.found.size := fun hpoll => by rw [(Query.matches_poll hpoll).found]
  induction h with
  | nil => exact Nat.le_refl _
  | failed hl => exact hlook hl
  | passed hl _ ih => exact (hlook hl).trans ih
  | stopped hl hpoll => exact (hlook hl).trans (hpolled hpoll).le
  | broken hl hpoll _ ih => exact (hlook hl).trans ((hpolled hpoll).le.trans ih)
  | cancelled hl hpoll _ hpoll' ih =>
    exact (hlook hl).trans ((hpolled hpoll).le.trans (ih.trans (hpolled hpoll').le))
  | returned hl hpoll _ hpoll' _ ih ih' =>
    exact (hlook hl).trans ((hpolled hpoll).le.trans (ih.trans ((hpolled hpoll').le.trans ih')))

end

/-- What becomes of a computation under `q`, with the given outcome, when it is done `again` under
`q'`. -/
inductive Retraced (q q' : Query) (again : Except Fault Unit → Work → Prop)
    (result : Except Fault Unit) (w : Work) : Prop
  | whole {v} : again result v → w.Matches v → Retraced q q' again result w
  | overtaken {v} : again (.error q'.limitFault) v → q'.isFull v.found.size = true →
      q.isFull v.found.size = false → v.found.size < w.found.size → Retraced q q' again result w
  | interrupted {fault} : result = .error fault → q.Interrupts w.found.size fault →
      Retraced q q' again result w

section

variable {g : Graph} {q q' : Query}

section

variable {again again' : Except Fault Unit → Work → Prop} {result : Except Fault Unit} {w : Work}

theorem Retraced.imp (h : Retraced q q' again result w)
    (himp : ∀ result v, again result v → again' result v) : Retraced q q' again' result w := by
  cases h with
  | whole hagain hmatch => exact .whole (himp _ _ hagain) hmatch
  | overtaken hagain hfull' hfull hlt => exact .overtaken (himp _ _ hagain) hfull' hfull hlt
  | interrupted hfault hinterrupts => exact .interrupted hfault hinterrupts

theorem Retraced.leave (h : Retraced q q' again result w)
    (hwhole : ∀ v, again result v → again' result v.leave)
    (hcut : ∀ fault v, again (.error fault) v → again' (.error fault) v.leave) :
    Retraced q q' again' result w.leave := by
  cases h with
  | whole hagain hmatch => exact .whole (hwhole _ hagain) hmatch.leave
  | overtaken hagain hfull' hfull hlt => exact .overtaken (hcut _ _ hagain) hfull' hfull hlt
  | interrupted hfault hinterrupts => exact .interrupted hfault hinterrupts

end

theorem look_entered_again (haim : q.SameAim q') {x : Pending} {w w₁ v : Work} {node : Value}
    {pending : List Pending} (hlook : look g q x w = .entered node pending w₁)
    (hmatch : w.Matches v) :
    ∃ v₁, look g q' x v = .entered node pending v₁ ∧ w₁.Matches v₁ := by
  have hfollows := look_follows (g := g) haim x hmatch
  rw [hlook] at hfollows
  generalize look g q' x v = l at hfollows ⊢
  cases hfollows with
  | entered hmatch₁ => exact ⟨_, rfl, hmatch₁⟩

theorem Explores.retrace (haim : q.SameAim q') (hcheck : q'.check = none)
    {pending : List Pending} {w w' v : Work} {result : Except Fault Unit}
    (h : Explores g q pending w result w') (hmatch : w.Matches v) :
    Retraced q q' (Explores g q' pending v) result w' := by
  have hgoes := Query.poll_of_no_check hcheck
  induction h generalizing v with
  | nil => exact .whole .nil hmatch
  | @failed x _ _ _ _ hlook =>
    have hfollows := look_follows (g := g) haim x hmatch
    rw [hlook] at hfollows
    generalize hlook' : look g q' x v = l at hfollows
    cases hfollows with
    | failed hmatch₁ => exact .whole (.failed hlook') hmatch₁
    | interrupted hinterrupts => exact .interrupted rfl hinterrupts
  | @passed x _ _ _ _ _ hlook hrest ih =>
    have hfollows := look_follows (g := g) haim x hmatch
    rw [hlook] at hfollows
    generalize hlook' : look g q' x v = l at hfollows
    cases hfollows with
    | passed hmatch₁ => exact (ih hmatch₁).imp fun _ _ => .passed hlook'
    | overtaken hfull' hfull hlt =>
      exact .overtaken (.failed hlook') hfull' hfull (hlt.trans_le hrest.size_le)
  | stopped _ hpoll => exact .interrupted rfl (.check hpoll)
  | broken hlook hpoll _ ih =>
    obtain ⟨v₁, hlook', hmatch₁⟩ := look_entered_again haim hlook hmatch
    have hbelow := ih ((Query.matches_poll hpoll).trans hmatch₁)
    exact hbelow.leave (fun _ => .broken hlook' (hgoes v₁)) fun _ _ => .broken hlook' (hgoes v₁)
  | cancelled _ _ _ hpoll => exact .interrupted rfl (.check hpoll)
  | @returned _ _ _ _ _ _ _ w₃ w₄ _ _ hlook hpoll _ hpoll' hrest ih ih' =>
    obtain ⟨v₁, hlook', hmatch₁⟩ := look_entered_again haim hlook hmatch
    cases ih ((Query.matches_poll hpoll).trans hmatch₁) with
    | @whole v₃ hagain hmatch₃ =>
      have hlater := ih' ((Query.matches_poll hpoll').trans hmatch₃.leave)
      exact hlater.imp fun _ _ => .returned hlook' (hgoes v₁) hagain (hgoes v₃.leave)
    | @overtaken v₃ hagain hfull' hfull hlt =>
      have hsize : v₃.found.size < w₄.found.size := by
        rw [(Query.matches_poll hpoll').found]
        exact hlt
      exact .overtaken (.broken hlook' (hgoes v₁) hagain) hfull' hfull
        (hsize.trans_le hrest.size_le)
    | interrupted hfault => cases hfault

theorem Descends.retrace (haim : q.SameAim q') (hcheck : q'.check = none) {id : Value}
    {w w' v : Work} {result : Except Fault Unit} (h : Descends g q id w result w')
    (hmatch : w.Matches v) : Retraced q q' (Descends g q' id v) result w' := by
  have henter := hmatch.enter id
  have hrecorded := Query.record_again q q' henter
  obtain ⟨answer, w₁, v₁, hexpand₁, hexpand', hmatch₁⟩ := haim.expand g id henter
  cases h with
  | full _ hrecord =>
    obtain ⟨hfull, hrecord₁⟩ | ⟨_, hrecord₁, _⟩ := hrecorded
    · cases hrecord.symm.trans hrecord₁
      exact .interrupted rfl (.limit hfull)
    · cases hrecord.symm.trans hrecord₁
  | target htarget hrecord =>
    rw [haim.target] at htarget
    obtain ⟨_, hrecord₁⟩ | ⟨w₁, hrecord₁, hrecorded⟩ := hrecorded
    · cases hrecord.symm.trans hrecord₁
    · cases hrecord.symm.trans hrecord₁
      obtain ⟨hfull', hfull, hlt, hrecord'⟩ | ⟨v₁, hrecord', hmatch₁⟩ := hrecorded
      · exact .overtaken (.full htarget hrecord') hfull' hfull hlt
      · exact .whole (.target htarget hrecord') hmatch₁.leave
  | closed htarget hexpand =>
    rw [haim.target] at htarget
    cases hexpand.symm.trans hexpand₁
    exact .whole (.closed htarget hexpand') hmatch₁.leave
  | stopped _ _ hpoll => exact .interrupted rfl (.check hpoll)
  | explored htarget hexpand hpoll hexplores =>
    rw [haim.target] at htarget
    cases hexpand.symm.trans hexpand₁
    have hgoes := Query.poll_of_no_check hcheck v₁
    have hbelow := hexplores.retrace haim hcheck ((Query.matches_poll hpoll).trans hmatch₁)
    exact hbelow.leave (fun _ => .explored htarget hexpand' hgoes)
      fun _ _ => .explored htarget hexpand' hgoes

end

def Yields (g : Graph) (q : Query) (current : Value) (trail : Trail) (polls : Nat)
    (r : Except Fault (List Path)) : Prop :=
  ∃ ends, (run g q current trail polls ends).result = r

section

variable {g : Graph} {q q' : Query} {current : Value} {trail : Trail} {polls polls' : Nat}
  {r r' : Except Fault (List Path)}

theorem Yields.unique (h : Yields g q current trail polls r)
    (h' : Yields g q current trail polls r') : r = r' := by
  obtain ⟨_, rfl⟩ := h
  obtain ⟨_, rfl⟩ := h'
  rfl

theorem yields_of_start {o : Outcome} (h : start g q current { trail, polls } = .done o) :
    Yields g q current trail polls o.result := by
  have hend : EndsIn (turn g q trail.path.length) 0 (start g q current { trail, polls }) o :=
    h ▸ .done
  obtain ⟨ends, hrun⟩ := run_eq_iff_endsIn.2 ⟨0, hend⟩
  exact ⟨ends, congrArg Outcome.result hrun⟩

theorem yields_of_not_isNode (h : ¬g.IsNode current) :
    ∃ fault, ∀ q trail polls, Yields g q current trail polls (.error fault) := by
  cases hnode : g.hasNode current with
  | error fault =>
    refine ⟨fault, fun q trail polls => ?_⟩
    apply yields_of_start (o := Work.finish _ _ (.error fault))
    simp only [start, hnode]
    rfl
  | ok known =>
    cases known with
    | false =>
      refine ⟨.nodeNotInGraph current, fun q trail polls => ?_⟩
      apply yields_of_start (o := Work.finish _ _ (.error (.nodeNotInGraph current)))
      simp only [start, hnode]
      rfl
    | true =>
      have hhash : current.hashable = false := by
        simpa [Graph.IsNode, hnode] using h
      refine ⟨.unhashable, fun q trail polls => ?_⟩
      apply yields_of_start (o := Work.finish _ _ (.error .unhashable))
      simp only [start, hnode, hhash]
      rfl

theorem yields_iff_descends (hnode : g.IsNode current) (hnew : current.key ∉ trail.visited) :
    Yields g q current trail polls r ↔
      ∃ result w, Descends g q current (Work.note { trail, polls } (.has current)) result w ∧
        r = result.map fun _ => w.found.toList := by
  constructor
  · rintro ⟨ends, rfl⟩
    obtain ⟨n, hend⟩ := run_eq_iff_endsIn.1 ⟨ends, rfl⟩
    obtain ⟨result, w, hdescends, houtcome⟩ :=
      descends_of_endsIn_start hend hnode.2 hnode.1 hnew
    exact ⟨result, w, hdescends, by rw [houtcome]; rfl⟩
  · rintro ⟨result, w, hdescends, rfl⟩
    obtain ⟨ends, hrun⟩ :=
      run_eq_iff_endsIn.2 (hdescends.endsIn_start hnode.2 hnode.1 hnew)
    exact ⟨ends, by rw [hrun]; rfl⟩

/-- A search done again for the same aim has the same result, unless the limit of either query, or
the check of the first one, steps in. -/
theorem Yields.retrace (haim : q.SameAim q') (hcheck : q'.check = none)
    (hnew : current.key ∉ trail.visited) (h : Yields g q current trail polls r) (polls' : Nat) :
    Yields g q' current trail polls' r ∨
      (Yields g q' current trail polls' (.error q'.limitFault) ∧
        ∃ n, q'.isFull n = true ∧ q.isFull n = false ∧ ∀ paths, r = .ok paths → n < paths.length) ∨
      ∃ fault n, r = .error fault ∧ q.Interrupts n fault := by
  by_cases hnode : g.IsNode current
  · obtain ⟨result, w, hdescends, rfl⟩ := (yields_iff_descends hnode hnew).1 h
    have hmatch : Work.Matches (Work.note { trail, polls } (.has current))
        (Work.note { trail, polls := polls' } (.has current)) := ⟨rfl, rfl⟩
    cases hdescends.retrace haim hcheck hmatch with
    | whole hagain hmatch' =>
      refine .inl ((yields_iff_descends hnode hnew).2 ⟨result, _, hagain, ?_⟩)
      rw [hmatch'.found]
    | overtaken hagain hfull' hfull hlt =>
      refine .inr (.inl ⟨(yields_iff_descends hnode hnew).2 ⟨_, _, hagain, rfl⟩, _, hfull', hfull,
        ?_⟩)
      intro paths hok
      cases result with
      | error fault => cases hok
      | ok =>
        cases hok
        simpa using hlt
    | interrupted hfault hinterrupts =>
      subst hfault
      exact .inr (.inr ⟨_, _, rfl, hinterrupts⟩)
  · obtain ⟨fault, hfault⟩ := yields_of_not_isNode hnode
    cases h.unique (hfault q trail polls)
    exact .inl (hfault q' trail polls')

theorem Yields.unlimited (haim : q.SameAim q') (hq' : q'.Unlimited)
    (hnew : current.key ∉ trail.visited) {paths : List Path}
    (h : Yields g q current trail polls (.ok paths)) (polls' : Nat) :
    Yields g q' current trail polls' (.ok paths) := by
  obtain hyields | ⟨_, n, hfull, _⟩ | ⟨fault, n, herror, _⟩ := h.retrace haim hq'.2 hnew polls'
  · exact hyields
  · rw [hq'.isFull_eq] at hfull
    cases hfull
  · cases herror

theorem Yields.limited (haim : q.SameAim q') (hq : q.Unlimited) (hcheck : q'.check = none)
    (hnew : current.key ∉ trail.visited) (h : Yields g q current trail polls r) (polls' : Nat) :
    Yields g q' current trail polls' r ∨
      (Yields g q' current trail polls' (.error q'.limitFault) ∧
        ∃ n, q'.isFull n = true ∧ ∀ paths, r = .ok paths → n < paths.length) := by
  obtain hyields | ⟨hyields, n, hfull, _, hlt⟩ | ⟨fault, n, _, hinterrupts⟩ :=
    h.retrace haim hcheck hnew polls'
  · exact .inl hyields
  · exact .inr ⟨hyields, n, hfull, hlt⟩
  · exact absurd hinterrupts hq.not_interrupts

theorem Ends.limited (haim : q.SameAim q') (hq : q.Unlimited) (hcheck : q'.check = none)
    (hnew : current.key ∉ trail.visited) (h : Ends g q current { trail, polls }) :
    Ends g q' current { trail, polls } := by
  obtain ⟨ends, _⟩ | ⟨⟨ends, _⟩, _⟩ := Yields.limited haim hq hcheck hnew ⟨h, rfl⟩ polls
  · exact ends
  · exact ends

theorem Yields.again_or_full (hcheck : q.check = none) (hnew : current.key ∉ trail.visited)
    (h : Yields g q current trail polls r) (polls' : Nat) :
    Yields g q current trail polls' r ∨ r = .error q.limitFault := by
  obtain hyields | ⟨_, n, hfull, hfull', _⟩ | ⟨fault, n, rfl, hinterrupts⟩ :=
    h.retrace ⟨rfl, rfl⟩ hcheck hnew polls'
  · exact .inl hyields
  · rw [hfull] at hfull'
    cases hfull'
  · rw [(hinterrupts.eq_limitFault hcheck).2]
    exact .inr rfl

theorem Yields.unique_of_no_check (hcheck : q.check = none) (hnew : current.key ∉ trail.visited)
    (h : Yields g q current trail polls r) (h' : Yields g q current trail polls' r') : r = r' := by
  obtain hyields | rfl := h.again_or_full hcheck hnew polls'
  · exact hyields.unique h'
  · obtain hyields' | rfl := h'.again_or_full hcheck hnew polls
    · exact h.unique hyields'
    · rfl

theorem Yields.again (hcheck : q.check = none) (hnew : current.key ∉ trail.visited)
    (h : Yields g q current trail polls r) (hends : Ends g q current { trail, polls := polls' }) :
    Yields g q current trail polls' r :=
  ⟨hends, Yields.unique_of_no_check hcheck hnew ⟨hends, rfl⟩ h⟩

theorem Yields.limited_or_faulty (haim : q.SameAim q') (hcheck : q.check = none)
    (hq' : q'.Unlimited) (hnew : current.key ∉ trail.visited) {fault : Fault}
    (h : Yields g q current trail polls (.error fault)) (polls' : Nat) :
    fault = q.limitFault ∨ Yields g q' current trail polls' (.error fault) := by
  obtain hyields | ⟨_, n, hfull, _⟩ | ⟨fault, n, herror, hinterrupts⟩ :=
    h.retrace haim hq'.2 hnew polls'
  · exact .inr hyields
  · rw [hq'.isFull_eq] at hfull
    cases hfull
  · cases herror
    exact .inl (hinterrupts.eq_limitFault hcheck).2

theorem not_yields_error_of_closed (hg : g.Closed) (hq : q.Unlimited) (hnode : g.IsNode current)
    (fault : Fault) : ¬Yields g q current {} polls (.error fault) := by
  rintro ⟨ends, hfail⟩
  obtain ⟨paths, hreturns, _⟩ := run_lists hg hq hnode ends
  rw [hreturns] at hfail
  cases hfail

end

end FlowPaths.Search
