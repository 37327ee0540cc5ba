import FlowPaths.Proofs.Enumeration.Pairs
import FlowPaths.Proofs.Search.Depth

/-!
What the trail means that a search is given.  The search does what it would do on an empty trail in
the graph without the visited nodes, with what is left of the depth bound; the route so far comes
before every path.
-/

namespace FlowPaths

namespace Graph

def without (g : Graph) (keys : List Key) : Graph where
  hasNode v := if v.key ∈ keys then .ok false else g.hasNode v
  outEdges v :=
    if v.key ∈ keys then .ok []
    else (g.outEdges v).map (·.filter fun x => !x.toOption.any (·.dst.key ∈ keys))

section

variable {g : Graph} {keys : List Key} {v : Value}

theorem isNode_without : (g.without keys).IsNode v ↔ g.IsNode v ∧ v.key ∉ keys := by
  by_cases hgone : v.key ∈ keys <;> simp [IsNode, without, hgone]

theorem outEdges_without {edges : List Edge} (hv : v.key ∉ keys)
    (hout : g.outEdges v = .ok (edges.map .ok)) :
    (g.without keys).outEdges v = .ok ((edges.filter (·.dst.key ∉ keys)).map .ok) := by
  simp only [without, hv, if_false, hout, Except.map, List.filter_map]
  simp [Function.comp_def, Except.toOption]

theorem Closed.edgesOut_without (hg : g.Closed) (hv : g.IsNode v) (hkept : v.key ∉ keys) :
    (g.without keys).edgesOut v = (g.edgesOut v).filter (·.dst.key ∉ keys) :=
  edgesOut_of_outEdges (outEdges_without hkept (hg.outEdges_eq hv))

theorem Closed.without (hg : g.Closed) (keys : List Key) : (g.without keys).Closed := by
  intro u hu
  obtain ⟨hu, hkept⟩ := isNode_without.1 hu
  refine ⟨_, outEdges_without hkept (hg.outEdges_eq hu), fun e he => ?_⟩
  obtain ⟨he, hdst⟩ := List.mem_filter.1 he
  exact isNode_without.2 ⟨hg.isNode_dst hu he, by simpa using hdst⟩

end

end Graph

namespace Trail

structure After (t trail s : Trail) : Prop where
  path : trail.path = t.path ++ s.path
  visited : ∀ k, k ∈ trail.visited ↔ k ∈ t.visited ∨ k ∈ s.visited

namespace After

variable {t trail s : Trail}

theorem enter (h : t.After trail s) (v : Value) : t.After (trail.enter v) (s.enter v) := by
  refine ⟨by simp [h.path], fun k => ?_⟩
  simp only [mem_visited_enter, h.visited]
  exact or_left_comm

theorem length_path (h : t.After trail s) : trail.path.length = t.path.length + s.path.length := by
  rw [h.path, List.length_append]

end After

end Trail

namespace Search

structure Query.RemainsOf (q' q : Query) (t : Trail) : Prop where
  target : q'.target = q.target
  isDeep : ∀ n, q'.isDeep n = q.isDeep (t.path.length + n)

structure Work.After (t : Trail) (w v : Work) : Prop where
  trail : t.After w.trail v.trail
  found : w.found.toList = v.found.toList.map (t.path ++ ·)

section

variable {g : Graph} {q q' : Query} {t : Trail} {e : Edge} {w w₁ v : Work}

theorem edgesFrom_without (hg : g.Closed) (hremains : q'.RemainsOf q t) {trail s : Trail}
    (hafter : t.After trail s) {u : Value} (hu : g.IsNode u) (hkept : u.key ∉ t.visited) :
    ∃ edges : List Edge, edgesFrom g q trail u 0 = edges.map .ok ∧ (∀ e ∈ edges, g.IsNode e.dst) ∧
      edgesFrom (g.without t.visited) q' s u 0 =
        (edges.filter (·.dst.key ∉ t.visited)).map .ok := by
  have hdeep : q'.isDeep s.path.length = q.isDeep trail.path.length := by
    rw [hremains.isDeep, hafter.length_path]
  unfold edgesFrom
  cases h : q.isDeep trail.path.length with
  | true => exact ⟨[], by simp, List.forall_mem_nil _, by simp [hdeep, h]⟩
  | false =>
    refine ⟨g.edgesOut u, by simp, fun e he => hg.isNode_dst hu he, ?_⟩
    simp [hdeep, h, hg.edgesOut_without hu hkept]

theorem passed_without (hg : g.Closed) (hq : q.Unlimited) (hq' : q'.Unlimited)
    (hremains : q'.RemainsOf q t) (he : g.IsNode e.dst) (hkept : e.dst.key ∉ t.visited)
    (hafter : w.After t v) (h : look g q (.ok e) w = .passed w₁) :
    ∃ v₁, look (g.without t.visited) q' (.ok e) v = .passed v₁ ∧ w₁.After t v₁ := by
  have he' := Graph.isNode_without.2 ⟨he, hkept⟩
  have hseen := (hafter.trail.visited e.dst.key).trans (or_iff_right hkept)
  by_cases hv : e.dst.key ∈ v.trail.visited
  · rw [look_of_visited he.1 (hseen.2 hv)] at h
    cases h
    exact ⟨v, look_of_visited he.1 hv, hafter⟩
  · have hw := mt hseen.1 hv
    by_cases htarget : e.dst.key = q.target.key
    · obtain ⟨w', hlook, hfound⟩ := look_of_target hq he hw htarget
      obtain ⟨v₁, hlook', hfound'⟩ := look_of_target hq' he' hv (hremains.target ▸ htarget)
      cases hlook.symm.trans h
      refine ⟨v₁, hlook', ?_, ?_⟩
      · rw [trail_of_look_passed hlook, trail_of_look_passed hlook']
        exact hafter.trail
      · simp [hfound, hfound', hafter.found, hafter.trail.path]
    · obtain ⟨w', _, hlook⟩ := look_of_other he (hg.outEdges_eq he) hw htarget
      cases hlook.symm.trans h

theorem entered_without (hg : g.Closed) (hq : q.Unlimited) (hremains : q'.RemainsOf q t)
    (he : g.IsNode e.dst) (hafter : w.After t v) {node : Value} {pending : List Pending}
    (h : look g q (.ok e) w = .entered node pending w₁) :
    ∃ (edges : List Edge) (v₁ : Work), pending = edges.map .ok ∧ (∀ e ∈ edges, g.IsNode e.dst) ∧
      look (g.without t.visited) q' (.ok e) v =
        .entered node ((edges.filter (·.dst.key ∉ t.visited)).map .ok) v₁ ∧ w₁.After t v₁ := by
  obtain ⟨rfl, htarget, hfound, rfl⟩ := of_look_entered hg hq he h
  obtain ⟨htrail, hnew⟩ := trail_of_look_entered h
  obtain ⟨hkept, hv⟩ := not_or.1 (mt (hafter.trail.visited e.dst.key).2 hnew)
  have he' := Graph.isNode_without.2 ⟨he, hkept⟩
  have hout := (hg.without t.visited).outEdges_eq he'
  obtain ⟨v₁, hfound', hlook⟩ := look_of_other he' hout hv (hremains.target ▸ htarget)
  have htrail' := (trail_of_look_entered hlook).1
  have hentered : t.After w₁.trail v₁.trail := by
    rw [htrail, htrail']
    exact hafter.trail.enter e.dst
  obtain ⟨edges, hedges, hnodes, hfrom⟩ := edgesFrom_without hg hremains hentered he hkept
  rw [htrail'] at hfrom
  exact ⟨edges, v₁, hedges, hnodes, hfrom ▸ hlook, hentered, by rw [hfound, hfound', hafter.found]⟩

theorem Explores.without (hg : g.Closed) (hq : q.Unlimited) (hq' : q'.Unlimited)
    (hremains : q'.RemainsOf q t) {pending : List Pending} {w' : Work}
    (h : Explores g q pending w (.ok ()) w') {edges : List Edge}
    (hpending : edges.map .ok = pending) (hnodes : ∀ e ∈ edges, g.IsNode e.dst)
    (hafter : w.After t v) :
    ∃ v', Explores (g.without t.visited) q' ((edges.filter (·.dst.key ∉ t.visited)).map .ok) v
      (.ok ()) v' ∧ w'.After t v' := by
  generalize hresult : (Except.ok () : Except Fault Unit) = result at h
  induction h generalizing edges v with
  | nil =>
    cases List.map_eq_nil_iff.1 hpending
    exact ⟨v, .nil, hafter⟩
  | failed => cases hresult
  | @passed x rest w w₁ result w' hlook _ ih =>
    obtain ⟨e, edges, rfl, rfl, rfl⟩ := List.map_eq_cons_iff.1 hpending
    obtain ⟨he, hnodes⟩ := List.forall_mem_cons.1 hnodes
    by_cases hgone : e.dst.key ∈ t.visited
    · -- The smaller graph does not have this edge, and has nothing to do.
      rw [look_of_visited he.1 ((hafter.trail.visited _).2 (.inl hgone))] at hlook
      cases hlook
      rw [List.filter_cons_of_neg (by simpa using hgone)]
      exact ih rfl hnodes hafter hresult
    · obtain ⟨v₁, hlook', hafter₁⟩ := passed_without hg hq hq' hremains he hgone hafter hlook
      obtain ⟨v', hexplores, hafter'⟩ := ih rfl hnodes hafter₁ hresult
      rw [List.filter_cons_of_pos (by simpa using hgone)]
      exact ⟨v', .passed hlook' hexplores, hafter'⟩
  | stopped => cases hresult
  | broken => cases hresult
  | cancelled => cases hresult
  | @returned x rest w node pending w₁ w₂ w₃ w₄ result w' hlook hpoll hexplores hpoll' _ ih ih' =>
    obtain ⟨e, edges, rfl, rfl, rfl⟩ := List.map_eq_cons_iff.1 hpending
    obtain ⟨he, hnodes⟩ := List.forall_mem_cons.1 hnodes
    rw [hq.poll_eq] at hpoll hpoll'
    cases hpoll
    cases hpoll'
    obtain ⟨edges', v₁, rfl, hnodes', hlook', hafter₁⟩ :=
      entered_without hg hq hremains he hafter hlook
    obtain ⟨v₃, hexplores', hafter₃⟩ := ih rfl hnodes' hafter₁ rfl
    have hleave : w₃.leave.After t v₃.leave := by
      refine ⟨?_, hafter₃.found⟩
      rw [leave_of_look_entered hlook hexplores.trail_eq,
        leave_of_look_entered hlook' hexplores'.trail_eq]
      exact hafter.trail
    obtain ⟨v', hrest, hafter'⟩ := ih' rfl hnodes hleave hresult
    have hkept : e.dst.key ∉ t.visited := by
      obtain ⟨rfl, _⟩ := of_look_entered hg hq he hlook
      exact fun hgone => (trail_of_look_entered hlook).2 ((hafter.trail.visited _).2 (.inl hgone))
    rw [List.filter_cons_of_pos (by simpa using hkept)]
    exact ⟨v', .returned hlook' (hq'.poll_eq _) hexplores' (hq'.poll_eq _) hrest, hafter'⟩

theorem Descends.without (hg : g.Closed) (hq : q.Unlimited) (hq' : q'.Unlimited)
    (hremains : q'.RemainsOf q t) {id : Value} {w' : Work} (h : Descends g q id w (.ok ()) w')
    (hid : g.IsNode id) (hkept : id.key ∉ t.visited) (hafter : w.After t v) :
    ∃ v', Descends (g.without t.visited) q' id v (.ok ()) v' ∧
      w'.found.toList = v'.found.toList.map (t.path ++ ·) := by
  have hentered := hafter.trail.enter id
  generalize hresult : (Except.ok () : Except Fault Unit) = result at h
  cases h with
  | full => cases hresult
  | target htarget hrecord =>
    rw [hq.record_eq] at hrecord
    cases hrecord
    refine ⟨_, .target (hremains.target ▸ htarget) (hq'.record_eq _), ?_⟩
    simp [Work.leave, Work.enter, hafter.found, hafter.trail.path]
  | closed => cases hresult
  | stopped => cases hresult
  | @explored _ w₁ _ _ _ htarget hexpand hpoll hexplores =>
    cases hresult
    rw [hq.poll_eq] at hpoll
    cases hpoll
    have hout := (hg.without t.visited).outEdges_eq (Graph.isNode_without.2 ⟨hid, hkept⟩)
    obtain ⟨w₂, htrail, hfound, hexpanded⟩ :=
      Query.expand_eq (q := q) (hg.outEdges_eq hid) (w.enter id)
    obtain ⟨v₁, htrail', hfound', hexpand'⟩ := q'.expand_eq hout (v.enter id)
    rw [hexpanded] at hexpand
    cases hexpand
    obtain ⟨edges, hedges, hnodes, hfrom⟩ := edgesFrom_without hg hremains hentered hid hkept
    have hafter₁ : w₁.After t v₁ := by
      refine ⟨?_, ?_⟩
      · rw [htrail, htrail']
        exact hentered
      · rw [hfound, hfound']
        exact hafter.found
    obtain ⟨v', hexplores', hafter'⟩ :=
      hexplores.without hg hq hq' hremains hedges.symm hnodes hafter₁
    rw [← hfrom] at hexplores'
    exact ⟨_, .explored (hremains.target ▸ htarget) hexpand' (hq'.poll_eq _) hexplores',
      hafter'.found⟩

theorem Yields.without (hg : g.Closed) (hq : q.Unlimited) (hq' : q'.Unlimited)
    (hremains : q'.RemainsOf q t) {current : Value} {polls : Nat} {r : Except Fault (List Path)}
    (h : Yields g q current t polls r) (hnode : g.IsNode current) (hnew : current.key ∉ t.visited)
    (polls' : Nat) :
    ∃ paths, Yields (g.without t.visited) q' current {} polls' (.ok paths) ∧
      r = .ok (paths.map (t.path ++ ·)) := by
  obtain ⟨result, w, hdescends, rfl⟩ := (yields_iff_descends hnode hnew).1 h
  obtain ⟨rfl, _⟩ := hdescends.lists hg hq hnode
  have hafter : (Work.note { trail := t, polls } (.has current)).After t
      (Work.note { polls := polls' } (.has current)) :=
    ⟨⟨(List.append_nil _).symm, fun k => by simp⟩, rfl⟩
  obtain ⟨v, hdescends', hfound⟩ := hdescends.without hg hq hq' hremains hnode hnew hafter
  refine ⟨v.found.toList, ?_, congrArg Except.ok hfound⟩
  exact (yields_iff_descends (Graph.isNode_without.2 ⟨hnode, hnew⟩) List.not_mem_nil).2
    ⟨_, _, hdescends', rfl⟩

end

end Search

namespace Enumerator

/-- A search that is given a trail finds the paths of a search on an empty trail in the graph
without the visited nodes, each behind the route so far, which takes its share of the depth
bound. -/
theorem search_eq_without {e : Enumerator} {g : Graph} {current target : Value} {trail : Trail}
    (hclosed : g.Closed) (hpaths : e.config.maxPaths = none) (hcheck : e.config.check = none)
    (bound : Option Int) (hdepth : e.config.maxDepth = bound.map .int) (hnode : g.IsNode current)
    (hnew : current.key ∉ trail.visited)
    (ends : Search.Ends g (e.config.query target 0) current { trail, polls := e.polls }) :
    let rest := e.withDepth (bound.map fun d => .int (d - trail.path.length))
    ∃ ends' paths,
      (rest.search (g.without trail.visited) current target {} ends').2.result = .ok paths ∧
        (e.search g current target trail ends).2.result = .ok (paths.map (trail.path ++ ·)) := by
  intro rest
  have hremains : (rest.config.query target 0).RemainsOf (e.config.query target 0) trail := by
    refine ⟨rfl, fun n => ?_⟩
    have hshallow := Search.Query.isDeep_eq_false (q := e.config.query target 0) bound hdepth
      (trail.path.length + n)
    have hshallow' := Search.Query.isDeep_eq_false (q := rest.config.query target 0)
      (bound.map (· - (trail.path.length : Int))) (Option.map_map _ _ bound).symm n
    rw [Bool.eq_iff_iff, ← not_iff_not, Bool.not_eq_true, Bool.not_eq_true, hshallow, hshallow']
    simp only [Option.mem_map, forall_exists_index, and_imp, forall_apply_eq_imp_iff₂]
    exact forall₂_congr fun d _ => by omega
  have hyields : Search.Yields g (e.config.query target 0) current trail e.polls
      (e.search g current target trail ends).2.result := ⟨ends, rfl⟩
  obtain ⟨paths, ⟨ends', hsearch⟩, hresult⟩ :=
    hyields.without hclosed ⟨hpaths, hcheck⟩ ⟨hpaths, hcheck⟩ hremains hnode hnew rest.polls
  exact ⟨ends', paths, hsearch, hresult⟩

theorem searchOn_doubled_without :
    let e : Enumerator :=
      { sources := .list [], sinks := .list [], config := { maxDepth := some (.int 5) } }
    let trail : Trail := { path := [.text "z", .text "c"], visited := [Value.key (.text "c")] }
    let paths := [["a", "b", "d"], ["a", "b", "d"]].map (·.map Value.text)
    (e.searchOn doubled.toGraph (.text "a") (.text "d") trail).2.result =
        .ok (paths.map (trail.path ++ ·)) ∧
      ∃ ends', ((e.withDepth (some (.int 3))).search (doubled.toGraph.without trail.visited)
        (.text "a") (.text "d") {} ends').2.result = .ok paths := by
  intro e trail paths
  have hreturns : (e.searchOn doubled.toGraph (.text "a") (.text "d") trail).2.result =
      .ok (paths.map (trail.path ++ ·)) := by
    subst e trail paths
    cbv
  have hnode : doubled.toGraph.IsNode (.text "a") := ⟨rfl, rfl⟩
  have hnew : Value.key (.text "a") ∉ trail.visited := by decide
  refine ⟨hreturns, ?_⟩
  obtain ⟨ends', paths', hsearch, hresult⟩ := search_eq_without (e := e)
    doubled_reachable.wellFormed.closed rfl rfl (some 5) rfl hnode hnew
    (doubled.toGraph.ends (e.config.query (.text "d") 0) _ _)
  have hsame : paths.map (trail.path ++ ·) = paths'.map (trail.path ++ ·) :=
    Except.ok.inj (hreturns.symm.trans hresult)
  rw [List.map_injective_iff.2 (List.append_right_injective _) hsame]
  exact ⟨ends', hsearch⟩

end Enumerator

end FlowPaths
