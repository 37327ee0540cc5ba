import Mathlib.Data.List.Lex
import FlowPaths.Proofs.Graph.Route
import FlowPaths.Proofs.Search.Simulation

/-!
What a search without limits finds in a graph without loose ends: the paths of all routes to its
target that do not come back to a node, in the lexicographic order of the routes.
-/

namespace FlowPaths

namespace Trail

@[simp] theorem path_enter (t : Trail) (v : Value) : (t.enter v).path = t.path ++ [v] := rfl

@[simp] theorem length_path_enter (t : Trail) (v : Value) :
    (t.enter v).path.length = t.path.length + 1 := by
  simp

@[simp] theorem mem_visited_enter {t : Trail} {v : Value} {k : Key} :
    k ∈ (t.enter v).visited ↔ k = v.key ∨ k ∈ t.visited :=
  List.mem_insert_iff

theorem unvisited_enter {t : Trail} {v : Value} {p : Path} :
    (∀ u ∈ p, u.key ∉ (t.enter v).visited) ↔
      v.key ∉ p.map Value.key ∧ ∀ u ∈ p, u.key ∉ t.visited := by
  simp only [mem_visited_enter, not_or, forall_and, List.mem_map, not_exists, not_and]

end Trail

/-- The paths are those that the relation gives to a route, in the order of the routes. -/
def Lists (P : List Nat → Path → Prop) (paths : List Path) : Prop :=
  ∃ routes : List (List Nat × Path), routes.map Prod.snd = paths ∧
    routes.Pairwise (fun a b => List.Lex (· < ·) a.1 b.1) ∧ ∀ r p, (r, p) ∈ routes ↔ P r p

namespace Lists

variable {P Q : List Nat → Path → Prop} {paths paths' : List Path}

theorem congr (h : Lists P paths) (hPQ : ∀ r p, P r p ↔ Q r p) : Lists Q paths := by
  obtain ⟨routes, hpaths, horder, hmem⟩ := h
  exact ⟨routes, hpaths, horder, fun r p => (hmem r p).trans (hPQ r p)⟩

theorem nil (h : ∀ r p, ¬P r p) : Lists P [] :=
  ⟨[], rfl, .nil, fun r p => ⟨fun hrp => absurd hrp List.not_mem_nil, fun hP => absurd hP (h r p)⟩⟩

theorem singleton {r : List Nat} {p : Path} (h : ∀ r' p', P r' p' ↔ r' = r ∧ p' = p) :
    Lists P [p] :=
  ⟨[(r, p)], rfl, List.pairwise_singleton _ _, fun r' p' => by simp [h]⟩

theorem append (h : Lists P paths) (h' : Lists Q paths')
    (hlt : ∀ r p r' p', P r p → Q r' p' → List.Lex (· < ·) r r') :
    Lists (fun r p => P r p ∨ Q r p) (paths ++ paths') := by
  obtain ⟨routes, rfl, horder, hmem⟩ := h
  obtain ⟨routes', rfl, horder', hmem'⟩ := h'
  refine ⟨routes ++ routes', List.map_append, ?_, fun r p => ?_⟩
  · rw [List.pairwise_append]
    refine ⟨horder, horder', ?_⟩
    intro ⟨r, p⟩ hrp ⟨r', p'⟩ hrp'
    exact hlt r p r' p' ((hmem r p).1 hrp) ((hmem' r' p').1 hrp')
  · rw [List.mem_append, hmem, hmem']

theorem cons (h : Lists P paths) (i : Nat) :
    Lists (fun r p => ∃ s, r = i :: s ∧ P s p) paths := by
  obtain ⟨routes, rfl, horder, hmem⟩ := h
  refine ⟨routes.map fun route => (i :: route.1, route.2), ?_, ?_, fun r p => ?_⟩
  · rw [List.map_map]
    rfl
  · rw [List.pairwise_map]
    exact horder.imp .cons
  · constructor
    · intro hrp
      obtain ⟨⟨s, p'⟩, hs, heq⟩ := List.mem_map.1 hrp
      cases heq
      exact ⟨s, rfl, (hmem s p').1 hs⟩
    · rintro ⟨s, rfl, hP⟩
      exact List.mem_map.2 ⟨(s, p), (hmem s p).2 hP, rfl⟩

end Lists

namespace Search

def Query.Unlimited (q : Query) : Prop := q.maxPaths = none ∧ q.check = none

section

variable (g : Graph) (q : Query)

/-- The node is entered after the trail, and the route from it completes a path to the target. -/
inductive Completes : Trail → Value → List Nat → Path → Prop
  | target {t v} : v.key = q.target.key → Completes t v [] (t.path ++ [v])
  | hop {t v i e r p} : v.key ≠ q.target.key → q.isDeep (t.enter v).path.length = false →
      (g.edgesOut v)[i]? = some e → e.dst.key ∉ (t.enter v).visited →
      Completes (t.enter v) e.dst r p → Completes t v (i :: r) p

/-- The node is the last one of the trail, and the route from it, by an edge at position `k` or
later, completes a path to the target. -/
def Continues (t : Trail) (v : Value) (k : Nat) (r : List Nat) (p : Path) : Prop :=
  q.isDeep t.path.length = false ∧ ∃ i e s, r = i :: s ∧ k ≤ i ∧ (g.edgesOut v)[i]? = some e ∧
    e.dst.key ∉ t.visited ∧ Completes g q t e.dst s p

end

section

variable {g : Graph} {q : Query} {t : Trail} {v : Value} {k : Nat} {r : List Nat} {p : Path}

theorem completes_of_target (h : v.key = q.target.key) :
    Completes g q t v r p ↔ r = [] ∧ p = t.path ++ [v] := by
  constructor
  · intro hc
    cases hc with
    | target => exact ⟨rfl, rfl⟩
    | hop hne => exact absurd h hne
  · rintro ⟨rfl, rfl⟩
    exact .target h

theorem completes_of_ne_target (h : v.key ≠ q.target.key) :
    Completes g q t v r p ↔ Continues g q (t.enter v) v 0 r p := by
  constructor
  · intro hc
    cases hc with
    | target heq => exact absurd heq h
    | hop _ hdeep hedge hnew hc => exact ⟨hdeep, _, _, _, rfl, Nat.zero_le _, hedge, hnew, hc⟩
  · rintro ⟨hdeep, i, e, s, rfl, _, hedge, hnew, hc⟩
    exact .hop h hdeep hedge hnew hc

theorem continues_of_deep (h : q.isDeep t.path.length = true) : ¬Continues g q t v k r p := by
  rintro ⟨hdeep, _⟩
  rw [h] at hdeep
  cases hdeep

theorem continues_of_length_le (h : (g.edgesOut v).length ≤ k) : ¬Continues g q t v k r p := by
  rintro ⟨_, i, e, s, _, hi, hedge, _⟩
  rw [List.getElem?_eq_none (h.trans hi)] at hedge
  cases hedge

theorem continues_iff {e : Edge} (hdeep : q.isDeep t.path.length = false)
    (hedge : (g.edgesOut v)[k]? = some e) :
    Continues g q t v k r p ↔
      (∃ s, r = k :: s ∧ e.dst.key ∉ t.visited ∧ Completes g q t e.dst s p) ∨
        Continues g q t v (k + 1) r p := by
  constructor
  · rintro ⟨_, i, e', s, rfl, hi, hedge', hnew, hc⟩
    obtain rfl | hlt := Nat.eq_or_lt_of_le hi
    · cases hedge.symm.trans hedge'
      exact .inl ⟨s, rfl, hnew, hc⟩
    · exact .inr ⟨hdeep, i, e', s, rfl, hlt, hedge', hnew, hc⟩
  · rintro (⟨s, rfl, hnew, hc⟩ | ⟨_, i, e', s, rfl, hi, hedge', hnew, hc⟩)
    · exact ⟨hdeep, k, e, s, rfl, Nat.le_refl k, hedge, hnew, hc⟩
    · exact ⟨hdeep, i, e', s, rfl, Nat.le_of_succ_le hi, hedge', hnew, hc⟩

theorem lists_continues {e : Edge} {first later : List Path}
    (hdeep : q.isDeep t.path.length = false) (hedge : (g.edgesOut v)[k]? = some e)
    (hfirst : Lists (fun s p => e.dst.key ∉ t.visited ∧ Completes g q t e.dst s p) first)
    (hlater : Lists (Continues g q t v (k + 1)) later) :
    Lists (Continues g q t v k) (first ++ later) := by
  refine ((hfirst.cons k).append hlater ?_).congr fun r p => (continues_iff hdeep hedge).symm
  rintro _ p _ p' ⟨s, rfl, _⟩ ⟨_, i, e', s', rfl, hi, _⟩
  exact .rel hi

end

namespace Query.Unlimited

variable {q : Query} (h : q.Unlimited)

include h

theorem poll_eq (w : Work) : q.poll w = (.ok (), w) := by
  simp [poll, h.2]

theorem record_eq (w : Work) : q.record w = .ok { w with found := w.found.push w.trail.path } := by
  simp [record, isFull, h.1]

end Query.Unlimited

section

variable {g : Graph} {q : Query}

def edgesFrom (g : Graph) (q : Query) (t : Trail) (v : Value) (k : Nat) : List Pending :=
  if q.isDeep t.path.length then [] else ((g.edgesOut v).drop k).map .ok

theorem continues_of_edgesFrom_nil {t : Trail} {v : Value} {k : Nat} {r : List Nat} {p : Path}
    (h : edgesFrom g q t v k = []) : ¬Continues g q t v k r p := by
  unfold edgesFrom at h
  split at h
  · exact continues_of_deep ‹_›
  · apply continues_of_length_le
    simpa using h

theorem edgesFrom_eq_cons (hg : g.Closed) {t : Trail} {v : Value} (hv : g.IsNode v) {k : Nat}
    {x : Pending} {rest : List Pending} (h : edgesFrom g q t v k = x :: rest) :
    q.isDeep t.path.length = false ∧ ∃ e, x = .ok e ∧ (g.edgesOut v)[k]? = some e ∧
      g.IsNode e.dst ∧ edgesFrom g q t v (k + 1) = rest := by
  unfold edgesFrom at h ⊢
  cases hdeep : q.isDeep t.path.length with
  | true => simp [hdeep] at h
  | false =>
    simp only [hdeep, Bool.false_eq_true, if_false] at h ⊢
    obtain ⟨e, edges, hdrop, rfl, rfl⟩ := List.map_eq_cons_iff.1 h
    have hget : (g.edgesOut v)[k]? = some e := by
      rw [← List.head?_drop, hdrop]
      rfl
    refine ⟨trivial, e, rfl, hget, hg.isNode_dst hv (List.mem_of_getElem? hget), ?_⟩
    rw [← List.tail_drop, hdrop]
    rfl

theorem Query.expand_eq {v : Value} (hout : g.outEdges v = .ok ((g.edgesOut v).map .ok))
    (w : Work) :
    ∃ w', w'.trail = w.trail ∧ w'.found = w.found ∧
      q.expand g v w = (.ok (edgesFrom g q w.trail v 0), w') := by
  unfold expand edgesFrom
  split
  · exact ⟨w, rfl, rfl, rfl⟩
  · exact ⟨w.note (.out v), rfl, rfl, by rw [hout]; rfl⟩

section

variable {e : Edge} {w : Work}

theorem look_of_visited (hhash : e.dst.hashable = true) (hv : e.dst.key ∈ w.trail.visited) :
    look g q (.ok e) w = .passed w := by
  simp [look, hhash, hv]

theorem look_of_target (hq : q.Unlimited) (he : g.IsNode e.dst)
    (hnew : e.dst.key ∉ w.trail.visited) (htarget : e.dst.key = q.target.key) :
    ∃ w', look g q (.ok e) w = .passed w' ∧
      w'.found.toList = w.found.toList ++ [w.trail.path ++ [e.dst]] := by
  have hedge : LeadsOn g e w := ⟨he.1, hnew, he.2⟩
  have hlook := look_of_leadsOn (q := q) hedge
  simp only [Value.same_iff, htarget, if_true, hq.record_eq] at hlook
  exact ⟨_, hlook, by simp [Work.leave, Work.enter, Work.note, Trail.enter]⟩

theorem look_of_other (he : g.IsNode e.dst)
    (hout : g.outEdges e.dst = .ok ((g.edgesOut e.dst).map .ok))
    (hnew : e.dst.key ∉ w.trail.visited) (htarget : e.dst.key ≠ q.target.key) :
    ∃ w', w'.found = w.found ∧ look g q (.ok e) w =
      .entered e.dst (edgesFrom g q (w.trail.enter e.dst) e.dst 0) w' := by
  obtain ⟨w', _, hfound, hexpand⟩ :=
    Query.expand_eq (q := q) hout ((w.note (.has e.dst)).enter e.dst)
  refine ⟨w', hfound, ?_⟩
  rw [look_of_leadsOn ⟨he.1, hnew, he.2⟩, hexpand]
  simp only [Value.same_iff, htarget, if_false]
  rfl

theorem look_ne_failed (hg : g.Closed) (hq : q.Unlimited) (he : g.IsNode e.dst) (fault : Fault)
    (w' : Work) : look g q (.ok e) w ≠ .failed fault w' := by
  intro h
  by_cases hv : e.dst.key ∈ w.trail.visited
  · rw [look_of_visited he.1 hv] at h
    cases h
  · by_cases htarget : e.dst.key = q.target.key
    · obtain ⟨w', hlook, _⟩ := look_of_target hq he hv htarget
      rw [hlook] at h
      cases h
    · obtain ⟨w', _, hlook⟩ := look_of_other he (hg.outEdges_eq he) hv htarget
      rw [hlook] at h
      cases h

theorem lists_of_look_passed (hg : g.Closed) (hq : q.Unlimited) (he : g.IsNode e.dst) {w₁ : Work}
    (h : look g q (.ok e) w = .passed w₁) :
    ∃ first, w₁.found.toList = w.found.toList ++ first ∧
      Lists (fun s p => e.dst.key ∉ w.trail.visited ∧ Completes g q w.trail e.dst s p) first := by
  by_cases hv : e.dst.key ∈ w.trail.visited
  · rw [look_of_visited he.1 hv] at h
    cases h
    exact ⟨[], by simp, Lists.nil fun s p hsp => hsp.1 hv⟩
  · by_cases htarget : e.dst.key = q.target.key
    · obtain ⟨w', hlook, hfound⟩ := look_of_target hq he hv htarget
      rw [hlook] at h
      cases h
      refine ⟨_, hfound, Lists.singleton (r := []) fun s p => ?_⟩
      simp only [hv, not_false_eq_true, true_and, completes_of_target htarget]
    · obtain ⟨w', _, hlook⟩ := look_of_other he (hg.outEdges_eq he) hv htarget
      rw [hlook] at h
      cases h

theorem of_look_entered (hg : g.Closed) (hq : q.Unlimited) (he : g.IsNode e.dst) {w₁ : Work}
    {node : Value} {pending : List Pending} (h : look g q (.ok e) w = .entered node pending w₁) :
    node = e.dst ∧ e.dst.key ≠ q.target.key ∧ w₁.found = w.found ∧
      edgesFrom g q w₁.trail e.dst 0 = pending := by
  by_cases hv : e.dst.key ∈ w.trail.visited
  · rw [look_of_visited he.1 hv] at h
    cases h
  · by_cases htarget : e.dst.key = q.target.key
    · obtain ⟨w', hlook, _⟩ := look_of_target hq he hv htarget
      rw [hlook] at h
      cases h
    · obtain ⟨w', hfound, hlook⟩ := look_of_other he (hg.outEdges_eq he) hv htarget
      have htrail := (trail_of_look_entered hlook).1
      rw [hlook] at h
      cases h
      exact ⟨rfl, htarget, hfound, by rw [htrail]⟩

end

theorem Explores.lists {pending : List Pending} {w w' : Work} {result : Except Fault Unit}
    (hg : g.Closed) (hq : q.Unlimited) (h : Explores g q pending w result w') {v : Value} {k : Nat}
    (hv : g.IsNode v) (hpending : edgesFrom g q w.trail v k = pending) :
    result = .ok () ∧ ∃ new, w'.found.toList = w.found.toList ++ new ∧
      Lists (Continues g q w.trail v k) new := by
  induction h generalizing v k with
  | nil => exact ⟨rfl, [], by simp, Lists.nil fun r p => continues_of_edgesFrom_nil hpending⟩
  | failed hlook =>
    obtain ⟨_, e, rfl, _, he, _⟩ := edgesFrom_eq_cons hg hv hpending
    exact absurd hlook (look_ne_failed hg hq he _ _)
  | passed hlook _ ih =>
    obtain ⟨hdeep, e, rfl, hedge, he, hrest⟩ := edgesFrom_eq_cons hg hv hpending
    obtain ⟨first, hfirst, hlists⟩ := lists_of_look_passed hg hq he hlook
    rw [trail_of_look_passed hlook] at ih
    obtain ⟨hresult, later, hlater, hlists'⟩ := ih hv hrest
    refine ⟨hresult, first ++ later, ?_, lists_continues hdeep hedge hlists hlists'⟩
    rw [hlater, hfirst, List.append_assoc]
  | stopped _ hpoll => simp [hq.poll_eq] at hpoll
  | broken hlook hpoll _ ih =>
    obtain ⟨_, e, rfl, _, he, _⟩ := edgesFrom_eq_cons hg hv hpending
    obtain ⟨rfl, _, _, hbelow⟩ := of_look_entered hg hq he hlook
    rw [Query.trail_of_poll hpoll] at ih
    exact nomatch (ih he hbelow).1
  | cancelled _ _ _ hpoll' => simp [hq.poll_eq] at hpoll'
  | @returned x rest w node pending w₁ w₂ w₃ w₄ result w' hlook hpoll hexplores hpoll' _ ih ih' =>
    obtain ⟨hdeep, e, rfl, hedge, he, hrest⟩ := edgesFrom_eq_cons hg hv hpending
    obtain ⟨rfl, htarget, hfound, hbelow⟩ := of_look_entered hg hq he hlook
    obtain ⟨htrail, hnew⟩ := trail_of_look_entered hlook
    rw [hq.poll_eq] at hpoll hpoll'
    cases hpoll
    cases hpoll'
    obtain ⟨_, first, hfirst, hlists⟩ := ih he hbelow
    have hback : w₃.leave.trail = w.trail := leave_of_look_entered hlook hexplores.trail_eq
    rw [hback] at ih'
    obtain ⟨hresult, later, hlater, hlists'⟩ := ih' hv hrest
    refine ⟨hresult, first ++ later, ?_, lists_continues hdeep hedge ?_ hlists'⟩
    · rw [hlater, show w₃.leave.found = w₃.found from rfl, hfirst, hfound, List.append_assoc]
    · refine hlists.congr fun s p => ?_
      rw [htrail, completes_of_ne_target htarget]
      simp only [hnew, not_false_eq_true, true_and]

theorem Descends.lists {v : Value} {w w' : Work} {result : Except Fault Unit} (hg : g.Closed)
    (hq : q.Unlimited) (h : Descends g q v w result w') (hv : g.IsNode v) :
    result = .ok () ∧ ∃ new, w'.found.toList = w.found.toList ++ new ∧
      Lists (Completes g q w.trail v) new := by
  cases h with
  | full _ hrecord => simp [hq.record_eq] at hrecord
  | target htarget hrecord =>
    rw [hq.record_eq] at hrecord
    cases hrecord
    refine ⟨rfl, [w.trail.path ++ [v]], by simp [Work.leave, Work.enter, Trail.enter], ?_⟩
    exact Lists.singleton fun r p => completes_of_target htarget
  | closed htarget hexpand =>
    obtain ⟨w', _, _, hexpand'⟩ := Query.expand_eq (q := q) (hg.outEdges_eq hv) (w.enter v)
    rw [hexpand'] at hexpand
    cases hexpand
  | stopped _ _ hpoll => simp [hq.poll_eq] at hpoll
  | explored htarget hexpand hpoll hexplores =>
    obtain ⟨w₁, htrail, hfound, hexpand'⟩ :=
      Query.expand_eq (q := q) (hg.outEdges_eq hv) (w.enter v)
    rw [hexpand'] at hexpand
    cases hexpand
    rw [hq.poll_eq] at hpoll
    cases hpoll
    obtain ⟨hresult, new, hnew, hlists⟩ := hexplores.lists hg hq hv (by rw [htrail])
    refine ⟨hresult, new, ?_, hlists.congr fun r p => ?_⟩
    · change _ = (w.enter v).found.toList ++ new
      rw [← hfound]
      exact hnew
    · rw [htrail, completes_of_ne_target htarget]
      rfl

end

/-- The nodes may follow the trail and lead to the target: none comes twice or, but for the first,
was visited, and no way on is cut off by the depth bound. -/
structure Query.Admits (q : Query) (t : Trail) (p : Path) : Prop where
  nodup : (p.map Value.key).Nodup
  unvisited : ∀ v ∈ p.tail, v.key ∉ t.visited
  ends : p.getLast?.map Value.key = some q.target.key
  shallow : ∀ n, t.path.length < n → n < t.path.length + p.length → q.isDeep n = false

section

variable {g : Graph} {q : Query}

theorem Query.shallow_enter {t : Trail} {v u : Value} {p : Path} :
    (∀ n, t.path.length < n → n < t.path.length + (v :: u :: p).length → q.isDeep n = false) ↔
      q.isDeep (t.enter v).path.length = false ∧
        ∀ n, (t.enter v).path.length < n → n < (t.enter v).path.length + (u :: p).length →
          q.isDeep n = false := by
  simp only [Trail.length_path_enter, List.length_cons]
  constructor
  · intro h
    exact ⟨h _ (by omega) (by omega), fun n hlt hle => h n (by omega) (by omega)⟩
  · rintro ⟨hdeep, h⟩ n hlt hle
    obtain rfl | hlt' := Nat.eq_or_lt_of_le hlt
    · exact hdeep
    · exact h n hlt' (by omega)

theorem Completes.follow_admits {t : Trail} {v : Value} {r : List Nat} {p : Path}
    (h : Completes g q t v r p) :
    ∃ ns, g.follow v r = some ns ∧ q.Admits t ns ∧ p = t.path ++ ns := by
  induction h with
  | @target t v htarget =>
    refine ⟨[v], rfl, ⟨by simp, by simp, by simp [htarget], ?_⟩, rfl⟩
    intro n hlt hle
    simp only [List.length_singleton] at hle
    omega
  | @hop t v i e r p htarget hdeep hedge hnew _ ih =>
    obtain ⟨ns, hfollow, hadmits, rfl⟩ := ih
    obtain ⟨ns, rfl⟩ := Graph.follow_head hfollow
    obtain ⟨hother, hunvisited⟩ :=
      Trail.unvisited_enter.1 (List.forall_mem_cons.2 ⟨hnew, hadmits.unvisited⟩)
    refine ⟨v :: e.dst :: ns, by simp [Graph.follow, hedge, hfollow],
      ⟨?_, hunvisited, ?_, Query.shallow_enter.2 ⟨hdeep, hadmits.shallow⟩⟩, by simp⟩
    · rw [List.map_cons, List.nodup_cons]
      exact ⟨hother, hadmits.nodup⟩
    · rw [List.getLast?_cons_cons]
      exact hadmits.ends

theorem Query.Admits.completes {t : Trail} {v : Value} {r : List Nat} {ns : Path}
    (h : q.Admits t ns) (hfollow : g.follow v r = some ns) :
    Completes g q t v r (t.path ++ ns) := by
  induction r generalizing t v ns with
  | nil =>
    cases hfollow
    exact .target (by simpa using h.ends)
  | cons i r ih =>
    simp only [Graph.follow] at hfollow
    split at hfollow
    · cases hfollow
    · rename_i e hedge
      obtain ⟨ns, hrest, rfl⟩ := Option.map_eq_some_iff.1 hfollow
      obtain ⟨ns, rfl⟩ := Graph.follow_head hrest
      have hnodup := h.nodup
      rw [List.map_cons, List.nodup_cons] at hnodup
      have hends := h.ends
      rw [List.getLast?_cons_cons] at hends
      obtain ⟨hnew, hunvisited⟩ := List.forall_mem_cons.1
        (Trail.unvisited_enter.2 ⟨hnodup.1, h.unvisited⟩)
      obtain ⟨hdeep, hshallow⟩ := Query.shallow_enter.1 h.shallow
      have hcompletes := ih ⟨hnodup.2, hunvisited, hends, hshallow⟩ hrest
      rw [Trail.path_enter, List.append_assoc] at hcompletes
      refine .hop ?_ hdeep hedge hnew hcompletes
      intro htarget
      obtain ⟨u, hu, hkey⟩ := Option.map_eq_some_iff.1 hends
      apply hnodup.1
      rw [htarget, ← hkey]
      exact List.mem_map_of_mem (List.mem_of_getLast? hu)

theorem completes_iff {t : Trail} {v : Value} {r : List Nat} {p : Path} :
    Completes g q t v r p ↔ ∃ ns, g.follow v r = some ns ∧ q.Admits t ns ∧ p = t.path ++ ns := by
  constructor
  · exact Completes.follow_admits
  · rintro ⟨ns, hfollow, hadmits, rfl⟩
    exact hadmits.completes hfollow

end

end Search

end FlowPaths
