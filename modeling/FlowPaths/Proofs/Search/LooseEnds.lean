import FlowPaths.Proofs.Search.Depth
import FlowPaths.Proofs.Search.Polling

/-!
Searches of graphs with loose ends, which are edges to what is no node.  If nothing else is wrong
with the graph, a search fails just when it comes to a loose end; and it comes to those that lie
behind a route that comes back to no node, keeps away from the target and stays below the depth
bound.
-/

namespace FlowPaths

namespace Graph

structure Answers (g : Graph) : Prop where
  hasNode : ∀ v : Value, v.hashable = true → ∃ known, g.hasNode v = .ok known
  outEdges : ∀ v, g.IsNode v →
    ∃ edges : List Edge, g.outEdges v = .ok (edges.map .ok) ∧ ∀ e ∈ edges, e.dst.hashable = true

structure LooseEnd (g : Graph) (bound : Option Int) (s t : Value) (p : Path) (edge : Edge) :
    Prop where
  joined : ∃ r, g.follow s r = some p
  nodes : ∀ v ∈ p, g.IsNode v
  nodup : (p.map Value.key).Nodup
  avoids : ∀ v ∈ p, v.key ≠ t.key
  shallow : ∀ d ∈ bound, (p.length : Int) < d
  last : ∃ v ∈ p.getLast?, edge ∈ g.edgesOut v
  outside : g.hasNode edge.dst = .ok false

/-- There is a loose end to come to.  An edge to a name that is equal to one on the path would be
passed. -/
def HasLooseEnd (g : Graph) (bound : Option Int) (s t : Value) : Prop :=
  ∃ p edge, g.LooseEnd bound s t p edge ∧ ∀ v ∈ p, v.key ≠ edge.dst.key

variable {g : Graph} {v : Value}

theorem Answers.outEdges_eq (hg : g.Answers) (hv : g.IsNode v) :
    g.outEdges v = .ok ((g.edgesOut v).map .ok) := by
  obtain ⟨edges, hout, _⟩ := hg.outEdges v hv
  rw [edgesOut_of_outEdges hout, hout]

theorem Answers.hashable_dst (hg : g.Answers) (hv : g.IsNode v) {e : Edge}
    (he : e ∈ g.edgesOut v) : e.dst.hashable = true := by
  obtain ⟨edges, hout, hedges⟩ := hg.outEdges v hv
  rw [edgesOut_of_outEdges hout] at he
  exact hedges e he

variable {bound : Option Int} {s t : Value}

theorem HasLooseEnd.key_ne (h : g.HasLooseEnd bound s t) : s.key ≠ t.key := by
  obtain ⟨p, edge, h, _⟩ := h
  obtain ⟨r, hfollow⟩ := h.joined
  obtain ⟨ns, rfl⟩ := follow_head hfollow
  exact h.avoids s List.mem_cons_self

theorem hasLooseEnd_iff (hkeys : ∀ u v : Value, u.key = v.key → g.hasNode u = g.hasNode v) :
    g.HasLooseEnd bound s t ↔ ∃ p edge, g.LooseEnd bound s t p edge := by
  constructor
  · rintro ⟨p, edge, h, _⟩
    exact ⟨p, edge, h⟩
  · rintro ⟨p, edge, h⟩
    refine ⟨p, edge, h, fun v hv hsame => ?_⟩
    have hnode := (h.nodes v hv).2
    rw [hkeys v edge.dst hsame, h.outside] at hnode
    cases hnode

end Graph

namespace Search

section

variable (q : Query) (g : Graph) (t : Trail)

/-- The path is that of a route from the node, which is entered after the trail, and it may be gone
up to its last node, from where the edge leads out of the graph. -/
structure Query.Escapes (v : Value) (r : List Nat) (p : Path) (edge : Edge) : Prop where
  follow : g.follow v r = some p
  skirts : q.Skirts t p
  nodes : ∀ u ∈ p.tail, g.IsNode u
  shallow : q.isDeep (t.path.length + p.length) = false
  last : ∃ u ∈ p.getLast?, edge ∈ g.edgesOut u
  unvisited : edge.dst.key ∉ t.visited
  fresh : edge.dst.key ∉ p.map Value.key
  outside : g.hasNode edge.dst = .ok false

def Query.Strays (v : Value) : Prop := ∃ r p edge, q.Escapes g t v r p edge

def Query.StraysBy (e : Edge) : Prop :=
  e.dst.key ∉ t.visited ∧ (g.hasNode e.dst = .ok false ∨ g.IsNode e.dst ∧ q.Strays g t e.dst)

end

section

variable {g : Graph} {q : Query} {t : Trail} {v : Value} {e : Edge}

theorem ok_mem_edgesFrom :
    .ok e ∈ edgesFrom g q t v 0 ↔ q.isDeep t.path.length = false ∧ e ∈ g.edgesOut v := by
  unfold edgesFrom
  cases q.isDeep t.path.length <;> simp

theorem eq_ok_of_mem_edgesFrom (hg : g.Answers) (hv : g.IsNode v) {x : Pending}
    (hx : x ∈ edgesFrom g q t v 0) : ∃ e, x = .ok e ∧ e.dst.hashable = true := by
  unfold edgesFrom at hx
  split at hx
  · cases hx
  · obtain ⟨e, he, rfl⟩ := List.mem_map.1 hx
    exact ⟨e, rfl, hg.hashable_dst hv (List.mem_of_mem_drop he)⟩

theorem Query.Escapes.nil (hne : v.key ≠ q.target.key)
    (hdeep : q.isDeep (t.enter v).path.length = false) (he : e ∈ g.edgesOut v)
    (hnew : e.dst.key ∉ (t.enter v).visited) (hout : g.hasNode e.dst = .ok false) :
    q.Escapes g t v [] [v] e := by
  rw [Trail.mem_visited_enter, not_or] at hnew
  refine ⟨rfl, skirts_singleton.2 hne, List.forall_mem_nil _, ?_, ⟨v, rfl, he⟩, hnew.2, ?_, hout⟩
  · simpa using hdeep
  · simpa using hnew.1

theorem Query.escapes_cons {i : Nat} {r : List Nat} {p : Path} {edge : Edge} :
    q.Escapes g t v (i :: r) p edge ↔
      ∃ e ns, p = v :: e.dst :: ns ∧ v.key ≠ q.target.key ∧
        q.isDeep (t.enter v).path.length = false ∧ (g.edgesOut v)[i]? = some e ∧
        e.dst.key ∉ (t.enter v).visited ∧ g.IsNode e.dst ∧
        q.Escapes g (t.enter v) e.dst r (e.dst :: ns) edge := by
  have hlength (u : Value) (ns : List Value) : (t.enter v).path.length + (u :: ns).length =
      t.path.length + (v :: u :: ns).length := by
    simp only [Trail.length_path_enter, List.length_cons]
    omega
  constructor
  · intro h
    obtain ⟨e, ns, hedge, hrest, rfl⟩ := Graph.follow_cons.1 h.follow
    obtain ⟨hne, hdeep, hnew, hskirts⟩ := skirts_cons.1 h.skirts
    obtain ⟨hnode, hnodes⟩ := List.forall_mem_cons.1 h.nodes
    have hfresh := h.fresh
    rw [List.map_cons, List.mem_cons, not_or] at hfresh
    refine ⟨e, ns, rfl, hne, hdeep, hedge, hnew, hnode, hrest, hskirts, hnodes, ?_, ?_, ?_,
      hfresh.2, h.outside⟩
    · rw [hlength]
      exact h.shallow
    · rw [← List.getLast?_cons_cons]
      exact h.last
    · rw [Trail.mem_visited_enter, not_or]
      exact ⟨hfresh.1, h.unvisited⟩
  · rintro ⟨e, ns, rfl, hne, hdeep, hedge, hnew, hnode, h⟩
    have hunvisited := h.unvisited
    rw [Trail.mem_visited_enter, not_or] at hunvisited
    refine ⟨Graph.follow_cons.2 ⟨e, ns, hedge, h.follow, rfl⟩,
      skirts_cons.2 ⟨hne, hdeep, hnew, h.skirts⟩, List.forall_mem_cons.2 ⟨hnode, h.nodes⟩, ?_, ?_,
      hunvisited.2, ?_, h.outside⟩
    · rw [← hlength]
      exact h.shallow
    · rw [List.getLast?_cons_cons]
      exact h.last
    · rw [List.map_cons, List.mem_cons, not_or]
      exact ⟨hunvisited.1, h.fresh⟩

theorem Query.strays_iff : q.Strays g t v ↔
    v.key ≠ q.target.key ∧
      ∃ e, .ok e ∈ edgesFrom g q (t.enter v) v 0 ∧ q.StraysBy g (t.enter v) e := by
  simp only [ok_mem_edgesFrom]
  constructor
  · rintro ⟨r, p, edge, h⟩
    cases r with
    | nil =>
      cases h.follow
      obtain ⟨u, hu, hedge⟩ := h.last
      cases hu
      have hnew : edge.dst.key ∉ (t.enter v).visited := by
        rw [Trail.mem_visited_enter, not_or]
        exact ⟨by simpa using h.fresh, h.unvisited⟩
      have hdeep : q.isDeep (t.enter v).path.length = false := by
        rw [Trail.length_path_enter]
        exact h.shallow
      exact ⟨skirts_singleton.1 h.skirts, edge, ⟨hdeep, hedge⟩, hnew, .inl h.outside⟩
    | cons i r =>
      obtain ⟨e, ns, rfl, hne, hdeep, hedge, hnew, hnode, h⟩ := escapes_cons.1 h
      exact ⟨hne, e, ⟨hdeep, List.mem_of_getElem? hedge⟩, hnew, .inr ⟨hnode, r, _, edge, h⟩⟩
  · rintro ⟨hne, e, ⟨hdeep, he⟩, hnew, hout | ⟨hnode, r, p, edge, h⟩⟩
    · exact ⟨[], [v], e, .nil hne hdeep he hnew hout⟩
    · obtain ⟨i, hi⟩ := List.mem_iff_getElem?.1 he
      obtain ⟨ns, rfl⟩ := Graph.follow_head h.follow
      exact ⟨i :: r, _, edge, escapes_cons.2 ⟨e, ns, rfl, hne, hdeep, hi, hnew, hnode, h⟩⟩

theorem Query.strays_iff_hasLooseEnd (bound : Option Int) (hdepth : q.maxDepth = bound.map .int)
    (hv : g.IsNode v) : q.Strays g {} v ↔ g.HasLooseEnd bound v q.target := by
  have hshallow := isDeep_eq_false bound hdepth
  constructor
  · rintro ⟨r, p, edge, h⟩
    refine ⟨p, edge,
      ⟨⟨r, h.follow⟩, ?_, h.skirts.nodup, h.skirts.avoids, ?_, h.last, h.outside⟩, ?_⟩
    · obtain ⟨ns, rfl⟩ := Graph.follow_head h.follow
      exact List.forall_mem_cons.2 ⟨hv, h.nodes⟩
    · rw [← hshallow, ← Nat.zero_add p.length]
      exact h.shallow
    · intro u hu hsame
      exact h.fresh (hsame ▸ List.mem_map_of_mem hu)
  · rintro ⟨p, edge, h, hfresh⟩
    obtain ⟨r, hfollow⟩ := h.joined
    refine ⟨r, p, edge, hfollow, ⟨h.nodup, fun _ _ => List.not_mem_nil, h.avoids, ?_⟩,
      fun u hu => h.nodes u (List.mem_of_mem_tail hu), ?_, h.last, List.not_mem_nil, ?_, h.outside⟩
    · intro n _ hn
      rw [hshallow]
      intro d hd
      have hlt := h.shallow d hd
      simp only [List.length_nil] at hn
      omega
    · rw [hshallow]
      simpa using h.shallow
    · rw [List.mem_map]
      rintro ⟨u, hu, hsame⟩
      exact hfresh u hu hsame

end

inductive Exposes {α : Type} (strays : Prop) : Except Fault α → Prop
  | sound {a} : ¬strays → Exposes strays (.ok a)
  | broken {src dst} : strays → Exposes strays (.error (.edgeLeavesGraph src dst))

theorem Exposes.congr {α : Type} {strays strays' : Prop} {result : Except Fault α}
    (h : Exposes strays result) (hiff : strays ↔ strays') : Exposes strays' result :=
  propext hiff ▸ h

def Look.Tells (g : Graph) (q : Query) (e : Edge) (t : Trail) : Look → Prop
  | .failed fault _ => fault = .edgeLeavesGraph e.src e.dst ∧ q.StraysBy g t e
  | .passed _ => ¬q.StraysBy g t e
  | .entered _ pending w =>
    (∀ x ∈ pending, ∃ e, x = .ok e ∧ e.dst.hashable = true) ∧
      (q.StraysBy g t e ↔ ∃ e, .ok e ∈ pending ∧ q.StraysBy g w.trail e)

section

variable {g : Graph} {q : Query}

theorem look_tells (hg : g.Answers) (hq : q.Unlimited) {e : Edge} (hhash : e.dst.hashable = true)
    {w : Work} {l : Look} (h : look g q (.ok e) w = l) : l.Tells g q e w.trail := by
  subst h
  by_cases hv : e.dst.key ∈ w.trail.visited
  · rw [look_of_visited hhash hv]
    exact fun hstrays => hstrays.1 hv
  obtain ⟨known, hnode⟩ := hg.hasNode e.dst hhash
  cases known with
  | false =>
    have hlook : look g q (.ok e) w =
        .failed (.edgeLeavesGraph e.src e.dst) (w.note (.has e.dst)) := by
      simp [look, hhash, hv, hnode]
    rw [hlook]
    exact ⟨rfl, hv, .inl hnode⟩
  | true =>
    have hstrays : q.StraysBy g w.trail e ↔ q.Strays g w.trail e.dst := by
      simp [Query.StraysBy, hv, hnode, Graph.IsNode, hhash]
    by_cases htarget : e.dst.key = q.target.key
    · -- A target is not expanded, so no way leads on from it.
      obtain ⟨w', hlook, _⟩ := look_of_target hq ⟨hhash, hnode⟩ hv htarget
      rw [hlook, Look.Tells, hstrays, Query.strays_iff]
      exact fun h => h.1 htarget
    · have he : g.IsNode e.dst := ⟨hhash, hnode⟩
      obtain ⟨w', _, hlook⟩ := look_of_other he (hg.outEdges_eq he) hv htarget
      have htrail := (trail_of_look_entered hlook).1
      rw [hlook]
      refine ⟨fun x => eq_ok_of_mem_edgesFrom hg he, ?_⟩
      rw [hstrays, Query.strays_iff, htrail]
      exact and_iff_right htarget

theorem exists_straysBy_cons {t : Trail} {e : Edge} {rest : List Pending} :
    (∃ e', .ok e' ∈ (.ok e :: rest : List Pending) ∧ q.StraysBy g t e') ↔
      q.StraysBy g t e ∨ ∃ e', .ok e' ∈ rest ∧ q.StraysBy g t e' := by
  simp [or_and_right, exists_or]

theorem Explores.exposes (hg : g.Answers) (hq : q.Unlimited) {pending : List Pending} {w w' : Work}
    {result : Except Fault Unit} (h : Explores g q pending w result w')
    (hpending : ∀ x ∈ pending, ∃ e, x = .ok e ∧ e.dst.hashable = true) :
    Exposes (∃ e, .ok e ∈ pending ∧ q.StraysBy g w.trail e) result := by
  induction h with
  | nil => exact .sound (by simp)
  | @failed x rest w fault w' hlook =>
    obtain ⟨⟨e, rfl, hhash⟩, _⟩ := List.forall_mem_cons.1 hpending
    obtain ⟨rfl, hstrays⟩ := look_tells hg hq hhash hlook
    exact .broken ⟨e, List.mem_cons_self, hstrays⟩
  | @passed x rest w w₁ result w' hlook _ ih =>
    obtain ⟨⟨e, rfl, hhash⟩, hrest⟩ := List.forall_mem_cons.1 hpending
    have hpassed := look_tells hg hq hhash hlook
    rw [trail_of_look_passed hlook] at ih
    refine (ih hrest).congr ?_
    rw [exists_straysBy_cons]
    exact (or_iff_right hpassed).symm
  | stopped _ hpoll => simp [hq.poll_eq] at hpoll
  | @broken x rest w node pending w₁ w₂ fault w₃ hlook hpoll _ ih =>
    obtain ⟨⟨e, rfl, hhash⟩, _⟩ := List.forall_mem_cons.1 hpending
    obtain ⟨hbelow, hstrays⟩ := look_tells hg hq hhash hlook
    rw [Query.trail_of_poll hpoll] at ih
    cases ih hbelow with
    | broken hbroken => exact .broken ⟨e, List.mem_cons_self, hstrays.2 hbroken⟩
  | cancelled _ _ _ hpoll' => simp [hq.poll_eq] at hpoll'
  | @returned x rest w node pending w₁ w₂ w₃ w₄ result w' hlook hpoll hexplores hpoll' _ ih ih' =>
    obtain ⟨⟨e, rfl, hhash⟩, hrest⟩ := List.forall_mem_cons.1 hpending
    obtain ⟨hbelow, hstrays⟩ := look_tells hg hq hhash hlook
    have hback := leave_of_look_entered hlook (hexplores.trail_eq.trans (Query.trail_of_poll hpoll))
    rw [Query.trail_of_poll hpoll] at ih
    rw [Query.trail_of_poll hpoll', hback] at ih'
    cases ih hbelow with
    | sound hsound =>
      refine (ih' hrest).congr ?_
      rw [exists_straysBy_cons, hstrays]
      exact (or_iff_right hsound).symm

theorem Descends.exposes (hg : g.Answers) (hq : q.Unlimited) {id : Value} (hid : g.IsNode id)
    {w w' : Work} {result : Except Fault Unit} (h : Descends g q id w result w') :
    Exposes (q.Strays g w.trail id) result := by
  cases h with
  | full _ hrecord => simp [hq.record_eq] at hrecord
  | target htarget => exact .sound fun hstrays => (Query.strays_iff.1 hstrays).1 htarget
  | closed _ hexpand =>
    obtain ⟨_, _, _, hexpanded⟩ := Query.expand_eq (q := q) (hg.outEdges_eq hid) (w.enter id)
    cases hexpanded.symm.trans hexpand
  | stopped _ _ hpoll => simp [hq.poll_eq] at hpoll
  | explored htarget hexpand hpoll hexplores =>
    obtain ⟨_, htrail, _, hexpanded⟩ := Query.expand_eq (q := q) (hg.outEdges_eq hid) (w.enter id)
    cases hexpanded.symm.trans hexpand
    have hexposes := hexplores.exposes hg hq fun x => eq_ok_of_mem_edgesFrom hg hid
    rw [Query.trail_of_poll hpoll, htrail] at hexposes
    refine hexposes.congr ?_
    rw [Query.strays_iff]
    exact (and_iff_right htarget).symm

theorem Yields.exposes (hg : g.Answers) (hq : q.Unlimited) (bound : Option Int)
    (hdepth : q.maxDepth = bound.map .int) {s : Value} (hs : g.IsNode s) {polls : Nat}
    {r : Except Fault (List Path)} (h : Yields g q s {} polls r) :
    Exposes (g.HasLooseEnd bound s q.target) r := by
  obtain ⟨result, w, hdescends, rfl⟩ := (yields_iff_descends hs List.not_mem_nil).1 h
  have hexposes := hdescends.exposes hg hq hs
  rw [show (Work.note { polls } (.has s)).trail = {} from rfl,
    Query.strays_iff_hasLooseEnd bound hdepth hs] at hexposes
  cases hexposes with
  | sound hsound => exact .sound hsound
  | broken hbroken => exact .broken hbroken

end

end Search

end FlowPaths
