import Mathlib
import FlowPaths.Enumeration
import FlowPaths.Proofs.Search.Bounds
import FlowPaths.Proofs.Search.Moves

/-!
What the depth bound does to a search.  It is looked at when a node is about to be expanded, so the
trail never grows beyond it: every search comes to an end, and the paths found behind an edge have
no more nodes than the bound.  The first node of a search stands behind no edge, and may be the
target however long the route before it is.
-/

namespace FlowPaths.Search

section

variable {g : Graph} {q : Query}

theorem Query.isDeep_eq_false (bound : Option Int) (h : q.maxDepth = bound.map .int) (n : Nat) :
    q.isDeep n = false ↔ ∀ d ∈ bound, (n : Int) < d := by
  simp only [isDeep, h]
  cases bound with
  | none => simp
  | some d => simp [Number.isAbove, Number.compareInt, Int.compare_eq_gt]

theorem Query.shallow_iff (bound : Option Int) (h : q.maxDepth = bound.map .int)
    (hbound : ∀ d ∈ bound, 1 ≤ d) (length : Nat) :
    (∀ n, ({} : Trail).path.length < n → n < ({} : Trail).path.length + length →
      q.isDeep n = false) ↔ ∀ d ∈ bound, (length : Int) ≤ d := by
  simp only [isDeep_eq_false bound h, List.length_nil, Nat.zero_add]
  constructor
  · intro hshallow d hd
    have hone := hbound d hd
    by_contra hlt
    have hlast := hshallow d.toNat (by omega) (by omega) d hd
    omega
  · intro hlength n _ hn d hd
    have hle := hlength d hd
    omega

theorem Query.pending_of_expand {id : Value} {w w' : Work} {pending : List Pending}
    (h : q.expand g id w = (.ok pending, w')) :
    pending = [] ∨ q.isDeep w'.trail.path.length = false := by
  cases offers_of_expand h with
  | deep => exact .inl rfl
  | asked hdeep => exact .inr hdeep

theorem pending_of_look_entered {x : Pending} {w w₁ : Work} {node : Value} {pending : List Pending}
    (h : look g q x w = .entered node pending w₁) :
    pending = [] ∨ q.isDeep w₁.trail.path.length = false := by
  revert h
  fun_cases look g q x w with
  | case9 edge w _ _ _ _ _ _ pending w' hexpand =>
    intro h
    cases h
    exact Query.pending_of_expand hexpand
  | _ =>
    intro h
    cases h

theorem exists_explores {depth : Nat} (hdepth : ∀ n, depth ≤ n → q.isDeep n = true)
    (pending : List Pending) (w : Work) : ∃ result w', Explores g q pending w result w' := by
  -- The room left above the trail bounds the nesting, and the edges the breadth.
  induction hroom : depth - w.trail.path.length using Nat.strongRecOn generalizing pending w with
  | ind room ih =>
    induction pending generalizing w with
    | nil => exact ⟨_, _, .nil⟩
    | cons x rest ihx =>
      cases hlook : look g q x w with
      | failed fault w₁ => exact ⟨_, _, .failed hlook⟩
      | passed w₁ =>
        obtain ⟨result, w', hrest⟩ := ihx w₁ (by rw [trail_of_look_passed hlook, hroom])
        exact ⟨result, w', .passed hlook hrest⟩
      | entered node pending w₁ =>
        rcases hpoll : q.poll w₁ with ⟨fault | _, w₂⟩
        · exact ⟨_, _, .stopped hlook hpoll⟩
        have htrail := Query.trail_of_poll hpoll
        have hbelow : ∃ result w₃, Explores g q pending w₂ result w₃ := by
          obtain rfl | hshallow := pending_of_look_entered hlook
          · exact ⟨_, _, .nil⟩
          · have hlt : w₁.trail.path.length < depth := by
              by_contra hle
              rw [hdepth _ (Nat.le_of_not_lt hle)] at hshallow
              cases hshallow
            have hgrown : w₁.trail.path.length = w.trail.path.length + 1 := by
              rw [(trail_of_look_entered hlook).1, Trail.length_path_enter]
            exact ih _ (by rw [htrail]; omega) pending w₂ rfl
        obtain ⟨fault | _, w₃, hexplores⟩ := hbelow
        · exact ⟨_, _, .broken hlook hpoll hexplores⟩
        rcases hpoll' : q.poll w₃.leave with ⟨fault | _, w₄⟩
        · exact ⟨_, _, .cancelled hlook hpoll hexplores hpoll'⟩
        have hback : w₄.trail = w.trail := by
          rw [Query.trail_of_poll hpoll']
          exact leave_of_look_entered hlook (hexplores.trail_eq.trans htrail)
        obtain ⟨result, w', hrest⟩ := ihx w₄ (by rw [hback, hroom])
        exact ⟨result, w', .returned hlook hpoll hexplores hpoll' hrest⟩

theorem exists_descends {depth : Nat} (hdepth : ∀ n, depth ≤ n → q.isDeep n = true) (id : Value)
    (w : Work) : ∃ result w', Descends g q id w result w' := by
  by_cases htarget : id.key = q.target.key
  · cases hrecord : q.record (w.enter id) with
    | error fault => exact ⟨_, _, .full htarget hrecord⟩
    | ok w₁ => exact ⟨_, _, .target htarget hrecord⟩
  · rcases hexpand : q.expand g id (w.enter id) with ⟨fault | pending, w₁⟩
    · exact ⟨_, _, .closed htarget hexpand⟩
    rcases hpoll : q.poll w₁ with ⟨fault | _, w₂⟩
    · exact ⟨_, _, .stopped htarget hexpand hpoll⟩
    obtain ⟨result, w₃, hexplores⟩ := exists_explores (g := g) hdepth pending w₂
    exact ⟨_, _, .explored htarget hexpand hpoll hexplores⟩

theorem ends_of_depth {d : Int} (hdepth : q.maxDepth = some (.int d)) {current : Value}
    {trail : Trail} (hnew : current.key ∉ trail.visited) (polls : Nat) :
    Ends g q current { trail, polls } := by
  have hdeep : ∀ n, d.toNat ≤ n → q.isDeep n = true := by
    intro n hn
    rw [← Bool.not_eq_false, Query.isDeep_eq_false (some d) hdepth]
    intro hlt
    have := hlt d rfl
    omega
  by_cases hnode : g.IsNode current
  · obtain ⟨result, w, hdescends⟩ :=
      exists_descends (g := g) hdeep current (Work.note { trail, polls } (.has current))
    obtain ⟨ends, _⟩ := (yields_iff_descends hnode hnew).2 ⟨result, w, hdescends, rfl⟩
    exact ends
  · obtain ⟨fault, hfault⟩ := yields_of_not_isNode hnode
    obtain ⟨ends, _⟩ := hfault q trail polls
    exact ends

/-- What was found since are paths by a last hop from where the trail could still grow. -/
def Query.Confines (q : Query) (found found' : Array Path) : Prop :=
  ∀ p ∈ found', p ∈ found ∨ ∃ n, q.isDeep n = false ∧ p.length = n + 1

theorem Query.Confines.of_eq {found found' : Array Path} (h : found' = found) :
    q.Confines found found' := by
  intro p hp
  rw [h] at hp
  exact .inl hp

theorem Query.Confines.trans {found found₁ found' : Array Path} (h : q.Confines found found₁)
    (h' : q.Confines found₁ found') : q.Confines found found' := by
  intro p hp
  obtain hp | hshort := h' p hp
  · exact h p hp
  · exact .inr hshort

theorem Query.confines_poll {w w' : Work} {answer : Except Fault Unit}
    (h : q.poll w = (answer, w')) : q.Confines w.found w'.found :=
  .of_eq (matches_poll h).found

theorem Query.found_of_record {w w' : Work} (h : q.record w = .ok w') :
    w'.found = w.found.push w.trail.path := by
  unfold record at h
  split at h
  · cases h
  · cases h
    rfl

theorem look_confines {x : Pending} {w : Work} {l : Look} (h : look g q x w = l)
    (hshallow : q.isDeep w.trail.path.length = false) : q.Confines w.found l.work.found := by
  subst h
  fun_cases look g q x w with
  | case1 | case2 | case3 | case4 | case5 | case6 => exact .of_eq rfl
  | case7 edge w _ _ _ _ w₁ _ w' hrecord =>
    intro p hp
    have hp : p ∈ w'.found := hp
    rw [Query.found_of_record hrecord, Array.mem_push] at hp
    obtain hp | rfl := hp
    · exact .inl hp
    · exact .inr ⟨_, hshallow, Trail.length_path_enter w.trail edge.dst⟩
  | case8 edge w _ _ _ _ w₁ _ _ w' hexpand =>
    have hfound : w'.found = w₁.found := Query.found_of_expand hexpand
    exact .of_eq hfound
  | case9 edge w _ _ _ _ w₁ _ _ w' hexpand =>
    have hfound : w'.found = w₁.found := Query.found_of_expand hexpand
    exact .of_eq hfound

theorem Explores.confines {pending : List Pending} {w w' : Work} {result : Except Fault Unit}
    (h : Explores g q pending w result w')
    (hroom : pending = [] ∨ q.isDeep w.trail.path.length = false) :
    q.Confines w.found w'.found := by
  induction h with
  | nil => exact .of_eq rfl
  | failed hlook => exact look_confines hlook (hroom.resolve_left (List.cons_ne_nil _ _))
  | passed hlook _ ih =>
    have hshallow := hroom.resolve_left (List.cons_ne_nil _ _)
    rw [trail_of_look_passed hlook] at ih
    exact (look_confines hlook hshallow).trans (ih (.inr hshallow))
  | stopped hlook hpoll =>
    have hlooked := look_confines hlook (hroom.resolve_left (List.cons_ne_nil _ _))
    have hpolled := Query.confines_poll hpoll
    exact hlooked.trans hpolled
  | broken hlook hpoll _ ih =>
    have hlooked := look_confines hlook (hroom.resolve_left (List.cons_ne_nil _ _))
    have hpolled := Query.confines_poll hpoll
    rw [Query.trail_of_poll hpoll] at ih
    exact hlooked.trans (hpolled.trans (ih (pending_of_look_entered hlook)))
  | cancelled hlook hpoll _ hpoll' ih =>
    have hlooked := look_confines hlook (hroom.resolve_left (List.cons_ne_nil _ _))
    have hpolled := Query.confines_poll hpoll
    have hpolled' := Query.confines_poll hpoll'
    rw [Query.trail_of_poll hpoll] at ih
    exact hlooked.trans (hpolled.trans ((ih (pending_of_look_entered hlook)).trans hpolled'))
  | returned hlook hpoll hexplores hpoll' _ ih ih' =>
    have hshallow := hroom.resolve_left (List.cons_ne_nil _ _)
    have hlooked := look_confines hlook hshallow
    have hpolled := Query.confines_poll hpoll
    have hpolled' := Query.confines_poll hpoll'
    have hback := leave_of_look_entered hlook (hexplores.trail_eq.trans (Query.trail_of_poll hpoll))
    rw [Query.trail_of_poll hpoll', hback] at ih'
    rw [Query.trail_of_poll hpoll] at ih
    have hbelow := (ih (pending_of_look_entered hlook)).trans hpolled'
    exact hlooked.trans (hpolled.trans (hbelow.trans (ih' (.inr hshallow))))

theorem Descends.confines {id : Value} {w w' : Work} {result : Except Fault Unit}
    (h : Descends g q id w result w') (htarget : id.key ≠ q.target.key) :
    q.Confines w.found w'.found := by
  cases h with
  | full hsame => exact absurd hsame htarget
  | target hsame => exact absurd hsame htarget
  | closed _ hexpand =>
    have hexpanded := Query.found_of_expand hexpand
    exact .of_eq hexpanded
  | stopped _ hexpand hpoll =>
    have hexpanded := Query.found_of_expand hexpand
    have hpolled := Query.confines_poll hpoll
    exact (Query.Confines.of_eq hexpanded).trans hpolled
  | explored _ hexpand hpoll hexplores =>
    have hexpanded := Query.found_of_expand hexpand
    have hpolled := Query.confines_poll hpoll
    have hroom := Query.pending_of_expand hexpand
    rw [← Query.trail_of_poll hpoll] at hroom
    exact (Query.Confines.of_eq hexpanded).trans (hpolled.trans (hexplores.confines hroom))

variable {current : Value} {trail : Trail} {polls : Nat} {paths : List Path}

theorem Yields.paths_of_target (h : Yields g q current trail polls (.ok paths))
    (hnew : current.key ∉ trail.visited) (htarget : current.key = q.target.key) :
    paths = [trail.path ++ [current]] := by
  by_cases hnode : g.IsNode current
  · obtain ⟨result, w, hdescends, hresult⟩ := (yields_iff_descends hnode hnew).1 h
    cases hdescends with
    | full => cases hresult
    | target _ hrecord =>
      cases hresult
      exact congrArg Array.toList (Query.found_of_record hrecord)
    | closed hother => exact absurd htarget hother
    | stopped hother => exact absurd htarget hother
    | explored hother => exact absurd htarget hother
  · obtain ⟨fault, hfault⟩ := yields_of_not_isNode hnode
    cases h.unique (hfault q trail polls)

theorem Yields.confined (h : Yields g q current trail polls (.ok paths))
    (hnew : current.key ∉ trail.visited) (htarget : current.key ≠ q.target.key) :
    ∀ p ∈ paths, ∃ n, q.isDeep n = false ∧ p.length = n + 1 := by
  by_cases hnode : g.IsNode current
  · obtain ⟨result, w, hdescends, hresult⟩ := (yields_iff_descends hnode hnew).1 h
    cases result with
    | error fault => cases hresult
    | ok =>
      cases hresult
      intro p hp
      obtain hp | hshort := hdescends.confines htarget p (Array.mem_toList_iff.1 hp)
      · cases Array.mem_toList_iff.2 hp
      · exact hshort
  · obtain ⟨fault, hfault⟩ := yields_of_not_isNode hnode
    cases h.unique (hfault q trail polls)

end

end FlowPaths.Search

namespace FlowPaths.Enumerator

def withDepth (e : Enumerator) (depth : Option Number) : Enumerator :=
  { e with config := { e.config with maxDepth := depth } }

/-- The paths that a search returns are within the depth bound, unless it starts at its target with
the bound used up by the route before it; then there is one path, which is that route and the
target. -/
theorem search_within_depth_iff {e : Enumerator} {g : Graph} {current target : Value}
    {trail : Trail} {d : Int} (hdepth : e.config.maxDepth = some (.int d))
    (hnew : current.key ∉ trail.visited) {paths : List Path}
    (hreturns : (e.search g current target trail
      (Search.ends_of_depth hdepth hnew e.polls)).2.result = .ok paths) :
    ((∀ p ∈ paths, (p.length : Int) ≤ d) ↔
        (current.key = target.key → (trail.path.length : Int) < d)) ∧
      (current.key = target.key → paths = [trail.path ++ [current]]) := by
  have hyields : Search.Yields g (e.config.query target 0) current trail e.polls (.ok paths) :=
    ⟨_, hreturns⟩
  by_cases htarget : current.key = target.key
  · have hpaths := hyields.paths_of_target hnew htarget
    refine ⟨?_, fun _ => hpaths⟩
    simp only [hpaths, List.forall_mem_singleton, List.length_append, List.length_singleton,
      htarget, true_imp_iff]
    omega
  · refine ⟨⟨fun _ hsame => absurd hsame htarget, fun _ p hp => ?_⟩,
      fun hsame => absurd hsame htarget⟩
    obtain ⟨n, hshallow, hlength⟩ := hyields.confined hnew htarget p hp
    have hlt := (Search.Query.isDeep_eq_false (some d) hdepth n).1 hshallow d rfl
    omega

theorem searchOn_cyclic_within_depth :
    let e : Enumerator :=
      { sources := .list [], sinks := .list [], config := { maxDepth := some (.int 3) } }
    let trail : Trail := { path := [.text "P"], visited := [Value.key (.text "P")] }
    let paths := [["P", "A", "C"].map Value.text]
    (e.searchOn Search.cyclic.toGraph (.text "A") (.text "C") trail).2.result = .ok paths ∧
      ∀ p ∈ paths, (p.length : Int) ≤ 3 := by
  intro e trail paths
  have hreturns : (e.searchOn Search.cyclic.toGraph (.text "A") (.text "C") trail).2.result =
      .ok paths := by
    subst e trail paths
    cbv
  have hnew : Value.key (.text "A") ∉ trail.visited := by decide
  have hwithin := (search_within_depth_iff (e := e) (d := 3) rfl hnew hreturns).1
  exact ⟨hreturns, hwithin.2 fun hsame => absurd hsame (by decide)⟩

theorem searchOn_cyclic_beyond_depth :
    let e : Enumerator :=
      { sources := .list [], sinks := .list [], config := { maxDepth := some (.int 1) } }
    let trail : Trail := { path := [.text "P"], visited := [Value.key (.text "P")] }
    let answer := e.searchOn Search.cyclic.toGraph (.text "A") (.text "A") trail
    Value.key (.text "A") ∉ trail.visited ∧
      ∃ paths, answer.2.result = .ok paths ∧ ¬∀ p ∈ paths, (p.length : Int) ≤ 1 := by
  intro e trail answer
  have hreturns : answer.2.result = .ok [["P", "A"].map Value.text] := by
    subst answer trail e
    cbv
  exact ⟨by decide, _, hreturns, by simp⟩

end FlowPaths.Enumerator
