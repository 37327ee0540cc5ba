import Mathlib.Algebra.BigOperators.Group.List.Basic
import Mathlib.Data.List.Sigma
import FlowPaths.Graph.Basic

/-!
Routes through a graph.  A route is given by the positions of its edges among those out of the
nodes it comes by, so that parallel edges make for different routes along the same nodes.
-/

namespace FlowPaths.Graph

def IsNode (g : Graph) (id : Value) : Prop := id.hashable = true ∧ g.hasNode id = .ok true

def Closed (g : Graph) : Prop :=
  ∀ u, g.IsNode u →
    ∃ edges : List Edge, g.outEdges u = .ok (edges.map .ok) ∧ ∀ e ∈ edges, g.IsNode e.dst

def edgesOut (g : Graph) (u : Value) : List Edge :=
  match g.outEdges u with
  | .ok items => items.filterMap Except.toOption
  | .error _ => []

def RespectsKeys (g : Graph) : Prop :=
  ∀ u v : Value, u.key = v.key →
    (g.edgesOut u).map (fun e => e.dst.key) = (g.edgesOut v).map (fun e => e.dst.key)

theorem filterMap_toOption_ok (edges : List Edge) :
    (edges.map (Except.ok (ε := Fault))).filterMap Except.toOption = edges := by
  induction edges with
  | nil => rfl
  | cons e edges ih => simp [Except.toOption, ih]

theorem edgesOut_of_outEdges {g : Graph} {u : Value} {edges : List Edge}
    (h : g.outEdges u = .ok (edges.map .ok)) : g.edgesOut u = edges := by
  simp only [edgesOut, h, filterMap_toOption_ok]

theorem Closed.outEdges_eq {g : Graph} (hg : g.Closed) {u : Value} (hu : g.IsNode u) :
    g.outEdges u = .ok ((g.edgesOut u).map .ok) := by
  obtain ⟨edges, hout, _⟩ := hg u hu
  rw [edgesOut_of_outEdges hout, hout]

theorem Closed.isNode_dst {g : Graph} (hg : g.Closed) {u : Value} (hu : g.IsNode u) {e : Edge}
    (he : e ∈ g.edgesOut u) : g.IsNode e.dst := by
  obtain ⟨edges, hout, hedges⟩ := hg u hu
  rw [edgesOut_of_outEdges hout] at he
  exact hedges e he

/-- The nodes that a route comes by. -/
def follow (g : Graph) : Value → List Nat → Option Path
  | u, [] => some [u]
  | u, i :: r =>
    match (g.edgesOut u)[i]? with
    | none => none
    | some e => (g.follow e.dst r).map (u :: ·)

theorem follow_head {g : Graph} {u : Value} {r : List Nat} {p : Path}
    (h : g.follow u r = some p) : ∃ ns, p = u :: ns := by
  cases r with
  | nil =>
    cases h
    exact ⟨[], rfl⟩
  | cons i r =>
    simp only [follow] at h
    split at h
    · cases h
    · obtain ⟨ns, _, rfl⟩ := Option.map_eq_some_iff.1 h
      exact ⟨ns, rfl⟩

theorem follow_cons {g : Graph} {u : Value} {i : Nat} {r : List Nat} {p : Path} :
    g.follow u (i :: r) = some p ↔
      ∃ e ns, (g.edgesOut u)[i]? = some e ∧ g.follow e.dst r = some (e.dst :: ns) ∧
        p = u :: e.dst :: ns := by
  simp only [follow]
  constructor
  · intro h
    split at h
    · cases h
    · rename_i e hedge
      obtain ⟨p, hrest, rfl⟩ := Option.map_eq_some_iff.1 h
      obtain ⟨ns, rfl⟩ := follow_head hrest
      exact ⟨e, ns, hedge, hrest, rfl⟩
  · rintro ⟨e, ns, hedge, hrest, rfl⟩
    simp [hedge, hrest]

section

variable {β : Type} [DecidableEq β] {g : Graph} {f : Value → β}

def linksBy (g : Graph) (f : Value → β) (u : Value) (b : β) : Nat :=
  (g.edgesOut u).countP fun e => f e.dst = b

def waysBy (g : Graph) (f : Value → β) (p : Path) : Nat :=
  ((p.zip p.tail).map fun hop => g.linksBy f hop.1 (f hop.2)).prod

theorem waysBy_cons_cons (u v : Value) (ns : List Value) :
    g.waysBy f (u :: v :: ns) = g.linksBy f u (f v) * g.waysBy f (v :: ns) := by
  simp [waysBy]

theorem waysBy_eq_one_iff {p : Path} :
    g.waysBy f p = 1 ↔ p.IsChain fun u v => g.linksBy f u (f v) = 1 := by
  induction p with
  | nil => simp [waysBy]
  | cons u p ih =>
    cases p with
    | nil => simp [waysBy]
    | cons v ns =>
      rw [waysBy_cons_cons, List.isChain_cons_cons, ← ih]
      constructor
      · intro h
        exact ⟨Nat.eq_one_of_mul_eq_one_right h, Nat.eq_one_of_mul_eq_one_left h⟩
      · intro ⟨hlinks, hways⟩
        rw [hlinks, hways]

def routesBy (g : Graph) (f : Value → β) : Value → List β → List (List Nat)
  | _, [] => [[]]
  | u, b :: bs => (g.edgesOut u).zipIdx.flatMap fun edge =>
      if f edge.1.dst = b then (g.routesBy f edge.1.dst bs).map (edge.2 :: ·) else []

theorem mem_routesBy {u : Value} {bs : List β} {r : List Nat} :
    r ∈ g.routesBy f u bs ↔ ∃ ns, g.follow u r = some (u :: ns) ∧ ns.map f = bs := by
  induction bs generalizing u r with
  | nil =>
    cases r with
    | nil => simp [routesBy, follow]
    | cons i r => simp [routesBy, follow_cons]
  | cons b bs ih =>
    cases r with
    | nil => simp [routesBy, follow]
    | cons i r =>
      simp only [routesBy, List.mem_flatMap, List.mem_zipIdx_iff_getElem?, Prod.exists]
      constructor
      · rintro ⟨e, j, hedge, hmem⟩
        split at hmem
        · rename_i hb
          obtain ⟨s, hs, heq⟩ := List.mem_map.1 hmem
          cases heq
          obtain ⟨ns, hfollow, rfl⟩ := ih.1 hs
          exact ⟨e.dst :: ns, follow_cons.2 ⟨e, ns, hedge, hfollow, rfl⟩, by simp [hb]⟩
        · cases hmem
      · rintro ⟨ns, hfollow, hns⟩
        obtain ⟨e, ns, hedge, hrest, heq⟩ := follow_cons.1 hfollow
        cases heq
        rw [List.map_cons, List.cons.injEq] at hns
        refine ⟨e, i, hedge, ?_⟩
        rw [if_pos hns.1]
        exact List.mem_map_of_mem (ih.2 ⟨ns, hrest, hns.2⟩)

theorem nodup_routesBy (u : Value) (bs : List β) : (g.routesBy f u bs).Nodup := by
  induction bs generalizing u with
  | nil => simp [routesBy]
  | cons b bs ih =>
    rw [routesBy, List.nodup_flatMap]
    constructor
    · intro edge _
      split
      · exact (ih _).map fun r s h => (List.cons.inj h).2
      · exact List.nodup_nil
    · have hpositions := List.nodup_zipIdx_map_snd (g.edgesOut u)
      rw [List.Nodup, List.pairwise_map] at hpositions
      apply hpositions.imp
      intro edge edge' hne r hr hr'
      dsimp only at hr hr'
      split at hr
      · split at hr'
        · obtain ⟨s, _, rfl⟩ := List.mem_map.1 hr
          obtain ⟨s', _, heq⟩ := List.mem_map.1 hr'
          exact hne (List.cons.inj heq).1.symm
        · cases hr'
      · cases hr

theorem length_routesBy (hf : ∀ u v b, f u = f v → g.linksBy f u b = g.linksBy f v b) {u v : Value}
    (huv : f u = f v) (ns : List Value) :
    (g.routesBy f u (ns.map f)).length = g.waysBy f (v :: ns) := by
  induction ns generalizing u v with
  | nil => simp [routesBy, waysBy]
  | cons n ns ih =>
    -- Any edge to the next node is followed by as many routes as any other.
    have hedges : ∀ edges : List (Edge × Nat),
        (edges.flatMap fun edge =>
          if f edge.1.dst = f n then (g.routesBy f edge.1.dst (ns.map f)).map (edge.2 :: ·)
          else []).length =
        edges.countP (fun edge => f edge.1.dst = f n) * g.waysBy f (n :: ns) := by
      intro edges
      induction edges with
      | nil => simp
      | cons edge edges ihe =>
        rw [List.flatMap_cons, List.length_append, ihe, List.countP_cons]
        by_cases hn : f edge.1.dst = f n
        · simp only [hn, if_true, List.length_map, ih hn, decide_true]
          rw [Nat.add_mul, Nat.one_mul, Nat.add_comm]
        · simp [hn]
    rw [List.map_cons, routesBy, hedges, waysBy_cons_cons]
    congr 1
    calc
      (g.edgesOut u).zipIdx.countP (fun edge => f edge.1.dst = f n) =
          ((g.edgesOut u).zipIdx.map Prod.fst).countP (fun e => f e.dst = f n) := by
        rw [List.countP_map]
        rfl
      _ = g.linksBy f u (f n) := by rw [List.zipIdx_map_fst, linksBy]
      _ = g.linksBy f v (f n) := hf u v (f n) huv

end

def Joins (g : Graph) (u v : Value) : Prop := ∃ e ∈ g.edgesOut u, e.dst.key = v.key

section

variable {g : Graph}

theorem joins_iff {u v : Value} : g.Joins u v ↔ 0 < g.linksBy Value.key u v.key := by
  simp [Joins, linksBy]

theorem RespectsKeys.linksBy_eq (h : g.RespectsKeys) (u v : Value) (k : Key) (huv : u.key = v.key) :
    g.linksBy Value.key u k = g.linksBy Value.key v k := by
  have hcount : ∀ u, g.linksBy Value.key u k =
      ((g.edgesOut u).map fun e => e.dst.key).countP (· = k) := by
    intro u
    rw [List.countP_map]
    rfl
  rw [hcount, hcount, h u v huv]

theorem RespectsKeys.joins_congr (h : g.RespectsKeys) {u v n m : Value} (huv : u.key = v.key)
    (hnm : n.key = m.key) : g.Joins u n ↔ g.Joins v m := by
  rw [joins_iff, joins_iff, h.linksBy_eq u v n.key huv, hnm]

theorem RespectsKeys.exists_follow_cons_iff (h : g.RespectsKeys) {s v : Value} {ns : List Value} :
    (∃ r p, g.follow s r = some p ∧ p.map Value.key = (v :: ns).map Value.key) ↔
      v.key = s.key ∧ (v :: ns).IsChain g.Joins := by
  induction ns generalizing s v with
  | nil =>
    constructor
    · intro ⟨r, p, hfollow, hmap⟩
      obtain ⟨ns, rfl⟩ := follow_head hfollow
      exact ⟨(List.cons.inj hmap).1.symm, .singleton v⟩
    · intro ⟨hstart, _⟩
      exact ⟨[], [s], rfl, by simp [hstart]⟩
  | cons n ns ih =>
    rw [List.isChain_cons_cons]
    constructor
    · intro ⟨r, p, hfollow, hmap⟩
      cases r with
      | nil =>
        cases hfollow
        simp at hmap
      | cons i r =>
        obtain ⟨e, ms, hedge, hrest, rfl⟩ := follow_cons.1 hfollow
        obtain ⟨hstart, hmap⟩ := List.cons.inj hmap
        obtain ⟨hn, hchain⟩ := ih.1 ⟨r, _, hrest, hmap⟩
        have hjoins : g.Joins s e.dst := ⟨e, List.mem_of_getElem? hedge, rfl⟩
        exact ⟨hstart.symm, (h.joins_congr hstart hn.symm).1 hjoins, hchain⟩
    · intro ⟨hstart, hjoins, hchain⟩
      -- The edge out of `v` has a counterpart out of `s`, at a position of its own.
      obtain ⟨e, he, hn⟩ := (h.joins_congr hstart rfl).1 hjoins
      obtain ⟨i, hedge⟩ := List.mem_iff_getElem?.1 he
      obtain ⟨r, p, hrest, hmap⟩ := ih.2 ⟨hn.symm, hchain⟩
      obtain ⟨ms, rfl⟩ := follow_head hrest
      refine ⟨i :: r, s :: e.dst :: ms, follow_cons.2 ⟨e, ms, hedge, hrest, rfl⟩, ?_⟩
      rw [List.map_cons, hmap, ← hstart, ← List.map_cons]

theorem RespectsKeys.exists_follow_iff (h : g.RespectsKeys) {s : Value} {p : Path} :
    (∃ r p', g.follow s r = some p' ∧ p'.map Value.key = p.map Value.key) ↔
      p.head?.map Value.key = some s.key ∧ p.IsChain g.Joins := by
  cases p with
  | nil =>
    refine ⟨fun ⟨r, p', hfollow, hmap⟩ => ?_, fun ⟨hstart, _⟩ => nomatch hstart⟩
    obtain ⟨ns, rfl⟩ := follow_head hfollow
    cases hmap
  | cons v ns => simpa using h.exists_follow_cons_iff

end

end FlowPaths.Graph
