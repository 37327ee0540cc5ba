import FlowPaths.Proofs.Search.Listing

/-!
Which paths a search from scratch records, and how often: one for each route to its target that
does not come back to a node, so that every parallel edge counts.
-/

namespace FlowPaths

theorem nodup_of_pairwise_lex {rs : List (List Nat)} (h : rs.Pairwise (List.Lex (· < ·))) :
    rs.Nodup := by
  refine h.imp fun hlt heq => ?_
  rw [heq] at hlt
  exact List.lex_irrefl (fun n => Nat.lt_irrefl n) _ hlt

theorem Lists.countP_eq {P : List Nat → Path → Prop} {paths : List Path} (h : Lists P paths)
    {S : Path → Bool} {rs : List (List Nat)} (hnodup : rs.Nodup)
    (hmem : ∀ r, r ∈ rs ↔ ∃ p, P r p ∧ S p = true) : paths.countP S = rs.length := by
  obtain ⟨routes, rfl, horder, hroutes⟩ := h
  have hdistinct : ((routes.filter fun route => S route.2).map Prod.fst).Nodup := by
    apply nodup_of_pairwise_lex
    rw [List.pairwise_map]
    exact horder.sublist List.filter_sublist
  have hperm : ((routes.filter fun route => S route.2).map Prod.fst).Perm rs := by
    rw [List.perm_ext_iff_of_nodup hdistinct hnodup]
    intro r
    rw [hmem]
    simp only [List.mem_map, List.mem_filter, Prod.exists, exists_and_right, exists_eq_right]
    exact exists_congr fun p => and_congr_left fun _ => hroutes r p
  rw [List.countP_map, List.countP_eq_length_filter, ← hperm.length_eq, List.length_map]
  rfl

theorem Lists.exists_routes {P : List Nat → Path → Prop} {paths : List Path} (h : Lists P paths) :
    ∃ routes : List (List Nat), routes.Pairwise (List.Lex (· < ·)) ∧ routes.Nodup ∧
      List.Forall₂ P routes paths ∧ ∀ r, r ∈ routes ↔ ∃ p, P r p := by
  obtain ⟨routes, rfl, horder, hroutes⟩ := h
  have hlex : (routes.map Prod.fst).Pairwise (List.Lex (· < ·)) := List.pairwise_map.2 horder
  refine ⟨routes.map Prod.fst, hlex, nodup_of_pairwise_lex hlex, ?_, fun r => ?_⟩
  · rw [List.forall₂_map_left_iff, List.forall₂_map_right_iff, List.forall₂_same]
    intro ⟨r, p⟩ hroute
    exact (hroutes r p).1 hroute
  · simp only [List.mem_map, Prod.exists, exists_and_right, exists_eq_right, hroutes]

theorem Lists.mem_iff {P : List Nat → Path → Prop} {paths : List Path} (h : Lists P paths)
    {p : Path} : p ∈ paths ↔ ∃ r, P r p := by
  obtain ⟨routes, rfl, _, hroutes⟩ := h
  simp only [List.mem_map, Prod.exists, exists_eq_right, hroutes]

theorem Lists.unique {P : List Nat → Path → Prop} {paths paths' : List Path} (h : Lists P paths)
    (h' : Lists P paths') : paths = paths' := by
  obtain ⟨routes, rfl, horder, hroutes⟩ := h
  obtain ⟨routes', rfl, horder', hroutes'⟩ := h'
  have hnodup : ∀ {routes : List (List Nat × Path)},
      routes.Pairwise (fun a b => List.Lex (· < ·) a.1 b.1) → routes.Nodup := fun horder =>
    (nodup_of_pairwise_lex (List.pairwise_map.2 horder)).of_map
  have hperm : routes.Perm routes' := by
    rw [List.perm_ext_iff_of_nodup (hnodup horder) (hnodup horder')]
    exact fun route => (hroutes _ _).trans (hroutes' _ _).symm
  rw [hperm.eq_of_pairwise (fun a b _ _ hab hba => ?_) horder horder']
  exact absurd hba (List.lex_asymm (fun hlt => Nat.lt_asymm hlt) hab)

namespace Search

variable {g : Graph} {q : Query}

theorem run_lists_completes (hg : g.Closed) (hq : q.Unlimited) {current : Value} {trail : Trail}
    {polls : Nat} (hnode : g.IsNode current) (hnew : current.key ∉ trail.visited)
    (ends : Ends g q current { trail, polls }) :
    ∃ paths, (run g q current trail polls ends).result = .ok paths ∧
      Lists (Completes g q trail current) paths := by
  obtain ⟨n, hend⟩ := run_eq_iff_endsIn.1 ⟨ends, rfl⟩
  obtain ⟨result, w, hdescends, houtcome⟩ :=
    descends_of_endsIn_start hend hnode.2 hnode.1 hnew
  obtain ⟨rfl, paths, hfound, hlists⟩ := hdescends.lists hg hq hnode
  refine ⟨paths, ?_, hlists⟩
  rw [houtcome]
  simpa [Work.outcome, Except.map, Work.note] using hfound

def Query.Leads (q : Query) (g : Graph) (s : Value) (r : List Nat) (p : Path) : Prop :=
  g.follow s r = some p ∧ q.Admits {} p

theorem run_lists (hg : g.Closed) (hq : q.Unlimited) {s : Value} (hs : g.IsNode s) {polls : Nat}
    (ends : Ends g q s { polls }) :
    ∃ paths, (run g q s {} polls ends).result = .ok paths ∧ Lists (q.Leads g s) paths := by
  obtain ⟨paths, hresult, hlists⟩ := run_lists_completes hg hq hs List.not_mem_nil ends
  refine ⟨paths, hresult, hlists.congr fun r p => ?_⟩
  rw [completes_iff]
  simp [Query.Leads]

theorem Query.Admits.congr {t : Trail} {p p' : Path} (h : q.Admits t p)
    (hkeys : p.map Value.key = p'.map Value.key) : q.Admits t p' := by
  refine ⟨hkeys ▸ h.nodup, ?_, ?_, ?_⟩
  · intro v hv
    have hmem : v.key ∈ p.tail.map Value.key := by
      rw [List.map_tail, hkeys, ← List.map_tail]
      exact List.mem_map_of_mem hv
    obtain ⟨u, hu, heq⟩ := List.mem_map.1 hmem
    rw [← heq]
    exact h.unvisited u hu
  · rw [← List.getLast?_map, ← hkeys, List.getLast?_map]
    exact h.ends
  · have hlength : p.length = p'.length := by simpa using congrArg List.length hkeys
    rw [← hlength]
    exact h.shallow

theorem map_key_of_map {β : Type} {f : Value → β} (hf : ∀ u v, f u = f v → u.key = v.key)
    {p p' : Path} (h : p.map f = p'.map f) : p.map Value.key = p'.map Value.key := by
  induction p generalizing p' with
  | nil =>
    rw [List.map_nil, eq_comm, List.map_eq_nil_iff] at h
    rw [h]
  | cons v p ih =>
    obtain ⟨v', p', rfl, hv, hp⟩ := List.map_eq_cons_iff.1 h.symm
    rw [List.map_cons, List.map_cons, hf v v' hv.symm, ih hp.symm]

theorem countP_paths {β : Type} [DecidableEq β] {f : Value → β} {s : Value} {paths : List Path}
    (hlists : Lists (q.Leads g s) paths) (hkey : ∀ u v, f u = f v → u.key = v.key)
    (hlinks : ∀ u v b, f u = f v → g.linksBy f u b = g.linksBy f v b) {p : Path}
    (hp : q.Admits {} p) (hstart : p.head?.map f = some (f s)) :
    paths.countP (fun p' => p'.map f = p.map f) = g.waysBy f p := by
  cases p with
  | nil => simp at hstart
  | cons v ns =>
    simp only [List.head?_cons, Option.map_some, Option.some.injEq] at hstart
    rw [← Graph.length_routesBy hlinks hstart.symm ns]
    refine hlists.countP_eq (Graph.nodup_routesBy s _) fun r => ?_
    rw [Graph.mem_routesBy]
    simp only [decide_eq_true_eq]
    constructor
    · rintro ⟨ns', hfollow, hns⟩
      have hmap : (s :: ns').map f = (v :: ns).map f := by simp [hstart, hns]
      exact ⟨_, ⟨hfollow, hp.congr (map_key_of_map hkey hmap).symm⟩, hmap⟩
    · rintro ⟨p', ⟨hfollow, _⟩, hmap⟩
      obtain ⟨ns', rfl⟩ := Graph.follow_head hfollow
      exact ⟨ns', hfollow, (List.cons.inj hmap).2⟩

theorem countP_eq_paths {s : Value} {paths : List Path} (hlists : Lists (q.Leads g s) paths)
    {p : Path} (hp : q.Admits {} p) (hstart : p.head? = some s) :
    paths.countP (fun p' => p' = p) = g.waysBy id p := by
  have hhead : p.head?.map id = some (id s) := by simpa using hstart
  have hcount := countP_paths (f := id) hlists (fun u v h => congrArg Value.key h)
    (fun u v b h => congrArg (g.linksBy id · b) h) hp hhead
  simpa only [List.map_id] using hcount

theorem countP_key_paths (hg : g.RespectsKeys) {s : Value} {paths : List Path}
    (hlists : Lists (q.Leads g s) paths) {p : Path} (hp : q.Admits {} p)
    (hstart : p.head?.map Value.key = some s.key) :
    paths.countP (fun p' => p'.map Value.key = p.map Value.key) = g.waysBy Value.key p :=
  countP_paths hlists (fun _ _ h => h) hg.linksBy_eq hp hstart

end Search

end FlowPaths
