import Mathlib
import FlowPaths.Enumeration
import FlowPaths.Proofs.Graph.WellFormed

/-!
A search sees its graph only from the nodes that it comes to without passing the target.  Two graphs
that look the same from there are searched in step, whatever their edges are labelled with, whatever
leaves the target, and whatever else there is.
-/

namespace FlowPaths

section

variable {σ σ' ο ο' : Type} {R : σ → σ' → Prop} {Q : ο → ο' → Prop}

inductive Turn.Related (R : σ → σ' → Prop) (Q : ο → ο' → Prop) : Turn σ ο → Turn σ' ο' → Prop
  | next {s s'} : R s s' → Related R Q (.next s) (.next s')
  | done {o o'} : Q o o' → Related R Q (.done o) (.done o')

theorem Turn.Related.flip {t : Turn σ ο} {t' : Turn σ' ο'} (h : t.Related R Q t') :
    t'.Related (fun s' s => R s s') (fun o' o => Q o o') t := by
  cases h with
  | next h => exact .next h
  | done h => exact .done h

variable {turn : σ → Turn σ ο} {turn' : σ' → Turn σ' ο'}

theorem Halts.of_related (hturn : ∀ s s', R s s' → (turn s).Related R Q (turn' s')) {s : σ}
    {s' : σ'} (hs : R s s') (h : Halts turn s) : Halts turn' s' := by
  induction (h : Acc _ s) generalizing s' with
  | intro s _ ih =>
    apply Halts.intro
    intro next' hnext'
    have hrelated := hturn s s' hs
    rw [hnext'] at hrelated
    generalize hnext : turn s = t at hrelated
    cases hrelated with
    | next hR => exact ih _ hnext hR

theorem iterate_related (hturn : ∀ s s', R s s' → (turn s).Related R Q (turn' s')) {s : σ}
    {s' : σ'} (hs : R s s') (h : Halts turn s) (h' : Halts turn' s') :
    Q (iterate turn s h) (iterate turn' s' h') := by
  induction (h : Acc _ s) generalizing s' with
  | intro s halts ih =>
    have h : Halts turn s := .intro halts
    have hrelated := hturn s s' hs
    generalize hnext : turn s = t at hrelated
    generalize hnext' : turn' s' = t' at hrelated
    cases hrelated with
    | next hR =>
      rw [iterate_of_next h hnext, iterate_of_next h' hnext']
      exact ih _ hnext hR _
    | done hQ =>
      rw [iterate_of_done h hnext, iterate_of_done h' hnext']
      exact hQ

end

inductive Alike {α β : Type} (r : α → β → Prop) : Except Fault α → Except Fault β → Prop
  | ok {a b} : r a b → Alike r (.ok a) (.ok b)
  | error {fault fault' : Fault} : fault.kind = fault'.kind → Alike r (.error fault) (.error fault')

theorem Alike.imp {α β : Type} {r r' : α → β → Prop} {x : Except Fault α} {y : Except Fault β}
    (h : Alike r x y) (himp : ∀ a b, x = .ok a → r a b → r' a b) : Alike r' x y := by
  cases h with
  | ok h => exact .ok (himp _ _ rfl h)
  | error h => exact .error h

namespace Graph

variable (r : Value → Value → Prop) (g h : Graph) (s t : Value)

inductive Reaches : Value → Prop
  | source : g.hasNode s = .ok true → s.key ≠ t.key → Reaches s
  | step {v e} : Reaches v → e ∈ g.edgesOut v → g.hasNode e.dst = .ok true → e.dst.key ≠ t.key →
      Reaches e.dst

def Borders (e : Edge) : Prop := ∃ v, g.Reaches s t v ∧ e ∈ g.edgesOut v

/-- Seen from the nodes that `g` reaches, both graphs have the same edges, in the same order, and
the same nodes at their ends.  Which names count as the same is left to `r`. -/
structure AgreesFrom : Prop where
  source : Alike Eq (g.hasNode s) (h.hasNode s)
  hasNode : ∀ e, g.Borders s t e → ∀ v, r e.dst v → Alike Eq (g.hasNode e.dst) (h.hasNode v)
  outEdges : ∀ u, g.Reaches s t u → ∀ v, r u v →
    Alike (List.Forall₂ (Alike fun e e' => r e.dst e'.dst)) (g.outEdges u) (h.outEdges v)

variable {r g h s t}

theorem Reaches.key_ne {v : Value} (hv : g.Reaches s t v) : v.key ≠ t.key := by
  cases hv with
  | source _ hne => exact hne
  | step _ _ _ hne => exact hne

theorem Borders.reaches {e : Edge} (he : g.Borders s t e) (hnode : g.hasNode e.dst = .ok true)
    (hne : e.dst.key ≠ t.key) : g.Reaches s t e.dst := by
  obtain ⟨v, hv, hedge⟩ := he
  exact .step hv hedge hnode hne

theorem mem_edgesOut {v : Value} {items : List (Except Fault Edge)} {e : Edge}
    (hout : g.outEdges v = .ok items) (he : .ok e ∈ items) : e ∈ g.edgesOut v := by
  simp only [edgesOut, hout]
  exact List.mem_filterMap.2 ⟨_, he, rfl⟩

end Graph

namespace Search

structure Work.Alike (r : Value → Value → Prop) (t : Value) (w w' : Work) : Prop where
  path : List.Forall₂ r w.trail.path w'.trail.path
  visited : w.trail.visited = w'.trail.visited
  found : List.Forall₂ (List.Forall₂ r) w.found.toList w'.found.toList
  polls : w.polls = w'.polls
  calls : ∀ v, .out v ∈ w.calls ∨ .out v ∈ w'.calls → v.key ≠ t.key

structure Outcome.Alike (r : Value → Value → Prop) (t : Value) (o o' : Outcome) : Prop where
  result : FlowPaths.Alike (List.Forall₂ (List.Forall₂ r)) o.result o'.result
  polls : o.polls = o'.polls
  calls : ∀ v, .out v ∈ o.calls ∨ .out v ∈ o'.calls → v.key ≠ t.key

def Facing (r : Value → Value → Prop) (g : Graph) (s t : Value) : Pending → Pending → Prop :=
  Alike fun e e' => r e.dst e'.dst ∧ g.Borders s t e

inductive Scan.Related (r : Value → Value → Prop) (g : Graph) (s t : Value) : Scan → Scan → Prop
  | failed {fault fault' w w'} : fault.kind = fault'.kind → Work.Alike r t w w' →
      Related r g s t (.failed fault w) (.failed fault' w')
  | dry {w w'} : Work.Alike r t w w' → Related r g s t (.dry w) (.dry w')
  | entered {node node' pending pending' rest rest' w w'} :
      List.Forall₂ (Facing r g s t) pending pending' → List.Forall₂ (Facing r g s t) rest rest' →
      Work.Alike r t w w' →
      Related r g s t (.entered node pending rest w) (.entered node' pending' rest' w')

variable {r : Value → Value → Prop} {g h : Graph} {s t : Value} {q : Query} {w w' : Work}
  {v v' : Value}

namespace Work.Alike

theorem note_has (hw : w.Alike r t w') (v v' : Value) :
    (w.note (.has v)).Alike r t (w'.note (.has v')) where
  path := hw.path
  visited := hw.visited
  found := hw.found
  polls := hw.polls
  calls := by simpa [note] using hw.calls

theorem note_out (hw : w.Alike r t w') (hv : v.key ≠ t.key) (hv' : v'.key ≠ t.key) :
    (w.note (.out v)).Alike r t (w'.note (.out v')) where
  path := hw.path
  visited := hw.visited
  found := hw.found
  polls := hw.polls
  calls := by
    intro u hu
    simp only [note, List.mem_cons, Call.out.injEq] at hu
    obtain (rfl | hu) | (rfl | hu) := hu
    · exact hv
    · exact hw.calls u (.inl hu)
    · exact hv'
    · exact hw.calls u (.inr hu)

theorem enter (hw : w.Alike r t w') (hr : r v v') (hkey : v.key = v'.key) :
    (w.enter v).Alike r t (w'.enter v') where
  path := List.rel_append hw.path (.cons hr .nil)
  visited := by simp only [Work.enter, Trail.enter, hw.visited, hkey]
  found := hw.found
  polls := hw.polls
  calls := hw.calls

theorem hasVisited_eq (hw : w.Alike r t w') (hkey : v.key = v'.key) :
    w.trail.hasVisited v = w'.trail.hasVisited v' := by
  rw [Trail.hasVisited, Trail.hasVisited, hw.visited, hkey]

theorem finish (hw : w.Alike r t w') (depth : Nat) {result result' : Except Fault (List Path)}
    (hresult : FlowPaths.Alike (List.Forall₂ (List.Forall₂ r)) result result') :
    (w.finish depth result).Alike r t (w'.finish depth result') where
  result := hresult
  polls := hw.polls
  calls := by simpa [Work.finish] using hw.calls

theorem leave (hr : ∀ v v', r v v' → v.key = v'.key) (hw : w.Alike r t w') :
    w.leave.Alike r t w'.leave := by
  have htrail : List.Forall₂ r w.trail.leave.path w'.trail.leave.path ∧
      w.trail.leave.visited = w'.trail.leave.visited := by
    have hpath := List.forall₂_reverse_iff.2 hw.path
    unfold Trail.leave
    rw [← List.head?_reverse, ← List.head?_reverse, ← List.reverse_reverse w.trail.path,
      ← List.reverse_reverse w'.trail.path]
    generalize w.trail.path.reverse = p at hpath
    generalize w'.trail.path.reverse = p' at hpath
    cases hpath with
    | nil => exact ⟨by simpa using hw.path, hw.visited⟩
    | cons hlast hrest =>
      simp only [List.reverse_reverse, List.head?_cons, List.dropLast_reverse, List.tail_cons,
        hw.visited, hr _ _ hlast]
      exact ⟨List.forall₂_reverse_iff.2 hrest, trivial⟩
  exact ⟨htrail.1, htrail.2, hw.found, hw.polls, hw.calls⟩

end Work.Alike

theorem Query.record_alike (hw : w.Alike r t w') :
    Alike (Work.Alike r t) (q.record w) (q.record w') := by
  have hsize : w.found.size = w'.found.size := hw.found.length_eq
  unfold record
  rw [hsize]
  split
  · exact .error rfl
  · refine .ok ⟨hw.path, hw.visited, ?_, hw.polls, hw.calls⟩
    simp only [Array.toList_push]
    exact List.rel_append hw.found (.cons hw.path .nil)

theorem Query.poll_alike (hw : w.Alike r t w') :
    (q.poll w).1 = (q.poll w').1 ∧ (q.poll w).2.Alike r t (q.poll w').2 := by
  unfold poll
  split
  · exact ⟨rfl, hw⟩
  · have hasked :
        Work.Alike r t { w with polls := w'.polls + 1 } { w' with polls := w'.polls + 1 } :=
      ⟨hw.path, hw.visited, hw.found, rfl, hw.calls⟩
    dsimp only
    rw [hw.polls]
    split
    · exact ⟨rfl, hasked⟩
    · exact ⟨rfl, hasked⟩
    · exact ⟨rfl, hasked⟩

section

variable (hr : ∀ v v', r v v' → v.key = v'.key) (hagree : g.AgreesFrom r h s q.target)

include hr hagree

theorem Query.expand_alike (hv : g.Reaches s q.target v) (hvv' : r v v')
    (hw : w.Alike r q.target w') :
    Alike (List.Forall₂ (Facing r g s q.target)) (q.expand g v w).1 (q.expand h v' w').1 ∧
      (q.expand g v w).2.Alike r q.target (q.expand h v' w').2 := by
  have hlength : w.trail.path.length = w'.trail.path.length := hw.path.length_eq
  unfold expand
  rw [hlength]
  split
  · exact ⟨.ok .nil, hw⟩
  · refine ⟨(hagree.outEdges v hv v' hvv').imp fun items items' hout hitems => ?_,
      hw.note_out hv.key_ne (hr v v' hvv' ▸ hv.key_ne)⟩
    rw [List.forall₂_iff_zip] at hitems ⊢
    refine ⟨hitems.1, fun hmem => (hitems.2 hmem).imp fun e e' heq hdst => ⟨hdst, v, hv, ?_⟩⟩
    exact Graph.mem_edgesOut hout (heq ▸ (List.of_mem_zip hmem).1)

theorem scan_related {pending pending' : List Pending}
    (hpending : List.Forall₂ (Facing r g s q.target) pending pending')
    (hw : w.Alike r q.target w') :
    Scan.Related r g s q.target (scan g q pending w) (scan h q pending' w') := by
  induction hpending generalizing w w' with
  | nil => exact .dry hw
  | cons hfirst hrest ih =>
    cases hfirst with
    | error hkind => exact .failed hkind hw
    | @ok e e' hedge =>
      obtain ⟨hdst, hborder⟩ := hedge
      have hkey := hr _ _ hdst
      have hnode := hagree.hasNode e hborder _ hdst
      have hentered := (hw.note_has e.dst e'.dst).enter hdst hkey
      simp only [scan, Value.hashable_of_key_eq hkey, hw.hasVisited_eq hkey, Value.same_congr hkey]
      split
      · exact .failed rfl hw
      · split
        · exact ih hw
        · generalize hknown : g.hasNode e.dst = known at hnode ⊢
          generalize h.hasNode e'.dst = known' at hnode ⊢
          cases hnode with
          | error hkind => exact .failed hkind (hw.note_has _ _)
          | @ok known _ heq =>
            subst heq
            cases known with
            | false => exact .failed rfl (hw.note_has _ _)
            | true =>
              dsimp only
              split
              · have hrecord := q.record_alike hentered
                generalize q.record ((w.note (.has e.dst)).enter e.dst) = x at hrecord ⊢
                generalize q.record ((w'.note (.has e'.dst)).enter e'.dst) = x' at hrecord ⊢
                cases hrecord with
                | error hkind => exact .failed hkind hentered
                | ok hrecorded => exact ih (hrecorded.leave hr)
              · rename_i hother
                -- Not being the target, the node is reached, so that its edges agree.
                have hne : e.dst.key ≠ q.target.key := by
                  rw [Ne, ← Value.same_iff, Value.same_congr hkey]
                  exact hother
                have hexpand := q.expand_alike hr hagree (hborder.reaches hknown hne) hdst hentered
                generalize q.expand g e.dst (Work.enter _ e.dst) = x at hexpand ⊢
                generalize q.expand h e'.dst (Work.enter _ e'.dst) = x' at hexpand ⊢
                obtain ⟨result, w₁⟩ := x
                obtain ⟨result', w₁'⟩ := x'
                obtain ⟨hresult, hw₁⟩ := hexpand
                cases hresult with
                | error hkind => exact .failed hkind hw₁
                | ok hpending => exact .entered hpending hrest hw₁

end

structure State.Alike (r : Value → Value → Prop) (g : Graph) (s t : Value) (σ σ' : State) :
    Prop where
  frames : List.Forall₂ (fun f f' => List.Forall₂ (Facing r g s t) f.pending f'.pending)
    σ.frames σ'.frames
  work : σ.work.Alike r t σ'.work

section

variable (hr : ∀ v v', r v v' → v.key = v'.key) (hagree : g.AgreesFrom r h s q.target)

include hr hagree

theorem turn_related (depth : Nat) {σ σ' : State} (hσ : σ.Alike r g s q.target σ') :
    (turn g q depth σ).Related (State.Alike r g s q.target) (Outcome.Alike r q.target)
      (turn h q depth σ') := by
  obtain ⟨frames, w⟩ := σ
  obtain ⟨frames', w'⟩ := σ'
  obtain ⟨hframes, hw⟩ := hσ
  cases hframes with
  | nil => exact .done (hw.finish depth (.ok hw.found))
  | cons hframe hframes =>
    have hpoll := q.poll_alike hw
    simp only [turn]
    generalize q.poll w = x at hpoll ⊢
    generalize q.poll w' = x' at hpoll ⊢
    obtain ⟨result, w₁⟩ := x
    obtain ⟨result', w₁'⟩ := x'
    obtain ⟨rfl, hw₁⟩ := hpoll
    cases result with
    | error fault => exact .done (hw₁.finish depth (.error rfl))
    | ok _ =>
      have hscan := scan_related hr hagree hframe hw₁
      dsimp only
      generalize scan g q _ w₁ = x at hscan ⊢
      generalize scan h q _ w₁' = x' at hscan ⊢
      cases hscan with
      | failed hkind hw₂ => exact .done (hw₂.finish depth (.error hkind))
      | dry hw₂ => exact .next ⟨hframes, hw₂.leave hr⟩
      | entered hpending hrest hw₂ => exact .next ⟨.cons hpending (.cons hrest hframes), hw₂⟩

theorem start_related (hs : r s s) (hw : w.Alike r q.target w') :
    (start g q s w).Related (State.Alike r g s q.target) (Outcome.Alike r q.target)
      (start h q s w') := by
  have hlength : w.trail.path.length = w'.trail.path.length := hw.path.length_eq
  have hentered := (hw.note_has s s).enter hs rfl
  have hnode := hagree.source
  simp only [start, hlength]
  generalize hknown : g.hasNode s = known at hnode ⊢
  generalize h.hasNode s = known' at hnode ⊢
  cases hnode with
  | error hkind => exact .done ((hw.note_has s s).finish _ (.error hkind))
  | @ok known _ heq =>
    subst heq
    cases known with
    | false => exact .done ((hw.note_has s s).finish _ (.error rfl))
    | true =>
      dsimp only
      split
      · exact .done ((hw.note_has s s).finish _ (.error rfl))
      · split
        · have hrecord := q.record_alike hentered
          generalize q.record ((w.note (.has s)).enter s) = x at hrecord ⊢
          generalize q.record ((w'.note (.has s)).enter s) = x' at hrecord ⊢
          cases hrecord with
          | error hkind => exact .done (hentered.finish _ (.error hkind))
          | ok hrecorded => exact .done (hrecorded.finish _ (.ok hrecorded.found))
        · rename_i hother
          have hreached : g.Reaches s q.target s :=
            .source hknown (mt (Value.same_iff _ _).2 hother)
          have hexpand := q.expand_alike hr hagree hreached hs hentered
          generalize q.expand g s ((w.note (.has s)).enter s) = x at hexpand ⊢
          generalize q.expand h s ((w'.note (.has s)).enter s) = x' at hexpand ⊢
          obtain ⟨result, w₁⟩ := x
          obtain ⟨result', w₁'⟩ := x'
          obtain ⟨hresult, hw₁⟩ := hexpand
          cases hresult with
          | error hkind => exact .done (hw₁.finish _ (.error hkind))
          | ok hpending => exact .next ⟨.cons hpending .nil, hw₁⟩

theorem ends_iff_of_agreesFrom (hs : r s s) (hw : w.Alike r q.target w') :
    Ends g q s w ↔ Ends h q s w' := by
  have hstart := start_related hr hagree hs hw
  have hlength : w.trail.path.length = w'.trail.path.length := hw.path.length_eq
  have hturn := fun σ σ' (hσ : State.Alike r g s q.target σ σ') =>
    turn_related hr hagree w.trail.path.length hσ
  unfold Ends
  rw [← hlength]
  generalize start g q s w = t at hstart ⊢
  generalize start h q s w' = t' at hstart ⊢
  cases hstart with
  | done _ => simp
  | next hσ =>
    simp only [Turn.next.injEq, forall_eq']
    exact ⟨fun halts => halts.of_related hturn hσ,
      fun halts => halts.of_related (fun σ' σ hσ => (hturn σ σ' hσ).flip) hσ⟩

theorem run_related (hs : r s s) {trail : Trail} {polls : Nat}
    (hw : Work.Alike r q.target { trail, polls } { trail, polls })
    (ends : Ends g q s { trail, polls }) (ends' : Ends h q s { trail, polls }) :
    (run g q s trail polls ends).Alike r q.target (run h q s trail polls ends') := by
  have hstart := start_related hr hagree hs hw
  generalize ht : start g q s { trail, polls } = t at hstart
  generalize ht' : start h q s { trail, polls } = t' at hstart
  cases hstart with
  | done houtcome =>
    rw [run_of_done ends ht, run_of_done ends' ht']
    exact houtcome
  | next hstate =>
    rw [run_of_next ends ht, run_of_next ends' ht']
    exact iterate_related (fun _ _ => turn_related hr hagree _) hstate _ _

end

/-- A search over two graphs that agree as far as walks from its source lead without touching its
sink: it ends on both or on neither, and then it returns the same paths in the same order, or fails
with faults of one kind, after asking the check equally often.  It never asks for the edges of the
sink.  The same names may be all names that are equal, or only those that are written alike. -/
theorem run_local (hrefl : ∀ v, r v v) (hr : ∀ v v', r v v' → v.key = v'.key)
    (hagree : g.AgreesFrom r h s t) (c : Config) (spent : Nat) (trail : Trail) (polls : Nat) :
    (Ends g (c.query t spent) s { trail, polls } ↔ Ends h (c.query t spent) s { trail, polls }) ∧
      ∀ ends ends',
        let outcome := run g (c.query t spent) s trail polls ends
        let outcome' := run h (c.query t spent) s trail polls ends'
        Alike (List.Forall₂ (List.Forall₂ r)) outcome.result outcome'.result ∧
          outcome.polls = outcome'.polls ∧
          ∀ v, .out v ∈ outcome.calls ∨ .out v ∈ outcome'.calls → v.key ≠ t.key := by
  have hw : Work.Alike r t { trail, polls } { trail, polls } :=
    ⟨List.forall₂_same.2 fun v _ => hrefl v, rfl, .nil, rfl, by simp⟩
  refine ⟨ends_iff_of_agreesFrom hr hagree (hrefl s) hw, fun ends ends' => ?_⟩
  have houtcome := run_related hr hagree (hrefl s) hw ends ends'
  exact ⟨houtcome.result, houtcome.polls, houtcome.calls⟩

end Search

theorem Value.lookUp_alike {α β : Type} {r : α → β → Prop} {u v : Value} (hkey : u.key = v.key)
    {a : α} {b : β} (hab : r a b) : Alike r (u.lookUp a) (v.lookUp b) := by
  rw [lookUp, lookUp, hashable_of_key_eq hkey]
  split
  · exact .ok hab
  · exact .error rfl

namespace MemoryGraph

variable {g h : MemoryGraph} {s t : Value}

theorem toGraph_outEdges_eq (u : Value) :
    g.toGraph.outEdges u = u.lookUp (((g.out.find? u).getD []).map .ok) := by
  simp only [toGraph, outEdges, Value.lookUp]
  split <;> rfl

theorem agreesFrom (hsource : g.contains s = h.contains s)
    (hends : ∀ e, g.toGraph.Borders s t e → g.contains e.dst = h.contains e.dst)
    (hedges : ∀ u, g.toGraph.Reaches s t u →
      List.Forall₂ (fun e e' : Edge => e.dst.key = e'.dst.key)
        ((g.out.find? u).getD []) ((h.out.find? u).getD [])) :
    g.toGraph.AgreesFrom (fun v v' => v.key = v'.key) h.toGraph.toGraph s t where
  source := Value.lookUp_alike rfl hsource
  hasNode := by
    intro e he v hkey
    exact Value.lookUp_alike hkey ((hends e he).trans (contains_congr hkey))
  outEdges := by
    intro u hu v hkey
    rw [toGraph_outEdges_eq, toGraph_outEdges_eq, ← Table.find?_congr hkey]
    apply Value.lookUp_alike hkey
    rw [List.forall₂_map_left_iff, List.forall₂_map_right_iff]
    exact (hedges u hu).imp fun e e' hdst => .ok hdst

def plain : MemoryGraph :=
  let a : Value := .text "a"
  let b : Value := .text "b"
  let one : Value := .int 1
  { records := ⟨[(a, { id := a }), (b, { id := b }), (one, { id := one })]⟩
    out := ⟨[(a, [{ src := a, dst := b }, { src := a, dst := one }]),
      (b, [{ src := b, dst := one }]), (one, [])]⟩ }

def labelled : MemoryGraph :=
  let truth : Value := .num (.flag true)
  { records := ⟨[(truth, { id := truth, kind := .text "Exit" }), (.text "z", { id := .text "z" }),
      (.text "b", { id := .text "b" }), (.text "a", { id := .text "a", function := .text "f" })]⟩
    out := ⟨[(truth, [{ src := truth, dst := .text "z" }, { src := truth, dst := .text "a" }]),
      (.text "z", [{ src := .text "z", dst := .text "a" }]),
      (.text "b", [{ src := .text "b", dst := truth, kind := .text "ret" }]),
      (.text "a", [{ src := .text "a", dst := .text "b", kind := .text "call" },
        { src := .text "a", dst := truth, kind := .list [] }])]⟩ }

theorem plain_agreesFrom_labelled :
    plain.toGraph.AgreesFrom (fun v v' => v.key = v'.key) labelled.toGraph.toGraph (.text "a")
      (.int 1) := by
  have hdst : ∀ u : Value, u = .text "a" ∨ u = .text "b" → ∀ e ∈ plain.toGraph.edgesOut u,
      e.dst = .text "b" ∨ e.dst = .int 1 := by
    rintro u (rfl | rfl)
    · decide
    · decide
  have hreached : ∀ u, plain.toGraph.Reaches (.text "a") (.int 1) u →
      u = .text "a" ∨ u = .text "b" := by
    intro u hu
    induction hu with
    | source _ _ => exact .inl rfl
    | @step v e _ hedge _ hne ih =>
      obtain hb | hone := hdst v ih e hedge
      · exact .inr hb
      · rw [hone] at hne
        exact absurd rfl hne
  apply agreesFrom
  · rfl
  · rintro e ⟨v, hv, hedge⟩
    obtain hb | hone := hdst v (hreached v hv) e hedge
    · rw [hb]
      rfl
    · rw [hone]
      rfl
  · intro u hu
    obtain rfl | rfl := hreached u hu
    · exact .cons rfl (.cons rfl .nil)
    · exact .cons rfl .nil

end MemoryGraph

theorem Search.run_plain_local :
    let c : Config := { check := some fun _ => .ok false }
    let q := c.query (.int 1) 0
    let outcome := run MemoryGraph.plain.toGraph.toGraph q (.text "a") {} 5
      (MemoryGraph.plain.toGraph.ends _ _ _)
    let outcome' := run MemoryGraph.labelled.toGraph.toGraph q (.text "a") {} 5
      (MemoryGraph.labelled.toGraph.ends _ _ _)
    let truth : Value := .num (.flag true)
    outcome.result = .ok [[.text "a", .text "b", .int 1], [.text "a", .int 1]] ∧
      outcome'.result = .ok [[.text "a", .text "b", truth], [.text "a", truth]] ∧
      Alike (List.Forall₂ (List.Forall₂ fun v v' : Value => v.key = v'.key)) outcome.result
        outcome'.result ∧
      outcome.polls = 8 ∧ outcome.polls = outcome'.polls ∧
      ∀ v, .out v ∈ outcome.calls ∨ .out v ∈ outcome'.calls → v.key ≠ (Value.int 1).key := by
  intro c q outcome outcome' truth
  obtain ⟨_, hlocal⟩ := run_local (r := fun v v' : Value => v.key = v'.key) (fun _ => rfl)
    (fun _ _ h => h) MemoryGraph.plain_agreesFrom_labelled c 0 {} 5
  obtain ⟨halike, hpolls, hcalls⟩ := hlocal (MemoryGraph.plain.toGraph.ends _ _ _)
    (MemoryGraph.labelled.toGraph.ends _ _ _)
  have hresult : outcome.result = .ok [[.text "a", .text "b", .int 1], [.text "a", .int 1]] := by
    subst outcome q c
    cbv
  have hresult' : outcome'.result = .ok [[.text "a", .text "b", truth], [.text "a", truth]] := by
    subst outcome' q c truth
    cbv
  have height : outcome.polls = 8 := by
    subst outcome q c
    cbv
  exact ⟨hresult, hresult', halike, height, hpolls, hcalls⟩

end FlowPaths
