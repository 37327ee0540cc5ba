import Mathlib
import FlowPaths.Proofs.Search.Moves
import FlowPaths.Proofs.Search.Restoration

/-!
What holds at the head of every turn of a search.  The route beyond where the search began is
spelled by the frames of the stack, each of which has looked at the edges of its node up to the one
that leads to the frame above it.
-/

namespace FlowPaths

structure Trail.Simple (t : Trail) : Prop where
  nodup : (t.path.map Value.key).Nodup
  mem_visited_iff : ∀ k, k ∈ t.visited ↔ k ∈ t.path.map Value.key

theorem Trail.Simple.enter {t : Trail} (h : t.Simple) {id : Value} (hnew : id.key ∉ t.visited) :
    (t.enter id).Simple where
  nodup := by
    rw [h.mem_visited_iff] at hnew
    simp only [Trail.enter, List.map_append, List.map_singleton]
    rw [← List.concat_eq_append]
    exact h.nodup.concat hnew
  mem_visited_iff k := by
    simp only [Trail.enter, List.mem_insert_iff, h.mem_visited_iff, List.map_append,
      List.map_singleton, List.mem_append, List.mem_singleton]
    exact or_comm

theorem Trail.Extends.simple {t t' : Trail} {nodes : List Value} (h : t.Extends nodes t')
    (ht : t.Simple) : t'.Simple := by
  induction h with
  | refl => exact ht
  | enter _ hnew ih => exact ih.enter hnew

namespace Search

def Frame.Suspended (g : Graph) (q : Query) (length : Nat) (frame : Frame) : Prop :=
  if q.isDeep length then frame.pending = []
  else ∃ edges, g.outEdges frame.node = .ok edges ∧ frame.pending <:+ edges

def Frame.LeadsTo (g : Graph) (frame : Frame) (node : Value) : Prop :=
  ∃ before edge, g.outEdges frame.node = .ok (before ++ .ok edge :: frame.pending) ∧
    edge.dst = node

structure Stacked (g : Graph) (q : Query) (depth : Nat) (frames : List Frame) : Prop where
  isNode : ∀ frame ∈ frames, g.hasNode frame.node = .ok true
  not_target : ∀ frame ∈ frames, frame.node.key ≠ q.target.key
  chain : frames.IsChain fun upper lower => lower.LeadsTo g upper.node
  suspended : ∀ above frame below, frames = above ++ frame :: below →
    frame.Suspended g q (depth + below.length + 1)

structure Invariant (g : Graph) (q : Query) (entry : Trail) (s : State) : Prop
    extends Stacked g q entry.path.length s.frames where
  simple : s.work.trail.Simple
  path_eq : s.work.trail.path = entry.path ++ (s.frames.map Frame.node).reverse

section

variable {g : Graph} {q : Query} {depth : Nat}

theorem Query.Offers.suspended {length : Nat} {id : Value} {pending : List Pending}
    (h : q.Offers g length id pending) : (Frame.mk id pending).Suspended g q length := by
  cases h with
  | deep hdeep =>
    rw [Frame.Suspended, if_pos hdeep]
  | asked hdeep hout =>
    rw [Frame.Suspended, hdeep]
    exact ⟨pending, hout, List.suffix_rfl⟩

theorem Frame.Suspended.exists_seen {length : Nat} {node : Value} {before rest : List Pending}
    {x : Pending} (h : (Frame.mk node (before ++ x :: rest)).Suspended g q length) :
    q.isDeep length = false ∧ ∃ seen, g.outEdges node = .ok (seen ++ x :: rest) := by
  unfold Suspended at h
  split at h
  · exact absurd h (by simp)
  · rename_i hdeep
    obtain ⟨_, hout, front, rfl⟩ := h
    exact ⟨Bool.eq_false_iff.2 hdeep, front ++ before, by rw [hout, List.append_assoc]⟩

namespace Stacked

variable {frame : Frame} {frames : List Frame}

theorem nil : Stacked g q depth [] where
  isNode := List.forall_mem_nil _
  not_target := List.forall_mem_nil _
  chain := .nil
  suspended above frame below heq := absurd heq (by simp)

theorem cons (h : Stacked g q depth frames) (hnode : g.hasNode frame.node = .ok true)
    (htarget : frame.node.key ≠ q.target.key)
    (hlower : ∀ lower ∈ frames.head?, lower.LeadsTo g frame.node)
    (hframe : frame.Suspended g q (depth + frames.length + 1)) :
    Stacked g q depth (frame :: frames) where
  isNode := List.forall_mem_cons.2 ⟨hnode, h.isNode⟩
  not_target := List.forall_mem_cons.2 ⟨htarget, h.not_target⟩
  chain := List.isChain_cons.2 ⟨hlower, h.chain⟩
  suspended above frame' below heq := by
    obtain ⟨rfl, hcons⟩ | ⟨above', rfl, hframes⟩ := List.cons_eq_append_iff.1 heq
    · obtain ⟨rfl, rfl⟩ := List.cons.inj hcons
      exact hframe
    · exact h.suspended above' frame' below hframes

theorem tail (h : Stacked g q depth (frame :: frames)) : Stacked g q depth frames where
  isNode := (List.forall_mem_cons.1 h.isNode).2
  not_target := (List.forall_mem_cons.1 h.not_target).2
  chain := h.chain.tail
  suspended above frame' below heq := h.suspended (frame :: above) frame' below (heq ▸ rfl)

theorem enter {node : Value} {before rest pending : List Pending} {edge : Edge}
    (h : Stacked g q depth (⟨node, before ++ .ok edge :: rest⟩ :: frames))
    (hnode : g.hasNode edge.dst = .ok true) (htarget : edge.dst.key ≠ q.target.key)
    (hoffers : q.Offers g (depth + (frames.length + 1) + 1) edge.dst pending) :
    Stacked g q depth (⟨edge.dst, pending⟩ :: ⟨node, rest⟩ :: frames) := by
  obtain ⟨hdeep, seen, hseen⟩ := (h.suspended [] _ frames rfl).exists_seen
  have hrest : (Frame.mk node rest).Suspended g q (depth + frames.length + 1) := by
    rw [Frame.Suspended, hdeep]
    exact ⟨_, hseen, seen ++ [.ok edge], by simp⟩
  have hleads : (Frame.mk node rest).LeadsTo g edge.dst := ⟨seen, edge, hseen, rfl⟩
  have hlooked : Stacked g q depth (⟨node, rest⟩ :: frames) :=
    h.tail.cons (List.forall_mem_cons.1 h.isNode).1 (List.forall_mem_cons.1 h.not_target).1
      (List.isChain_cons.1 h.chain).1 hrest
  exact hlooked.cons hnode htarget (by simpa using hleads) hoffers.suspended

end Stacked

variable {current : Value} {trail : Trail} {polls n : Nat} {s s' : State}

theorem Begins.stacked (h : Begins g q current trail s) :
    Stacked g q trail.path.length s.frames := by
  cases h with
  | intro hnode htarget htrail hoffers =>
    rw [htrail, Trail.enter, List.length_append] at hoffers
    exact Stacked.nil.cons hnode htarget (by simp) hoffers.suspended

theorem Moves.stacked (h : Moves g q s s') (hs : Stacked g q trail.path.length s.frames)
    (hextends : s'.Extends trail) : Stacked g q trail.path.length s'.frames := by
  cases h with
  | leave => exact hs.tail
  | @enter node before rest pending frames edge w w' hnode _ htarget _ hoffers =>
    have hlength : w'.trail.path.length = trail.path.length + (frames.length + 1) + 1 := by
      have hpath := congrArg List.length hextends.path_eq
      simpa [Nat.add_assoc] using hpath
    rw [hlength] at hoffers
    exact hs.enter hnode htarget hoffers

theorem extends_of_passes (hnew : current.key ∉ trail.visited)
    (h : Passes (turn g q trail.path.length) (start g q current { trail, polls }) n s) :
    s.Extends trail := by
  induction h with
  | first hstart =>
    have hholds := start_extends (g := g) (q := q) hnew polls
    rw [hstart] at hholds
    exact hholds
  | next _ hturn ih =>
    have hholds := turn_extends (g := g) (q := q) ih
    rw [hturn] at hholds
    exact hholds

theorem stacked_of_passes (hnew : current.key ∉ trail.visited)
    (h : Passes (turn g q trail.path.length) (start g q current { trail, polls }) n s) :
    Stacked g q trail.path.length s.frames := by
  induction h with
  | first hstart => exact (begins_of_start hstart).stacked
  | next hpasses hturn ih =>
    exact (moves_of_turn hturn).stacked ih (extends_of_passes hnew (hpasses.next hturn))

/-- The state of a search at the head of any turn, if it was given a trail whose visited nodes are
those of its route, none of them twice, and a node that is not among them. -/
theorem invariant_of_passes (htrail : trail.Simple) (hnew : current.key ∉ trail.visited)
    (h : Passes (turn g q trail.path.length) (start g q current { trail, polls }) n s) :
    Invariant g q trail s where
  toStacked := stacked_of_passes hnew h
  simple := (extends_of_passes hnew h).simple htrail
  path_eq := (extends_of_passes hnew h).path_eq

end

theorem invariant_of_passes_cyclic :
    let q : Query := { target := .text "C", maxDepth := some (.int 3) }
    let trail : Trail := { path := [.text "P"], visited := [Value.key (.text "P")] }
    let g := cyclic.toGraph.toGraph
    trail.Simple ∧ Value.key (.text "A") ∉ trail.visited ∧
      ∃ s, Passes (turn g q trail.path.length) (start g q (.text "A") { trail, polls := 0 }) 1 s ∧
        s.frames.map Frame.node = [.text "B", .text "A"] ∧
        s.frames.map (fun frame => frame.pending.length) = [0, 1] ∧ Invariant g q trail s := by
  intro q trail g
  have htrail : trail.Simple := ⟨by decide, fun _ => Iff.rfl⟩
  have hnew : Value.key (.text "A") ∉ trail.visited := by decide
  have hpasses : ∃ s, Passes (turn g q trail.path.length)
      (start g q (.text "A") { trail, polls := 0 }) 1 s ∧
        s.frames.map Frame.node = [.text "B", .text "A"] ∧
        s.frames.map (fun frame => frame.pending.length) = [0, 1] :=
    ⟨_, .next (.first rfl) rfl, rfl, rfl⟩
  obtain ⟨s, hs, hnodes, hpending⟩ := hpasses
  exact ⟨htrail, hnew, s, hs, hnodes, hpending, invariant_of_passes htrail hnew hs⟩

end Search

end FlowPaths
