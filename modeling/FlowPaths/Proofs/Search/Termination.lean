import Mathlib
import FlowPaths.Proofs.Search.Moves
import FlowPaths.Proofs.Search.Simulation

/-!
How many turns a search can take.  A frame may be covered once for every edge that it has left, and
each time by a frame from which fewer nodes can be entered.  Counting the turns that this allows
for, frame by frame, gives a number that goes down with every turn, although nodes are entered again
and again and the stack grows and shrinks.
-/

namespace FlowPaths

def Graph.DegreeAtMost (g : Graph) (degree : Nat) : Prop :=
  ∀ id edges, g.outEdges id = .ok edges → edges.length ≤ degree

namespace Search

/-- The turns that it can take to be done with a frame with so many edges left, as long as so many
nodes can be entered from it and no frame has more than `degree` edges to begin with.  One turn
leaves the frame; each edge may take one to enter a node, and those that the new frame takes. -/
def cost (degree : Nat) : Nat → Nat → Nat
  | 0, _ => 1
  | nodes + 1, edges => 1 + edges * (1 + cost degree nodes degree)

theorem cost_pos (degree nodes edges : Nat) : 1 ≤ cost degree nodes edges := by
  cases nodes with
  | zero => exact Nat.le_refl 1
  | succ nodes => exact Nat.le_add_right 1 _

theorem cost_mono {degree nodes nodes' edges edges' : Nat} (hnodes : nodes ≤ nodes')
    (hedges : edges ≤ edges') : cost degree nodes edges ≤ cost degree nodes' edges' := by
  induction nodes generalizing nodes' edges edges' with
  | zero => exact cost_pos degree nodes' edges'
  | succ nodes ih =>
    cases nodes' with
    | zero => omega
    | succ nodes' =>
      have hbelow := ih (Nat.le_of_succ_le_succ hnodes) (Nat.le_refl degree)
      simp only [cost]
      gcongr

theorem cost_enter {degree nodes edges rest pending : Nat} (hpending : pending ≤ degree)
    (hrest : rest < edges) :
    cost degree nodes pending + cost degree (nodes + 1) rest < cost degree (nodes + 1) edges := by
  have hbelow : cost degree nodes pending ≤ cost degree nodes degree :=
    cost_mono (Nat.le_refl nodes) hpending
  have hedge : (rest + 1) * (1 + cost degree nodes degree) ≤
      edges * (1 + cost degree nodes degree) := Nat.mul_le_mul_right _ hrest
  rw [Nat.succ_mul] at hedge
  simp only [cost]
  omega

/-- The turns that it can take to be done with a stack.  When a frame is left, its node can be
entered again, so from the frames further below more nodes can be entered. -/
def load (degree : Nat) : Nat → List Frame → Nat
  | _, [] => 0
  | nodes, frame :: frames =>
    cost degree nodes frame.pending.length + load degree (nodes + 1) frames

theorem load_mono {degree nodes nodes' : Nat} (h : nodes ≤ nodes') (frames : List Frame) :
    load degree nodes frames ≤ load degree nodes' frames := by
  induction frames generalizing nodes nodes' with
  | nil => exact Nat.le_refl 0
  | cons frame frames ih =>
    exact Nat.add_le_add (cost_mono h (Nat.le_refl _)) (ih (Nat.succ_le_succ h))

theorem unvisited_lt_length {keys visited : List Key} {k : Key} (hk : k ∈ keys)
    (hv : k ∈ visited) : unvisited keys visited < keys.length := by
  refine Nat.lt_of_le_of_ne List.countP_le_length fun heq => ?_
  have hnew := List.countP_eq_length.1 heq k hk
  simp [hv] at hnew

theorem unvisited_filter_le (keys visited : List Key) (k : Key) :
    unvisited keys (visited.filter (· ≠ k)) ≤ unvisited keys visited + keys.count k := by
  induction keys with
  | nil => exact Nat.zero_le _
  | cons key keys ih =>
    rw [unvisited_cons, unvisited_cons, List.count_cons]
    by_cases hkey : key = k
    · rw [if_pos (beq_iff_eq.2 hkey)]
      split <;> omega
    · have hmem : key ∈ visited.filter (· ≠ k) ↔ key ∈ visited := by simp [hkey]
      simp only [List.contains_eq_mem, hmem]
      omega

theorem unvisited_leave_le {keys : List Key} (hkeys : keys.Nodup) (t : Trail) :
    unvisited keys t.leave.visited ≤ unvisited keys t.visited + 1 := by
  unfold Trail.leave
  split
  · exact Nat.le_succ _
  · rename_i id _
    calc
      unvisited keys (t.visited.filter (· ≠ id.key)) ≤
          unvisited keys t.visited + keys.count id.key := unvisited_filter_le keys t.visited id.key
      _ ≤ unvisited keys t.visited + 1 :=
        Nat.add_le_add_left (List.nodup_iff_count_le_one.1 hkeys id.key) _

def State.load (degree : Nat) (keys : List Key) (s : State) : Nat :=
  Search.load degree (unvisited keys s.work.trail.visited) s.frames

section

variable {g : Graph} {q : Query} {degree : Nat} {keys : List Key}

theorem Query.Offers.length_le (hdegree : g.DegreeAtMost degree) {length : Nat} {id : Value}
    {pending : List Pending} (h : q.Offers g length id pending) : pending.length ≤ degree := by
  cases h with
  | deep => exact Nat.zero_le degree
  | asked _ hout => exact hdegree id pending hout

theorem Moves.load_lt (hg : g.SupportedBy keys) (hkeys : keys.Nodup)
    (hdegree : g.DegreeAtMost degree) {s s' : State} (h : Moves g q s s') :
    s'.load degree keys < s.load degree keys := by
  cases h with
  | @leave frame frames w w' htrail =>
    have hbelow : load degree (unvisited keys w.trail.leave.visited) frames ≤
        load degree (unvisited keys w.trail.visited + 1) frames :=
      load_mono (unvisited_leave_le hkeys w.trail) frames
    have hframe := cost_pos degree (unvisited keys w.trail.visited) frame.pending.length
    simp only [State.load, load, htrail]
    omega
  | @enter node before rest pending frames edge w w' hnode hnew _ htrail hoffers =>
    -- From the new frame fewer nodes can be entered; from the one that it covers as many as before.
    have hlt := unvisited_insert_lt (hg _ hnode) hnew
    simp only [State.load, load, htrail, Trail.enter]
    generalize unvisited keys (w.trail.visited.insert edge.dst.key) = left at hlt ⊢
    obtain ⟨nodes, hnodes⟩ : ∃ nodes, unvisited keys w.trail.visited = nodes + 1 :=
      Nat.exists_eq_add_one_of_ne_zero (by omega)
    rw [hnodes] at hlt ⊢
    have hle : left ≤ nodes := Nat.le_of_lt_succ hlt
    have hedges : rest.length < (before ++ .ok edge :: rest).length := by
      rw [List.length_append, List.length_cons]
      omega
    have hpaid : cost degree nodes pending.length + cost degree (nodes + 1) rest.length <
        cost degree (nodes + 1) (before ++ .ok edge :: rest).length :=
      cost_enter (hoffers.length_le hdegree) hedges
    have hentered : cost degree left pending.length ≤ cost degree nodes pending.length :=
      cost_mono hle (Nat.le_refl _)
    have hcovered : cost degree (left + 1) rest.length ≤ cost degree (nodes + 1) rest.length :=
      cost_mono (Nat.succ_le_succ hle) (Nat.le_refl _)
    have hbelow : load degree (left + 1 + 1) frames ≤ load degree (nodes + 1 + 1) frames :=
      load_mono (by omega) frames
    omega

theorem Begins.load_le (hg : g.SupportedBy keys) (hdegree : g.DegreeAtMost degree)
    {current : Value} {trail : Trail} {s : State} (h : Begins g q current trail s) :
    s.load degree keys ≤ cost degree (keys.length - 1) degree := by
  cases h with
  | @intro pending w hnode _ htrail hoffers =>
    have hentered : current.key ∈ w.trail.visited := by
      rw [htrail]
      exact List.mem_insert_self
    have hlt := unvisited_lt_length (hg current hnode) hentered
    have hfewer : unvisited keys w.trail.visited ≤ keys.length - 1 := Nat.le_sub_one_of_lt hlt
    simp only [State.load, load, Nat.add_zero]
    exact cost_mono hfewer (hoffers.length_le hdegree)

/-- However far a search has come, the turns taken and those left are no more than there were to
begin with. -/
theorem add_load_le_of_passes (hg : g.SupportedBy keys) (hkeys : keys.Nodup)
    (hdegree : g.DegreeAtMost degree) {current : Value} {trail : Trail} {polls n : Nat} {s : State}
    (h : Passes (turn g q trail.path.length) (start g q current { trail, polls }) n s) :
    n + s.load degree keys ≤ cost degree (keys.length - 1) degree := by
  induction h with
  | first hstart =>
    rw [Nat.zero_add]
    exact (begins_of_start hstart).load_le hg hdegree
  | next _ hturn ih =>
    have hlt := (moves_of_turn hturn).load_lt hg hkeys hdegree
    omega

end

end Search

theorem ScriptedGraph.supportedBy (g : ScriptedGraph) :
    g.toGraph.toGraph.SupportedBy (g.nodes.map Value.key) :=
  fun _ => hasNode_eq_ok_true

theorem ScriptedGraph.degreeAtMost (g : ScriptedGraph) :
    g.toGraph.toGraph.DegreeAtMost (g.out.flatMap Prod.snd).length := by
  intro id edges hout
  have hout : g.outEdges id = .ok edges := hout
  unfold outEdges at hout
  split at hout
  · cases hout
  · cases hout
    rw [← List.map_flatMap, List.length_map]
    exact (List.filter_sublist.flatMap _).length_le

/-- In a finite graph every search comes to an end, wherever it starts, whatever it is looking for
and whatever the route and the visited nodes that it is given, under any bounds and with any check:
unless it is over at once, some turn of its loop finds no frame left or fails.  If no node has more
than `degree` edges, the turns before are no more than the nodes and edges allow for. -/
theorem FiniteGraph.search_ends (g : FiniteGraph) (q : Search.Query) (current : Value)
    (trail : Trail) (polls : Nat) :
    let turn := Search.turn g.toGraph q trail.path.length
    let first := Search.start g.toGraph q current { trail, polls }
    ((∃ o, first = .done o) ∨
      ∃ n s, Passes turn first n s ∧ (s.frames = [] ∨
        ∃ fault, ∃ w : Search.Work, turn s = .done (w.finish trail.path.length (.error fault)))) ∧
      ∀ keys degree, g.toGraph.SupportedBy keys → g.toGraph.DegreeAtMost degree →
        ∀ n s, Passes turn first n s → n ≤ Search.cost degree (keys.length - 1) degree := by
  intro turn first
  refine ⟨?_, fun keys degree hg hdegree n s h => ?_⟩
  · cases hfirst : first with
    | done o => exact .inl ⟨o, rfl⟩
    | next s =>
      obtain ⟨n, s, o, hpasses, hdone⟩ := (g.ends q current { trail, polls } s hfirst).exists_passes
        (.first hfirst)
      refine .inr ⟨n, s, hfirst ▸ hpasses, ?_⟩
      obtain hframes | ⟨fault, w, rfl⟩ := Search.turn_eq_done hdone
      · exact .inl hframes
      · exact .inr ⟨fault, w, hdone⟩
  · -- A key that is listed twice can be entered only once.
    have hle := Search.add_load_le_of_passes (fun v hv => List.mem_dedup.2 (hg v hv))
      (List.nodup_dedup keys) hdegree h
    have hlength := (List.dedup_sublist keys).length_le
    have hcost : Search.cost degree (keys.dedup.length - 1) degree ≤
        Search.cost degree (keys.length - 1) degree :=
      Search.cost_mono (Nat.sub_le_sub_right hlength 1) (Nat.le_refl degree)
    omega

/-- The first node counts as visited already, and the route holds something that is no node.  The
search comes by `B` to `C` and back, and fails at the edge out of the graph. -/
theorem FiniteGraph.search_ends_cyclic :
    let g := Search.cyclic.toGraph
    let q : Search.Query := { target := .text "Q", check := some (CancelPlan.after 9).check }
    let trail : Trail :=
      { path := [.list [], .text "B"], visited := [Value.key (.text "A")] }
    let turn := Search.turn g.toGraph q trail.path.length
    let first := Search.start g.toGraph q (.text "A") { trail, polls := 0 }
    (∃ n s, Passes turn first n s ∧ (s.frames = [] ∨
      ∃ fault, ∃ w : Search.Work, turn s = .done (w.finish trail.path.length (.error fault)))) ∧
      ∀ n s, Passes turn first n s → n ≤ 61 := by
  intro g q trail turn first
  obtain ⟨hends, hturns⟩ := search_ends g q (.text "A") trail 0
  refine ⟨hends.resolve_left ?_, ?_⟩
  · rintro ⟨o, ho⟩
    cases ho
  · exact hturns _ _ Search.cyclic.supportedBy Search.cyclic.degreeAtMost

end FlowPaths
