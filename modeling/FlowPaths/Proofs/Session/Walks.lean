import FlowPaths.Proofs.Session.Steps

/-!
Walks over the edges of graphs in memory.  A walk lists the edges that its graph has when the first
one is asked for, and whatever is done in the session meanwhile, it gives these one after another
and then nothing more.
-/

namespace FlowPaths

namespace EdgeWalk

theorem fst_advance (groups : List (List Edge)) : (advance groups).1 = groups.flatten.head? := by
  fun_induction advance groups with
  | case1 => rfl
  | case2 groups ih => exact ih
  | case3 edge edges groups => rfl

theorem flatten_snd_advance (groups : List (List Edge)) :
    (advance groups).2.flatten = groups.flatten.tail := by
  fun_induction advance groups with
  | case1 => rfl
  | case2 groups ih => exact ih
  | case3 edge edges groups => rfl

theorem exists_take_left (g : MemoryGraph) (groups : List (List Edge)) (n : Nat) :
    ∃ groups', (left groups).take g n =
        ((List.range n).map fun j => groups.flatten[j]?, left groups') ∧
      groups'.flatten = groups.flatten.drop n := by
  induction n generalizing groups with
  | zero => exact ⟨groups, rfl, rfl⟩
  | succ n ih =>
    obtain ⟨groups', htake, hflatten⟩ := ih (advance groups).2
    refine ⟨groups', ?_, ?_⟩
    · rw [flatten_snd_advance] at htake
      simp only [take, next, remaining, htake, fst_advance, List.range_succ_eq_map, List.map_cons,
        List.map_map, List.head?_eq_getElem?, List.getElem?_tail]
      rfl
    · rw [hflatten, flatten_snd_advance, List.drop_tail]

theorem take_unstarted (g : MemoryGraph) (n : Nat) :
    unstarted.take g (n + 1) = (left g.out.values).take g (n + 1) := rfl

end EdgeWalk

namespace Session

def Command.requests (name : String) : Command → Nat
  | .continueWalk walk n => if walk = name then n else 0
  | _ => 0

def requests (name : String) : List Command → Nat
  | [] => 0
  | command :: commands => command.requests name + requests name commands

def Command.yields (name : String) : Command → Answer → List (Option Edge)
  | .continueWalk walk _, .reply (.walked edges) => if walk = name then edges else []
  | _, _ => []

theorem Command.requests_of_not_walks {name : String} {command : Command}
    (h : ¬command.Walks name) : command.requests name = 0 := by
  cases command with
  | continueWalk walk n => exact if_neg h
  | _ => rfl

theorem Command.yields_of_not_walks {name : String} {command : Command}
    (h : ¬command.Walks name) (answer : Answer) : command.yields name answer = [] := by
  unfold Command.yields
  split
  · exact if_neg h
  · rfl

namespace Workspace

def yields (name : String) (ws : Workspace) : List Command → List (Option Edge)
  | [] => []
  | command :: commands =>
    let outcome := ws.step command
    command.yields name outcome.answer ++ outcome.workspace.yields name commands

structure Follows (ws : Workspace) (name : String) (i : Nat) (walk : EdgeWalk) : Prop where
  bound : ws.walks.lookup name = some (i, walk)
  memory : ∃ g, ws.subjects[i]? = some (.memory g)

variable {ws : Workspace} {name : String} {i : Nat} {walk : EdgeWalk}

namespace Follows

theorem begin {graph : String} {g : MemoryGraph} (hnamed : ws.named graph = .ok (i, .memory g)) :
    (ws.step (.beginWalk name graph)).workspace.Follows name i .unstarted := by
  simp only [step, beginWalk, hnamed, given]
  exact ⟨lookup_bindName_self name _ _, g, getElem?_of_named hnamed⟩

variable (h : ws.Follows name i walk)

include h

theorem step {command : Command} (hcommand : ¬command.Walks name) :
    (ws.step command).workspace.Follows name i walk := by
  have hevolves := evolves_step ws command
  obtain ⟨g, hget⟩ := h.memory
  obtain ⟨subject, hget', hturns⟩ := hevolves.subjects hget
  refine ⟨(hevolves.walks hcommand).trans h.bound, ?_⟩
  cases hturns
  exact ⟨_, hget'⟩

theorem after {commands : List Command} (hcommands : ∀ command ∈ commands, ¬command.Walks name) :
    (ws.after commands).Follows name i walk := by
  induction commands generalizing ws with
  | nil => exact h
  | cons command commands ih =>
    rw [List.forall_mem_cons] at hcommands
    exact ih (h.step hcommands.1) hcommands.2

theorem continueWalk {g : MemoryGraph} (hget : ws.subjects[i]? = some (.memory g)) (n : Nat) :
    let outcome := ws.step (.continueWalk name n)
    outcome.answer = .reply (.walked (walk.take g n).1) ∧
      outcome.workspace.Follows name i (walk.take g n).2 := by
  cases n with
  | zero => exact ⟨rfl, h⟩
  | succ n =>
    simp only [Workspace.step, Workspace.continueWalk, Nat.succ_ne_zero, if_false, lookUp, h.bound,
      given, hget]
    exact ⟨rfl, lookup_bindName_self name _ _, g, hget⟩

theorem yields_cons {g : MemoryGraph} {groups : List (List Edge)} {n : Nat}
    {commands : List Command} (hget : ws.subjects[i]? = some (.memory g))
    (htake : walk.take g n = (EdgeWalk.left groups).take g n)
    (hrest : ∀ ws' groups', Follows ws' name i (.left groups') → ws'.yields name commands =
      (List.range (requests name commands)).map fun j => groups'.flatten[j]?) :
    ws.yields name (.continueWalk name n :: commands) =
      (List.range (n + requests name commands)).map fun j => groups.flatten[j]? := by
  obtain ⟨hanswer, hfollows⟩ := h.continueWalk hget n
  obtain ⟨groups', hleft, hflatten⟩ := EdgeWalk.exists_take_left g groups n
  rw [htake, hleft] at hanswer hfollows
  rw [yields, hanswer, hrest _ _ hfollows, hflatten, List.range_add, List.map_append, List.map_map]
  simp only [Command.yields, if_true, List.getElem?_drop]
  rfl

end Follows

theorem Follows.yields_left {groups : List (List Edge)} (h : ws.Follows name i (.left groups))
    {commands : List Command} (hcommands : ∀ graph, .beginWalk name graph ∉ commands) :
    ws.yields name commands =
      (List.range (requests name commands)).map fun j => groups.flatten[j]? := by
  induction commands generalizing ws groups with
  | nil => rfl
  | cons command commands ih =>
    simp only [List.mem_cons, not_or, forall_and] at hcommands
    -- A command that concerns the walk asks for edges; any other leaves it alone.
    by_cases hwalks : command.Walks name
    · cases command with
      | beginWalk walk graph =>
        cases hwalks
        exact absurd rfl (hcommands.1 graph)
      | continueWalk walk n =>
        cases hwalks
        obtain ⟨g, hget⟩ := h.memory
        rw [requests, Command.requests, if_pos rfl]
        exact h.yields_cons hget rfl fun _ _ h' => ih h' hcommands.2
      | _ => cases hwalks
    · rw [yields, requests, Command.yields_of_not_walks hwalks,
        Command.requests_of_not_walks hwalks, Nat.zero_add, List.nil_append]
      exact ih (h.step hwalks) hcommands.2

/-- What a walk gives, and that it gives nothing more afterwards, is settled when it is first asked:
these are the edges of its graph at that moment, node by node, whatever was done in the session
before and whatever is done between the requests. -/
theorem walk_snapshot {time automaticId : Value} {prior before later : List Command}
    {name graph : String} {i : Nat} {g : MemoryGraph}
    (hgraph : (after { time, automaticId } prior).named graph = .ok (i, .memory g))
    (hbefore : ∀ command ∈ before, ¬command.Walks name)
    (hlater : ∀ graph, .beginWalk name graph ∉ later) (n : Nat) :
    let ws := after { time, automaticId } (prior ++ .beginWalk name graph :: before)
    ∃ g₁ lists, ws.subjects[i]? = some (.memory g₁) ∧
      g₁.nodeIds.mapM g₁.outEdges = .ok lists ∧ g₁.edges = lists.flatten ∧
      ws.yields name (.continueWalk name (n + 1) :: later) =
        (List.range (n + 1 + requests name later)).map fun j => lists.flatten[j]? := by
  intro ws
  have hfollows : ws.Follows name i .unstarted := by
    have hws : ws = after ((after { time, automaticId } prior).step
        (.beginWalk name graph)).workspace before := List.foldl_append
    rw [hws]
    exact (Follows.begin hgraph).after hbefore
  have hempty : Sound { time, automaticId } := List.forall_mem_nil _
  obtain ⟨g₁, hget⟩ := hfollows.memory
  have hg₁ : g₁.WellFormed := (hempty.after _ _ (List.mem_of_getElem? hget)).wellFormed
  refine ⟨g₁, _, hget, hg₁.mapM_outEdges, rfl, ?_⟩
  exact hfollows.yields_cons hget (EdgeWalk.take_unstarted g₁ n) fun _ _ h => h.yields_left hlater

/-- The graph gains an edge before the first request, and after it is emptied and refuses an edge,
while another walk goes on. -/
theorem walk_snapshot_disturbed :
    let edge (src dst : String) : Edge := { src := .text src, dst := .text dst }
    let pair (src dst : String) : Value := .tuple [Value.text src, Value.text dst]
    let empty := MemoryGraph.listing [] []
    let prior : List Command :=
      [.newFromEdges "g" .null (.list []) (.list [pair "a" "b", pair "b" "a"])]
    let before : List Command :=
      [.beginWalk "v" "g", .continueWalk "v" 1, .change "g" (.addEdge (edge "a" "a"))]
    let later : List Command :=
      [.change "g" (.importDocument empty (.num (.flag false))),
        .change "g" (.addEdge (edge "a" "b")), .continueWalk "v" 1, .continueWalk "w" 3]
    let start : Workspace := { time := .null, automaticId := .null }
    let ws := start.after (prior ++ .beginWalk "w" "g" :: before)
    (∃ g, (start.after prior).named "g" = .ok (0, .memory g)) ∧
      (∀ command ∈ before, ¬command.Walks "w") ∧ (∀ graph, .beginWalk "w" graph ∉ later) ∧
      (∃ g₁ lists, ws.subjects[0]? = some (.memory g₁) ∧
        g₁.nodeIds.mapM g₁.outEdges = .ok lists ∧ g₁.edges = lists.flatten ∧
        ws.yields "w" (.continueWalk "w" 1 :: later) =
          (List.range 4).map fun j => lists.flatten[j]?) ∧
      ws.yields "w" (.continueWalk "w" 1 :: later) =
        [some (edge "a" "b"), some (edge "a" "a"), some (edge "b" "a"), none] := by
  intro edge pair empty prior before later start ws
  obtain ⟨g, hgraph⟩ : ∃ g, (start.after prior).named "g" = .ok (0, .memory g) := ⟨_, rfl⟩
  have hbefore : ∀ command ∈ before, ¬command.Walks "w" := by simp [before, Command.Walks]
  have hlater : ∀ graph, .beginWalk "w" graph ∉ later := by simp [later]
  exact ⟨⟨g, hgraph⟩, hbefore, hlater, walk_snapshot hgraph hbefore hlater 0, by decide +kernel⟩

end Workspace

end Session

end FlowPaths
