import FlowPaths.Proofs.Graph.WellFormed
import FlowPaths.Session.Step

/-!
What a command can do to the workspace of a session.  A graph keeps its number and stays of its
kind, one in memory is changed by its own operations only, and a walk moves when it is asked to.
-/

namespace FlowPaths.Session

section

variable {α : Type} {name other : String}

theorem lookup_bindName_self (name : String) (a : α) (names : List (String × α)) :
    (bindName name a names).lookup name = some a := by
  simp [bindName]

theorem lookup_bindName_of_ne (hne : other ≠ name) (a : α) (names : List (String × α)) :
    (bindName name a names).lookup other = names.lookup other := by
  have hkept : (names.filter fun entry => entry.1 ≠ name).lookup other = names.lookup other := by
    induction names with
    | nil => rfl
    | cons entry names ih =>
      by_cases hentry : entry.1 = name
      · have hother : (other == entry.1) = false := beq_false_of_ne (hentry ▸ hne)
        rw [List.filter_cons_of_neg (by simpa using hentry), ih, List.lookup_cons, hother]
      · rw [List.filter_cons_of_pos (by simpa using hentry), List.lookup_cons, List.lookup_cons, ih]
  rw [bindName, List.lookup_cons, beq_false_of_ne hne]
  exact hkept

end

namespace Subject

def Sound : Subject → Prop
  | .memory g => g.Reachable
  | _ => True

inductive Turns : Subject → Subject → Prop
  | memory {g g' : MemoryGraph} : (g.Reachable → g'.Reachable) → Turns (.memory g) (.memory g')
  | stored {database : String} {g g' : StoredGraph Database} :
      Turns (.stored database g) (.stored database g')
  | scripted {g : ScriptedGraph} : Turns (.scripted g) (.scripted g)
  | spy {of : Nat} {calls calls' : List Call} : Turns (.spy of calls) (.spy of calls')

variable {subject subject' subject'' : Subject}

theorem Turns.refl (subject : Subject) : subject.Turns subject := by
  cases subject with
  | memory g => exact .memory id
  | stored database g => exact .stored
  | scripted g => exact .scripted
  | spy of calls => exact .spy

theorem Turns.trans (h : subject.Turns subject') (h' : subject'.Turns subject'') :
    subject.Turns subject'' := by
  cases h with
  | memory hg =>
    obtain ⟨hg'⟩ := h'
    exact .memory (hg' ∘ hg)
  | stored =>
    cases h'
    exact .stored
  | scripted =>
    cases h'
    exact .scripted
  | spy =>
    cases h'
    exact .spy

theorem Turns.sound (h : subject.Turns subject') (hsound : subject.Sound) : subject'.Sound := by
  cases h with
  | memory hg => exact hg hsound
  | stored => trivial
  | scripted => trivial
  | spy => trivial

theorem turns_change (subject : Subject) (change : Change) :
    subject.Turns (subject.change change).subject := by
  cases subject with
  | memory g =>
    cases change with
    | addNode node =>
      simp only [Subject.change, changeMemory]
      split
      · exact .memory fun h => .addNode h ‹_›
      · exact .refl _
    | addEdge edge =>
      simp only [Subject.change, changeMemory]
      split
      · exact .memory fun h => .addEdge h ‹_›
      · exact .refl _
    | close => exact .refl _
    | importDocument document merge => exact .memory (.importDocument document merge.toBool)
  | stored database g =>
    cases change with
    | addNode node =>
      simp only [Subject.change, changeStored]
      split <;> exact .stored
    | addEdge edge =>
      simp only [Subject.change, changeStored]
      split <;> exact .stored
    | close => exact .stored
    | importDocument document merge => exact .stored
  | scripted g => exact .scripted
  | spy of calls => exact .spy

end Subject

def Command.Walks : Command → String → Prop
  | .beginWalk walk _, name | .continueWalk walk _, name => walk = name
  | _, _ => False

namespace Workspace

def Sound (ws : Workspace) : Prop := ∀ subject ∈ ws.subjects, subject.Sound

structure Evolves (moving : String → Prop) (ws ws' : Workspace) : Prop where
  subjects : ∀ {i : Nat} {subject : Subject}, ws.subjects[i]? = some subject →
    ∃ subject', ws'.subjects[i]? = some subject' ∧ subject.Turns subject'
  added : ∀ {i : Nat} {subject : Subject}, ws.subjects[i]? = none →
    ws'.subjects[i]? = some subject → subject.Sound
  walks : ∀ {name : String}, ¬moving name → ws'.walks.lookup name = ws.walks.lookup name

variable {moving : String → Prop} {ws ws' ws'' : Workspace}

namespace Evolves

theorem of_eq (hsubjects : ws'.subjects = ws.subjects) (hwalks : ws'.walks = ws.walks) :
    ws.Evolves moving ws' := by
  refine ⟨?_, ?_, ?_⟩
  · intro i subject hget
    exact ⟨subject, hsubjects ▸ hget, .refl subject⟩
  · intro i subject hnone hget
    rw [hsubjects, hnone] at hget
    cases hget
  · intro name _
    rw [hwalks]

theorem refl (ws : Workspace) : ws.Evolves moving ws := of_eq rfl rfl

theorem trans (h : ws.Evolves moving ws') (h' : ws'.Evolves moving ws'') :
    ws.Evolves moving ws'' where
  subjects hget := by
    obtain ⟨subject', hget', hturns⟩ := h.subjects hget
    obtain ⟨subject'', hget'', hturns'⟩ := h'.subjects hget'
    exact ⟨subject'', hget'', hturns.trans hturns'⟩
  added {i subject} hnone hget := by
    cases hget' : ws'.subjects[i]? with
    | none => exact h'.added hget' hget
    | some subject' =>
      -- It came with the first part and was turned into something by the second.
      obtain ⟨turned, hturned, hturns⟩ := h'.subjects hget'
      cases hturned.symm.trans hget
      exact hturns.sound (h.added hnone hget')
  walks hname := (h'.walks hname).trans (h.walks hname)

theorem sound (h : ws.Evolves moving ws') (hsound : ws.Sound) : ws'.Sound := by
  intro subject hsubject
  obtain ⟨i, hget⟩ := List.mem_iff_getElem?.1 hsubject
  cases hold : ws.subjects[i]? with
  | none => exact h.added hold hget
  | some old =>
    obtain ⟨turned, hturned, hturns⟩ := h.subjects hold
    cases hturned.symm.trans hget
    exact hturns.sound (hsound old (List.mem_of_getElem? hold))

end Evolves

theorem evolves_addSubject (name : String) {subject : Subject} (hsubject : subject.Sound) :
    ws.Evolves moving (ws.addSubject name subject) where
  subjects {i old} hget := by
    have hlt := (List.getElem?_eq_some_iff.1 hget).1
    exact ⟨old, (List.getElem?_append_left hlt).trans hget, .refl old⟩
  added {i new} hnone hget := by
    rw [List.getElem?_eq_none_iff] at hnone
    rw [addSubject, List.getElem?_append_right hnone] at hget
    rw [List.mem_singleton.1 (List.mem_of_getElem? hget)]
    exact hsubject
  walks _ := rfl

theorem evolves_set {i : Nat} {subject subject' : Subject} (hget : ws.subjects[i]? = some subject)
    (hturns : subject.Turns subject') :
    ws.Evolves moving { ws with subjects := ws.subjects.set i subject' } where
  subjects {j old} hold := by
    by_cases hij : i = j
    · subst hij
      cases hold.symm.trans hget
      have hlt := (List.getElem?_eq_some_iff.1 hget).1
      exact ⟨subject', List.getElem?_set_self hlt, hturns⟩
    · exact ⟨old, (List.getElem?_set_ne hij).trans hold, .refl old⟩
  added {j new} hnone hnew := by
    rw [List.getElem?_eq_none_iff] at hnone
    have hlt := (List.getElem?_eq_some_iff.1 hnew).1
    rw [List.length_set] at hlt
    omega
  walks _ := rfl

theorem evolves_setSubject {i : Nat} {subject subject' : Subject}
    (hget : ws.subjects[i]? = some subject) (hturns : subject.Turns subject') :
    ws.Evolves moving (ws.setSubject i subject') := by
  have hset : ws.Evolves moving { ws with subjects := ws.subjects.set i subject' } :=
    evolves_set hget hturns
  unfold setSubject
  dsimp only
  split
  · split
    · exact hset.trans (.of_eq rfl rfl)
    · exact hset
  · exact hset

theorem evolves_remember (i : Nat) (calls : List Call) :
    ws.Evolves moving (ws.remember i calls) := by
  fun_induction remember ws i calls with
  | case1 ws i of old hget ws' hlt ih => exact (evolves_set hget .spy).trans ih
  | case2 ws i of old hget ws' hlt => exact evolves_set hget .spy
  | case3 ws => exact .refl ws

theorem evolves_given {α : Type} {found : Except Fault α} {go : α → StepOutcome}
    (hgo : ∀ a, found = .ok a → ws.Evolves moving (go a).workspace) :
    ws.Evolves moving (ws.given found go).workspace := by
  cases found with
  | error fault => exact .refl ws
  | ok a => exact hgo a rfl

theorem getElem?_of_named {name : String} {i : Nat} {subject : Subject}
    (hnamed : ws.named name = .ok (i, subject)) : ws.subjects[i]? = some subject := by
  unfold named at hnamed
  obtain ⟨j, _, hnamed⟩ := bind_eq_ok hnamed
  obtain ⟨found, hfound, hnamed⟩ := bind_eq_ok hnamed
  cases hnamed
  unfold Workspace.subject at hfound
  split at hfound
  · rename_i hget
    cases hfound
    exact hget
  · cases hfound

theorem evolves_changeGraph (name : String) (change : Change) :
    ws.Evolves moving (ws.changeGraph name change).workspace :=
  evolves_given fun ⟨_, subject⟩ hnamed =>
    evolves_setSubject (getElem?_of_named hnamed) (subject.turns_change change)

theorem evolves_importGraph (name source : String) (merge : Value) :
    ws.Evolves moving (ws.importGraph name source merge).workspace :=
  evolves_given fun _ _ => evolves_changeGraph name _

theorem evolves_loadGraph (name source : String) :
    ws.Evolves moving (ws.loadGraph name source).workspace := by
  refine evolves_given fun ⟨i, subject⟩ hnamed => ?_
  cases subject with
  | stored database g =>
    exact evolves_given fun _ _ => evolves_setSubject (getElem?_of_named hnamed) .stored
  | _ => exact .refl ws

theorem evolves_traceGraph (name : String) :
    ws.Evolves moving (ws.traceGraph name).workspace := by
  refine evolves_given fun ⟨i, subject⟩ hnamed => ?_
  cases subject with
  | spy of calls => exact evolves_setSubject (getElem?_of_named hnamed) .spy
  | _ => exact .refl ws

theorem evolves_bindWalk {name : String} (hname : moving name) (walk : Nat × EdgeWalk) :
    ws.Evolves moving { ws with walks := bindName name walk ws.walks } where
  subjects {_ subject} hget := ⟨subject, hget, .refl subject⟩
  added hnone hget := nomatch hnone.symm.trans hget
  walks {other} hother := by
    have hne : other ≠ name := by
      rintro rfl
      exact hother hname
    exact lookup_bindName_of_ne hne _ _

theorem evolves_beginWalk {walk : String} (hwalk : moving walk) (name : String) :
    ws.Evolves moving (ws.beginWalk walk name).workspace := by
  refine evolves_given fun ⟨i, subject⟩ _ => ?_
  dsimp only
  split
  · exact evolves_bindWalk hwalk _
  · exact .refl ws

theorem evolves_continueWalk {name : String} (hname : moving name) (n : Nat) :
    ws.Evolves moving (ws.continueWalk name n).workspace := by
  unfold continueWalk
  split
  · exact .refl ws
  · refine evolves_given fun ⟨i, walk⟩ _ => ?_
    dsimp only
    split
    · exact evolves_bindWalk hname _
    · exact .refl ws

/-! What has to do with enumerators concerns a graph only in that spies remember being asked. -/

theorem evolves_assignEnumerator (name : String) (sources? sinks? : Option Value)
    (settings? : Option Settings) :
    ws.Evolves moving (ws.assignEnumerator name sources? sinks? settings?).workspace := by
  refine evolves_given fun e _ => ?_
  dsimp only
  split <;> exact .of_eq rfl rfl

theorem evolves_run (name graph : String) : ws.Evolves moving (ws.run name graph).workspace := by
  refine evolves_given fun e _ => ?_
  dsimp only
  split
  · exact .refl ws
  · exact (evolves_remember _ _).trans (.of_eq rfl rfl)

theorem evolves_search (name graph : String) (current target : Value) (path visited : List Value) :
    ws.Evolves moving (ws.search name graph current target path visited).workspace := by
  refine evolves_given fun e _ => evolves_given fun _ _ => ?_
  dsimp only
  split
  · exact .refl ws
  · exact (evolves_remember _ _).trans (.of_eq rfl rfl)

theorem evolves_ask (i : Nat) (question : Question) : ws.Evolves moving (ws.ask i question).1 := by
  unfold Workspace.ask
  split
  · split
    · exact .refl ws
    · exact evolves_remember _ _
  · exact .refl ws
  · exact .refl ws

theorem evolves_askGraph (name : String) (question : Question) :
    ws.Evolves moving (ws.askGraph name question).workspace :=
  evolves_given fun i _ => evolves_ask i question

theorem evolves_clear (list : Handout) : ws.Evolves moving (ws.clear list).workspace := by
  cases list with
  | outEdges g id => exact evolves_askGraph g _
  | nodeIds g => exact evolves_askGraph g _
  | run e g => exact evolves_run e g
  | pairResults e => exact evolves_given fun _ _ => .refl ws
  | pairPaths e i => exact evolves_given fun _ _ => .of_eq rfl rfl

theorem evolves_step (ws : Workspace) (command : Command) :
    ws.Evolves command.Walks (ws.step command).workspace := by
  cases command with
  | newMemory g graphId => exact evolves_addSubject g (.empty graphId)
  | newFromEdges g graphId nodes edges =>
    exact evolves_given fun _ hmade => evolves_addSubject g (.ofEdges hmade)
  | openStored g database graphId => exact evolves_addSubject g trivial
  | newScripted g graph => exact evolves_addSubject g trivial
  | newSpy g of => exact evolves_given fun _ _ => evolves_addSubject g trivial
  | trace g => exact evolves_traceGraph g
  | ask g question => exact evolves_askGraph g question
  | change g change => exact evolves_changeGraph g change
  | importFrom g source merge => exact evolves_importGraph g source merge
  | loadFrom g source => exact evolves_loadGraph g source
  | beginWalk walk g => exact evolves_beginWalk rfl g
  | continueWalk walk n => exact evolves_continueWalk rfl n
  | newEnumerator e sources sinks settings => exact evolves_given fun _ _ => .of_eq rfl rfl
  | assign e sources? sinks? settings? => exact evolves_assignEnumerator e sources? sinks? settings?
  | run e g => exact evolves_run e g
  | search e g current target path visited => exact evolves_search e g current target path visited
  | paths e => exact evolves_given fun _ _ => .refl ws
  | pairResults e => exact evolves_given fun _ _ => .refl ws
  | pathCount e => exact evolves_given fun _ _ => .refl ws
  | reset e => exact evolves_given fun _ _ => .of_eq rfl rfl
  | report e => exact evolves_given fun _ _ => .refl ws
  | reportDocument e => exact evolves_given fun _ _ => .refl ws
  | clear list => exact evolves_clear list

def after (ws : Workspace) (commands : List Command) : Workspace :=
  commands.foldl (fun ws command => (ws.step command).workspace) ws

theorem Sound.after (h : ws.Sound) (commands : List Command) : (ws.after commands).Sound := by
  induction commands generalizing ws with
  | nil => exact h
  | cons command commands ih => exact ih ((evolves_step ws command).sound h)

end Workspace

end FlowPaths.Session
