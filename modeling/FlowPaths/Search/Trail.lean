import FlowPaths.Graph.Basic

/-!
The trail of a search: the route taken so far, and the set of nodes that must not be entered.
-/

namespace FlowPaths

structure Trail where
  path : Path := []
  visited : List Key := []
  deriving DecidableEq

namespace Trail

def enter (t : Trail) (id : Value) : Trail where
  path := t.path ++ [id]
  visited := t.visited.insert id.key

def hasVisited (t : Trail) (id : Value) : Bool := t.visited.contains id.key

@[simp] theorem hasVisited_iff (t : Trail) (id : Value) :
    t.hasVisited id = true ↔ id.key ∈ t.visited := by
  simp [hasVisited]

def leave (t : Trail) : Trail :=
  match t.path.getLast? with
  | none => t
  | some id => { path := t.path.dropLast, visited := t.visited.filter (· ≠ id.key) }

def unwindTo (t : Trail) (depth : Nat) : Trail :=
  let gone := (t.path.drop depth).map Value.key
  { path := t.path.take depth, visited := t.visited.filter (!gone.contains ·) }

@[simp] theorem leave_enter {t : Trail} {id : Value} (h : id.key ∉ t.visited) :
    (t.enter id).leave = t := by
  have hself : t.visited.filter (· ≠ id.key) = t.visited :=
    List.filter_eq_self.2 fun k hk => decide_eq_true fun hkey => h (hkey ▸ hk)
  have hhead : (id.key :: t.visited).filter (· ≠ id.key) = t.visited := by simpa using hself
  simp only [leave, enter, List.getLast?_append, List.getLast?_singleton, Option.some_or,
    List.dropLast_concat, List.insert_of_not_mem h, hhead]

@[simp] theorem unwindTo_length (t : Trail) : t.unwindTo t.path.length = t := by
  have hall : t.visited.filter (fun _ => true) = t.visited := List.filter_eq_self.2 fun _ _ => rfl
  simp [unwindTo, hall]

end Trail

end FlowPaths
