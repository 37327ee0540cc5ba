import FlowPaths.Value.Access

/-!
Tables that keep their keys in the order in which they were first set.  A key that is set again,
under whatever equal name, keeps its first name and its place.
-/

namespace FlowPaths

structure Table (α : Type) where
  rows : List (Value × α) := []
  deriving DecidableEq

namespace Table

variable {α : Type}

def keys (t : Table α) : List Value := t.rows.map Prod.fst
def values (t : Table α) : List α := t.rows.map Prod.snd

def contains (t : Table α) (k : Value) : Bool := t.rows.any fun row => row.1.same k

def find? (t : Table α) (k : Value) : Option α :=
  (t.rows.find? fun row => row.1.same k).map Prod.snd

theorem contains_iff (t : Table α) (k : Value) :
    t.contains k = true ↔ k.key ∈ t.keys.map Value.key := by
  simp [contains, keys]

theorem isSome_find? (t : Table α) (k : Value) : (t.find? k).isSome = t.contains k := by
  simp [find?, contains, List.isSome_find?]

def modify (t : Table α) (k : Value) (f : α → α) : Table α :=
  ⟨t.rows.map fun row => if row.1.same k then (row.1, f row.2) else row⟩

@[simp] theorem keys_modify (t : Table α) (k : Value) (f : α → α) :
    (t.modify k f).keys = t.keys := by
  simp only [keys, modify, List.map_map]
  apply List.map_congr_left
  intro row _
  simp only [Function.comp_apply]
  split <;> rfl

def set (t : Table α) (k : Value) (a : α) : Table α :=
  if t.contains k then t.modify k fun _ => a else ⟨t.rows ++ [(k, a)]⟩

theorem keys_set (t : Table α) (k : Value) (a : α) :
    (t.set k a).keys = if t.contains k then t.keys else t.keys ++ [k] := by
  unfold set
  split
  · exact keys_modify t k _
  · simp [keys]

end Table

end FlowPaths
