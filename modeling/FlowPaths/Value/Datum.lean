/-!
Trees of data: atoms put together by tuples, lists and dictionaries.  Everything here is uniform
in the atoms, so that values and the keys that compare them are the same trees over different
atoms.
-/

namespace FlowPaths

def Ascending (names : List String) : Prop := names.Pairwise (· < ·)

instance : DecidablePred Ascending := fun names =>
  inferInstanceAs (Decidable (names.Pairwise (· < ·)))

/-- Names in ascending order, so that none stands twice, and a value for each. -/
structure Dictionary (δ : Type) where
  names : List String
  ascending : Ascending names
  value : Fin names.length → δ

namespace Dictionary

variable {δ : Type}

def of (names : List String) (values : List δ) (ascending : Ascending names := by decide)
    (length : names.length = values.length := by rfl) : Dictionary δ :=
  ⟨names, ascending, fun i => values.get (i.cast length)⟩

def entries (d : Dictionary δ) : List (String × δ) :=
  List.ofFn fun i => (d.names.get i, d.value i)

def find? (d : Dictionary δ) (name : String) : Option δ := d.entries.lookup name

end Dictionary

inductive Datum (α : Type)
  | atom (a : α)
  | tuple (items : List (Datum α))
  | list (items : List (Datum α))
  | dictionary (entries : Dictionary (Datum α))

namespace Datum

variable {α β : Type}

mutual
def map (f : α → β) : Datum α → Datum β
  | .atom a => .atom (f a)
  | .tuple items => .tuple (mapItems f items)
  | .list items => .list (mapItems f items)
  | .dictionary ⟨names, ascending, value⟩ =>
    .dictionary ⟨names, ascending, fun i => (value i).map f⟩

def mapItems (f : α → β) : List (Datum α) → List (Datum β)
  | [] => []
  | d :: ds => d.map f :: mapItems f ds
end

mutual
def hashable : Datum α → Bool
  | .atom _ => true
  | .tuple items => allHashable items
  | .list _ => false
  | .dictionary _ => false

def allHashable : List (Datum α) → Bool
  | [] => true
  | d :: ds => d.hashable && allHashable ds
end

mutual
def decEq [DecidableEq α] : (a b : Datum α) → Decidable (a = b)
  | .atom a, .atom b => decidable_of_iff (a = b) (by simp)
  | .tuple as, .tuple bs =>
    match decEqItems as bs with
    | isTrue h => isTrue (by simp [h])
    | isFalse h => isFalse (by simp [h])
  | .list as, .list bs =>
    match decEqItems as bs with
    | isTrue h => isTrue (by simp [h])
    | isFalse h => isFalse (by simp [h])
  | .dictionary ⟨ms, _, as⟩, .dictionary ⟨ns, _, bs⟩ =>
    if h : ms = ns then
      have (i : Fin ms.length) : Decidable (as i = bs (h ▸ i)) := decEq (as i) (bs (h ▸ i))
      decidable_of_iff (∀ i, as i = bs (h ▸ i)) (by subst h; simp [funext_iff])
    else isFalse (by simp [h])
  | .atom _, .tuple _ | .atom _, .list _ | .atom _, .dictionary _
  | .tuple _, .atom _ | .tuple _, .list _ | .tuple _, .dictionary _
  | .list _, .atom _ | .list _, .tuple _ | .list _, .dictionary _
  | .dictionary _, .atom _ | .dictionary _, .tuple _ | .dictionary _, .list _ => isFalse (by simp)

def decEqItems [DecidableEq α] : (as bs : List (Datum α)) → Decidable (as = bs)
  | [], [] => isTrue rfl
  | [], _ :: _ => isFalse (by simp)
  | _ :: _, [] => isFalse (by simp)
  | a :: as, b :: bs =>
    match decEq a b with
    | isFalse h => isFalse (by simp [h])
    | isTrue h =>
      match decEqItems as bs with
      | isTrue hs => isTrue (by simp [h, hs])
      | isFalse hs => isFalse (by simp [hs])
end

instance [DecidableEq α] : DecidableEq (Datum α) := decEq

end Datum

end FlowPaths
