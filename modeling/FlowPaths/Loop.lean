/-!
Loops that are known to end.  One turn of a loop either goes on from a new state or is over with an
outcome; a loop is run from a state from which its turns cannot go on for ever.
-/

namespace FlowPaths

inductive Turn (σ ο : Type)
  | next (s : σ)
  | done (o : ο)

variable {σ ο : Type}

def Halts (turn : σ → Turn σ ο) (s : σ) : Prop :=
  Acc (fun s' s => turn s = .next s') s

theorem Halts.intro {turn : σ → Turn σ ο} {s : σ}
    (h : ∀ s', turn s = .next s' → Halts turn s') : Halts turn s :=
  Acc.intro s h

theorem Halts.next {turn : σ → Turn σ ο} {s s' : σ} (h : Halts turn s)
    (hs : turn s = .next s') : Halts turn s' :=
  Acc.inv h hs

instance haltingOrder (turn : σ → Turn σ ο) : WellFoundedRelation { s : σ // Halts turn s } where
  rel a b := turn b.1 = .next a.1
  wf := ⟨fun s => InvImage.accessible Subtype.val s.2⟩

def iterate (turn : σ → Turn σ ο) (s : σ) (h : Halts turn s) : ο :=
  match hs : turn s with
  | .done o => o
  | .next s' => iterate turn s' (h.next hs)
termination_by (⟨s, h⟩ : { s : σ // Halts turn s })
decreasing_by exact hs

theorem iterate_of_done {turn : σ → Turn σ ο} {s : σ} {o : ο} (h : Halts turn s)
    (hs : turn s = .done o) : iterate turn s h = o := by
  rw [iterate]
  split <;> simp_all

theorem iterate_of_next {turn : σ → Turn σ ο} {s s' : σ} (h : Halts turn s)
    (hs : turn s = .next s') : iterate turn s h = iterate turn s' (h.next hs) := by
  rw [iterate]
  split
  · simp_all
  · rename_i s'' hs'
    cases hs.symm.trans hs'
    rfl

def Turn.Holds (I : σ → Prop) (Q : ο → Prop) : Turn σ ο → Prop
  | .next s => I s
  | .done o => Q o

theorem Turn.Holds.imp {I : σ → Prop} {Q Q' : ο → Prop} {t : Turn σ ο} (h : t.Holds I Q)
    (hQ : ∀ o, Q o → Q' o) : t.Holds I Q' := by
  cases t with
  | next s => exact h
  | done o => exact hQ o h

theorem iterate_induction {turn : σ → Turn σ ο} {I : σ → Prop} {Q : ο → Prop}
    (hturn : ∀ s, I s → (turn s).Holds I Q) {s : σ} (h : Halts turn s) (hs : I s) :
    Q (iterate turn s h) := by
  induction (h : Acc _ s) with
  | intro s halts ih =>
    have h : Halts turn s := .intro halts
    have hholds := hturn s hs
    cases hnext : turn s with
    | done o =>
      rw [hnext] at hholds
      rw [iterate_of_done h hnext]
      exact hholds
    | next s' =>
      rw [hnext] at hholds
      rw [iterate_of_next h hnext]
      exact ih s' hnext hholds

end FlowPaths
