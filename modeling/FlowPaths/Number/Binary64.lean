import FlowPaths.Number.Ratio

/-!
Numbers of the 64-bit binary format, as exact integers scaled by a power of two.  Rounding is to
the nearest representable number, a half going to the even neighbour, and comparison with integers
is exact.

The format's not-a-number is left out, since it is not equal to itself and values are compared and
looked up by an equality that is reflexive: whatever is said of all values, bounds and limits is
said of those in which no not-a-number stands.
-/

namespace FlowPaths

namespace Binary64

def leastExponent : Int := -1074
def mostExponent : Int := 971
def mantissaBound : Nat := Nat.pow 2 53

/-- The mantissa has 53 bits, or fewer together with the least exponent. -/
structure Canonical (mantissa : Nat) (exponent : Int) : Prop where
  mantissa_lt : mantissa < mantissaBound
  least_le : leastExponent ≤ exponent
  le_most : exponent ≤ mostExponent
  full : mantissaBound ≤ 2 * mantissa ∨ exponent = leastExponent

end Binary64

inductive Binary64
  | finite (negative : Bool) (mantissa : Nat) (exponent : Int)
      (canonical : Binary64.Canonical mantissa exponent)
  | infinite (negative : Bool)
  deriving DecidableEq

namespace Binary64

open Ratio

theorem canonical_zero : Canonical 0 leastExponent := ⟨by decide, by decide, by decide, .inr rfl⟩

def zero (negative : Bool) : Binary64 := .finite negative 0 leastExponent canonical_zero

def exponentOf (r : Ratio) : Int :=
  if r.floorLog2 - 52 < leastExponent then leastExponent else r.floorLog2 - 52

def mantissaOf (r : Ratio) : Nat := (r.halve (exponentOf r)).roundHalfEven

def rounded (r : Ratio) : Nat × Int :=
  if mantissaOf r = mantissaBound then (mantissaBound / 2, exponentOf r + 1)
  else (mantissaOf r, exponentOf r)

theorem least_le_exponentOf (r : Ratio) : leastExponent ≤ exponentOf r := by
  unfold exponentOf
  split <;> omega

theorem mantissaOf_le {r : Ratio} (h : 0 < r.num) : mantissaOf r ≤ mantissaBound := by
  obtain ⟨-, hlt⟩ := r.floorLog2_spec h
  have hfull : (r.halve (r.floorLog2 - (52 : Nat))).num
      < mantissaBound * (r.halve (r.floorLog2 - (52 : Nat))).den := by
    apply halve_sub_lt
    show 4503599627370496 * _ < 9007199254740992 * _
    omega
  apply roundHalfEven_le
  simp only [exponentOf]
  split
  case isTrue hsmall =>
    obtain ⟨j, hj⟩ : ∃ j : Nat, r.floorLog2 - (52 : Nat) = leastExponent - j :=
      ⟨(leastExponent - (r.floorLog2 - 52)).toNat, by omega⟩
    rw [hj] at hfull
    exact halve_lt_of_sub hfull
  case isFalse hlarge => exact hfull

theorem le_mantissaOf {r : Ratio} (h : 0 < r.num) (he : exponentOf r ≠ leastExponent) :
    mantissaBound ≤ 2 * mantissaOf r := by
  obtain ⟨hle, -⟩ := r.floorLog2_spec h
  have hfull : exponentOf r = r.floorLog2 - (52 : Nat) := by
    unfold exponentOf at *
    grind
  have hmost := le_halve_sub (Nat.mul_le_mul_left (Nat.pow 2 52) hle)
  rw [← hfull] at hmost
  exact Nat.mul_le_mul_left 2 (le_roundHalfEven hmost)

theorem canonical_rounded {r : Ratio} (h : 0 < r.num) (he : (rounded r).2 ≤ mostExponent) :
    Canonical (rounded r).1 (rounded r).2 := by
  have hleast := least_le_exponentOf r
  unfold rounded at *
  split at he
  case isTrue hcarry =>
    rw [if_pos hcarry]
    refine ⟨?_, ?_, he, .inl ?_⟩
    · show mantissaBound / 2 < mantissaBound
      decide
    · show leastExponent ≤ exponentOf r + 1
      omega
    · show mantissaBound ≤ 2 * (mantissaBound / 2)
      decide
  case isFalse hcarry =>
    rw [if_neg hcarry]
    have hlt : mantissaOf r < mantissaBound := Nat.lt_of_le_of_ne (mantissaOf_le h) hcarry
    refine ⟨hlt, hleast, he, ?_⟩
    by_cases hexp : exponentOf r = leastExponent
    · exact .inr hexp
    · exact .inl (le_mantissaOf h hexp)

def ofRatio (negative : Bool) (r : Ratio) : Binary64 :=
  if hnum : r.num = 0 then zero negative
  else if he : (rounded r).2 ≤ mostExponent then
    .finite negative (rounded r).1 (rounded r).2 (canonical_rounded (Nat.pos_of_ne_zero hnum) he)
  else .infinite negative

def withSign (negative : Bool) (n : Nat) : Int :=
  if negative then -(n : Int) else n

def toInt? : Binary64 → Option Int
  | .infinite _ => none
  | .finite negative m e _ =>
    if 0 ≤ e then some (withSign negative (m * powerOf 2 e))
    else
      let unit := powerOf 2 e
      if m % unit = 0 then some (withSign negative (m / unit)) else none

def compareInt : Binary64 → Int → Ordering
  | .infinite negative, _ => if negative then .lt else .gt
  | .finite negative m e _, k =>
    if 0 ≤ e then compare (withSign negative (m * powerOf 2 e)) k
    else compare (withSign negative m) (k * (powerOf 2 e : Nat))

def isZero : Binary64 → Bool
  | .finite _ m _ _ => m = 0
  | .infinite _ => false

end Binary64

end FlowPaths
