/-!
Fractions of natural numbers: division by powers of a base, the logarithm to base two and rounding
to the nearest natural number, a half going to the even neighbour.
-/

namespace FlowPaths

structure Ratio where
  num : Nat
  den : Nat
  den_pos : 0 < den

namespace Ratio

def powerOf (base : Nat) (e : Int) : Nat := Nat.pow base e.natAbs

theorem powerOf_pos {base : Nat} (h : 0 < base) (e : Int) : 0 < powerOf base e := Nat.pow_pos h

def ofNat (n : Nat) : Ratio := ⟨n, 1, by decide⟩

def unscale (r : Ratio) (base : Nat) (hbase : 0 < base) (e : Int) : Ratio :=
  if 0 ≤ e then ⟨r.num, r.den * powerOf base e, Nat.mul_pos r.den_pos (powerOf_pos hbase e)⟩
  else ⟨r.num * powerOf base e, r.den, r.den_pos⟩

def halve (r : Ratio) (e : Int) : Ratio := r.unscale 2 (by decide) e

/-- The greatest `e` with `2 ^ e` at most the fraction. -/
def floorLog2 (r : Ratio) : Int :=
  let e : Int := (r.num.log2 : Int) - (r.den.log2 : Int)
  if (r.halve e).num < (r.halve e).den then e - 1 else e

def roundHalfEven (r : Ratio) : Nat :=
  let floor := r.num / r.den
  let rest := r.num % r.den
  if 2 * rest < r.den then floor
  else if r.den < 2 * rest then floor + 1
  else if floor % 2 = 0 then floor else floor + 1

theorem halve_of_nonneg (r : Ratio) {e : Int} (h : 0 ≤ e) :
    (r.halve e).num = r.num ∧ (r.halve e).den = r.den * powerOf 2 e := by
  simp [halve, unscale, h]

theorem halve_of_neg (r : Ratio) {e : Int} (h : ¬ 0 ≤ e) :
    (r.halve e).num = r.num * powerOf 2 e ∧ (r.halve e).den = r.den := by
  simp [halve, unscale, h]

theorem two_pow_eq_mul {a b c : Nat} (h : a = b + c) :
    Nat.pow 2 a = Nat.pow 2 b * Nat.pow 2 c := h ▸ Nat.pow_add 2 b c

-- The signs of `e` and `e - j` decide which side of each fraction holds the power.
theorem halve_sub (r : Ratio) (e : Int) (j : Nat) :
    (r.halve (e - j)).num * (r.halve e).den
      = Nat.pow 2 j * (r.halve e).num * (r.halve (e - j)).den := by
  by_cases he : 0 ≤ e
  · obtain ⟨hn, hd⟩ := r.halve_of_nonneg he
    by_cases hj : 0 ≤ e - j
    · obtain ⟨hn', hd'⟩ := r.halve_of_nonneg hj
      have hpow : powerOf 2 e = Nat.pow 2 j * powerOf 2 (e - j) :=
        two_pow_eq_mul (by omega)
      rw [hn, hd, hn', hd', hpow]
      grind
    · obtain ⟨hn', hd'⟩ := r.halve_of_neg hj
      have hpow : Nat.pow 2 j = powerOf 2 e * powerOf 2 (e - j) :=
        two_pow_eq_mul (by omega)
      rw [hn, hd, hn', hd', hpow]
      grind
  · obtain ⟨hn, hd⟩ := r.halve_of_neg he
    obtain ⟨hn', hd'⟩ := r.halve_of_neg (e := e - j) (by omega)
    have hpow : powerOf 2 (e - j) = Nat.pow 2 j * powerOf 2 e :=
      two_pow_eq_mul (by omega)
    rw [hn, hd, hn', hd', hpow]
    grind

theorem le_halve_sub {r : Ratio} {e : Int} {k j : Nat}
    (h : k * (r.halve e).den ≤ Nat.pow 2 j * (r.halve e).num) :
    k * (r.halve (e - j)).den ≤ (r.halve (e - j)).num := by
  apply Nat.le_of_mul_le_mul_right _ (r.halve e).den_pos
  calc k * (r.halve (e - j)).den * (r.halve e).den
      = k * (r.halve e).den * (r.halve (e - j)).den := Nat.mul_right_comm ..
    _ ≤ Nat.pow 2 j * (r.halve e).num * (r.halve (e - j)).den := Nat.mul_le_mul_right _ h
    _ = (r.halve (e - j)).num * (r.halve e).den := (r.halve_sub e j).symm

theorem halve_sub_lt {r : Ratio} {e : Int} {k j : Nat}
    (h : Nat.pow 2 j * (r.halve e).num < k * (r.halve e).den) :
    (r.halve (e - j)).num < k * (r.halve (e - j)).den := by
  apply Nat.lt_of_mul_lt_mul_right (a := (r.halve e).den)
  calc (r.halve (e - j)).num * (r.halve e).den
      = Nat.pow 2 j * (r.halve e).num * (r.halve (e - j)).den := r.halve_sub e j
    _ < k * (r.halve e).den * (r.halve (e - j)).den :=
        Nat.mul_lt_mul_of_pos_right h (r.halve (e - j)).den_pos
    _ = k * (r.halve (e - j)).den * (r.halve e).den := Nat.mul_right_comm ..

theorem halve_lt_of_sub {r : Ratio} {e : Int} {k j : Nat}
    (h : (r.halve (e - j)).num < k * (r.halve (e - j)).den) :
    (r.halve e).num < k * (r.halve e).den := by
  apply Nat.lt_of_mul_lt_mul_right (a := (r.halve (e - j)).den)
  calc (r.halve e).num * (r.halve (e - j)).den
      ≤ Nat.pow 2 j * ((r.halve e).num * (r.halve (e - j)).den) :=
        Nat.le_mul_of_pos_left _ (Nat.pow_pos (by decide))
    _ = (r.halve (e - j)).num * (r.halve e).den := by rw [r.halve_sub e j, Nat.mul_assoc]
    _ < k * (r.halve (e - j)).den * (r.halve e).den :=
        Nat.mul_lt_mul_of_pos_right h (r.halve e).den_pos
    _ = k * (r.halve e).den * (r.halve (e - j)).den := Nat.mul_right_comm ..

theorem log2_bounds {n : Nat} (h : 0 < n) :
    Nat.pow 2 n.log2 ≤ n ∧ n < 2 * Nat.pow 2 n.log2 := by
  refine ⟨Nat.log2_self_le (Nat.ne_of_gt h), ?_⟩
  calc n < Nat.pow 2 (n.log2 + 1) := Nat.lt_log2_self
    _ = 2 * Nat.pow 2 n.log2 := Nat.pow_succ'

theorem halve_log2_sub_log2 (r : Ratio) (h : 0 < r.num) :
    (r.halve ((r.num.log2 : Int) - r.den.log2)).num
        < 2 * (r.halve ((r.num.log2 : Int) - r.den.log2)).den
      ∧ (r.halve ((r.num.log2 : Int) - r.den.log2)).den
        < 2 * (r.halve ((r.num.log2 : Int) - r.den.log2)).num := by
  obtain ⟨hn, hn'⟩ := log2_bounds h
  obtain ⟨hd, hd'⟩ := log2_bounds r.den_pos
  generalize r.num.log2 = n at *
  generalize r.den.log2 = d at *
  have hpos := powerOf_pos (show 0 < 2 by decide) ((n : Int) - d)
  by_cases he : 0 ≤ (n : Int) - d
  · obtain ⟨hsn, hsd⟩ := r.halve_of_nonneg he
    have hpow : Nat.pow 2 n = Nat.pow 2 d * powerOf 2 (n - d) :=
      two_pow_eq_mul (by omega)
    have hle := Nat.mul_le_mul_right (powerOf 2 (n - d)) hd
    have hlt := Nat.mul_lt_mul_of_pos_right hd' hpos
    rw [Nat.mul_assoc] at hlt
    rw [hpow] at hn hn'
    rw [hsn, hsd]
    omega
  · obtain ⟨hsn, hsd⟩ := r.halve_of_neg he
    have hpow : Nat.pow 2 d = Nat.pow 2 n * powerOf 2 (n - d) :=
      two_pow_eq_mul (by omega)
    have hle := Nat.mul_le_mul_right (powerOf 2 (n - d)) hn
    have hlt := Nat.mul_lt_mul_of_pos_right hn' hpos
    rw [Nat.mul_assoc] at hlt
    rw [hpow] at hd hd'
    rw [hsn, hsd]
    omega

theorem floorLog2_spec (r : Ratio) (h : 0 < r.num) :
    (r.halve r.floorLog2).den ≤ (r.halve r.floorLog2).num
      ∧ (r.halve r.floorLog2).num < 2 * (r.halve r.floorLog2).den := by
  obtain ⟨hlt, hgt⟩ := r.halve_log2_sub_log2 h
  simp only [floorLog2]
  generalize (r.num.log2 : Int) - (r.den.log2 : Int) = e at *
  split
  case isTrue hbelow =>
    have hpow : Nat.pow 2 1 = 2 := rfl
    constructor
    · rw [← Nat.one_mul (r.halve (e - 1)).den]
      exact le_halve_sub (j := 1) (by rw [hpow]; omega)
    · exact halve_sub_lt (j := 1) (by rw [hpow]; omega)
  case isFalse hbelow => exact ⟨Nat.le_of_not_lt hbelow, hlt⟩

theorem le_roundHalfEven {r : Ratio} {k : Nat} (h : k * r.den ≤ r.num) : k ≤ r.roundHalfEven := by
  have hk : k ≤ r.num / r.den := (Nat.le_div_iff_mul_le r.den_pos).2 h
  simp only [roundHalfEven]
  grind

theorem roundHalfEven_le {r : Ratio} {k : Nat} (h : r.num < k * r.den) : r.roundHalfEven ≤ k := by
  have hk : r.num / r.den < k := (Nat.div_lt_iff_lt_mul r.den_pos).2 h
  simp only [roundHalfEven]
  grind

end Ratio

end FlowPaths
