import Mathlib.Data.Rat.Floor

/-!
# Grafeo.Lib.Rounding

**Rounding half away from zero**, of rationals (`roundAway`) and of a natural number over
another (`halfUp`). The two agree (`roundAway_div`), and the second is what a program computes
from a quotient and a remainder (`halfUp_eq`).
-/

namespace Grafeo.Lib

open Nat

/-- The integer nearest to `x`, of two the one farther from zero. -/
def roundAway (x : ℚ) : ℤ := if x < 0 then -⌊-x + 1 / 2⌋ else ⌊x + 1 / 2⌋

/-- `m / d` rounded to the nearest number, up from the middle. -/
def halfUp (m d : Nat) : Nat := (2 * m + d) / (2 * d)

variable {m d k : Nat}

section

variable (hd : 0 < d)
include hd

theorem halfUp_le_iff : halfUp m d ≤ k ↔ 2 * m < (2 * k + 1) * d := by
  have hmul : (k + 1) * (2 * d) = (2 * k + 1) * d + d := by ring
  rw [halfUp, ← Nat.lt_succ_iff, div_lt_iff_lt_mul (by omega), hmul]
  omega

theorem le_halfUp_iff : k ≤ halfUp m d ↔ 2 * k * d ≤ 2 * m + d := by
  rw [halfUp, le_div_iff_mul_le (by omega), mul_left_comm, mul_assoc]

theorem halfUp_eq : halfUp m d = if d - m % d ≤ m % d then m / d + 1 else m / d := by
  have hlt := mod_lt m hd
  have hsplit := mod_add_div m d
  have hlow : 2 * (m / d) * d = 2 * (d * (m / d)) := by ring
  have hhigh : 2 * (m / d + 1) * d = 2 * (d * (m / d)) + 2 * d := by ring
  split
  · refine le_antisymm ((halfUp_le_iff hd).mpr ?_) ((le_halfUp_iff hd).mpr ?_)
    · rw [add_mul, one_mul, hhigh]
      omega
    · rw [hhigh]
      omega
  · refine le_antisymm ((halfUp_le_iff hd).mpr ?_) ((le_halfUp_iff hd).mpr ?_)
    · rw [add_mul, one_mul, hlow]
      omega
    · rw [hlow]
      omega

theorem le_halfUp (h : k * d ≤ m) : k ≤ halfUp m d := by
  rw [le_halfUp_iff hd, mul_assoc]
  omega

theorem halfUp_le (h : m ≤ k * d) : halfUp m d ≤ k := by
  rw [halfUp_le_iff hd, add_mul, one_mul, mul_assoc]
  omega

/-- Over more there is no more. -/
theorem halfUp_mul_le (hk : 0 < k) : halfUp m (d * k) ≤ halfUp m d := by
  have h := (halfUp_le_iff hd).mp (le_refl (halfUp m d))
  refine (halfUp_le_iff (mul_pos hd hk)).mpr (h.trans_le ?_)
  exact mul_le_mul_left _ (Nat.le_mul_of_pos_right d hk)

/-- A number that rounds up to a multiple of ten rounds to the same one digit shorter. -/
theorem halfUp_carry (h : halfUp m d = k * 10) (hm : m ≤ k * 10 * d) : halfUp m (d * 10) = k := by
  have hle := (le_halfUp_iff hd).mp h.ge
  have hmul : 2 * (k * 10) * d = 2 * (k * 10 * d) := mul_assoc ..
  refine le_antisymm ((halfUp_le_iff (by omega)).mpr ?_) ((le_halfUp_iff (by omega)).mpr ?_)
  · have hten : (2 * k + 1) * (d * 10) = 2 * (k * 10 * d) + d * 10 := by ring
    omega
  · have hten : 2 * k * (d * 10) = 2 * (k * 10 * d) := by ring
    omega

end

@[simp] theorem halfUp_one : halfUp m 1 = m := by
  unfold halfUp
  omega

theorem roundAway_neg (x : ℚ) : roundAway (-x) = -roundAway x := by
  unfold roundAway
  obtain hneg | rfl | hpos := lt_trichotomy x 0
  · rw [if_neg (by linarith), if_pos hneg, neg_neg]
  · norm_num
  · rw [if_pos (by linarith), if_neg (by linarith), neg_neg]

theorem roundAway_div (m : Nat) (hd : 0 < d) : roundAway ((m : ℚ) / d) = halfUp m d := by
  have hsum : (m : ℚ) / d + 1 / 2 = ((2 * m + d : Nat) : ℚ) / (2 * d : Nat) := by
    push_cast
    field_simp
  have hnonneg : ¬(m : ℚ) / d < 0 := not_lt.mpr (by positivity)
  rw [roundAway, if_neg hnonneg, hsum, halfUp]
  exact_mod_cast Rat.floor_natCast_div_natCast (2 * m + d) (2 * d)

theorem le_natAbs_roundAway_iff (n : Nat) (x : ℚ) :
    n ≤ (roundAway x).natAbs ↔ (n : ℚ) ≤ |x| + 1 / 2 := by
  have hfloor : ∀ y : ℚ, 0 ≤ y → (n ≤ (⌊y + 1 / 2⌋).natAbs ↔ (n : ℚ) ≤ y + 1 / 2) := by
    intro y hy
    have hnonneg : 0 ≤ ⌊y + 1 / 2⌋ := Int.floor_nonneg.mpr (by linarith)
    have hle : (n : ℤ) ≤ ⌊y + 1 / 2⌋ ↔ (n : ℚ) ≤ y + 1 / 2 := Int.le_floor
    rw [← hle]
    omega
  unfold roundAway
  split
  case isTrue hneg =>
    rw [Int.natAbs_neg, abs_of_neg hneg]
    exact hfloor (-x) (by linarith)
  case isFalse hnonneg =>
    rw [abs_of_nonneg (not_lt.mp hnonneg)]
    exact hfloor x (not_lt.mp hnonneg)

end Grafeo.Lib
