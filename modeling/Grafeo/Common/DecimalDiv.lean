import Grafeo.Common.DecimalMul
import Mathlib.Algebra.Order.Floor.Semifield
import Mathlib.Data.Nat.Digits.Lemmas

/-!
# Grafeo.Common.DecimalDiv

**Quotients of decimals.** The digits of the fraction are those of the exact quotient
(`fractionDigits_spec`), so that what is kept of it and rounded is `halfUp` of the numerator at
the chosen scale (`quotient_spec`). A quotient of two mantissas of 38 digits never lies so close
below a power of ten that rounding reaches it at the largest scale (`quotient_lt_limit`), so the
quotient overflows only by its integer part (`checked_div_exact`).
-/

namespace Grafeo.Common

open Lib List Option Nat Wide

/-! ### Digits -/

/-- The number of the digits, the first one the highest. -/
def digitsValue (digits : List Nat) : Nat := digits.foldl (fun value digit => value * 10 + digit) 0

theorem foldl_digits (digits : List Nat) (value : Nat) :
    digits.foldl (fun value digit => value * 10 + digit) value =
      value * 10 ^ digits.length + digitsValue digits := by
  induction digits generalizing value with
  | nil => simp [digitsValue]
  | cons digit digits ih =>
    rw [digitsValue, foldl_cons, foldl_cons, ih, ih (0 * 10 + digit), length_cons, pow_succ]
    ring

theorem digitsValue_cons (digit : Nat) (digits : List Nat) :
    digitsValue (digit :: digits) = digit * 10 ^ digits.length + digitsValue digits := by
  rw [digitsValue, foldl_cons, foldl_digits]
  ring

theorem digitsValue_eq_zero {digits : List Nat} :
    digitsValue digits = 0 ↔ ∀ digit ∈ digits, digit = 0 := by
  induction digits with
  | nil => simp [digitsValue]
  | cons digit digits ih => simp [digitsValue_cons, ih]

/-- The count of digits of a number below the limit. -/
theorem digitCount_eq {value : Nat} (h : value < limit) :
    digitCount value = (digits 10 value).length := by
  have hlength : ∀ count, 10 ^ count ≤ value ↔ count < (digits 10 value).length := by
    intro count
    rw [← not_lt, ← digits_length_le_iff (by decide), not_le]
  have hle : (digits 10 value).length ≤ maxDecimalDigits :=
    (digits_length_le_iff (by decide) _).mpr h
  obtain ⟨more, hmore⟩ := Nat.exists_eq_add_of_le hle
  have hlow : ∀ count ∈ range (digits 10 value).length,
      decide (count < (digits 10 value).length) = true :=
    fun count hin => decide_eq_true (mem_range.mp hin)
  unfold digitCount
  simp only [hlength]
  rw [hmore, range_add, takeWhile_append_of_pos hlow, length_append, length_range]
  cases more with
  | zero => rfl
  | succ more => simp [range_succ_eq_map]

namespace Decimal

variable {n : Nat} {denominator remainder : Wide n}

theorem takeOut_spec {left digit : Nat} (hpos : 0 < denominator.value)
    (hleft : remainder.value / denominator.value ≤ left) :
    ∃ rest, takeOut denominator left remainder digit =
        some (digit + remainder.value / denominator.value, rest) ∧
      rest.value = remainder.value % denominator.value := by
  induction left generalizing remainder digit with
  | zero =>
    have hlt : remainder.value < denominator.value := by
      refine (div_eq_zero_iff_lt hpos).mp (le_zero.mp hleft)
    refine ⟨remainder, ?_, (mod_eq_of_lt hlt).symm⟩
    rw [takeOut, if_neg fun htrue => not_le.mpr hlt (ge_iff.mp htrue),
      div_eq_of_lt hlt, add_zero]
  | succ left ih =>
    by_cases hge : denominator.value ≤ remainder.value
    · obtain ⟨next, hminus, hvalue⟩ := minus_eq hge
      have hdiv : remainder.value / denominator.value = next.value / denominator.value + 1 := by
        rw [hvalue, ← div_eq_sub_div hpos hge]
      obtain ⟨rest, hrest, hmod⟩ := @ih next (digit + 1) (by omega)
      refine ⟨rest, ?_, ?_⟩
      · rw [takeOut, if_pos (ge_iff.mpr hge), hminus]
        rw [bind_some, hrest, hdiv, add_right_comm, add_assoc]
      · rw [hmod, hvalue, mod_eq_sub_mod hge]
    · have hlt := lt_of_not_ge hge
      refine ⟨remainder, ?_, (mod_eq_of_lt hlt).symm⟩
      rw [takeOut, if_neg fun htrue => hge (ge_iff.mp htrue), div_eq_of_lt hlt, add_zero]

/-- **The digits of the fraction**: the first `k` of them are the quotient of the remainder at
`k` digits behind the point, and the next one that of what is left. -/
theorem fractionDigits_spec {count : Nat} (hlt : remainder.value < denominator.value)
    (hwidth : denominator.value * 10 ≤ 2 ^ (64 * n)) :
    ∃ digits, fractionDigits denominator count remainder = some digits ∧ digits.length = count ∧
      (∀ k ≤ count, digitsValue (digits.take k) = remainder.value * 10 ^ k / denominator.value) ∧
      ∀ k < count, digits.getD k 0 =
        remainder.value * 10 ^ k % denominator.value * 10 / denominator.value := by
  have hpos : 0 < denominator.value := by omega
  induction count generalizing remainder with
  | zero =>
    refine ⟨[], rfl, rfl, fun k hk => ?_, fun k hk => by omega⟩
    rw [take_nil, le_zero.mp hk, pow_zero, mul_one, div_eq_of_lt hlt]
    rfl
  | succ count ih =>
    have hten : remainder.value * 10 ^ 1 < 2 ^ (64 * n) := by omega
    obtain ⟨shifted, hshifted, hvalue⟩ := timesPow10_eq hten
    have hnine : shifted.value / denominator.value ≤ 9 :=
      le_of_lt_succ ((div_lt_iff_lt_mul hpos).mpr (by omega))
    obtain ⟨rest, htake, hrest⟩ := @takeOut_spec n denominator shifted 9 0 hpos hnine
    have hmod := mod_lt shifted.value hpos
    obtain ⟨digits, hdigits, hlength, hfirsts, hdigit⟩ := @ih rest (by omega)
    rw [pow_one] at hvalue
    rw [zero_add] at htake
    have hshift : ∀ k, remainder.value * 10 ^ (k + 1) = shifted.value * 10 ^ k := by
      intro k
      rw [hvalue, pow_succ]
      ring
    refine ⟨shifted.value / denominator.value :: digits, ?_, congrArg (· + 1) hlength,
      fun k hk => ?_, fun k hk => ?_⟩
    · simp [fractionDigits, hshifted, htake, hdigits]
    · cases k with
      | zero =>
        rw [take_zero, pow_zero, mul_one, div_eq_of_lt hlt]
        rfl
      | succ k =>
        have hsplit := mod_add_div shifted.value denominator.value
        rw [take_succ_cons, digitsValue_cons, hfirsts k (by omega), length_take,
          hlength, min_eq_left (by omega), hshift, hrest]
        conv_rhs => rw [← hsplit, add_mul, mul_assoc, add_mul_div_left _ _ hpos]
        exact add_comm ..
    · cases k with
      | zero =>
        rw [getD_cons_zero, pow_zero, mul_one, mod_eq_of_lt hlt, hvalue]
      | succ k =>
        rw [getD_cons_succ, hdigit k (by omega), hshift, hrest, mod_mul_mod]

/-! ### The scale -/

/-- `w` digits behind the point give `x` at least 16 significant digits, and no fewer do; none
are wanted of a number too small for the digits that are computed. -/
def IsWanted (x : ℚ) (w : Nat) : Prop :=
  if x * 10 ^ 39 < 1 then w = 0 else IsLeast {w | 10 ^ 15 ≤ x * 10 ^ w} w

section

variable {numerator d : Nat} (hd : 0 < d)

include hd

theorem isWanted_iff {w : Nat} : IsWanted ((numerator : ℚ) / d) w ↔
    if numerator * 10 ^ 39 < d then w = 0
    else IsLeast {w | 10 ^ 15 * d ≤ numerator * 10 ^ w} w := by
  have hd' : (0 : ℚ) < d := by exact_mod_cast hd
  have htiny : (numerator : ℚ) / d * 10 ^ 39 < 1 ↔ numerator * 10 ^ 39 < d := by
    rw [div_mul_eq_mul_div, div_lt_one hd']
    norm_cast
  have hset : ∀ w, (10 : ℚ) ^ 15 ≤ numerator / d * 10 ^ w ↔ 10 ^ 15 * d ≤ numerator * 10 ^ w := by
    intro w
    rw [div_mul_eq_mul_div, le_div_iff₀ hd']
    norm_cast
  simp [IsWanted, htiny, hset]

theorem isWanted_of_integer {integer : Nat} (hinteger : integer = numerator / d)
    (hpos : 0 < integer) : IsWanted ((numerator : ℚ) / d) (16 - (digits 10 integer).length) := by
  have hlow : integer * d ≤ numerator := hinteger ▸ div_mul_le_self numerator d
  have hhigh : numerator < (integer + 1) * d := by
    rw [← div_lt_iff_lt_mul hd, ← hinteger]
    exact lt_succ_self integer
  have hdigits : integer < 10 ^ (digits 10 integer).length :=
    lt_base_pow_length_digits (by decide)
  have hleast : 10 ^ (digits 10 integer).length ≤ 10 * integer :=
    base_pow_length_digits_le' 8 integer hpos.ne'
  generalize (digits 10 integer).length = length at *
  have hle : d ≤ numerator := (Nat.le_mul_of_pos_left d hpos).trans hlow
  rw [isWanted_iff hd, if_neg (not_lt.mpr (hle.trans (Nat.le_mul_of_pos_right _ (by decide))))]
  refine ⟨?_, fun w hw => ?_⟩
  · have hpow : 10 ^ 16 ≤ 10 * (integer * 10 ^ (16 - length)) := by
      rw [← mul_assoc]
      refine (Nat.pow_le_pow_right (by decide) ?_).trans
        ((pow_add ..).le.trans (mul_le_mul_right _ hleast))
      omega
    calc 10 ^ 15 * d ≤ integer * 10 ^ (16 - length) * d := mul_le_mul_right d (by omega)
      _ = integer * d * 10 ^ (16 - length) := mul_right_comm ..
      _ ≤ numerator * 10 ^ (16 - length) := mul_le_mul_right _ hlow
  · by_contra hlt
    have hless : numerator * 10 ^ w < 10 ^ 15 * d := by
      calc numerator * 10 ^ w < (integer + 1) * d * 10 ^ w :=
            mul_lt_mul_of_pos_right hhigh (Nat.pow_pos (by decide))
        _ ≤ 10 ^ length * d * 10 ^ w := mul_le_mul_right _ (mul_le_mul_right d hdigits)
        _ = 10 ^ (length + w) * d := by rw [mul_right_comm, pow_add]
        _ ≤ 10 ^ 15 * d := mul_le_mul_right d (Nat.pow_le_pow_right (by decide) (by omega))
    exact not_le.mpr hless hw

theorem isWanted_of_fraction {fraction : List Nat} (hlength : fraction.length = 39)
    (hfirsts : ∀ k ≤ 39, digitsValue (fraction.take k) = numerator * 10 ^ k / d) :
    IsWanted ((numerator : ℚ) / d) (wantedScale 0 fraction) := by
  rw [isWanted_iff hd, wantedScale, if_neg (lt_irrefl 0)]
  cases hfind : fraction.findIdx? (· ≠ 0) with
  | none =>
    have hzero : digitsValue (fraction.take 39) = 0 := by
      rw [digitsValue_eq_zero]
      intro digit hin
      simpa using findIdx?_eq_none_iff.mp hfind digit (mem_of_mem_take hin)
    rw [hfirsts 39 le_rfl, div_eq_zero_iff_lt hd] at hzero
    rw [if_pos hzero]
  | some zeros =>
    obtain ⟨hin, hne, hbefore⟩ := findIdx?_eq_some_iff_getElem.mp hfind
    have hzero : numerator * 10 ^ zeros < d := by
      rw [← div_eq_zero_iff_lt hd, ← hfirsts zeros (by omega), digitsValue_eq_zero]
      intro digit hdigit
      obtain ⟨j, hj, rfl⟩ := mem_take_iff_getElem.mp hdigit
      simpa using hbefore j (by omega)
    have hpositive : d ≤ numerator * 10 ^ (zeros + 1) := by
      rw [← not_lt, ← div_eq_zero_iff_lt hd, ← hfirsts (zeros + 1) (by omega), digitsValue_eq_zero]
      intro hall
      have hlast := hall fraction[zeros] (mem_take_iff_getElem.mpr ⟨zeros, by omega, rfl⟩)
      rw [hlast] at hne
      simp at hne
    have hmore : numerator * 10 ^ (zeros + 1) ≤ numerator * 10 ^ 39 :=
      mul_le_mul_left _ (Nat.pow_le_pow_right (by decide) (by omega))
    rw [if_neg (by omega)]
    refine ⟨?_, fun w hw => ?_⟩
    · calc 10 ^ 15 * d ≤ 10 ^ 15 * (numerator * 10 ^ (zeros + 1)) :=
            mul_le_mul_left _ hpositive
        _ = numerator * 10 ^ (zeros + 16) := by rw [pow_succ, pow_add]; ring
    by_contra hnot
    have hless : w < zeros + 16 := lt_of_not_ge hnot
    have hsmall : numerator * 10 ^ w < 10 ^ 15 * d := by
      calc numerator * 10 ^ w ≤ numerator * 10 ^ (zeros + 15) :=
            mul_le_mul_left _ (Nat.pow_le_pow_right (by decide) (by omega))
        _ = 10 ^ 15 * (numerator * 10 ^ zeros) := by rw [pow_add]; ring
        _ < 10 ^ 15 * d := mul_lt_mul_of_pos_left hzero (by decide)
    exact not_le.mpr hsmall hw

end

/-! ### The quotient -/

/-- The scale of the quotient: what is wanted or asked for, as far as 38 digits allow. -/
def quotientScale (integer wanted leastScale : Nat) : Nat :=
  min (max wanted leastScale) (maxDecimalDigits - (Nat.digits 10 integer).length)

theorem succ_mul_le_limit {integer wanted leastScale : Nat} (h : integer < limit) :
    (integer + 1) * 10 ^ quotientScale integer wanted leastScale ≤ limit := by
  have hdigits : integer < 10 ^ (digits 10 integer).length :=
    lt_base_pow_length_digits (by decide)
  have hle : (digits 10 integer).length ≤ maxDecimalDigits :=
    (digits_length_le_iff (by decide) _).mpr h
  calc (integer + 1) * 10 ^ quotientScale integer wanted leastScale
      ≤ 10 ^ (digits 10 integer).length *
          10 ^ (maxDecimalDigits - (digits 10 integer).length) :=
        Nat.mul_le_mul hdigits (Nat.pow_le_pow_right (by decide) (min_le_right ..))
    _ = limit := by rw [← pow_add, Nat.add_sub_cancel' hle]; rfl

/-- **The quotient** is the numerator at the chosen scale over the denominator, rounded once. -/
theorem quotient_spec {n N D : Nat} {numerator denominator : Wide (n + 2)} (negative : Bool)
    (leastScale : Nat) (hN : numerator.value = N) (hD : denominator.value = D) (hpos : 0 < D)
    (hwidth : D * 10 ≤ 2 ^ (64 * (n + 2))) :
    (limit ≤ N / D ∧ quotient numerator denominator negative leastScale = some (.error .overflow)) ∨
    N / D < limit ∧ ∃ wanted, IsWanted ((N : ℚ) / D) wanted ∧
      ∀ scale, scale = quotientScale (N / D) wanted leastScale →
        quotient numerator denominator negative leastScale =
          some (if limit ≤ halfUp (N * 10 ^ scale) D then .error .overflow
            else fromMagnitude (halfUp (N * 10 ^ scale) D) negative scale) := by
  obtain ⟨integer, remainder, hdiv, hinteger, hremainder⟩ :=
    divRem_eq (a := numerator) (hD.symm ▸ hpos) (by omega)
  rw [hN, hD] at hinteger
  rw [hN, hD] at hremainder
  have hbits : limit < 2 ^ 128 := by decide
  by_cases hlarge : limit ≤ N / D
  · have hfilter : integer.toU128.filter (· < limit) = none := by
      rw [toU128_eq, hinteger]
      split
      · rw [filter_some, if_neg (by simpa using hlarge)]
      · rfl
    refine .inl ⟨hlarge, ?_⟩
    simp [quotient, hdiv, hfilter]
  have hsmall := lt_of_not_ge hlarge
  have hfilter : integer.toU128.filter (· < limit) = some (N / D) := by
    rw [toU128_eq, hinteger, if_pos (by omega), filter_some, if_pos (by simpa using hsmall)]
  have hlt : remainder.value < D := hremainder ▸ mod_lt _ hpos
  obtain ⟨fraction, hfraction, hlength, hfirsts, hnext⟩ :=
    @fractionDigits_spec _ denominator remainder 39 (hD ▸ hlt) (hD ▸ hwidth)
  rw [hD] at hfirsts hnext
  refine .inr ⟨hsmall, wantedScale (N / D) fraction, ?_, ?_⟩
  · obtain hzero | hinteger := Nat.eq_zero_or_pos (N / D)
    · rw [hzero]
      rw [div_eq_zero_iff_lt hpos] at hzero
      rw [hremainder, mod_eq_of_lt hzero] at hfirsts
      exact isWanted_of_fraction hpos hlength hfirsts
    · rw [wantedScale, if_pos hinteger, digitCount_eq hsmall]
      exact isWanted_of_integer hpos rfl hinteger
  · intro scale hscale
    have hle : scale ≤ maxDecimalDigits := hscale ▸ (min_le_right _ _).trans (sub_le ..)
    have hmod : remainder.value * 10 ^ scale % D = N * 10 ^ scale % D := by
      rw [hremainder, mod_mul_mod]
    have hmagnitude : N / D * 10 ^ scale + digitsValue (fraction.take scale) =
        N * 10 ^ scale / D := by
      rw [hfirsts scale (hle.trans (by decide)), hremainder]
      conv_rhs => rw [← mod_add_div N D, add_mul, mul_assoc, add_mul_div_left _ _ hpos]
      exact add_comm ..
    have hbelow : N * 10 ^ scale / D < limit := by
      refine lt_of_lt_of_le ?_ (hscale ▸ succ_mul_le_limit hsmall)
      rw [div_lt_iff_lt_mul hpos, mul_right_comm]
      refine mul_lt_mul_of_pos_right ?_ (Nat.pow_pos (by decide))
      rw [← div_lt_iff_lt_mul hpos]
      exact lt_succ_self _
    have hround : nearest (N * 10 ^ scale / D) (decide (5 ≤ fraction.getD scale 0)) =
        some (halfUp (N * 10 ^ scale) D) := by
      have hhalf : 5 ≤ fraction.getD scale 0 ↔ D - N * 10 ^ scale % D ≤ N * 10 ^ scale % D := by
        rw [hnext scale (hle.trans_lt (by decide)), hmod, le_div_iff_mul_le hpos]
        omega
      have hup : u128 (N * 10 ^ scale / D + 1) = some _ := if_pos (by omega)
      simp only [nearest, decide_eq_true_eq, hhalf]
      rw [halfUp_eq hpos, hup, apply_ite some]
    have hkept : u128 (N / D * 10 ^ scale + digitsValue (fraction.take scale)) =
        some (N * 10 ^ scale / D) := by
      rw [hmagnitude]
      exact if_pos (by omega)
    have hchosen : min (max (wantedScale (N / D) fraction) leastScale)
        (maxDecimalDigits - digitCount (N / D)) = scale := by
      rw [hscale, digitCount_eq hsmall]
      rfl
    unfold digitsValue at hkept
    simp only [quotient, hdiv, hfilter, hfraction, hchosen, hkept, hround, bind_eq_bind,
      bind_some, Option.pure_def]
    exact (apply_ite some ..).symm

/-! ### No carry to the limit -/

/-- Two numbers of which the smaller has at most 38 digits are too far apart for their quotient
to round up to one at 38 digits. -/
theorem two_limit_mul_lt {x y : Nat} (hx : x < limit) (hxy : x < y) :
    2 * limit * x + y < 2 * limit * y := by
  obtain ⟨g, rfl⟩ := Nat.exists_eq_add_of_lt hxy
  have hg : g + 1 ≤ limit * (g + 1) := Nat.le_mul_of_pos_left _ (by decide)
  have hlimit : limit ≤ limit * (g + 1) := Nat.le_mul_of_pos_right _ (succ_pos g)
  rw [add_assoc x g 1, mul_add, mul_assoc, mul_assoc]
  omega

/-- **No carry.** Below a power of ten, a quotient of mantissas does not round up to it, at any
scale that leaves 38 digits. -/
theorem quotient_lt_limit {x y xs ys c s : Nat} (hx : x < limit) (hy : y < limit)
    (hlt : x * 10 ^ ys < 10 ^ c * (y * 10 ^ xs)) (hs : c + s ≤ maxDecimalDigits) :
    halfUp (x * 10 ^ ys * 10 ^ s) (y * 10 ^ xs) < limit := by
  have hpos : 0 < y * 10 ^ xs := pos_of_ne_zero fun hzero => by
    rw [hzero, mul_zero] at hlt
    omega
  -- The two sides over a common power of ten `p`.
  obtain ⟨x', y', p, hp, hx', hy', hsmall⟩ : ∃ x' y' p, 0 < p ∧ x * 10 ^ ys = x' * p ∧
      10 ^ c * (y * 10 ^ xs) = y' * p ∧ (x' < limit ∨ y' < limit) := by
    obtain hle | hle := le_total ys (c + xs)
    · obtain ⟨e, he⟩ := Nat.exists_eq_add_of_le hle
      refine ⟨x, y * 10 ^ e, 10 ^ ys, Nat.pow_pos (by decide), rfl, ?_, .inl hx⟩
      rw [mul_left_comm, ← pow_add, he, pow_add]
      ring
    obtain ⟨e, he⟩ := Nat.exists_eq_add_of_le hle
    refine ⟨x * 10 ^ e, y, 10 ^ (c + xs), Nat.pow_pos (by decide), ?_, ?_, .inr hy⟩
    · rw [he, pow_add]
      ring
    · rw [pow_add]
      ring
  have hless : x' < y' := by
    rw [hx', hy'] at hlt
    exact Nat.lt_of_mul_lt_mul_right hlt
  by_contra hnot
  have hhalf := (le_halfUp_iff hpos).mp (le_of_not_gt hnot)
  have hwide : 2 * limit * y' * p ≤ 2 * limit * x' * p + y' * p := by
    calc 2 * limit * y' * p = 2 * limit * (y * 10 ^ xs) * 10 ^ c := by
          rw [mul_assoc _ y', ← hy']
          ring
      _ ≤ (2 * (x * 10 ^ ys * 10 ^ s) + y * 10 ^ xs) * 10 ^ c := mul_le_mul_right _ hhalf
      _ = 2 * (x' * p) * 10 ^ (c + s) + y' * p := by
          rw [← hx', ← hy', pow_add]
          ring
      _ ≤ 2 * (x' * p) * limit + y' * p := Nat.add_le_add_right
          (Nat.mul_le_mul_left _ (Nat.pow_le_pow_right (by decide) hs)) _
      _ = 2 * limit * x' * p + y' * p := by ring
  rw [← add_mul] at hwide
  exact not_le.mpr (two_limit_mul_lt (by omega) hless) (le_of_mul_le_mul_right hwide hp)

/-! ### The carry -/

/-- **When rounding carries.** A quotient below `10 ^ 38` rounds up to one past 38 digits just if
it lies within half a unit of the last place below a power of ten, and the scale asked for is the
most the digits in front of the point leave. -/
theorem carries_iff {x : ℚ} {wanted leastScale : Nat} (hx : |x| < 10 ^ 38)
    (hwanted : IsWanted |x| wanted) :
    limit ≤ (roundAway (x * 10 ^ quotientScale ⌊|x|⌋₊ wanted leastScale)).natAbs ↔
      ∃ k ≤ 38, 38 - k ≤ leastScale ∧ |x| < 10 ^ k ∧ 10 ^ 38 ≤ |x| * 10 ^ (38 - k) + 1 / 2 := by
  have hscaled : ∀ s, limit ≤ (roundAway (x * 10 ^ s)).natAbs ↔ 10 ^ 38 ≤ |x| * 10 ^ s + 1 / 2 := by
    intro s
    rw [le_natAbs_roundAway_iff, abs_mul, abs_of_pos (by positivity : (0 : ℚ) < 10 ^ s)]
    norm_num [limit]
  have hfloor : ∀ k, |x| < 10 ^ k ↔ (digits 10 ⌊|x|⌋₊).length ≤ k := by
    intro k
    rw [digits_length_le_iff (by decide), floor_lt (abs_nonneg x)]
    norm_cast
  rw [hscaled]
  have hlt := (hfloor _).mpr le_rfl
  have hmax := (hfloor 38).mp hx
  unfold quotientScale maxDecimalDigits
  generalize (digits 10 ⌊|x|⌋₊).length = digits at *
  have hpow : ∀ s, digits + s ≤ 37 → |x| * 10 ^ s ≤ 10 ^ 37 := by
    intro s hs
    calc |x| * 10 ^ s ≤ 10 ^ digits * 10 ^ s := mul_le_mul_of_nonneg_right hlt.le (by positivity)
      _ = 10 ^ (digits + s) := (pow_add ..).symm
      _ ≤ 10 ^ 37 := pow_le_pow_right₀ (by norm_num) hs
  generalize hscale : min (max wanted leastScale) (38 - digits) = scale
  constructor
  · intro hcarry
    -- Fewer digits than 38 leave no carry, so the scale is the one that keeps them all.
    have hfull : 38 ≤ digits + scale := by
      by_contra hnot
      have hless := hpow scale (by omega)
      linarith
    have hall : scale = 38 - digits := by omega
    refine ⟨digits, hmax, ?_, hlt, hall ▸ hcarry⟩
    by_contra hleast
    -- The digits wanted would be fewer: one less already gives more than 16.
    have hone : 10 ^ 36 ≤ |x| * 10 ^ (37 - digits) := by
      have hsplit : |x| * 10 ^ scale = |x| * 10 ^ (37 - digits) * 10 := by
        rw [hall, mul_assoc, ← pow_succ, show 38 - digits = 37 - digits + 1 by omega]
      linarith
    have hle : wanted ≤ 37 - digits := by
      unfold IsWanted at hwanted
      split at hwanted
      · omega
      · exact hwanted.2 (le_trans (by norm_num) hone)
    omega
  · rintro ⟨k, hk, hleast, hbelow, hcarry⟩
    have hdigits : digits = k := by
      refine le_antisymm ((hfloor k).mp hbelow) (le_of_not_gt fun hless => ?_)
      have hsmall := hpow (38 - k) (by omega)
      linarith
    rwa [show scale = 38 - k by omega]

/-! ### Division -/

/-- What the quotient `x` is rounded to, at least at `leastScale` when 38 digits allow. -/
def IsQuotient (x : ℚ) (leastScale : Nat) : Except DecimalError Decimal → Prop
  | .ok c => ⌊|x|⌋₊ < 10 ^ 38 ∧
      (∃ wanted, IsWanted |x| wanted ∧ c.scale = quotientScale ⌊|x|⌋₊ wanted leastScale) ∧
      c.mantissa = roundAway (x * 10 ^ c.scale)
  | .error error => error = .overflow ∧ 10 ^ 38 ≤ ⌊|x|⌋₊

theorem signed_div (x y : Int) (k l : Nat) :
    (signed (decide (x < 0) != decide (y < 0)) (x.natAbs * k) : ℚ) / (y.natAbs * l : Nat) =
      x * k / (y * l) := by
  have habs : ∀ z : Int, ((z.natAbs : Nat) : ℚ) = |(z : ℚ)| := fun z => by
    rw [cast_natAbs, Int.cast_abs]
  have hneg : ∀ z : Int, z < 0 → |(z : ℚ)| = -z := fun z hz => abs_of_neg (by exact_mod_cast hz)
  have hpos : ∀ z : Int, 0 ≤ z → |(z : ℚ)| = z := fun z hz => abs_of_nonneg (by exact_mod_cast hz)
  unfold signed
  obtain hx | hx := lt_or_ge x 0 <;> obtain hy | hy := lt_or_ge y 0
  · simp [hx, hy, habs, hneg]
  · simp [hx, hy.not_gt, habs, hneg, hpos, hy]
  · simp [hx.not_gt, hy, habs, hneg, hpos, hx, neg_div, div_neg]
  · simp [hx.not_gt, hy.not_gt, habs, hpos, hx, hy]

section

variable {negative : Bool} {numerator d : Nat} (hd : 0 < d)

theorem abs_signed_div : |(signed negative numerator : ℚ) / d| = (numerator : ℚ) / d := by
  rw [abs_div, abs_cast]
  unfold signed
  cases negative <;> simp

theorem floor_abs_signed_div : ⌊|(signed negative numerator : ℚ) / d|⌋₊ = numerator / d := by
  rw [abs_signed_div, floor_div_eq_div]

include hd

theorem roundAway_signed_mul (s : Nat) : roundAway ((signed negative numerator : ℚ) / d * 10 ^ s) =
      signed negative (halfUp (numerator * 10 ^ s) d) := by
  rw [← roundAway_signed negative (numerator * 10 ^ s) hd]
  unfold signed
  cases negative <;> simp [div_mul_eq_mul_div, neg_div]

end

/-- `quotient_spec` in the terms of the number divided: the quotient is out of range when its
integer part is, or when rounding carries it there. -/
theorem quotient_rounds {n : Nat} {numerator denominator : Wide (n + 2)} {negative : Bool}
    {x : ℚ} (leastScale : Nat) (hpos : 0 < denominator.value)
    (hwidth : denominator.value * 10 ≤ 2 ^ (64 * (n + 2)))
    (hx : x = (signed negative numerator.value : ℚ) / denominator.value) :
    (limit ≤ ⌊|x|⌋₊ ∧
      quotient numerator denominator negative leastScale = some (.error .overflow)) ∨
    ⌊|x|⌋₊ < limit ∧ ∃ wanted, IsWanted |x| wanted ∧
      ∀ scale, scale = quotientScale ⌊|x|⌋₊ wanted leastScale →
        (limit ≤ (roundAway (x * 10 ^ scale)).natAbs →
          quotient numerator denominator negative leastScale = some (.error .overflow)) ∧
        ((roundAway (x * 10 ^ scale)).natAbs < limit → ∃ c,
          quotient numerator denominator negative leastScale = some (.ok c) ∧
            c.scale = scale ∧ c.mantissa = roundAway (x * 10 ^ scale)) := by
  rw [hx, floor_abs_signed_div, abs_signed_div]
  refine (quotient_spec negative leastScale rfl rfl hpos hwidth).imp id ?_
  intro ⟨hsmall, wanted, hwanted, hquotient⟩
  refine ⟨hsmall, wanted, hwanted, fun scale hscale => ?_⟩
  rw [roundAway_signed_mul hpos, natAbs_signed, hquotient scale hscale]
  refine ⟨fun hcarry => by rw [if_pos hcarry], fun hfits => ?_⟩
  have hle : scale ≤ maxDecimalDigits := hscale ▸ (min_le_right _ _).trans (sub_le ..)
  obtain ⟨c, hc, hmantissa, hcscale⟩ := fromMagnitude_eq negative hfits hle
  exact ⟨c, by rw [if_neg (not_le.mpr hfits), hc], hcscale, hmantissa⟩

/-- **Division**: it overflows just if the integer part of the quotient has more than 38 digits,
and otherwise gives the exact quotient rounded once. No intermediate leaves its width. -/
theorem checked_div_exact (a b : Decimal) (hb : b.mantissa ≠ 0) :
    ∃ r, checkedDiv a b = some r ∧ IsQuotient (a.value / b.value) (max a.scale b.scale) r := by
  have hbits : limit ≤ 2 ^ 128 := by decide
  have hwide : ∀ (m s : Nat), m < limit → s ≤ maxDecimalDigits → ∃ w,
      (ofU128 2 m).timesPow10 s = some w ∧ w.value = m * 10 ^ s ∧ m * 10 ^ s < 10 ^ 76 := by
    intro m s hm hs
    have hvalue : (ofU128 2 m).value = m := value_ofU128 2 (by omega)
    have hlt : m * 10 ^ s < 10 ^ 76 := by
      calc m * 10 ^ s ≤ m * 10 ^ maxDecimalDigits :=
            mul_le_mul_left _ (Nat.pow_le_pow_right (by decide) hs)
        _ < limit * 10 ^ maxDecimalDigits :=
            mul_lt_mul_of_pos_right hm (by decide)
        _ = 10 ^ 76 := by decide
    obtain ⟨w, hw, hwvalue⟩ := timesPow10_eq (w := ofU128 2 m) (k := s)
      (by rw [hvalue]; exact hlt.trans (by decide))
    exact ⟨w, hw, hvalue ▸ hwvalue, hlt⟩
  obtain ⟨numerator, hnumerator, hn, -⟩ := hwide _ b.scale a.mantissa_lt b.scale_le
  obtain ⟨denominator, hdenominator, hd, hdlt⟩ := hwide _ a.scale b.mantissa_lt a.scale_le
  have hpos : 0 < denominator.value := by
    rw [hd]
    exact mul_pos (Int.natAbs_pos.mpr hb) (Nat.pow_pos (by decide))
  have hten : denominator.value * 10 ≤ 2 ^ (64 * (2 + 2)) := by
    rw [hd]
    exact (mul_le_mul_right 10 (le_of_lt hdlt)).trans (by decide)
  have hexact : a.value / b.value =
      (signed (decide (a.mantissa < 0) != decide (b.mantissa < 0)) numerator.value : ℚ) /
        denominator.value := by
    rw [hn, hd, signed_div, value, value]
    push_cast
    field_simp
  have hchecked : checkedDiv a b = quotient numerator denominator
      (decide (a.mantissa < 0) != decide (b.mantissa < 0)) (max a.scale b.scale) := by
    simp [checkedDiv, if_neg hb, hnumerator, hdenominator]
  rw [hchecked]
  obtain ⟨hlarge, hquotient⟩ | ⟨hsmall, wanted, hwanted, hquotient⟩ :=
    quotient_rounds (max a.scale b.scale) hpos hten hexact
  · exact ⟨_, hquotient, rfl, hlarge⟩
  have hdigits : (digits 10 ⌊|a.value / b.value|⌋₊).length ≤ maxDecimalDigits :=
    (digits_length_le_iff (by decide) _).mpr hsmall
  generalize hscale : quotientScale ⌊|a.value / b.value|⌋₊ wanted (max a.scale b.scale) = scale
    at hquotient
  have hfits : (roundAway (a.value / b.value * 10 ^ scale)).natAbs < limit := by
    have hfloor : ⌊|a.value / b.value|⌋₊ = numerator.value / denominator.value := by
      rw [hexact, floor_abs_signed_div]
    have hlt : numerator.value <
        10 ^ (digits 10 ⌊|a.value / b.value|⌋₊).length * denominator.value := by
      rw [← div_lt_iff_lt_mul hpos, ← hfloor]
      exact lt_base_pow_length_digits (by decide)
    rw [hexact, roundAway_signed_mul hpos, natAbs_signed]
    rw [hn, hd] at hlt ⊢
    refine quotient_lt_limit a.mantissa_lt b.mantissa_lt hlt ?_
    unfold quotientScale at hscale
    omega
  obtain ⟨c, hc, hcscale, hmantissa⟩ := (hquotient scale rfl).2 hfits
  exact ⟨.ok c, hc, hsmall, ⟨wanted, hwanted, hcscale.trans hscale.symm⟩, hcscale ▸ hmantissa⟩

theorem checked_div_exact_small : ∃ r, checkedDiv oneAndHalf minusNineQuarters = some r ∧
    IsQuotient (oneAndHalf.value / minusNineQuarters.value)
      (max oneAndHalf.scale minusNineQuarters.scale) r :=
  checked_div_exact oneAndHalf minusNineQuarters (by decide)

end Decimal

end Grafeo.Common
