import Grafeo.Common.DecimalDiv
import Grafeo.Lib.Bytes
import Grafeo.Lib.Transition
import Mathlib

/-!
# Grafeo.Common.DecimalSum

**Exact sums of decimals** (`DecimalSum`): the positive and the negative magnitudes of the rows,
each at the largest scale seen, so that nothing is lost before the final rounding.

What a sum holds is a function of its rows (`Sums`). Every row added keeps it and so does writing
the sum to bytes and reading it back; the results for `total` and `average` follow.
-/

namespace Grafeo.Common

open Lib List Option Decimal

/-- The positive and the negative magnitude, of 384 bits, at a scale. -/
structure DecimalSum where
  positive : Wide 6
  negative : Wide 6
  scale : Nat
deriving DecidableEq

/-- The scale, then the limbs of the two magnitudes. -/
def decimalSumBytes : Nat := 1 + 2 * 8 * 6

namespace DecimalSum

/-- The sum of no rows. -/
def new : DecimalSum := ⟨.ofU128 4 0, .ofU128 4 0, 0⟩

/-- The sum at `scale`, if its own is smaller. -/
def raised (sum : DecimalSum) (scale : Nat) : Option DecimalSum :=
  if sum.scale < scale then do
    let positive ← sum.positive.timesPow10 (scale - sum.scale)
    let negative ← sum.negative.timesPow10 (scale - sum.scale)
    pure ⟨positive, negative, scale⟩
  else some sum

/-- Adds `magnitude / 10 ^ scale`, negated when `negative`. -/
def addMagnitude (sum : DecimalSum) (magnitude : Nat) (negative : Bool) (scale : Nat) :
    Option DecimalSum := do
  let sum ← sum.raised scale
  let aligned ← (Wide.ofU128 4 magnitude).timesPow10 (sum.scale - scale)
  if negative then (sum.negative.plus aligned).map fun total => { sum with negative := total }
  else (sum.positive.plus aligned).map fun total => { sum with positive := total }

def add (sum : DecimalSum) (value : Decimal) : Option DecimalSum :=
  sum.addMagnitude value.mantissa.natAbs (decide (value.mantissa < 0)) value.scale

/-- The magnitude of the sum at its scale, and whether it is negative. -/
def magnitude (sum : DecimalSum) : Option (Wide 6 × Bool) :=
  if sum.positive.ge sum.negative then (sum.positive.minus sum.negative).map (·, false)
  else (sum.negative.minus sum.positive).map (·, true)

/-- The sum at the largest scale of its rows, rounded when it needs more than 38 digits. -/
def total (sum : DecimalSum) : Option (Except DecimalError Decimal) :=
  sum.magnitude.bind fun (magnitude, negative) => Decimal.rounded magnitude negative sum.scale

/-- The sum divided by the number of its rows. -/
def average (sum : DecimalSum) (count : Nat) : Option (Except DecimalError Decimal) :=
  if count = 0 then some (.error .divisionByZero)
  else do
    let (magnitude, negative) ← sum.magnitude
    let denominator ← (Wide.ofU128 4 count).timesPow10 sum.scale
    Decimal.quotient magnitude denominator negative sum.scale

def toLeBytes (sum : DecimalSum) : List Byte :=
  toLe 1 sum.scale ++
    ((sum.positive.limbs ++ sum.negative.limbs).map fun limb => toLe 8 limb.toNat).flatten

theorem length_toLeBytes (sum : DecimalSum) : sum.toLeBytes.length = decimalSumBytes := by
  have hlimbs := sum.positive.length_eq
  have hlimbs' := sum.negative.length_eq
  simp [toLeBytes, length_flatten, Function.comp_def, hlimbs, hlimbs', decimalSumBytes]

/-- The sum that was written, `none` for a scale past 38. -/
def fromLeBytes (bytes : List Byte) (h : bytes.length = decimalSumBytes) : Option DecimalSum :=
  let limbs := (asChunks 8 (bytes.drop 1)).map fun chunk => BitVec.ofNat 64 (ofLe chunk)
  have hlength : limbs.length = 12 := by simp [limbs, asChunks, h, decimalSumBytes]
  if maxDecimalDigits < ofLe (bytes.take 1) then none
  else some
    { positive := ⟨limbs.take 6, by simp [hlength]⟩
      negative := ⟨limbs.drop 6, by simp [hlength]⟩
      scale := ofLe (bytes.take 1) }

/-- **The bytes read back.** -/
theorem fromLeBytes_toLeBytes {sum : DecimalSum} (h : sum.scale ≤ maxDecimalDigits) :
    fromLeBytes sum.toLeBytes sum.length_toLeBytes = some sum := by
  have hbyte : ofLe (sum.toLeBytes.take 1) = sum.scale := by
    rw [toLeBytes, take_left' (length_toLe 1 _)]
    exact ofLe_toLe (h.trans_lt (by decide))
  have hlimbs : (asChunks 8 (sum.toLeBytes.drop 1)).map (fun chunk => BitVec.ofNat 64 (ofLe chunk))
      = sum.positive.limbs ++ sum.negative.limbs := by
    rw [toLeBytes, drop_left' (length_toLe 1 _), asChunks_flatten (by decide), List.map_map]
    · exact (map_congr_left fun limb _ => bv64_ofLe limb).trans (map_id _)
    · intro record hrecord
      obtain ⟨limb, -, rfl⟩ := mem_map.mp hrecord
      exact length_toLe 8 _
  simp only [fromLeBytes, hbyte, hlimbs, if_neg (Nat.not_lt.mpr h),
    take_left' sum.positive.length_eq, drop_left' sum.positive.length_eq]

/-! ### What a sum holds -/

/-- A row's share in the magnitude of its sign, at `scale`. -/
def aligned (negative : Bool) (scale : Nat) (row : Decimal) : Nat :=
  if decide (row.mantissa < 0) = negative then row.mantissa.natAbs * 10 ^ (scale - row.scale) else 0

/-- The magnitude of the rows of one sign, at `scale`. -/
def part (negative : Bool) (scale : Nat) (rows : List Decimal) : Nat :=
  (rows.map (aligned negative scale)).sum

def largestScale (rows : List Decimal) : Nat := rows.foldr (fun row scale => max row.scale scale) 0

/-- The sum holds the rows at `scale`. -/
structure HoldsAt (scale : Nat) (rows : List Decimal) (sum : DecimalSum) : Prop where
  scale_eq : sum.scale = scale
  positive_eq : sum.positive.value = part false scale rows
  negative_eq : sum.negative.value = part true scale rows

/-- The sum of the rows. -/
def Sums (rows : List Decimal) (sum : DecimalSum) : Prop := HoldsAt (largestScale rows) rows sum

variable {negative : Bool} {scale scale' : Nat} {rows : List Decimal} {row : Decimal}
  {sum : DecimalSum}

theorem scale_le_largestScale (h : row ∈ rows) : row.scale ≤ largestScale rows := by
  induction rows with
  | nil => cases h
  | cons first rows ih =>
    obtain rfl | h := mem_cons.mp h
    · exact le_max_left ..
    · exact (ih h).trans (le_max_right ..)

theorem largestScale_le : largestScale rows ≤ maxDecimalDigits := by
  induction rows with
  | nil => decide
  | cons first rows ih => exact Nat.max_le.mpr ⟨first.scale_le, ih⟩

theorem largestScale_append : largestScale (rows ++ [row]) = max (largestScale rows) row.scale := by
  induction rows with
  | nil => exact max_comm ..
  | cons first rows ih =>
    simp only [largestScale, cons_append, foldr_cons] at ih ⊢
    rw [ih, max_assoc]

theorem part_append :
    part negative scale (rows ++ [row]) = part negative scale rows + aligned negative scale row := by
  simp [part]

theorem aligned_le (hscale : scale ≤ maxDecimalDigits) : aligned negative scale row ≤ 10 ^ 76 := by
  unfold aligned
  split
  · calc row.mantissa.natAbs * 10 ^ (scale - row.scale) ≤ limit * 10 ^ 38 :=
          Nat.mul_le_mul row.mantissa_lt.le
            (Nat.pow_le_pow_right (by decide) ((Nat.sub_le ..).trans hscale))
      _ = 10 ^ 76 := by decide
  · exact Nat.zero_le _

/-- The magnitudes of `2 ^ 63` rows leave room for ten times their sum. -/
theorem part_mul_ten_lt (hscale : scale ≤ maxDecimalDigits) (hrows : rows.length ≤ 2 ^ 63) :
    part negative scale rows * 10 < 2 ^ (64 * 6) := by
  have hle := sum_le_card_nsmul (rows.map (aligned negative scale)) (10 ^ 76) (by
    intro share hshare
    obtain ⟨row, -, rfl⟩ := mem_map.mp hshare
    exact aligned_le hscale)
  rw [length_map, smul_eq_mul] at hle
  unfold part
  omega

theorem part_raise (hrows : ∀ row ∈ rows, row.scale ≤ scale) (h : scale ≤ scale') :
    part negative scale' rows = part negative scale rows * 10 ^ (scale' - scale) := by
  rw [part, part, ← sum_map_mul_right]
  refine congrArg sum (map_congr_left fun row hrow => ?_)
  have hle := hrows row hrow
  unfold aligned
  split
  · rw [mul_assoc, ← pow_add, show scale - row.scale + (scale' - scale) =
      scale' - row.scale by omega]
  · rw [Nat.zero_mul]

theorem aligned_sub (h : row.scale ≤ scale) :
    (aligned false scale row : ℚ) - aligned true scale row = row.value * 10 ^ scale := by
  obtain ⟨extra, rfl⟩ := Nat.exists_eq_add_of_le h
  have habs : ((row.mantissa.natAbs : Nat) : ℚ) = |(row.mantissa : ℚ)| := by
    rw [Nat.cast_natAbs, Int.cast_abs]
  have hvalue : row.value * 10 ^ (row.scale + extra) = row.mantissa * 10 ^ extra := by
    rw [value, pow_add]
    field_simp
  rw [hvalue]
  unfold aligned
  obtain hneg | hnonneg := lt_or_ge row.mantissa 0
  · have hcast : |(row.mantissa : ℚ)| = -row.mantissa := abs_of_neg (by exact_mod_cast hneg)
    simp [hneg, habs, hcast]
  · have hcast : |(row.mantissa : ℚ)| = row.mantissa := abs_of_nonneg (by exact_mod_cast hnonneg)
    simp [hnonneg.not_gt, habs, hcast]

theorem part_sub (h : ∀ row ∈ rows, row.scale ≤ scale) :
    (part false scale rows : ℚ) - part true scale rows =
      (rows.map Decimal.value).sum * 10 ^ scale := by
  induction rows with
  | nil => simp [part]
  | cons row rows ih =>
    have hrow := aligned_sub (h row mem_cons_self)
    have hrest := ih fun row hrow => h row (mem_cons_of_mem _ hrow)
    simp only [part, map_cons, sum_cons, Nat.cast_add] at hrest ⊢
    rw [add_mul, ← hrow, ← hrest]
    ring

/-! ### Every step keeps it -/

theorem sums_new : Sums [] new := ⟨rfl, Wide.value_ofU128 4 (by decide),
  Wide.value_ofU128 4 (by decide)⟩

theorem HoldsAt.raised (h : HoldsAt scale rows sum) (hrows : ∀ row ∈ rows, row.scale ≤ scale)
    (hscale : scale' ≤ maxDecimalDigits) (hlength : rows.length ≤ 2 ^ 63) :
    ∃ sum', sum.raised scale' = some sum' ∧ HoldsAt (max scale scale') rows sum' := by
  unfold DecimalSum.raised
  rw [h.scale_eq]
  split
  case isFalse hle =>
    rw [Nat.max_eq_left (le_of_not_gt hle)]
    exact ⟨sum, rfl, h⟩
  case isTrue hlt =>
    have hwidth : ∀ negative, part negative scale rows * 10 ^ (scale' - scale) < 2 ^ (64 * 6) := by
      intro negative
      rw [← part_raise hrows hlt.le]
      exact lt_of_le_of_lt (Nat.le_mul_of_pos_right _ (by decide))
        (part_mul_ten_lt hscale hlength)
    obtain ⟨positive, hpositive, hvalue⟩ := Wide.timesPow10_eq (w := sum.positive)
      (k := scale' - scale) (by rw [h.positive_eq]; exact hwidth false)
    obtain ⟨negative, hnegative, hvalue'⟩ := Wide.timesPow10_eq (w := sum.negative)
      (k := scale' - scale) (by rw [h.negative_eq]; exact hwidth true)
    refine ⟨⟨positive, negative, scale'⟩, ?_, ?_⟩
    · simp [hpositive, hnegative]
    · rw [Nat.max_eq_right hlt.le]
      refine ⟨rfl, ?_, ?_⟩
      · rw [part_raise hrows hlt.le, ← h.positive_eq, hvalue]
      · rw [part_raise hrows hlt.le, ← h.negative_eq, hvalue']

/-- **A row added**, with no bit lost. -/
theorem Sums.add (h : Sums rows sum) (row : Decimal) (hlength : rows.length < 2 ^ 63) :
    ∃ sum', sum.add row = some sum' ∧ Sums (rows ++ [row]) sum' := by
  obtain ⟨raised, hraised, hholds⟩ := h.raised (fun row hrow => scale_le_largestScale hrow)
    row.scale_le hlength.le
  have hscale : max (largestScale rows) row.scale ≤ maxDecimalDigits :=
    Nat.max_le.mpr ⟨largestScale_le, row.scale_le⟩
  have hbits : row.mantissa.natAbs < 2 ^ 128 := row.mantissa_lt.trans (by decide)
  have hsum := fun negative => @part_mul_ten_lt negative _ (rows ++ [row]) hscale
    (by rw [length_append]; exact hlength)
  simp only [part_append, add_mul] at hsum
  have hshare : aligned (decide (row.mantissa < 0)) (max (largestScale rows) row.scale) row =
      row.mantissa.natAbs * 10 ^ (max (largestScale rows) row.scale - row.scale) := if_pos rfl
  have hother : aligned (!decide (row.mantissa < 0)) (max (largestScale rows) row.scale) row = 0 :=
    if_neg (by simp)
  obtain ⟨share, htimes, hvalue⟩ := Wide.timesPow10_eq
    (w := Wide.ofU128 4 row.mantissa.natAbs) (k := raised.scale - row.scale) (by
      rw [Wide.value_ofU128 4 hbits, hholds.scale_eq, ← hshare]
      have := hsum (decide (row.mantissa < 0))
      omega)
  rw [Wide.value_ofU128 4 hbits, hholds.scale_eq, ← hshare] at hvalue
  simp only [DecimalSum.add, addMagnitude, hraised, htimes, bind_eq_bind, bind_some]
  unfold Sums
  rw [largestScale_append]
  generalize decide (row.mantissa < 0) = isNegative at *
  cases isNegative with
  | true =>
    obtain ⟨total, hplus, htotal⟩ := Wide.plus_eq (a := raised.negative) (b := share) (by
      have := hsum true
      rw [hholds.negative_eq, hvalue]
      omega)
    refine ⟨{ raised with negative := total }, by rw [if_pos rfl, hplus]; rfl,
      hholds.scale_eq, ?_, ?_⟩
    · rw [Bool.not_true] at hother
      rw [part_append, hother, ← hholds.positive_eq, add_zero]
    · rw [part_append, ← hvalue, ← hholds.negative_eq, htotal]
  | false =>
    obtain ⟨total, hplus, htotal⟩ := Wide.plus_eq (a := raised.positive) (b := share) (by
      have := hsum false
      rw [hholds.positive_eq, hvalue]
      omega)
    refine ⟨{ raised with positive := total }, by rw [if_neg (by simp), hplus]; rfl,
      hholds.scale_eq, ?_, ?_⟩
    · rw [part_append, ← hvalue, ← hholds.positive_eq, htotal]
    · rw [Bool.not_false] at hother
      rw [part_append, hother, ← hholds.negative_eq, add_zero]

/-- **The magnitude** is that of the exact sum. -/
theorem Sums.magnitude (h : Sums rows sum) (hlength : rows.length ≤ 2 ^ 63) :
    ∃ magnitude negative, sum.magnitude = some (magnitude, negative) ∧
      magnitude.value * 10 < 2 ^ (64 * (4 + 2)) ∧
      (rows.map Decimal.value).sum =
        (Decimal.signed negative magnitude.value : ℚ) / 10 ^ sum.scale := by
  have hexact := part_sub fun row (hrow : row ∈ rows) => scale_le_largestScale hrow
  have hwidth := fun negative => @part_mul_ten_lt negative (largestScale rows) rows
    largestScale_le hlength
  rw [← h.positive_eq, ← h.negative_eq] at hexact
  have hpositive := hwidth false
  have hnegative := hwidth true
  rw [← h.positive_eq] at hpositive
  rw [← h.negative_eq] at hnegative
  unfold DecimalSum.magnitude
  by_cases hge : sum.negative.value ≤ sum.positive.value
  · obtain ⟨magnitude, hminus, hvalue⟩ := Wide.minus_eq hge
    refine ⟨magnitude, false, ?_, by omega, ?_⟩
    · rw [if_pos (Wide.ge_iff.mpr hge), hminus]
      rfl
    · rw [h.scale_eq, eq_div_iff (by positivity), ← hexact, hvalue, signed,
        if_neg (by simp)]
      push_cast [hge]
      rfl
  · obtain ⟨magnitude, hminus, hvalue⟩ := Wide.minus_eq (Nat.le_of_not_le hge)
    refine ⟨magnitude, true, ?_, by omega, ?_⟩
    · rw [if_neg fun htrue => hge (Wide.ge_iff.mp htrue), hminus]
      rfl
    · rw [h.scale_eq, eq_div_iff (by positivity), ← hexact, hvalue, signed, if_pos rfl]
      push_cast [Nat.le_of_not_le hge]
      ring

/-! ### Totals -/

/-- A row added, or the sum written to bytes and read back. -/
inductive Step where
  | add (row : Decimal)
  | reload

def step (sum : DecimalSum) : Step → Option DecimalSum
  | .add row => sum.add row
  | .reload => fromLeBytes sum.toLeBytes sum.length_toLeBytes

def Step.row? : Step → Option Decimal
  | .add row => some row
  | .reload => none

/-- The rows added. -/
def rowsOf (steps : List Step) : List Decimal := steps.filterMap Step.row?

theorem Sums.run {steps : List Step} (h : Sums rows sum)
    (hlength : (rows ++ rowsOf steps).length ≤ 2 ^ 63) :
    ∃ sum', run step sum steps = some sum' ∧ Sums (rows ++ rowsOf steps) sum' := by
  induction steps generalizing rows sum with
  | nil => exact ⟨sum, rfl, by rwa [rowsOf, filterMap_nil, append_nil]⟩
  | cons first steps ih =>
    cases first with
    | add row =>
      rw [rowsOf, @filterMap_cons_some _ _ Step.row? _ _ row rfl, ← rowsOf, append_cons]
        at hlength ⊢
      obtain ⟨next, hnext, hsums⟩ := h.add row (by
        simp only [length_append, length_cons] at hlength
        omega)
      obtain ⟨sum', hrun, hsum'⟩ := ih hsums hlength
      exact ⟨sum', run_cons_eq_some.mpr ⟨next, hnext, hrun⟩, hsum'⟩
    | reload =>
      obtain ⟨sum', hrun, hsum'⟩ := ih h hlength
      have hscale : sum.scale ≤ maxDecimalDigits := h.scale_eq ▸ largestScale_le
      exact ⟨sum', run_cons_eq_some.mpr ⟨sum, fromLeBytes_toLeBytes hscale, hrun⟩, hsum'⟩

theorem Sums.total (h : Sums rows sum) (hlength : rows.length ≤ 2 ^ 63) : ∃ r, sum.total = some r ∧
      Decimal.IsRounded (rows.map Decimal.value).sum (largestScale rows) r ∧
      (r = .error .overflow ↔ limit ≤ (roundAway (rows.map Decimal.value).sum).natAbs) := by
  obtain ⟨magnitude, negative, hmagnitude, hwidth, hexact⟩ := h.magnitude hlength
  rw [h.scale_eq] at hexact
  have hscale : largestScale rows ≤ 2 * maxDecimalDigits := largestScale_le.trans (by decide)
  obtain ⟨r, hr, hrounds⟩ := @Decimal.rounded_spec _ 4 magnitude negative hscale hwidth
    (by decide +kernel)
  have hrounded := isRounded_of_roundsTo hexact hrounds
  rw [Nat.min_eq_right largestScale_le] at hrounded
  refine ⟨r, ?_, hrounded, hrounded.overflow_iff hexact⟩
  rw [DecimalSum.total, hmagnitude, bind_some, h.scale_eq]
  exact hr

theorem largestScale_perm {rows' : List Decimal} (h : rows'.Perm rows) :
    largestScale rows' = largestScale rows :=
  Perm.foldr_eq' h (fun a _ b _ scale => Nat.max_left_comm b.scale a.scale scale) 0

/-- **The total is exact and the same in any order.** However the rows are added, and wherever
the sum is written and read back, no intermediate leaves its 384 bits and the total is the sum of
the rows rounded once. -/
theorem total_any_order {steps : List Step} (hlength : (rowsOf steps).length ≤ 2 ^ 63) :
    ∃ sum r, run step new steps = some sum ∧ sum.total = some r ∧
      Decimal.IsRounded ((rowsOf steps).map Decimal.value).sum (largestScale (rowsOf steps)) r ∧
      (r = .error .overflow ↔ 10 ^ 38 ≤ (roundAway ((rowsOf steps).map Decimal.value).sum).natAbs) ∧
      ∀ steps', (rowsOf steps').Perm (rowsOf steps) →
        (run step new steps').bind DecimalSum.total = some r := by
  obtain ⟨sum, hrun, hsums⟩ := @Sums.run _ _ steps sums_new hlength
  obtain ⟨r, hr, hrounded, hoverflow⟩ := hsums.total hlength
  refine ⟨sum, r, hrun, hr, hrounded, hoverflow, fun steps' hperm => ?_⟩
  have hlength' : (rowsOf steps').length ≤ 2 ^ 63 := hperm.length_eq ▸ hlength
  obtain ⟨sum', hrun', hsums'⟩ := @Sums.run _ _ steps' sums_new hlength'
  obtain ⟨r', hr', hrounded', -⟩ := hsums'.total hlength'
  rw [nil_append, (hperm.map value).sum_eq, largestScale_perm hperm] at hrounded'
  rw [hrun', bind_some, hr', hrounded'.unique hrounded]

theorem total_any_order_reloaded : ∃ sum r,
    run step new [.add Decimal.oneAndHalf, .reload, .add Decimal.minusNineQuarters] = some sum ∧
      sum.total = some r ∧
      (run step new [.add Decimal.minusNineQuarters, .add Decimal.oneAndHalf, .reload]).bind
        DecimalSum.total = some r := by
  obtain ⟨sum, r, hrun, hr, -, -, hany⟩ := @total_any_order
    [.add oneAndHalf, .reload, .add minusNineQuarters] (by decide)
  exact ⟨sum, r, hrun, hr, hany _ (Perm.swap ..)⟩

/-! ### Averages -/

/-- The sum of the rows, added in order. -/
def summed (rows : List Decimal) : Option DecimalSum := run step new (rows.map Step.add)

theorem rowsOf_map_add (rows : List Decimal) : rowsOf (rows.map Step.add) = rows := by
  rw [rowsOf, filterMap_map]
  exact filterMap_some

def mean (rows : List Decimal) : ℚ := (rows.map Decimal.value).sum / rows.length

/-- The average is the mean, rounded at the scale of a quotient, or at a smaller one when that
would need more than 38 digits. -/
def IsAverage (rows : List Decimal) (c : Decimal) : Prop :=
  c.mantissa = roundAway (mean rows * 10 ^ c.scale) ∧
    ∃ wanted, Decimal.IsWanted |mean rows| wanted ∧
      ∀ scale, scale = Decimal.quotientScale ⌊|mean rows|⌋₊ wanted (largestScale rows) →
        c.scale = scale ∨ c.scale < scale ∧ limit ≤ (roundAway (mean rows * 10 ^ scale)).natAbs

/-- The mean lies below a power of ten `10 ^ k`, by no more than half a unit of the last of 38
digits, and a row has so many digits behind the point that all 38 are kept. -/
def RoundsUpToPower (rows : List Decimal) : Prop :=
  ∃ k ≤ 38, 38 - k ≤ largestScale rows ∧ |mean rows| < 10 ^ k ∧
    10 ^ 38 ≤ |mean rows| * 10 ^ (38 - k) + 1 / 2

/-- The mean is not beyond the largest row. -/
theorem abs_mean_lt (hne : rows ≠ []) : |mean rows| < 10 ^ 38 := by
  have hrow : ∀ row : Decimal, |row.value| ≤ 10 ^ 38 - 1 := by
    intro row
    have hmantissa : |(row.mantissa : ℚ)| ≤ 10 ^ 38 - 1 := by
      have hlt := row.mantissa_lt
      have hle : (row.mantissa.natAbs : ℚ) ≤ (10 ^ 38 - 1 : Nat) := by
        exact_mod_cast Nat.le_sub_one_of_lt hlt
      rw [Nat.cast_natAbs, Int.cast_abs] at hle
      exact hle.trans (by norm_num)
    rw [value, abs_div, abs_of_pos (by positivity : (0 : ℚ) < 10 ^ row.scale)]
    exact (div_le_self (abs_nonneg _) (one_le_pow₀ (by norm_num))).trans hmantissa
  have hsum : ∀ rows : List Decimal, |(rows.map value).sum| ≤ rows.length * (10 ^ 38 - 1) := by
    intro rows
    induction rows with
    | nil => simp
    | cons row rows ih =>
      rw [map_cons, sum_cons, length_cons, Nat.cast_succ, add_mul, one_mul, add_comm]
      exact (abs_add_le ..).trans (add_le_add ih (hrow row))
  have hpos : (0 : ℚ) < rows.length := by exact_mod_cast length_pos_iff.mpr hne
  rw [mean, abs_div, abs_of_pos hpos, div_lt_iff₀ hpos]
  refine (hsum rows).trans_lt ?_
  rw [mul_comm]
  exact mul_lt_mul_of_pos_right (by norm_num) hpos

/-- **The average** is the mean rounded as a quotient is, for rows whose mean does not round up
to a power of ten at 38 digits; for those it is out of range. -/
theorem average_exact_iff (hne : rows ≠ []) (hlength : rows.length ≤ 2 ^ 63) :
    (∃ c, (summed rows).bind (average · rows.length) = some (.ok c) ∧ IsAverage rows c) ↔
      ¬RoundsUpToPower rows := by
  obtain ⟨sum, hrun, hsums⟩ := @Sums.run _ _ (rows.map Step.add) sums_new
    (by rwa [rowsOf_map_add, nil_append])
  rw [rowsOf_map_add, nil_append] at hsums
  obtain ⟨magnitude, negative, hmagnitude, -, hexact⟩ := hsums.magnitude hlength
  have hpos : 0 < rows.length := length_pos_iff.mpr hne
  have hcount : (Wide.ofU128 4 rows.length).value = rows.length :=
    Wide.value_ofU128 4 (hlength.trans_lt (by decide))
  have hscale : sum.scale ≤ maxDecimalDigits := hsums.scale_eq ▸ largestScale_le
  have hle : rows.length * 10 ^ sum.scale ≤ 2 ^ 63 * 10 ^ 38 :=
    Nat.mul_le_mul hlength (Nat.pow_le_pow_right (by decide) hscale)
  obtain ⟨denominator, hdenominator, hvalue⟩ := @Wide.timesPow10_eq _ (Wide.ofU128 4 rows.length)
    sum.scale (by rw [hcount]; omega)
  rw [hcount] at hvalue
  have hmean : mean rows = (signed negative magnitude.value : ℚ) / denominator.value := by
    rw [mean, hexact, hvalue, div_div]
    push_cast
    rw [mul_comm]
  have haverage : (summed rows).bind (average · rows.length) =
      quotient magnitude denominator negative sum.scale := by
    rw [summed, hrun, bind_some, average, if_neg hpos.ne']
    simp [hmagnitude, hdenominator]
  rw [haverage]
  have hbelow := abs_mean_lt hne
  obtain ⟨hlarge, -⟩ | ⟨hsmall, wanted, hwanted, hquotient⟩ := quotient_rounds sum.scale
    (by rw [hvalue]; exact mul_pos hpos (Nat.pow_pos (by decide)))
    (by rw [hvalue]; omega) hmean
  · have hfloor : ⌊|mean rows|⌋₊ < limit := (Nat.floor_lt (abs_nonneg _)).mpr (by
      exact_mod_cast hbelow)
    exact absurd hlarge (Nat.not_le.mpr hfloor)
  have hcarries := @Decimal.carries_iff _ _ sum.scale hbelow hwanted
  rw [hsums.scale_eq] at hcarries hquotient ⊢
  obtain ⟨herror, hok⟩ := hquotient _ rfl
  unfold RoundsUpToPower
  rw [← hcarries, not_le]
  constructor
  · intro ⟨c, hc, _⟩
    by_contra hcarry
    rw [herror (le_of_not_gt hcarry)] at hc
    cases hc
  · intro hfits
    obtain ⟨c, hc, hcscale, hmantissa⟩ := hok hfits
    refine ⟨c, hc, hcscale ▸ hmantissa, wanted, hwanted, fun scale h => .inl ?_⟩
    rw [h, hcscale]

theorem average_exact_iff_small : ∃ c,
    (summed [Decimal.oneAndHalf, Decimal.minusNineQuarters]).bind (average · 2) = some (.ok c) ∧
      IsAverage [Decimal.oneAndHalf, Decimal.minusNineQuarters] c := by
  refine (average_exact_iff (by simp) (by decide)).mpr ?_
  intro ⟨k, hk, _, _, hcarry⟩
  have hmean : |mean [oneAndHalf, minusNineQuarters]| = 3 / 8 := by
    norm_num [mean, value, oneAndHalf, minusNineQuarters]
  have hpow : (10 : ℚ) ^ (38 - k) ≤ 10 ^ 38 := pow_le_pow_right₀ (by norm_num) (Nat.sub_le ..)
  rw [hmean] at hcarry
  linarith

/-- Twenty, and a unit of the last place taken off it. -/
def twenty : Decimal := ⟨20, 0, by decide, by decide⟩
def minusLeast : Decimal := ⟨-1, 38, by decide, by decide⟩

/-- The mean is just below ten, and all its 38 digits are nines. -/
theorem average_of_twenty_overflows :
    (summed [twenty, minusLeast]).bind (average · 2) = some (.error .overflow) ∧
      ¬∃ c, (summed [twenty, minusLeast]).bind (average · 2) = some (.ok c) ∧
        IsAverage [twenty, minusLeast] c := by
  have herror : (summed [twenty, minusLeast]).bind (average · 2) = some (.error .overflow) := by
    decide +kernel
  refine ⟨herror, fun ⟨c, hc, _⟩ => ?_⟩
  rw [herror] at hc
  cases hc

end DecimalSum

end Grafeo.Common
