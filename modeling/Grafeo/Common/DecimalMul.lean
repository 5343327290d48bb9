import Grafeo.Common.Decimal

/-!
# Grafeo.Common.DecimalMul

**The product of decimals is rounded once** (`checked_mul_rounds_once`), at the greatest scale
that leaves at most 38 digits. The path for products that 128 bits hold and the one over wide
integers meet one specification (`RoundsTo`), which has one result (`IsRounded.unique`).
-/

namespace Grafeo.Common

open Lib Option Wide

namespace Decimal

variable {m scale d : Nat} {negative : Bool} {r r' : Except DecimalError Decimal}
  {r : Except DecimalError Decimal}

/-- `d` digits may go from `m` at `scale`: at most 38 stay behind the point, and 38 in all. -/
def Fits (m scale d : Nat) : Prop :=
  scale - maxDecimalDigits ≤ d ∧ d ≤ scale ∧ halfUp m (10 ^ d) < limit

/-- The result of rounding `m / 10 ^ scale` once, with as few digits gone as possible. -/
def RoundsTo (m : Nat) (negative : Bool) (scale : Nat) : Except DecimalError Decimal → Prop
  | .ok c => ∃ d, IsLeast {d | Fits m scale d} d ∧ c.scale = scale - d ∧
      c.mantissa = signed negative (halfUp m (10 ^ d))
  | .error error => error = .overflow ∧ ∀ d, ¬Fits m scale d

theorem natAbs_signed (negative : Bool) (m : Nat) : (signed negative m).natAbs = m := by
  unfold signed
  split
  · rw [Int.natAbs_neg, Int.natAbs_natCast]
  · exact Int.natAbs_natCast m

theorem fromMagnitude_eq (negative : Bool) (hm : m < limit) (hscale : scale ≤ maxDecimalDigits) :
    ∃ c, fromMagnitude m negative scale = .ok c ∧ c.mantissa = signed negative m ∧
      c.scale = scale := by
  have hsmall : m < 2 ^ 127 := hm.trans_le (by decide)
  have hnot : ¬(maxDecimalDigits < scale ∨ limit ≤ (signed negative m).natAbs) := by
    rw [natAbs_signed]
    omega
  exact ⟨_, by rw [fromMagnitude, if_pos hsmall, new, dif_neg hnot], rfl, rfl⟩

/-- The least count of digits gone gives the result. -/
theorem RoundsTo.of_least (negative : Bool) (hd : IsLeast {d | Fits m scale d} d) :
    RoundsTo m negative scale (fromMagnitude (halfUp m (10 ^ d)) negative (scale - d)) := by
  obtain ⟨hleast, -, hlimit⟩ := hd.1
  have hle : scale - d ≤ maxDecimalDigits := by omega
  obtain ⟨c, hc, hmantissa, hscale⟩ := fromMagnitude_eq negative hlimit hle
  rw [hc]
  exact ⟨d, hd, hscale, hmantissa⟩

/-! ### The 128-bit path -/

theorem roundOff_eq (hm : m < 2 ^ 128) (hd : d ≤ maxDecimalDigits) :
    roundOff m d = some (halfUp m (10 ^ d)) := by
  have hpos : 0 < 10 ^ d := Nat.pow_pos (by decide)
  unfold roundOff
  split
  next hzero => rw [hzero, pow_zero, halfUp_one]
  rename_i hne
  rw [if_neg (Nat.not_lt.mpr hd), halfUp_eq hpos]
  have hten : 10 ≤ 10 ^ d := Nat.le_self_pow hne 10
  have hdiv : m / 10 ^ d ≤ m / 10 := Nat.div_le_div_left hten (by decide)
  dsimp only
  split
  · rw [u128, if_pos (by omega)]
  · rfl

/-- **The 128-bit path** rounds once. -/
theorem roundedProduct_spec (negative : Bool) (hm : m < 2 ^ 128)
    (hscale : scale ≤ 2 * maxDecimalDigits) :
    ∃ r, roundedProduct m negative scale = some r ∧ RoundsTo m negative scale r := by
  generalize hleast : scale - maxDecimalDigits = least
  have hround := roundOff_eq (d := least) hm (by omega)
  by_cases hlimit : limit ≤ halfUp m (10 ^ least)
  · -- The digit that must go is one of the 39 a product of 128 bits can have.
    have hless : least + 1 ≤ maxDecimalDigits := by
      by_contra hgt
      have hfull : least = maxDecimalDigits := by omega
      have hsmall : halfUp m (10 ^ least) ≤ 4 :=
        halfUp_le (Nat.pow_pos (by decide)) ((lt_of_lt_of_le hm (by rw [hfull]; decide)).le)
      exact absurd (hlimit.trans hsmall) (by decide)
    have hnot : ∀ d, Fits m scale d → least + 1 ≤ d := by
      intro d hd
      obtain hlt | rfl := Nat.lt_or_eq_of_le (hleast ▸ hd.1)
      · exact hlt
      · exact absurd hd.2.2 (Nat.not_lt.mpr hlimit)
    by_cases hall : least = scale
    · refine ⟨.error .overflow, ?_, rfl, fun d hd => ?_⟩
      · simp [roundedProduct, hleast, hround, if_pos hlimit, if_pos hall]
      · have hle := hd.2.1
        have hlt := hnot d hd
        omega
    · have hpos : 0 < 10 ^ (least + 1) := Nat.pow_pos (by decide)
      have hten : 10 ≤ 10 ^ (least + 1) := Nat.le_self_pow (Nat.succ_ne_zero least) 10
      have hfits : halfUp m (10 ^ (least + 1)) ≤ limit - 1 := by
        refine halfUp_le hpos ((hm.le).trans ?_)
        exact le_trans (by decide) (Nat.mul_le_mul_left (limit - 1) hten)
      have hpositive : 0 < limit := by decide
      refine ⟨_, ?_, RoundsTo.of_least negative ⟨⟨by omega, by omega, by omega⟩, hnot⟩⟩
      simp [roundedProduct, hleast, hround, if_pos hlimit, if_neg hall, roundOff_eq hm hless]
  · refine ⟨_, ?_, RoundsTo.of_least negative
      ⟨⟨hleast.le, by omega, lt_of_not_ge hlimit⟩, fun d hd => hleast ▸ hd.1⟩⟩
    simp [roundedProduct, hleast, hround, if_neg hlimit]

/-! ### The wide path -/

section

variable {n : Nat} {magnitude : Wide (n + 2)}

/-- Multiplying by ten until the boundary is above the magnitude: the boundary stops one digit
past the magnitude, within its width. -/
theorem dropUntil_spec {left dropped : Nat} {boundary : Wide (n + 2)}
    (hboundary : boundary.value = limit * 10 ^ dropped)
    (hwidth : magnitude.value * 10 < 2 ^ (64 * (n + 2))) :
    (∃ d, dropUntil magnitude left boundary dropped = some (.ok d) ∧ dropped ≤ d ∧
      d ≤ dropped + left ∧ magnitude.value < limit * 10 ^ d ∧
      ∀ k, dropped ≤ k → k < d → limit * 10 ^ k ≤ magnitude.value) ∨
    dropUntil magnitude left boundary dropped = some (.error .overflow) ∧
      limit * 10 ^ (dropped + left) ≤ magnitude.value := by
  induction left generalizing dropped boundary with
  | zero =>
    rw [dropUntil]
    by_cases hge : boundary.value ≤ magnitude.value
    · rw [if_pos (ge_iff.mpr hge)]
      exact .inr ⟨rfl, hboundary ▸ hge⟩
    · rw [if_neg fun htrue => hge (ge_iff.mp htrue)]
      refine .inl ⟨dropped, rfl, le_rfl, le_rfl, ?_, fun k _ _ => by omega⟩
      exact hboundary ▸ lt_of_not_ge hge
  | succ left ih =>
    rw [dropUntil]
    by_cases hge : boundary.value ≤ magnitude.value
    · have hten : boundary.value * 10 ^ 1 < 2 ^ (64 * (n + 2)) := by omega
      obtain ⟨next, hnext, hvalue⟩ := timesPow10_eq hten
      have hpow : next.value = limit * 10 ^ (dropped + 1) := by
        rw [hvalue, hboundary, mul_assoc, ← pow_add]
      rw [if_pos (ge_iff.mpr hge), hnext, bind_some]
      obtain ⟨d, hd, hle, hlast, hlt, hall⟩ | ⟨herror, hlarge⟩ := ih hpow
      · refine .inl ⟨d, hd, by omega, by omega, hlt, fun k hk hkd => ?_⟩
        obtain rfl | hne := Nat.eq_or_lt_of_le hk
        · exact hboundary ▸ hge
        · exact hall k hne hkd
      · rw [add_right_comm, add_assoc] at hlarge
        exact .inr ⟨herror, hlarge⟩
    · rw [if_neg fun htrue => hge (ge_iff.mp htrue)]
      refine .inl ⟨dropped, rfl, le_rfl, by omega, ?_, fun k _ _ => by omega⟩
      exact hboundary ▸ lt_of_not_ge hge

/-- Past the boundary of `d` digits, no fewer may go. -/
theorem not_fits_of_le {k : Nat} (h : limit * 10 ^ k ≤ m) : ¬Fits m scale k :=
  fun hfits => Nat.not_lt.mpr (le_halfUp (Nat.pow_pos (by decide)) h) hfits.2.2

/-- The division of the wide path, below the boundary of `d` digits. -/
theorem rounded_division (hlt : magnitude.value < limit * 10 ^ d)
    (hd : 10 ^ d * 2 ≤ 2 ^ (64 * (n + 2))) :
    ∃ divisor quotient remainder rest, (Wide.ofU128 n 1).timesPow10 d = some divisor ∧
      magnitude.divRem divisor = some (quotient, remainder) ∧
      quotient.toU128 = some (magnitude.value / 10 ^ d) ∧ divisor.minus remainder = some rest ∧
      nearest (magnitude.value / 10 ^ d) (remainder.ge rest) =
        some (halfUp magnitude.value (10 ^ d)) := by
  have hpos : 0 < 10 ^ d := Nat.pow_pos (by decide)
  have hone : (ofU128 n 1).value = 1 := value_ofU128 n (by decide)
  have hfits : (ofU128 n 1).value * 10 ^ d < 2 ^ (64 * (n + 2)) := by
    rw [hone]
    omega
  obtain ⟨divisor, hdivisor, hvalue⟩ := timesPow10_eq hfits
  rw [hone, one_mul] at hvalue
  obtain ⟨quotient, remainder, hdiv, hquotient, hremainder⟩ :=
    divRem_eq (a := magnitude) (by rw [hvalue]; exact hpos) (by rw [hvalue]; exact hd)
  rw [hvalue] at hquotient hremainder
  have hmod := Nat.mod_lt magnitude.value hpos
  have hle : remainder.value ≤ divisor.value := by
    rw [hremainder, hvalue]
    exact hmod.le
  obtain ⟨rest, hminus, hrest⟩ := minus_eq hle
  have hsmall : magnitude.value / 10 ^ d < limit :=
    (Nat.div_lt_iff_lt_mul hpos).mpr hlt
  have hbits : limit + 1 < 2 ^ 128 := by decide
  refine ⟨divisor, quotient, remainder, rest, hdivisor, hdiv, ?_, hminus, ?_⟩
  · rw [toU128_eq, hquotient, if_pos (by omega)]
  · have hnext : u128 (magnitude.value / 10 ^ d + 1) = some (magnitude.value / 10 ^ d + 1) :=
      if_pos (by omega)
    simp only [nearest, ge_iff, hrest, hremainder, hvalue]
    rw [halfUp_eq hpos, hnext, apply_ite some]

/-- **The wide path** rounds once: the scale is chosen first, and a carry to the limit drops the
zero it leaves. -/
theorem rounded_spec (negative : Bool) (hscale : scale ≤ 2 * maxDecimalDigits)
    (hwidth : magnitude.value * 10 < 2 ^ (64 * (n + 2))) (hn : 10 ^ 77 ≤ 2 ^ (64 * (n + 2))) :
    ∃ r, rounded magnitude negative scale = some r ∧ RoundsTo magnitude.value negative scale r := by
  generalize hleast : scale - maxDecimalDigits = least
  have hpow : ∀ d ≤ 76, 10 ^ d * 10 ≤ 2 ^ (64 * (n + 2)) := by
    intro d hd
    exact (Nat.pow_le_pow_right (by decide) (Nat.succ_le_succ hd)).trans hn
  have hlimit : (ofU128 n limit).value = limit := value_ofU128 n (by decide)
  have hfirst : (ofU128 n limit).value * 10 ^ least < 2 ^ (64 * (n + 2)) := by
    have hle := hpow (38 + least) (by unfold maxDecimalDigits at *; omega)
    rw [hlimit, limit, ← pow_add]
    omega
  obtain ⟨boundary, hboundary, hvalue⟩ := timesPow10_eq hfirst
  rw [hlimit] at hvalue
  have hsum : least + (scale - least) = scale := by omega
  obtain ⟨d, hdropped, hled, hdle, hlt, hbelow⟩ | ⟨hdropped, hlarge⟩ :=
    @dropUntil_spec n magnitude (scale - least) least boundary hvalue hwidth
  · rw [hsum] at hdle
    have hten := hpow d (by unfold maxDecimalDigits at *; omega)
    obtain ⟨divisor, quotient, remainder, rest, hdivisor, hdiv, hquotient, hminus, hround⟩ :=
      rounded_division hlt (by omega)
    have hpos : 0 < 10 ^ d := Nat.pow_pos (by decide)
    have hup : halfUp magnitude.value (10 ^ d) ≤ limit := halfUp_le hpos (hlt.le)
    have hmin : ∀ k, Fits magnitude.value scale k → d ≤ k := by
      intro k hk
      by_contra hkd
      exact not_fits_of_le (hbelow k (hleast ▸ hk.1) (lt_of_not_ge hkd)) hk
    by_cases hcarry : halfUp magnitude.value (10 ^ d) = limit
    · have hmin' : ∀ k, Fits magnitude.value scale k → d + 1 ≤ k := by
        intro k hk
        refine lt_of_le_of_ne (hmin k hk) fun heq => ?_
        rw [← heq] at hk
        exact absurd hk.2.2 (by omega)
      by_cases hall : scale - d = 0
      · refine ⟨.error .overflow, ?_, rfl, fun k hk => ?_⟩
        · simp [rounded, hleast, hboundary, hdropped, hdivisor, hdiv, hquotient, hminus, hround, if_pos hcarry, if_pos hall]
        · have hk' := hmin' k hk
          have hle := hk.2.1
          omega
      · have hnext : halfUp magnitude.value (10 ^ (d + 1)) = limit / 10 :=
          halfUp_carry hpos (hcarry.trans (by decide)) (hlt.le)
        have hfits : Fits magnitude.value scale (d + 1) :=
          ⟨by omega, by omega, by rw [hnext]; decide⟩
        refine ⟨_, ?_, hnext ▸ RoundsTo.of_least negative ⟨hfits, hmin'⟩⟩
        simp [rounded, hleast, hboundary, hdropped, hdivisor, hdiv, hquotient, hminus, hround, hcarry, if_neg hall, Nat.sub_sub]
    · refine ⟨_, ?_, RoundsTo.of_least negative ⟨⟨by omega, hdle, lt_of_le_of_ne hup hcarry⟩, hmin⟩⟩
      simp [rounded, hleast, hboundary, hdropped, hdivisor, hdiv, hquotient, hminus, hround, if_neg hcarry]
  · refine ⟨.error .overflow, ?_, rfl, fun k hk => ?_⟩
    · simp [rounded, hleast, hboundary, hdropped]
    · rw [hsum] at hlarge
      refine not_fits_of_le (le_trans ?_ hlarge) hk
      exact Nat.mul_le_mul_left _ (Nat.pow_le_pow_right (by decide) hk.2.1)

end

/-! ### The product -/

theorem signed_mul (x y : Int) :
    signed (decide (x < 0) != decide (y < 0)) (x.natAbs * y.natAbs) = x * y := by
  unfold signed
  obtain hx | hx := lt_or_ge x 0 <;> obtain hy | hy := lt_or_ge y 0
  · simp [hx, hy, abs_of_neg hx, abs_of_neg hy]
  · simp [hx, hy.not_gt, abs_of_neg hx, abs_of_nonneg hy]
  · simp [hx.not_gt, hy, abs_of_nonneg hx, abs_of_neg hy]
  · simp [hx.not_gt, hy.not_gt, abs_of_nonneg hx, abs_of_nonneg hy]

theorem roundAway_signed (negative : Bool) (m : Nat) (hd : 0 < d) :
    roundAway ((signed negative m : ℚ) / d) = signed negative (halfUp m d) := by
  unfold signed
  cases negative with
  | false => simpa using roundAway_div m hd
  | true => simp [neg_div, roundAway_neg, roundAway_div m hd]

/-- `x` at `s` digits behind the point, at most `most`, is a mantissa a decimal can have. -/
def FitsAt (x : ℚ) (most s : Nat) : Prop := s ≤ most ∧ (roundAway (x * 10 ^ s)).natAbs < limit

/-- What `x` is rounded to: with as many digits behind the point as fit, at most `most`. -/
def IsRounded (x : ℚ) (most : Nat) : Except DecimalError Decimal → Prop
  | .ok c => IsGreatest {s | FitsAt x most s} c.scale ∧ c.mantissa = roundAway (x * 10 ^ c.scale)
  | .error error => error = .overflow ∧ ∀ s, ¬FitsAt x most s

section

variable {x : ℚ}

theorem IsRounded.unique {most : Nat} (h : IsRounded x most r) (h' : IsRounded x most r') : r = r' := by
  cases r with
  | error error =>
    cases r' with
    | error error' => rw [h.1, h'.1]
    | ok c => exact absurd h'.1.1 (h.2 c.scale)
  | ok c =>
    cases r' with
    | error error => exact absurd h.1.1 (h'.2 c.scale)
    | ok c' =>
      have hscale := h.1.unique h'.1
      exact congrArg Except.ok (Decimal.ext (by rw [h.2, h'.2, hscale]) hscale)

theorem roundAway_scaled (hx : x = signed negative m / 10 ^ scale) {s : Nat} (hs : s ≤ scale) :
    roundAway (x * 10 ^ s) = signed negative (halfUp m (10 ^ (scale - s))) := by
  obtain ⟨d, rfl⟩ := Nat.exists_eq_add_of_le hs
  have hexact : x * 10 ^ s = (signed negative m : ℚ) / (10 ^ d : Nat) := by
    rw [hx, pow_add]
    push_cast
    field_simp
  rw [hexact, roundAway_signed _ _ (Nat.pow_pos (by decide)), Nat.add_sub_cancel_left]

theorem fitsAt_iff (hx : x = signed negative m / 10 ^ scale) {s : Nat} :
    FitsAt x (min maxDecimalDigits scale) s ↔ s ≤ scale ∧ Fits m scale (scale - s) := by
  unfold FitsAt Fits
  rw [Nat.le_min]
  constructor
  · rintro ⟨⟨hmax, hs⟩, hlt⟩
    rw [roundAway_scaled hx hs, natAbs_signed] at hlt
    exact ⟨hs, by omega, by omega, hlt⟩
  · rintro ⟨hs, hleast, -, hlt⟩
    rw [roundAway_scaled hx hs, natAbs_signed]
    exact ⟨⟨by omega, hs⟩, hlt⟩

/-- Out of range is a number whose integer part is, once it is rounded. -/
theorem IsRounded.overflow_iff {most : Nat} (hx : x = signed negative m / 10 ^ most)
    (h : IsRounded x most r) : r = .error .overflow ↔ limit ≤ (roundAway x).natAbs := by
  have hwhole : (roundAway x).natAbs = halfUp m (10 ^ most) := by
    have hzero := roundAway_scaled hx (Nat.zero_le most)
    rw [pow_zero, mul_one] at hzero
    rw [hzero, natAbs_signed, Nat.sub_zero]
  cases r with
  | error error =>
    have hzero := h.2 0
    simp only [FitsAt, pow_zero, mul_one, zero_le, true_and, not_lt] at hzero
    exact ⟨fun _ => hzero, fun _ => by rw [h.1]⟩
  | ok c =>
    obtain ⟨hle, hlt⟩ := h.1.1
    rw [roundAway_scaled hx hle, natAbs_signed] at hlt
    have hmore : halfUp m (10 ^ most) ≤ halfUp m (10 ^ (most - c.scale)) := by
      rw [← Nat.sub_add_cancel hle, pow_add, Nat.add_sub_cancel]
      exact halfUp_mul_le (Nat.pow_pos (by decide)) (Nat.pow_pos (by decide))
    exact ⟨nofun, fun hge => absurd hlt (by omega)⟩

/-- What `RoundsTo` says of the number `m / 10 ^ scale`. -/
theorem isRounded_of_roundsTo (hx : x = signed negative m / 10 ^ scale)
    (h : RoundsTo m negative scale r) : IsRounded x (min maxDecimalDigits scale) r := by
  cases r with
  | error error => exact ⟨h.1, fun s hs => h.2 _ ((fitsAt_iff hx).mp hs).2⟩
  | ok c =>
    obtain ⟨d, ⟨hfits, hleast⟩, hscale, hmantissa⟩ := h
    have hback : scale - c.scale = d := by
      have := hfits.2.1
      omega
    refine ⟨⟨(fitsAt_iff hx).mpr ⟨by omega, hback ▸ hfits⟩, fun s hs => ?_⟩, ?_⟩
    · obtain ⟨hle, hs⟩ := (fitsAt_iff hx).mp hs
      have hd := hleast hs
      omega
    · rw [roundAway_scaled hx (by omega), hback, hmantissa]

end

theorem value_mul (a b : Decimal) : a.value * b.value =
    signed (decide (a.mantissa < 0) != decide (b.mantissa < 0))
      (a.mantissa.natAbs * b.mantissa.natAbs) / 10 ^ (a.scale + b.scale) := by
  rw [signed_mul, value, value, div_mul_div_comm, pow_add]
  push_cast
  rfl

/-- **The product is rounded once**, at the greatest scale that leaves at most 38 digits, and
overflows just if there is none. No intermediate leaves its width. Where the magnitudes multiply
within 128 bits, the wide path has the same result. -/
theorem checked_mul_rounds_once (a b : Decimal) : (∃ r, checkedMul a b = some r ∧
      IsRounded (a.value * b.value) (min maxDecimalDigits (a.scale + b.scale)) r) ∧
      (a.mantissa.natAbs * b.mantissa.natAbs < 2 ^ 128 →
        ((Wide.product a.mantissa.natAbs b.mantissa.natAbs).bind fun product =>
          rounded product (decide (a.mantissa < 0) != decide (b.mantissa < 0))
            (a.scale + b.scale)) = checkedMul a b) := by
  have hscale : a.scale + b.scale ≤ 2 * maxDecimalDigits := by
    have := a.scale_le
    have := b.scale_le
    omega
  have hbits : limit ≤ 2 ^ 128 := by decide
  obtain ⟨product, hproduct, hvalue⟩ := product_eq
    (a.mantissa_lt.trans_le hbits) (b.mantissa_lt.trans_le hbits)
  have hwidth : product.value * 10 < 2 ^ (64 * (2 + 2)) := by
    have hlt : product.value < limit * limit := by
      rw [hvalue]
      exact Nat.mul_lt_mul'' a.mantissa_lt b.mantissa_lt
    have hten : limit * limit * 10 ≤ 2 ^ (64 * (2 + 2)) := by decide
    omega
  obtain ⟨r, hrounded, hr⟩ := rounded_spec
    (decide (a.mantissa < 0) != decide (b.mantissa < 0)) hscale hwidth (by decide)
  rw [hvalue] at hr
  have hrounds := isRounded_of_roundsTo (value_mul a b) hr
  have hwide : ((Wide.product a.mantissa.natAbs b.mantissa.natAbs).bind fun product =>
      rounded product (decide (a.mantissa < 0) != decide (b.mantissa < 0))
        (a.scale + b.scale)) = some r := by
    rw [hproduct, bind_some, hrounded]
  have hmul : checkedMul a b = some r := by
    unfold checkedMul
    dsimp only
    split
    next hsmall =>
      obtain ⟨r', hfast, hr'⟩ := roundedProduct_spec
        (decide (a.mantissa < 0) != decide (b.mantissa < 0)) hsmall hscale
      rw [hfast, (isRounded_of_roundsTo (value_mul a b) hr').unique hrounds]
    · exact hwide
  exact ⟨⟨r, hmul, hrounds⟩, fun _ => hwide.trans hmul.symm⟩

/-- `1.5`. -/
def oneAndHalf : Decimal := ⟨15, 1, by decide, by decide⟩

/-- `-2.25`. -/
def minusNineQuarters : Decimal := ⟨-225, 2, by decide, by decide⟩

theorem checked_mul_rounds_once_small :
    ((Wide.product oneAndHalf.mantissa.natAbs minusNineQuarters.mantissa.natAbs).bind fun product =>
      rounded product (decide (oneAndHalf.mantissa < 0) != decide (minusNineQuarters.mantissa < 0))
        (oneAndHalf.scale + minusNineQuarters.scale)) = checkedMul oneAndHalf minusNineQuarters :=
  (checked_mul_rounds_once oneAndHalf minusNineQuarters).2 (by decide)

end Decimal

end Grafeo.Common
