import Grafeo.Lib.Limbs
import Grafeo.Lib.Rounding

/-!
# Grafeo.Common.Decimal

**The wide integers of decimal arithmetic** (`Wide<LIMBS>` in
`grafeo-common/src/types/decimal.rs`): a fixed count of 64-bit limbs, for intermediates that
128 bits cannot hold.

An operation is `none` when its result leaves the width. The source asserts that this does not
happen in `times_pow10` and `plus`, and would wrap in `minus` and `shifted_left_with`; here all
four say so, and a result that is not `none` is exact.

**Exact decimal numbers** (`grafeo-common/src/types/decimal.rs`): a signed mantissa of at most
38 digits and a scale from 0 to 38.

Magnitudes of 128 bits are natural numbers. What the source computes in a fixed width without a
check is `none` here when it leaves that width, so that a result that is not `none` shows that
no intermediate does.
-/

namespace Grafeo.Common

open Lib List Option Bool Nat

/-- An unsigned integer of `n` 64-bit limbs, the lowest first. -/
structure Wide (n : Nat) where
  limbs : List Limb
  length_eq : limbs.length = n
deriving DecidableEq

namespace Wide

variable {n : Nat} {w : Wide n} {a b : Wide n} {number divisor low : Nat}

def value (w : Wide n) : Nat := limbsValue w.limbs

theorem value_lt (w : Wide n) : w.value < 2 ^ (64 * n) := by
  have hlt := limbsValue_lt w.limbs
  rw [w.length_eq] at hlt
  exact hlt

/-- The low and the high limb of a 128-bit number, and zeros (`From<u128>`). -/
def ofU128 (n : Nat) (value : Nat) : Wide (n + 2) where
  limbs := BitVec.ofNat 64 value :: BitVec.ofNat 64 (value / 2 ^ 64) :: List.replicate n 0#64
  length_eq := by simp

@[simp] theorem value_ofU128 (n : Nat) {value : Nat} (h : value < 2 ^ 128) :
    (ofU128 n value).value = value := by
  have hhigh : value / 2 ^ 64 < 2 ^ 64 := by omega
  rw [Wide.value, ofU128, limbsValue, limbsValue, limbsValue_replicate_zero, BitVec.toNat_ofNat,
    BitVec.toNat_ofNat, mod_eq_of_lt hhigh]
  omega

/-! ### Operations -/

/-- Ten times the number. -/
def timesTen (w : Wide n) : Option (Wide n) :=
  let product := mulSmall 10 w.limbs 0
  if product.2 = 0 then some ⟨product.1, (length_mulSmall ..).trans w.length_eq⟩ else none

/-- `w * 10 ^ k`. -/
def timesPow10 (w : Wide n) : Nat → Option (Wide n)
  | 0 => some w
  | k + 1 => w.timesTen.bind fun w => w.timesPow10 k

/-- The sum. -/
def plus (a b : Wide n) : Option (Wide n) :=
  let sum := addLimbs a.limbs b.limbs false
  if sum.2 then none
  else some ⟨sum.1, (length_addLimbs (a.length_eq.trans b.length_eq.symm) false).trans a.length_eq⟩

/-- The difference. -/
def minus (a b : Wide n) : Option (Wide n) :=
  let difference := subLimbs a.limbs b.limbs false
  if difference.2 then none
  else some ⟨difference.1,
    (length_subLimbs (a.length_eq.trans b.length_eq.symm) false).trans a.length_eq⟩

/-- Bit `index`. -/
def bit (w : Wide n) (index : Nat) : Bool := limbBit w.limbs index

/-- Twice the number, and a low bit. -/
def shiftedLeftWith (w : Wide n) (low : Bool) : Option (Wide n) :=
  let shifted := shiftLeftLimbs w.limbs low
  if shifted.2 then none else some ⟨shifted.1, (length_shiftLeftLimbs ..).trans w.length_eq⟩

/-- The number with bit `index` set. -/
def withBit (w : Wide n) (index : Nat) : Wide n :=
  ⟨setLimbBit w.limbs index, (length_setLimbBit ..).trans w.length_eq⟩

/-- `a >= b`, by the limbs from the top down. -/
def ge (a b : Wide n) : Bool := compareLimbs a.limbs b.limbs != .lt

/-- One bit of the long division: the remainder takes the bit, and the divisor goes out of it
when it can. -/
def divStep (a divisor : Wide n) (state : Wide n × Wide n) (index : Nat) :
    Option (Wide n × Wide n) := do
  let (quotient, remainder) := state
  let remainder ← remainder.shiftedLeftWith (a.bit index)
  if remainder.ge divisor then
    let remainder ← remainder.minus divisor
    pure (quotient.withBit index, remainder)
  else pure (quotient, remainder)

/-- Zero. -/
def zero (n : Nat) : Wide n := ⟨List.replicate n 0#64, List.length_replicate⟩

/-- The quotient and the remainder, by binary long division from the top bit down. -/
def divRem (a divisor : Wide n) : Option (Wide n × Wide n) :=
  (List.range (64 * n)).reverse.foldlM (divStep a divisor) (zero n, zero n)

/-- The number when 128 bits hold it. -/
def toU128 (w : Wide (n + 2)) : Option Nat :=
  match w.limbs with
  | low :: high :: rest =>
      if rest.all (· == 0#64) then some (high.toNat * 2 ^ 64 + low.toNat) else none
  | _ => none

/-- One row of the product: `limb` times the limbs, on top of what the row holds, each step in
128 bits. -/
def mulRow (limb : Limb) : List Limb → List Limb → Nat → Option (List Limb × Nat)
  | b :: bs, held :: row, carry => do
      let value := limb.toNat * b.toNat + held.toNat + carry
      if value < 2 ^ 128 then
        let (rest, out) ← mulRow limb bs row (value / 2 ^ 64)
        pure (BitVec.ofNat 64 value :: rest, out)
      else none
  | _, _, carry => some ([], carry)

/-- The full product of two 128-bit magnitudes (`U256::product`). -/
def product (left right : Nat) : Option (Wide 4) := do
  let right := [BitVec.ofNat 64 right, BitVec.ofNat 64 (right / 2 ^ 64)]
  let (row, carry) ← mulRow (BitVec.ofNat 64 left) right [0#64, 0#64] 0
  let (row', carry') ← mulRow (BitVec.ofNat 64 (left / 2 ^ 64)) right
    [row.getD 1 0#64, BitVec.ofNat 64 carry] 0
  pure ⟨[row.getD 0 0#64, row'.getD 0 0#64, row'.getD 1 0#64, BitVec.ofNat 64 carry'], rfl⟩

/-! ### What the operations compute -/

theorem value_zero : (zero n).value = 0 := limbsValue_replicate_zero n

theorem timesTen_eq (h : w.value * 10 < 2 ^ (64 * n)) :
    ∃ w', w.timesTen = some w' ∧ w'.value = w.value * 10 := by
  have hvalue := limbsValue_mulSmall 10 w.limbs 0
  rw [w.length_eq, add_zero] at hvalue
  have hcarry : (mulSmall 10 w.limbs 0).2 = 0 := by
    by_contra hne
    have hle : 2 ^ (64 * n) * 1 ≤ 2 ^ (64 * n) * (mulSmall 10 w.limbs 0).2 :=
      mul_le_mul_left _ (pos_of_ne_zero hne)
    unfold Wide.value at h
    omega
  refine ⟨_, if_pos hcarry, ?_⟩
  rw [hcarry, mul_zero, add_zero] at hvalue
  exact hvalue

theorem timesPow10_eq {k : Nat} (h : w.value * 10 ^ k < 2 ^ (64 * n)) :
    ∃ w', w.timesPow10 k = some w' ∧ w'.value = w.value * 10 ^ k := by
  induction k generalizing w with
  | zero => exact ⟨w, rfl, by simp⟩
  | succ k ih =>
    have hten : w.value * 10 ≤ w.value * 10 ^ (k + 1) :=
      mul_le_mul_left _ (le_self_pow (succ_ne_zero k) 10)
    obtain ⟨w₁, hw₁, hvalue₁⟩ := timesTen_eq (hten.trans_lt h)
    have hpow : w₁.value * 10 ^ k = w.value * 10 ^ (k + 1) := by
      rw [hvalue₁, pow_succ]
      ring
    obtain ⟨w', hw', hvalue'⟩ := ih (w := w₁) (hpow ▸ h)
    exact ⟨w', by rw [timesPow10, hw₁]; exact hw', hvalue'.trans hpow⟩

theorem plus_eq (h : a.value + b.value < 2 ^ (64 * n)) :
    ∃ c, a.plus b = some c ∧ c.value = a.value + b.value := by
  have hvalue := limbsValue_addLimbs (a.length_eq.trans b.length_eq.symm) false
  rw [a.length_eq, toNat_false, add_zero] at hvalue
  unfold Wide.value at h
  cases hcarry : (addLimbs a.limbs b.limbs false).2 with
  | true =>
    rw [hcarry, toNat_true] at hvalue
    omega
  | false =>
    rw [hcarry, toNat_false, mul_zero, add_zero] at hvalue
    exact ⟨_, if_neg (by rw [hcarry]; exact false_ne_true), hvalue⟩

theorem minus_eq (h : b.value ≤ a.value) :
    ∃ c, a.minus b = some c ∧ c.value = a.value - b.value := by
  have hvalue := limbsValue_subLimbs (a.length_eq.trans b.length_eq.symm) false
  have hlength : (subLimbs a.limbs b.limbs false).1.length = n :=
    (length_subLimbs (a.length_eq.trans b.length_eq.symm) false).trans a.length_eq
  have hlt := limbsValue_lt (subLimbs a.limbs b.limbs false).1
  rw [hlength] at hlt
  rw [a.length_eq, toNat_false, add_zero] at hvalue
  unfold Wide.value at h
  cases hborrow : (subLimbs a.limbs b.limbs false).2 with
  | true =>
    rw [hborrow, toNat_true] at hvalue
    omega
  | false =>
    rw [hborrow, toNat_false, mul_zero, add_zero] at hvalue
    refine ⟨_, if_neg (by rw [hborrow]; exact false_ne_true), ?_⟩
    unfold Wide.value
    dsimp only
    omega

theorem shiftedLeftWith_eq {low : Bool} (h : w.value * 2 + low.toNat < 2 ^ (64 * n)) :
    ∃ w', w.shiftedLeftWith low = some w' ∧ w'.value = w.value * 2 + low.toNat := by
  have hvalue := limbsValue_shiftLeftLimbs w.limbs low
  rw [w.length_eq] at hvalue
  unfold Wide.value at h
  cases hout : (shiftLeftLimbs w.limbs low).2 with
  | true =>
    rw [hout, toNat_true] at hvalue
    omega
  | false =>
    rw [hout, toNat_false, mul_zero, add_zero] at hvalue
    exact ⟨_, if_neg (by rw [hout]; exact false_ne_true), hvalue⟩

theorem ge_iff : a.ge b = true ↔ b.value ≤ a.value := by
  rw [ge, compareLimbs_eq (a.length_eq.trans b.length_eq.symm)]
  change (compare a.value b.value != .lt) = true ↔ _
  rw [bne_iff_ne, ne_eq, Nat.compare_eq_lt, not_lt]

theorem bit_eq (w : Wide n) (index : Nat) : w.bit index = w.value.testBit index :=
  limbBit_eq w.limbs index

theorem toU128_eq (w : Wide (n + 2)) :
    w.toU128 = if w.value < 2 ^ 128 then some w.value else none := by
  obtain ⟨limbs, hlength⟩ := w
  obtain ⟨low, limbs, rfl⟩ := exists_cons_of_length_eq_add_one hlength
  obtain ⟨high, rest, rfl⟩ := exists_cons_of_length_eq_add_one (succ.inj hlength)
  have hvalue : limbsValue (low :: high :: rest) =
      high.toNat * 2 ^ 64 + low.toNat + 2 ^ 128 * limbsValue rest := by
    rw [limbsValue, limbsValue]
    ring
  unfold toU128 Wide.value
  dsimp only
  rw [hvalue]
  by_cases hzero : limbsValue rest = 0
  · rw [if_pos (limbsValue_eq_zero.mp hzero), if_pos (by omega), hzero, mul_zero, add_zero]
  · rw [if_neg (mt limbsValue_eq_zero.mpr hzero), if_neg (by omega)]

/-! ### Long division -/

/-- The state of the division once the bits from `index` on are taken: the quotient and the
remainder of the number those bits stand for. -/
structure Divided (a divisor : Wide n) (index : Nat) (state : Wide n × Wide n) : Prop where
  quotient : state.1.value = a.value / 2 ^ index / divisor.value * 2 ^ index
  remainder : state.2.value = a.value / 2 ^ index % divisor.value

theorem Divided.start (a divisor : Wide n) : Divided a divisor (64 * n) (zero n, zero n) := by
  have hzero : a.value / 2 ^ (64 * n) = 0 := div_eq_of_lt a.value_lt
  exact ⟨by rw [hzero, value_zero]; simp, by rw [hzero, value_zero]; simp⟩

/-- The quotient of a number with one bit more: the divisor goes once more into it, or does not. -/
theorem div_mod_of_bit (bit : Nat) {rest : Nat} (hrest : rest < divisor)
    (h : number % divisor * 2 + low = rest + divisor * bit) :
    (number * 2 + low) / divisor = number / divisor * 2 + bit ∧
      (number * 2 + low) % divisor = rest := by
  have hnumber := mod_add_div number divisor
  refine (Nat.div_mod_unique (zero_lt_of_lt hrest)).mpr ⟨?_, hrest⟩
  rw [mul_add, ← mul_assoc]
  omega

/-- One bit more. The remainder stays below the divisor, so that twice it is in the width when
twice the divisor is. -/
theorem Divided.step {a divisor : Wide n} {index : Nat} {state : Wide n × Wide n}
    (hdivisor : 0 < divisor.value) (hwidth : divisor.value * 2 ≤ 2 ^ (64 * n))
    (hindex : index < 64 * n) (h : Divided a divisor (index + 1) state) :
    ∃ state', divStep a divisor state index = some state' ∧ Divided a divisor index state' := by
  obtain ⟨quotient, remainder⟩ := state
  obtain ⟨hquotient, hremainder⟩ := h
  dsimp only at hquotient hremainder
  have hlow := (a.bit index).toNat_le
  have hsplit : a.value / 2 ^ index = a.value / 2 ^ (index + 1) * 2 + (a.bit index).toNat := by
    rw [bit_eq, toNat_testBit, pow_succ, ← Nat.div_div_eq_div_mul]
    omega
  have hlt := mod_lt (a.value / 2 ^ (index + 1)) hdivisor
  have hfits : remainder.value * 2 + (a.bit index).toNat < 2 ^ (64 * n) := by
    omega
  obtain ⟨shifted, hshift, hshifted⟩ := shiftedLeftWith_eq hfits
  rw [hremainder] at hshifted
  by_cases hge : divisor.value ≤ shifted.value
  · obtain ⟨rest, hminus, hrest⟩ := minus_eq hge
    have hless : rest.value < divisor.value := by omega
    obtain ⟨hdiv, hmod⟩ := div_mod_of_bit 1 hless (hshifted.symm.trans (by omega))
    have hclear : quotient.value.testBit index = false := by
      rw [hquotient, testBit_mul_two_pow]
      simp
    refine ⟨(quotient.withBit index, rest), ?_, ?_, ?_⟩
    · simp [divStep, hshift, ge_iff.mpr hge, hminus]
    · rw [value, withBit, limbsValue_setLimbBit (by rwa [length_eq]) hclear, ← value, hquotient,
        hsplit, hdiv, pow_succ]
      ring
    · rw [hsplit, hmod]
  · obtain ⟨hdiv, hmod⟩ := div_mod_of_bit 0 (lt_of_not_ge hge) hshifted.symm
    refine ⟨(quotient, shifted), ?_, ?_, ?_⟩
    · simp [divStep, hshift, eq_false_iff.mpr fun htrue => hge (ge_iff.mp htrue)]
    · rw [hquotient, hsplit, hdiv, pow_succ]
      ring
    · rw [hsplit, hmod]

/-- **Long division** gives the quotient and the remainder. -/
theorem divRem_eq {a divisor : Wide n} (hdivisor : 0 < divisor.value)
    (hwidth : divisor.value * 2 ≤ 2 ^ (64 * n)) :
    ∃ quotient remainder, a.divRem divisor = some (quotient, remainder) ∧
      quotient.value = a.value / divisor.value ∧ remainder.value = a.value % divisor.value := by
  have hrun : ∀ k, k ≤ 64 * n → ∀ state, Divided a divisor k state →
      ∃ state', (range k).reverse.foldlM (divStep a divisor) state = some state' ∧
        Divided a divisor 0 state' := by
    intro k
    induction k with
    | zero => exact fun _ state h => ⟨state, rfl, h⟩
    | succ k ih =>
      intro hk state h
      obtain ⟨next, hstep, hnext⟩ := h.step hdivisor hwidth hk
      obtain ⟨state', hrest, hstate'⟩ := ih (le_of_lt hk) next hnext
      refine ⟨state', ?_, hstate'⟩
      rw [range_succ, reverse_concat, foldlM_cons, hstep]
      exact hrest
  obtain ⟨⟨quotient, remainder⟩, hfold, hquotient, hremainder⟩ :=
    hrun (64 * n) le_rfl _ (Divided.start a divisor)
  simp only [pow_zero, Nat.div_one, mul_one] at hquotient hremainder
  exact ⟨quotient, remainder, hfold, hquotient, hremainder⟩

/-! ### The product -/

theorem mulRow_eq (limb : Limb) (limbs held : List Limb) (h : limbs.length = held.length)
    {carry : Nat} (hcarry : carry < 2 ^ 64) :
    ∃ row out, mulRow limb limbs held carry = some (row, out) ∧ row.length = limbs.length ∧
      out < 2 ^ 64 ∧ limbsValue row + 2 ^ (64 * limbs.length) * out =
        limb.toNat * limbsValue limbs + limbsValue held + carry := by
  induction limbs generalizing held carry with
  | nil =>
    cases length_eq_zero_iff.mp h.symm
    exact ⟨[], carry, rfl, rfl, hcarry, by simp [limbsValue]⟩
  | cons b limbs ih =>
    cases held with
    | nil => cases h
    | cons x held =>
      have hproduct : limb.toNat * b.toNat ≤ (2 ^ 64 - 1) * (2 ^ 64 - 1) :=
        Nat.mul_le_mul (by have := limb.isLt; omega) (by have := b.isLt; omega)
      have hfits : limb.toNat * b.toNat + x.toNat + carry < 2 ^ 128 := by omega
      have hnext : (limb.toNat * b.toNat + x.toNat + carry) / 2 ^ 64 < 2 ^ 64 := by omega
      obtain ⟨row, out, hrow, hlength, hout, hvalue⟩ := ih held (succ.inj h) hnext
      refine ⟨BitVec.ofNat 64 (limb.toNat * b.toNat + x.toNat + carry) :: row, out, ?_, ?_,
        hout, ?_⟩
      · rw [mulRow]
        simp only [if_pos hfits, hrow, bind_eq_bind, bind_some, Option.pure_def]
      · rw [length_cons, hlength, length_cons]
      · rw [limbsValue, limbsValue, limbsValue, length_cons, mul_succ,
          add_comm (64 * _), pow_add, BitVec.toNat_ofNat, mul_add, mul_assoc,
          mul_left_comm limb.toNat]
        omega

theorem product_eq {left right : Nat} (hleft : left < 2 ^ 128) (hright : right < 2 ^ 128) :
    ∃ w, product left right = some w ∧ w.value = left * right := by
  have hwords : ∀ n < 2 ^ 128, limbsValue [BitVec.ofNat 64 n, BitVec.ofNat 64 (n / 2 ^ 64)] = n :=
    fun n hn => value_ofU128 0 hn
  obtain ⟨row, carry, hrow, hlength, hcarry, hvalue⟩ := mulRow_eq (BitVec.ofNat 64 left)
    [BitVec.ofNat 64 right, BitVec.ofNat 64 (right / 2 ^ 64)] [0#64, 0#64] rfl (Nat.two_pow_pos 64)
  obtain ⟨r₀, r₁, rfl⟩ := length_eq_two.mp hlength
  obtain ⟨row', carry', hrow', hlength', hcarry', hvalue'⟩ :=
    mulRow_eq (BitVec.ofNat 64 (left / 2 ^ 64))
      [BitVec.ofNat 64 right, BitVec.ofNat 64 (right / 2 ^ 64)] [r₁, BitVec.ofNat 64 carry] rfl
      (Nat.two_pow_pos 64)
  obtain ⟨s₀, s₁, rfl⟩ := length_eq_two.mp hlength'
  refine ⟨⟨[r₀, s₀, s₁, BitVec.ofNat 64 carry'], rfl⟩, ?_, ?_⟩
  · simp only [product, hrow, bind_eq_bind, bind_some, getD_cons_zero,
      getD_cons_succ, hrow', Option.pure_def]
  have hleftWords := hwords left hleft
  rw [hwords right hright] at hvalue hvalue'
  simp only [limbsValue, BitVec.toNat_ofNat, mod_eq_of_lt hcarry, mod_eq_of_lt hcarry',
    Wide.value, mul_zero, add_zero, length_cons, length_nil, zero_mod]
    at hvalue hvalue' hleftWords ⊢
  rw [← hleftWords, add_mul, mul_assoc]
  omega

end Wide

/-- Why a decimal cannot be built or computed. -/
inductive DecimalError where
  | overflow | divisionByZero | invalid
deriving Repr, DecidableEq

def DecimalError.text : DecimalError → String
  | overflow => "decimal value out of range: more than 38 digits"
  | divisionByZero => "division by zero"
  | invalid => "not a decimal number"

/-- The most digits a decimal holds, and the largest scale. -/
def maxDecimalDigits : Nat := 38

/-- The first magnitude a mantissa may not reach. -/
def limit : Nat := 10 ^ 38

/-- `mantissa / 10 ^ scale`. -/
@[ext] structure Decimal where
  mantissa : Int
  scale : Nat
  mantissa_lt : mantissa.natAbs < limit
  scale_le : scale ≤ maxDecimalDigits
deriving DecidableEq

/-- The result of a 128-bit operation, `none` when it leaves the width. -/
def u128 (n : Nat) : Option Nat := if n < 2 ^ 128 then some n else none

/-- The result of a signed 128-bit operation, `none` when it leaves the width. -/
def i128 (n : Int) : Option Int := if -2 ^ 127 ≤ n ∧ n < 2 ^ 127 then some n else none

/-- The number of decimal digits of `value` (0 for zero), for values below `10 ^ 38`. -/
def digitCount (value : Nat) : Nat :=
  ((List.range maxDecimalDigits).takeWhile fun count => 10 ^ count ≤ value).length

/-- `magnitude / 10 ^ digits`, rounded half away from zero. -/
def roundOff (magnitude digits : Nat) : Option Nat :=
  if digits = 0 then some magnitude
  else if maxDecimalDigits < digits then some 0
  else
    let divisor := 10 ^ digits
    if divisor - magnitude % divisor ≤ magnitude % divisor then u128 (magnitude / divisor + 1)
    else some (magnitude / divisor)

/-- A magnitude cut off, or the next one when what was cut off is half or more. -/
def nearest (magnitude : Nat) (up : Bool) : Option Nat :=
  if up then u128 (magnitude + 1) else some magnitude

namespace Decimal

/-- The number the decimal stands for. -/
def value (d : Decimal) : ℚ := d.mantissa / 10 ^ d.scale

def new (mantissa : Int) (scale : Nat) : Except DecimalError Decimal :=
  if h : maxDecimalDigits < scale ∨ limit ≤ mantissa.natAbs then .error .overflow
  else .ok
    { mantissa, scale
      mantissa_lt := Nat.lt_of_not_le fun hle => h (.inr hle)
      scale_le := Nat.le_of_not_lt fun hlt => h (.inl hlt) }

/-- The magnitude with its sign. -/
def signed (negative : Bool) (magnitude : Nat) : Int := if negative then -magnitude else magnitude

/-- The decimal of a magnitude, a sign and a scale. -/
def fromMagnitude (magnitude : Nat) (negative : Bool) (scale : Nat) : Except DecimalError Decimal :=
  if magnitude < 2 ^ 127 then new (signed negative magnitude) scale else .error .overflow

/-! ### Products -/

/-- How many digits go so that the magnitude is below the boundary: one more while it is not,
which can be done `left` times. -/
def dropUntil {n : Nat} (magnitude : Wide n) : Nat → Wide n → Nat → Option (Except DecimalError Nat)
  | left, boundary, dropped =>
      if magnitude.ge boundary then
        match left with
        | 0 => some (.error .overflow)
        | left + 1 => (boundary.timesPow10 1).bind fun boundary =>
            dropUntil magnitude left boundary (dropped + 1)
      else some (.ok dropped)

/-- The decimal nearest `magnitude / 10 ^ scale`, reduced to at most 38 digits and a scale at
most 38. The final scale is chosen before rounding. -/
def rounded {n : Nat} (magnitude : Wide (n + 2)) (negative : Bool) (scale : Nat) :
    Option (Except DecimalError Decimal) := do
  let least := scale - maxDecimalDigits
  let boundary ← (Wide.ofU128 n limit).timesPow10 least
  match ← dropUntil magnitude (scale - least) boundary least with
  | .error error => pure (.error error)
  | .ok dropped =>
      let divisor ← (Wide.ofU128 n 1).timesPow10 dropped
      let (quotient, remainder) ← magnitude.divRem divisor
      match quotient.toU128 with
      | none => pure (.error .overflow)
      | some quotient =>
          let rest ← divisor.minus remainder
          let magnitude ← nearest quotient (remainder.ge rest)
          let scale := scale - dropped
          if magnitude = limit then
            -- A rounding carry is an exact power of ten: its last zero goes.
            if scale = 0 then pure (.error .overflow)
            else pure (fromMagnitude (magnitude / 10) negative (scale - 1))
          else pure (fromMagnitude magnitude negative scale)

/-- The product of magnitudes that 128 bits hold, with its sign and the sum of the scales. -/
def roundedProduct (product : Nat) (negative : Bool) (scale : Nat) :
    Option (Except DecimalError Decimal) := do
  let dropped := scale - maxDecimalDigits
  let magnitude ← roundOff product dropped
  if limit ≤ magnitude then
    if dropped = scale then pure (.error .overflow)
    else
      let magnitude ← roundOff product (dropped + 1)
      pure (fromMagnitude magnitude negative (scale - (dropped + 1)))
  else pure (fromMagnitude magnitude negative (scale - dropped))

/-- The product, at the sum of the scales, reduced as needed. -/
def checkedMul (a b : Decimal) : Option (Except DecimalError Decimal) :=
  let negative := decide (a.mantissa < 0) != decide (b.mantissa < 0)
  let left := a.mantissa.natAbs
  let right := b.mantissa.natAbs
  let scale := a.scale + b.scale
  if left * right < 2 ^ 128 then roundedProduct (left * right) negative scale
  else (Wide.product left right).bind fun product => rounded product negative scale

/-! ### Quotients -/

/-- Takes the denominator out of the remainder as often as it goes, at most `left` times, and
counts. -/
def takeOut {n : Nat} (denominator : Wide n) : Nat → Wide n → Nat → Option (Nat × Wide n)
  | left, remainder, digit =>
      if remainder.ge denominator then
        match left with
        | 0 => none
        | left + 1 => (remainder.minus denominator).bind fun remainder =>
            takeOut denominator left remainder (digit + 1)
      else some (digit, remainder)

/-- The next `more` digits of the fraction. A digit takes at most nine rounds, as the remainder
is below the denominator. -/
def fractionDigits {n : Nat} (denominator : Wide n) : Nat → Wide n → Option (List Nat)
  | 0, _ => some []
  | more + 1, remainder => do
      let remainder ← remainder.timesPow10 1
      let (digit, remainder) ← takeOut denominator 9 remainder 0
      let rest ← fractionDigits denominator more remainder
      pure (digit :: rest)

/-- The significant digits a quotient has at least. -/
def significant : Nat := 16

/-- The scale at which the quotient has 16 significant digits; 0 when none of the computed digits
is one. -/
def wantedScale (integer : Nat) (fraction : List Nat) : Nat :=
  if 0 < integer then significant - digitCount integer
  else match fraction.findIdx? (· ≠ 0) with
    | some zeros => zeros + significant
    | none => 0

/-- `numerator / denominator` with at least 16 significant digits and at least `leastScale`, at
most 38 digits in all, rounded half away from zero. -/
def quotient {n : Nat} (numerator denominator : Wide (n + 2)) (negative : Bool)
    (leastScale : Nat) : Option (Except DecimalError Decimal) := do
  let (integer, remainder) ← numerator.divRem denominator
  match integer.toU128.filter (· < limit) with
  | none => pure (.error .overflow)
  | some integer =>
      let integerDigits := digitCount integer
      -- The fraction's digits, one more than the most a result keeps.
      let fraction ← fractionDigits denominator 39 remainder
      let scale := min (max (wantedScale integer fraction) leastScale)
        (maxDecimalDigits - integerDigits)
      let kept := (fraction.take scale).foldl (fun value digit => value * 10 + digit) 0
      let magnitude ← u128 (integer * 10 ^ scale + kept)
      let magnitude ← nearest magnitude (decide (5 ≤ fraction.getD scale 0))
      if limit ≤ magnitude then pure (.error .overflow)
      else pure (fromMagnitude magnitude negative scale)

/-- The quotient by the rule of `quotient`. -/
def checkedDiv (a b : Decimal) : Option (Except DecimalError Decimal) :=
  if b.mantissa = 0 then some (.error .divisionByZero)
  else do
    let negative := decide (a.mantissa < 0) != decide (b.mantissa < 0)
    let numerator ← (Wide.ofU128 2 a.mantissa.natAbs).timesPow10 b.scale
    let denominator ← (Wide.ofU128 2 b.mantissa.natAbs).timesPow10 a.scale
    quotient numerator denominator negative (max a.scale b.scale)

end Decimal

end Grafeo.Common
