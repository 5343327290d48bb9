import Mathlib.Data.List.Basic
import Mathlib.Data.List.Induction
import Mathlib.Data.Nat.Bitwise
import Mathlib.Tactic.Ring

/-!
# Grafeo.Lib.Limbs

**Numbers as little-endian limbs** of 64 bits. Each operation ripples through the limbs and
returns what leaves the top, so that its meaning is one equation between numbers:

* `mulSmall` — times a factor, plus a carry (`limbsValue_mulSmall`);
* `addLimbs`, `subLimbs` — the sum with its carry, the difference with its borrow;
* `shiftLeftLimbs` — twice the number and a low bit;
* `compareLimbs` — from the top limb down (`compareLimbs_eq`);
* `limbBit`, `setLimbBit` — one bit of the number.
-/

namespace Grafeo.Lib

open List Bool Nat

variable {a b : List Limb}

abbrev Limb := BitVec 64

/-- The number the limbs stand for. -/
def limbsValue : List Limb → Nat
  | [] => 0
  | limb :: limbs => limb.toNat + 2 ^ 64 * limbsValue limbs

theorem limbsValue_lt (limbs : List Limb) : limbsValue limbs < 2 ^ (64 * limbs.length) := by
  induction limbs with
  | nil => exact one_pos
  | cons limb limbs ih =>
    rw [limbsValue, length_cons, mul_succ, add_comm (64 * _), pow_add]
    omega

theorem limbsValue_append (low high : List Limb) :
    limbsValue (low ++ high) = limbsValue low + 2 ^ (64 * low.length) * limbsValue high := by
  induction low with
  | nil => simp [limbsValue]
  | cons limb low ih =>
    rw [cons_append, limbsValue, ih, limbsValue, length_cons, mul_succ, pow_add]
    ring

@[simp] theorem limbsValue_replicate_zero (n : Nat) : limbsValue (replicate n 0#64) = 0 := by
  induction n with
  | zero => rfl
  | succ n ih => rw [replicate_succ, limbsValue, ih]; rfl

theorem limbsValue_eq_zero {limbs : List Limb} :
    limbsValue limbs = 0 ↔ limbs.all (· == 0#64) = true := by
  induction limbs with
  | nil => simp [limbsValue]
  | cons limb limbs ih => simp [limbsValue, ih, ← BitVec.toNat_inj]

/-! ### Times a small factor -/

/-- The limbs times `factor` plus `carry`, with the carry that leaves the top. -/
def mulSmall (factor : Nat) : List Limb → Nat → List Limb × Nat
  | [], carry => ([], carry)
  | limb :: limbs, carry =>
      let product := limb.toNat * factor + carry
      let (rest, out) := mulSmall factor limbs (product / 2 ^ 64)
      (BitVec.ofNat 64 product :: rest, out)

@[simp] theorem length_mulSmall (factor : Nat) (limbs : List Limb) (carry : Nat) :
    (mulSmall factor limbs carry).1.length = limbs.length := by
  induction limbs generalizing carry with
  | nil => rfl
  | cons limb limbs ih => exact congrArg (· + 1) (ih _)

theorem limbsValue_mulSmall (factor : Nat) (limbs : List Limb) (carry : Nat) :
    limbsValue (mulSmall factor limbs carry).1 +
        2 ^ (64 * limbs.length) * (mulSmall factor limbs carry).2 =
      limbsValue limbs * factor + carry := by
  induction limbs generalizing carry with
  | nil => simp [mulSmall, limbsValue]
  | cons limb limbs ih =>
    have hrest := ih ((limb.toNat * factor + carry) / 2 ^ 64)
    rw [mulSmall, limbsValue, limbsValue, length_cons, mul_succ, add_comm (64 * _),
      pow_add, BitVec.toNat_ofNat, add_mul, mul_assoc, mul_assoc]
    dsimp only
    omega

/-! ### Sum and difference -/

/-- The limb-wise sum with a carry in, and the carry out. -/
def addLimbs : List Limb → List Limb → Bool → List Limb × Bool
  | a :: as, b :: bs, carry =>
      let sum := a.toNat + b.toNat + carry.toNat
      let (rest, out) := addLimbs as bs (decide (2 ^ 64 ≤ sum))
      (BitVec.ofNat 64 sum :: rest, out)
  | _, _, carry => ([], carry)

theorem length_addLimbs (h : a.length = b.length) (carry : Bool) :
    (addLimbs a b carry).1.length = a.length := by
  induction a generalizing b carry with
  | nil => rfl
  | cons x a ih =>
    cases b with
    | nil => cases h
    | cons y b => exact congrArg (· + 1) (ih (succ.inj h) _)

theorem toNat_decide_le {n m : Nat} (h : n < 2 * m) : (decide (m ≤ n)).toNat = n / m := by
  by_cases hle : m ≤ n
  · rw [decide_eq_true hle, toNat_true, Nat.div_eq_of_lt_le (k := 1) (by omega) (by omega)]
  · rw [decide_eq_false hle, toNat_false, div_eq_of_lt (lt_of_not_ge hle)]

theorem limbsValue_addLimbs (h : a.length = b.length) (carry : Bool) :
    limbsValue (addLimbs a b carry).1 + 2 ^ (64 * a.length) * (addLimbs a b carry).2.toNat =
      limbsValue a + limbsValue b + carry.toNat := by
  induction a generalizing b carry with
  | nil =>
    cases b with
    | nil => simp [addLimbs, limbsValue]
    | cons => cases h
  | cons x a ih =>
    cases b with
    | nil => cases h
    | cons y b =>
      have hcarry := carry.toNat_le
      have hrest := ih (succ.inj h) (decide (2 ^ 64 ≤ x.toNat + y.toNat + carry.toNat))
      rw [toNat_decide_le (by omega)] at hrest
      rw [addLimbs, limbsValue, limbsValue, limbsValue, length_cons, mul_succ,
        add_comm (64 * _), pow_add, BitVec.toNat_ofNat, mul_assoc]
      dsimp only
      omega

/-- The limb-wise difference with a borrow in, and the borrow out. -/
def subLimbs : List Limb → List Limb → Bool → List Limb × Bool
  | a :: as, b :: bs, borrow =>
      let (rest, out) := subLimbs as bs (decide (a.toNat < b.toNat + borrow.toNat))
      (BitVec.ofNat 64 (2 ^ 64 + a.toNat - b.toNat - borrow.toNat) :: rest, out)
  | _, _, borrow => ([], borrow)

theorem length_subLimbs (h : a.length = b.length) (borrow : Bool) :
    (subLimbs a b borrow).1.length = a.length := by
  induction a generalizing b borrow with
  | nil => rfl
  | cons x a ih =>
    cases b with
    | nil => cases h
    | cons y b => exact congrArg (· + 1) (ih (succ.inj h) _)

theorem limbsValue_subLimbs (h : a.length = b.length) (borrow : Bool) :
    limbsValue (subLimbs a b borrow).1 + limbsValue b + borrow.toNat =
      limbsValue a + 2 ^ (64 * a.length) * (subLimbs a b borrow).2.toNat := by
  induction a generalizing b borrow with
  | nil =>
    cases b with
    | nil => simp [subLimbs, limbsValue]
    | cons => cases h
  | cons x a ih =>
    cases b with
    | nil => cases h
    | cons y b =>
      have hborrow := borrow.toNat_le
      have hrest := ih (succ.inj h) (decide (x.toNat < y.toNat + borrow.toNat))
      rw [subLimbs, limbsValue, limbsValue, limbsValue, length_cons, mul_succ,
        add_comm (64 * _), pow_add, BitVec.toNat_ofNat, mul_assoc]
      dsimp only
      by_cases hlt : x.toNat < y.toNat + borrow.toNat
      · rw [decide_eq_true hlt, toNat_true] at hrest
        rw [decide_eq_true hlt]
        omega
      · rw [decide_eq_false hlt, toNat_false] at hrest
        rw [decide_eq_false hlt]
        omega

/-! ### Twice the number -/

/-- The limbs moved up by one bit, `low` as the new lowest one, with the bit that leaves the top. -/
def shiftLeftLimbs : List Limb → Bool → List Limb × Bool
  | [], low => ([], low)
  | limb :: limbs, low =>
      let (rest, out) := shiftLeftLimbs limbs (limb.getMsbD 0)
      (((limb <<< 1) ||| BitVec.ofNat 64 low.toNat) :: rest, out)

@[simp] theorem length_shiftLeftLimbs (limbs : List Limb) (low : Bool) :
    (shiftLeftLimbs limbs low).1.length = limbs.length := by
  induction limbs generalizing low with
  | nil => rfl
  | cons limb limbs ih => exact congrArg (· + 1) (ih _)

theorem toNat_getMsbD_zero (limb : Limb) : (limb.getMsbD 0).toNat = limb.toNat / 2 ^ 63 := by
  rw [← BitVec.msb_eq_getMsbD_zero, BitVec.msb_eq_decide]
  exact toNat_decide_le limb.isLt

theorem toNat_shiftLeft_or (limb : Limb) (low : Bool) :
    ((limb <<< 1) ||| BitVec.ofNat 64 low.toNat).toNat = (limb.toNat * 2) % 2 ^ 64 + low.toNat := by
  have hlow := low.toNat_le
  have heven : (limb.toNat * 2) % 2 ^ 64 = 2 ^ 1 * (limb.toNat % 2 ^ 63) := by omega
  have hmod : low.toNat % 2 ^ 64 = low.toNat := mod_eq_of_lt (by omega)
  rw [BitVec.toNat_or, BitVec.toNat_shiftLeft, BitVec.toNat_ofNat, hmod, shiftLeft_eq,
    pow_one, heven, two_pow_add_eq_or_of_lt (by omega)]

theorem limbsValue_shiftLeftLimbs (limbs : List Limb) (low : Bool) :
    limbsValue (shiftLeftLimbs limbs low).1 +
        2 ^ (64 * limbs.length) * (shiftLeftLimbs limbs low).2.toNat =
      limbsValue limbs * 2 + low.toNat := by
  induction limbs generalizing low with
  | nil => simp [shiftLeftLimbs, limbsValue]
  | cons limb limbs ih =>
    have hrest := ih (limb.getMsbD 0)
    rw [toNat_getMsbD_zero] at hrest
    rw [shiftLeftLimbs, limbsValue, limbsValue, length_cons, mul_succ,
      add_comm (64 * _), pow_add, toNat_shiftLeft_or, add_mul, mul_assoc,
      mul_assoc]
    dsimp only
    omega

/-! ### Order -/

/-- The order of the limbs, compared from the top one down. -/
def compareLimbs (a b : List Limb) : Ordering :=
  List.compareLex (fun x y => compare x.toNat y.toNat) a.reverse b.reverse

/-- A greater high part decides, whatever the low parts are. -/
theorem add_mul_lt {top low low' high high' : Nat} (hlow : low < top) (h : high < high') :
    low + top * high < low' + top * high' := by
  have hle : top * (high + 1) ≤ top * high' := mul_le_mul_left top h
  rw [mul_succ] at hle
  omega

theorem compare_high {top low low' : Nat} (hlow : low < top) (hlow' : low' < top)
    (high high' : Nat) :
    (compare high high').then (compare low low') =
      compare (low + top * (high + 2 ^ 64 * 0)) (low' + top * (high' + 2 ^ 64 * 0)) := by
  rw [mul_zero, add_zero, add_zero]
  obtain hlt | rfl | hgt := lt_trichotomy high high'
  · rw [Nat.compare_eq_lt.mpr hlt, Nat.compare_eq_lt.mpr (add_mul_lt hlow hlt)]
    rfl
  · rw [Nat.compare_eq_eq.mpr rfl, Ordering.eq_then]
    simp only [compare_eq_ite_lt, add_lt_add_iff_right]
  · rw [Nat.compare_eq_gt.mpr hgt, Nat.compare_eq_gt.mpr (add_mul_lt hlow' hgt)]
    rfl

theorem compareLimbs_eq (h : a.length = b.length) :
    compareLimbs a b = compare (limbsValue a) (limbsValue b) := by
  unfold compareLimbs
  induction a using reverseRecOn generalizing b with
  | nil =>
    cases length_eq_zero_iff.mp h.symm
    rfl
  | append_singleton a x ih =>
    cases b using reverseRecOn with
    | nil => simp at h
    | append_singleton b y =>
      have hlength : a.length = b.length := by simpa using h
      have ha := limbsValue_lt a
      have hb := limbsValue_lt b
      rw [reverse_concat, reverse_concat, List.compareLex_cons_cons, ih hlength,
        limbsValue_append, limbsValue_append, ← hlength]
      rw [← hlength] at hb
      exact compare_high ha hb x.toNat y.toNat

/-! ### Bits -/

/-- Bit `index` of the number. -/
def limbBit (limbs : List Limb) (index : Nat) : Bool :=
  (limbs.getD (index / 64) 0#64).getLsbD (index % 64)

/-- The limbs with bit `index` set. -/
def setLimbBit (limbs : List Limb) (index : Nat) : List Limb :=
  limbs.modify (index / 64) fun limb => limb ||| (1#64 <<< (index % 64))

@[simp] theorem length_setLimbBit (limbs : List Limb) (index : Nat) :
    (setLimbBit limbs index).length = limbs.length := by
  simp [setLimbBit]

theorem limbBit_eq (limbs : List Limb) (index : Nat) :
    limbBit limbs index = (limbsValue limbs).testBit index := by
  induction limbs generalizing index with
  | nil => simp [limbBit, limbsValue]
  | cons limb limbs ih =>
    rw [limbsValue, add_comm, testBit_two_pow_mul_add _ limb.isLt]
    by_cases hlow : index < 64
    · rw [if_pos hlow, limbBit, div_eq_of_lt hlow, mod_eq_of_lt hlow]
      rfl
    · rw [if_neg hlow, ← ih, limbBit, limbBit]
      obtain ⟨rest, rfl⟩ := Nat.exists_eq_add_of_le (le_of_not_gt hlow)
      simp [add_comm 64 rest]

theorem toNat_or_bit {limb : Limb} {index : Nat} (hindex : index < 64)
    (hclear : limb.getLsbD index = false) :
    (limb ||| 1#64 <<< index).toNat = limb.toNat + 2 ^ index := by
  have hand : limb &&& (1#64 <<< index) = 0#64 := by
    grind
  have hlt : (2 : Nat) ^ index < 2 ^ 64 := Nat.pow_lt_pow_right (by decide) hindex
  rw [← BitVec.add_eq_or_of_and_eq_zero _ _ hand, BitVec.toNat_add_of_and_eq_zero hand,
    BitVec.toNat_shiftLeft, BitVec.toNat_ofNat, one_mod_two_pow (by decide), shiftLeft_eq,
    one_mul, mod_eq_of_lt hlt]

/-- Setting a bit that is not set adds its power of two. -/
theorem limbsValue_setLimbBit {limbs : List Limb} {index : Nat} (hindex : index < 64 * limbs.length)
    (hclear : (limbsValue limbs).testBit index = false) :
    limbsValue (setLimbBit limbs index) = limbsValue limbs + 2 ^ index := by
  induction limbs generalizing index with
  | nil => simp at hindex
  | cons limb limbs ih =>
    rw [limbsValue, add_comm, testBit_two_pow_mul_add _ limb.isLt] at hclear
    by_cases hlow : index < 64
    · rw [if_pos hlow] at hclear
      rw [setLimbBit, div_eq_of_lt hlow, mod_eq_of_lt hlow, modify_zero_cons,
        limbsValue, toNat_or_bit hlow hclear, limbsValue]
      omega
    rw [if_neg hlow] at hclear
    obtain ⟨rest, rfl⟩ := Nat.exists_eq_add_of_le (le_of_not_gt hlow)
    rw [Nat.add_sub_cancel_left] at hclear
    have hrest := @ih rest (by rw [length_cons] at hindex; omega) hclear
    have hset : setLimbBit (limb :: limbs) (64 + rest) = limb :: setLimbBit limbs rest := by
      simp [setLimbBit, add_comm 64 rest]
    rw [hset, limbsValue, hrest, limbsValue, pow_add]
    omega

end Grafeo.Lib
