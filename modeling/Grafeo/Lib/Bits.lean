import Mathlib.Data.Nat.Bitwise
import Mathlib.Data.List.FinRange
import Mathlib.Data.List.Sort

/-!
# Grafeo.Lib.Bits

**The bits of a machine word, one at a time.** A loop that reads the lowest bit set with
`trailing_zeros` and clears it with `bits &= bits - 1` until the word is zero visits the bits
set, ascending, each once (`takeBits_eq`). Words side by side number their bits through
(`range_mul`), so a set kept a bit per element is listed word by word.
-/

namespace Grafeo.Lib

open List Nat Bool

variable {n : Nat} {w : BitVec n}

/-- The bits set in `w`, ascending. -/
def ones (w : BitVec n) : List Nat := (List.range n).filter w.getLsbD

/-- At most `fuel` turns of the loop that takes the lowest bit off `w` until it is zero: the
bits taken. -/
def takeBits : Nat → BitVec n → List Nat
  | 0, _ => []
  | fuel + 1, w => if w = 0 then [] else w.ctz.toNat :: takeBits fuel (w &&& (w - 1))

/-- An ascending list of the numbers below `m` that satisfy `p` is the range filtered. -/
theorem eq_filter_range {l : List Nat} {m : Nat} {p : Nat → Bool} (hl : l.Pairwise (· < ·))
    (h : ∀ i, i ∈ l ↔ i < m ∧ p i = true) : l = (range m).filter p :=
  hl.eq_of_mem_iff (pairwise_lt_range.filter p) fun i => by rw [h, mem_filter, mem_range]

theorem mem_ones {i : Nat} : i ∈ ones w ↔ w.getLsbD i = true := by
  rw [ones, mem_filter, mem_range, and_iff_right_iff_imp]
  exact BitVec.lt_of_getLsbD

/-- The mask of the bits below `k`. -/
theorem toNat_mask {k : Nat} (hk : k < n) : ((1#n <<< k) - 1#n).toNat = 2 ^ k - 1 := by
  have hshift : (1#n <<< k).toNat = 2 ^ k := by
    rw [← BitVec.twoPow_eq, BitVec.toNat_twoPow_of_lt hk]
  have hone : (1#n).toNat = 1 := BitVec.toNat_one (by omega)
  rw [BitVec.toNat_sub_of_le, hshift, hone]
  rw [BitVec.le_def, hshift, hone]
  exact Nat.one_le_two_pow

/-- The bit of a word a shift sets. -/
theorem getLsbD_one_shiftLeft {i : Nat} (hi : i < n) (k : Nat) :
    (1#n <<< k).getLsbD i = decide (i = k) := by
  rw [BitVec.getLsbD_shiftLeft, BitVec.getLsbD_one, decide_eq_true hi]
  by_cases hk : i < k
  · have : i ≠ k := by omega
    simp [hk, this]
  · have hiff : i - k = 0 ↔ i = k := by omega
    have hpos : 0 < n := by omega
    simp [hk, hiff, hpos]

/-- A word is its lowest bit and the bits above: an odd number times a power of two. -/
theorem eq_two_pow_ctz_mul (hw : w ≠ 0) : ∃ m, w.toNat = 2 ^ w.ctz.toNat * (2 * m + 1) := by
  set k := w.ctz.toNat with hk
  have hlow : w.toNat % 2 ^ k = 0 := by
    apply eq_of_testBit_eq
    intro i
    rw [testBit_mod_two_pow, zero_testBit]
    by_cases hi : i < k
    · have hbit : w.getLsbD i = false := BitVec.getLsbD_false_of_lt_ctz hi
      rw [BitVec.getLsbD] at hbit
      rw [hbit, Bool.and_false]
    · rw [decide_eq_false hi, Bool.false_and]
  have hodd : w.toNat / 2 ^ k % 2 = 1 := by
    have hbit : w.getLsbD k = true := BitVec.getLsbD_true_ctz_of_ne_zero hw
    rwa [BitVec.getLsbD, testBit_eq_decide_div_mod_eq, decide_eq_true_eq] at hbit
  refine ⟨w.toNat / 2 ^ k / 2, ?_⟩
  have hdiv := div_add_mod w.toNat (2 ^ k)
  have hhalf := div_add_mod (w.toNat / 2 ^ k) 2
  rw [hodd] at hhalf
  rw [hhalf]
  omega

/-- **`w & (w - 1)` clears the lowest bit**, and no other. -/
theorem getLsbD_and_sub_one (hw : w ≠ 0) (i : Nat) :
    (w &&& (w - 1)).getLsbD i = (w.getLsbD i && decide (i ≠ w.ctz.toNat)) := by
  obtain ⟨m, hm⟩ := eq_two_pow_ctz_mul hw
  set k := w.ctz.toNat
  have hpos : 0 < 2 ^ k := Nat.two_pow_pos k
  have hone : (w - 1).toNat = 2 ^ k * (2 * m) + (2 ^ k - 1) := by
    have hle : 1 ≤ w.toNat := by
      rw [hm]
      exact Nat.mul_pos hpos (by omega)
    have hn : 1 < 2 ^ n := hle.trans_lt w.isLt
    rw [BitVec.toNat_sub_of_le (by simpa [BitVec.le_def, mod_eq_of_lt hn] using hle), hm, mul_add]
    have : (1 : BitVec n).toNat = 1 := by simp [mod_eq_of_lt hn]
    omega
  have hw' : w.getLsbD i = (2 ^ k * (2 * m + 1) + 0).testBit i := by
    rw [add_zero, BitVec.getLsbD, hm]
  rw [BitVec.getLsbD_and, show (w - 1).getLsbD i = _ from congrArg (testBit · i) hone, hw',
    testBit_two_pow_mul_add _ hpos, testBit_two_pow_mul_add _ (by omega)]
  -- below the lowest bit `w` has none; at it `w - 1` has none; above it both agree
  by_cases hi : i < k
  · simp [hi]
  obtain ⟨j, rfl⟩ := Nat.exists_eq_add_of_le (le_of_not_gt hi)
  simp only [hi, if_false, add_sub_cancel_left]
  cases j with
  | zero => simp
  | succ j =>
    have hodd : (2 * m + 1).testBit (j + 1) = m.testBit j := by
      rw [testBit_succ]
      congr 1
      omega
    have heven : (2 * m).testBit (j + 1) = m.testBit j := by
      rw [testBit_succ]
      congr 1
      omega
    simp [hodd, heven]

/-- The lowest bit comes first, then those of the word without it. -/
theorem ones_eq_cons (hw : w ≠ 0) : ones w = w.ctz.toNat :: ones (w &&& (w - 1)) := by
  have hclear := getLsbD_and_sub_one hw
  refine (eq_filter_range (pairwise_cons.mpr ⟨fun i hi => ?_, pairwise_lt_range.filter _⟩)
    fun i => ?_).symm
  · -- the bits left are no lower, and the lowest is gone
    have hi := mem_ones.mp hi
    rw [hclear, and_eq_true, decide_eq_true_eq] at hi
    refine lt_of_le_of_ne (le_of_not_gt fun hlt => ?_) (hi.2.symm)
    simp [BitVec.getLsbD_false_of_lt_ctz hlt] at hi
  · show i ∈ _ :: ones _ ↔ _
    rw [mem_cons, mem_ones, hclear, and_iff_right_of_imp BitVec.lt_of_getLsbD]
    by_cases hi : i = w.ctz.toNat
    · simp [hi, BitVec.getLsbD_true_ctz_of_ne_zero hw]
    · simp [hi]

/-- **The loop visits the bits set, ascending**: as many turns as the word is wide are enough. -/
theorem takeBits_eq (w : BitVec n) : takeBits n w = ones w := by
  have hfuel : ∀ fuel (w : BitVec n), (ones w).length ≤ fuel → takeBits fuel w = ones w := by
    intro fuel
    induction fuel with
    | zero =>
      intro w hlen
      exact (length_eq_zero_iff.mp (le_zero.mp hlen)).symm
    | succ fuel ih =>
      intro w hlen
      by_cases hw : w = 0
      · subst hw
        simp [takeBits, ones]
      · rw [ones_eq_cons hw, length_cons] at hlen
        rw [takeBits, if_neg hw, ones_eq_cons hw, ih _ (by omega)]
  refine hfuel n w ?_
  calc (ones w).length ≤ (range n).length := length_filter_le ..
    _ = n := length_range

/-- The population count is how many bits are set. -/
theorem toNat_cpop_eq (w : BitVec n) : w.cpop.toNat = (ones w).length := by
  have hrec : ∀ k acc, w.cpopNatRec k acc = acc + ((range k).filter w.getLsbD).length := by
    intro k
    induction k with
    | zero => simp [BitVec.cpopNatRec]
    | succ k ih =>
      intro acc
      rw [BitVec.cpopNatRec_succ, ih, range_succ, filter_append, length_append]
      cases hbit : w.getLsbD k <;> simp [hbit]
      omega
  rw [BitVec.toNat_cpop, hrec, zero_add, ones]

/-- The numbers below `n * m`, a word of `n` at a time. -/
theorem range_mul (n m : Nat) :
    range (n * m) = (range m).flatMap fun i => (range n).map (i * n + ·) := by
  induction m with
  | zero => simp
  | succ m ih =>
    rw [mul_succ, range_add, ih, range_succ, flatMap_append, flatMap_singleton, mul_comm n m]

/-- **A set kept a bit per element, listed word by word**, is its elements ascending. -/
theorem flatMap_ones (word : Nat → BitVec n) (m : Nat) :
    (range m).flatMap (fun i => (ones (word i)).map (i * n + ·)) =
      (range (n * m)).filter fun r => (word (r / n)).getLsbD (r % n) := by
  rw [range_mul, filter_flatMap]
  refine flatMap_congr fun i _ => ?_
  rw [filter_map, ones]
  congr 1
  refine filter_congr fun j hj => ?_
  have hj : j < n := mem_range.mp hj
  simp only [Function.comp_apply]
  rw [mul_comm i n, mul_add_div (by omega), div_eq_of_lt hj, add_zero, mul_add_mod, mod_eq_of_lt hj]

/-- Elements past the last are none. -/
theorem filter_range_of_le {p : Nat → Bool} {k m : Nat} (hle : k ≤ m)
    (hp : ∀ r, k ≤ r → p r = false) : (range m).filter p = (range k).filter p := by
  refine (eq_filter_range (pairwise_lt_range.filter p) fun r => ?_).symm
  rw [mem_filter, mem_range]
  refine and_congr_left fun hr => ⟨(lt_of_lt_of_le · hle), fun _ => lt_of_not_ge fun hk => ?_⟩
  simp [hp r hk] at hr

/-- A range of the numbers below `m`. -/
theorem range'_eq_filter {start stop m : Nat} (h : stop ≤ m) : range' start (stop - start) =
      (range m).filter fun r => decide (start ≤ r) && decide (r < stop) := by
  refine eq_filter_range pairwise_lt_range' fun r => ?_
  rw [mem_range'_1, and_eq_true, decide_eq_true_eq, decide_eq_true_eq]
  omega

/-- The numbers below `m` that satisfy `q`, as those of `Fin m` do. -/
theorem map_filter_finRange {m : Nat} {p : Fin m → Bool} {q : Nat → Bool}
    (h : ∀ r : Fin m, p r = q r) :
    ((finRange m).filter p).map Fin.val = (range m).filter q := by
  rw [show range m = (finRange m).map Fin.val from
    map_coe_finRange_eq_range.symm, filter_map]
  exact congrArg (map _) (filter_congr fun r _ => h r)

end Grafeo.Lib
