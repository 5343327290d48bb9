import Mathlib.Data.List.Basic
import Mathlib.Tactic.NormNum

/-!
# Grafeo.Lib.Bytes

**Numbers and records as bytes.** A number takes a fixed count of bytes, least
significant first (`toLe`, `ofLe`). A record is the concatenation of its fields, and a
field is read back at the sum of the lengths before it (`fieldAt_flatten`); records of
one length, one after the other, are cut apart again (`asChunks_flatten`).
-/

namespace Grafeo.Lib

open List

abbrev Byte := BitVec 8

/-- The `count` little-endian bytes of a number; what they do not hold is dropped. -/
def toLe : Nat → Nat → List Byte
  | 0, _ => []
  | count + 1, n => BitVec.ofNat 8 n :: toLe count (n / 256)

/-- The number with these little-endian bytes. -/
def ofLe : List Byte → Nat
  | [] => 0
  | b :: bytes => b.toNat + 256 * ofLe bytes

@[simp] theorem length_toLe (count n : Nat) : (toLe count n).length = count := by
  induction count generalizing n with
  | zero => rfl
  | succ count ih => rw [toLe, length_cons, ih]

theorem ofLe_toLe {count n : Nat} (h : n < 256 ^ count) : ofLe (toLe count n) = n := by
  induction count generalizing n with
  | zero =>
    rw [pow_zero, Nat.lt_one_iff] at h
    rw [h]
    rfl
  | succ count ih =>
    have hdiv : n / 256 < 256 ^ count := by
      exact Nat.div_lt_of_lt_mul (by omega)
    rw [toLe, ofLe, ih hdiv, BitVec.toNat_ofNat]
    omega

theorem ofLe_lt (bytes : List Byte) : ofLe bytes < 256 ^ bytes.length := by
  induction bytes with
  | nil => exact one_pos
  | cons b bytes ih =>
    rw [ofLe, length_cons, pow_succ]
    omega

/-! ### Fixed widths -/

theorem ofLe_u32 {n : Nat} (h : n < 2 ^ 32) : ofLe (toLe 4 n) = n :=
  ofLe_toLe (by rwa [show (256 : Nat) ^ 4 = 2 ^ 32 by norm_num])

theorem ofLe_u64 {n : Nat} (h : n < 2 ^ 64) : ofLe (toLe 8 n) = n :=
  ofLe_toLe (by rwa [show (256 : Nat) ^ 8 = 2 ^ 64 by norm_num])

theorem bv32_ofLe (x : BitVec 32) : BitVec.ofNat 32 (ofLe (toLe 4 x.toNat)) = x := by
  rw [ofLe_u32 x.isLt, BitVec.ofNat_toNat, BitVec.setWidth_eq]

theorem bv64_ofLe (x : BitVec 64) : BitVec.ofNat 64 (ofLe (toLe 8 x.toNat)) = x := by
  rw [ofLe_u64 x.isLt, BitVec.ofNat_toNat, BitVec.setWidth_eq]

/-! ### Fields -/

variable {α : Type}

/-- The `count` elements from position `start` on. -/
def fieldAt (l : List α) (start count : Nat) : List α := (l.drop start).take count

/-- A field of a record is found behind the fields before it. -/
theorem fieldAt_flatten {fields : List (List α)} {i : Nat} {field : List α}
    (h : fields[i]? = some field) {start count : Nat}
    (hstart : ((fields.take i).map length).sum = start) (hcount : field.length = count) :
    fieldAt fields.flatten start count = field := by
  obtain ⟨hlt, rfl⟩ := List.getElem?_eq_some_iff.mp h
  have hsplit : fields.flatten =
      (fields.take i).flatten ++ (fields[i] ++ (fields.drop (i + 1)).flatten) := by
    rw [← flatten_cons, ← drop_eq_getElem_cons hlt, ← flatten_append, take_append_drop]
  rw [← length_flatten] at hstart
  subst hstart hcount
  rw [fieldAt, hsplit, drop_left, take_left]

/-! ### Records of one length -/

/-- The list in chunks of exactly `n` elements; a shorter rest is dropped. -/
def asChunks (n : Nat) (l : List α) : List (List α) :=
  (List.range (l.length / n)).map fun i => fieldAt l (i * n) n

/-- Records of one length, one after the other, are cut apart again. -/
theorem asChunks_flatten {n : Nat} (hn : 0 < n) {records : List (List α)}
    (h : ∀ record ∈ records, record.length = n) : asChunks n records.flatten = records := by
  have hsum : ∀ i, i ≤ records.length → ((records.take i).map length).sum = i * n := by
    intro i hi
    have hall : (records.take i).map length = replicate i n := by
      refine eq_replicate_iff.mpr ⟨by simp [hi], fun b hb => ?_⟩
      obtain ⟨record, hmem, rfl⟩ := mem_map.mp hb
      exact h record (mem_of_mem_take hmem)
    rw [hall, sum_replicate_nat]
  have hlength : records.flatten.length = records.length * n := by
    rw [length_flatten, ← hsum records.length le_rfl, take_length]
  rw [asChunks, hlength, Nat.mul_div_cancel _ hn]
  refine ext_getElem (by simp) fun i hi hi' => ?_
  rw [getElem_map, getElem_range]
  exact fieldAt_flatten (getElem?_eq_getElem hi') (hsum i (hi'.le))
    (h _ (getElem_mem hi'))

end Grafeo.Lib
