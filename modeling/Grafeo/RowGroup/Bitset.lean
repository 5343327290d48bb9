import Grafeo.Lib.Bits
import Grafeo.Lib.Ascending
import Mathlib.Data.List.DropRight

/-!
# Grafeo.RowGroup.Bitset

**A growable set of rows, one bit per row** (`graph/rowgroup/bitset.rs`).

A bitset is its words. It grows to the highest row set and rows past its end are unset, so
two bitsets of the same rows may differ in the zero words at their end: `trim` drops those,
and a bitset built a word at a time from none, empty words left out, is trimmed
(`foldl_setWord`).
-/

namespace Grafeo.RowGroup

open List Option Nat Lib

/-- The rows that have something, rows `64 * i` to `64 * i + 63` in word `i`. -/
structure Bitset where
  words : List (BitVec 64) := []
  deriving DecidableEq, Repr

namespace Bitset

/-- The word of rows `64 * index` to `64 * index + 63`. -/
def word (b : Bitset) (index : Nat) : BitVec 64 := b.words.getD index 0

/-- The bit of `row` in its word. -/
def bit (row : Nat) : BitVec 64 := 1#64 <<< (row % 64)

/-- Whether `row` is set. -/
def get (b : Bitset) (row : Nat) : Bool :=
  match b.words[row / 64]? with
  | some word => decide (word &&& bit row ≠ 0)
  | none => false

/-- The words, zero words put behind them up to word `index`. -/
def grown (b : Bitset) (index : Nat) : List (BitVec 64) :=
  b.words ++ List.replicate (index + 1 - b.words.length) 0

/-- Sets `row`. -/
def set (b : Bitset) (row : Nat) : Bitset :=
  ⟨(b.grown (row / 64)).modify (row / 64) (· ||| bit row)⟩

/-- Unsets `row`. -/
def clear (b : Bitset) (row : Nat) : Bitset :=
  ⟨b.words.modify (row / 64) (· &&& ~~~bit row)⟩

/-- Sets the rows of `bits` in word `index`; no rows grow the bitset not at all. -/
def setWord (b : Bitset) (index : Nat) (bits : BitVec 64) : Bitset :=
  if bits = 0 then b else ⟨(b.grown index).modify index (· ||| bits)⟩

/-- Drops the words past the last row set. -/
def trim (b : Bitset) : Bitset := ⟨b.words.rdropWhile (· == 0)⟩

/-- Whether no row is set. -/
def isEmpty (b : Bitset) : Bool := b.words.all (· == 0)

/-- The rows set, ascending. -/
def rows (b : Bitset) : List Nat :=
  b.words.zipIdx.flatMap fun entry => (takeBits 64 entry.1).map (entry.2 * 64 + ·)

variable (b : Bitset) (row r index i : Nat)

/-! ### Bits -/

theorem getLsbD_bit (hi : i < 64) : (bit row).getLsbD i = decide (i = row % 64) :=
  getLsbD_one_shiftLeft hi (row % 64)

theorem and_bit_ne_zero (w : BitVec 64) : w &&& bit row ≠ 0 ↔ w.getLsbD (row % 64) = true := by
  have hbit : (bit row).getLsbD (row % 64) = true := by
    rw [getLsbD_bit row _ (mod_lt _ (by decide)), decide_eq_true rfl]
  rw [bit, ← BitVec.twoPow_eq, BitVec.and_twoPow, BitVec.twoPow_eq, ← bit]
  split
  · next hw => exact iff_of_true (fun hzero => by simp [hzero] at hbit) hw
  · next hw => exact iff_of_false (fun hne => hne rfl) hw

/-- A row is set when its bit is set in its word. -/
theorem get_eq : b.get row = (b.word (row / 64)).getLsbD (row % 64) := by
  unfold get word
  rw [getD_eq_getElem?_getD]
  cases b.words[row / 64]? with
  | none => simp
  | some w =>
    rw [getD_some, Bool.eq_iff_iff, decide_eq_true_eq]
    exact and_bit_ne_zero row w

theorem get_add_bit (hi : i < 64) : b.get (index * 64 + i) = (b.word index).getLsbD i := by
  rw [get_eq, mul_comm, mul_add_div (by decide), div_eq_of_lt hi, add_zero, mul_add_mod,
    mod_eq_of_lt hi]

/-! ### Words of the operations -/

theorem word_grown : (⟨b.grown index⟩ : Bitset).word i = b.word i :=
  getD_append_replicate _ _ _ i

theorem length_grown : index < (b.grown index).length := by
  simp only [grown, length_append, length_replicate]
  omega

theorem word_set :
    (b.set row).word i = if i = row / 64 then b.word i ||| bit row else b.word i := by
  rw [← b.word_grown (row / 64)]
  exact getD_modify (b.length_grown _) _ _ i

theorem word_clear :
    (b.clear row).word i = if i = row / 64 then b.word i &&& ~~~bit row else b.word i := by
  by_cases hlen : row / 64 < b.words.length
  · exact getD_modify hlen _ _ i
  -- the row is past the end: nothing is cleared, and its word is zero
  rw [clear, modify_eq_self (le_of_not_gt hlen)]
  split
  next hi =>
    have hzero : b.word i = 0 := by
      rw [word, hi, getD_eq_getElem?_getD, getElem?_eq_none (le_of_not_gt hlen)]
      rfl
    rw [hzero]
    exact BitVec.zero_and.symm
  next => rfl

@[simp] theorem get_empty : ({} : Bitset).get row = false := rfl

@[simp] theorem get_set : (b.set row).get r = (decide (r = row) || b.get r) := by
  rw [get_eq, get_eq, word_set]
  by_cases hword : r / 64 = row / 64
  · rw [if_pos hword, BitVec.getLsbD_or, getLsbD_bit row _ (mod_lt _ (by decide)), Bool.or_comm]
    have hiff : r % 64 = row % 64 ↔ r = row := by omega
    simp [hiff]
  · have hne : r ≠ row := fun h => hword (by rw [h])
    simp [hword, hne]

@[simp] theorem get_clear : (b.clear row).get r = (b.get r && decide (r ≠ row)) := by
  rw [get_eq, get_eq, word_clear]
  by_cases hword : r / 64 = row / 64
  · have hlt : r % 64 < 64 := mod_lt _ (by decide)
    rw [if_pos hword, BitVec.getLsbD_and, BitVec.getLsbD_not, getLsbD_bit row _ hlt]
    have hiff : r % 64 = row % 64 ↔ r = row := by omega
    simp [hiff, hlt]
  · have hne : r ≠ row := fun h => hword (by rw [h])
    simp [hword, hne]

theorem length_set : (b.set row).words.length = max b.words.length (row / 64 + 1) := by
  simp only [set, grown, length_modify, length_append, length_replicate]
  omega

@[simp] theorem length_clear : (b.clear row).words.length = b.words.length :=
  length_modify ..

theorem length_trim_le : b.trim.words.length ≤ b.words.length :=
  ( rdropWhile_prefix ..).length_le

/-- A row past the end is unset. -/
theorem get_of_le {b : Bitset} {row : Nat} (h : 64 * b.words.length ≤ row) : b.get row = false := by
  have hnone : b.words[row / 64]? = none := getElem?_eq_none (by omega)
  rw [get, hnone]

/-- A pass over the words, a bit at a time: the rows whose bit is set in what `f` makes of their
word, ascending. -/
theorem flatMap_words (f : BitVec 64 → Nat → BitVec 64) : (b.words.zipIdx.flatMap fun entry =>
        (takeBits 64 (f entry.1 entry.2)).map (entry.2 * 64 + ·)) =
      (range (64 * b.words.length)).filter fun r =>
        (f (b.word (r / 64)) (r / 64)).getLsbD (r % 64) := by
  have hwords : b.words.zipIdx = (range b.words.length).map fun i => (b.word i, i) := by
    refine ext_getElem? fun i => ?_
    rw [getElem?_zipIdx, getElem?_map, zero_add]
    by_cases hi : i < b.words.length
    · rw [getElem?_range hi]
      simp [hi, word]
    · simp [hi]
  rw [hwords, flatMap_map]
  simp only [takeBits_eq]
  exact flatMap_ones (fun i => f (b.word i) i) b.words.length

/-- The rows listed are the rows set, ascending. -/
theorem rows_eq : b.rows = (range (64 * b.words.length)).filter b.get := by
  rw [rows, flatMap_words b fun word _ => word]
  exact filter_congr fun r _ => (b.get_eq r).symm

/-- The rows of both bitsets, listed word by word of the first. -/
theorem flatMap_and (other : Bitset) : (b.words.zipIdx.flatMap fun entry =>
        (takeBits 64 (entry.1 &&& other.word entry.2)).map (entry.2 * 64 + ·)) =
      (range (64 * b.words.length)).filter fun r => b.get r && other.get r := by
  rw [flatMap_words b fun word index => word &&& other.word index]
  exact filter_congr fun r _ => by rw [BitVec.getLsbD_and, get_eq, get_eq]

theorem mem_rows {b : Bitset} {r : Nat} : r ∈ b.rows ↔ b.get r = true := by
  rw [rows_eq, mem_filter, mem_range, and_iff_right_iff_imp]
  intro hget
  by_contra hlt
  rw [get_of_le (le_of_not_gt hlt)] at hget
  cases hget

theorem isEmpty_iff {b : Bitset} : b.isEmpty = true ↔ ∀ row, b.get row = false := by
  rw [isEmpty, List.all_eq_true]
  constructor
  · intro h row
    rw [get_eq, word, getD_eq_getElem?_getD]
    cases hw : b.words[row / 64]? with
    | none => simp
    | some w =>
      have hzero : w = 0 := by simpa using h w (mem_of_getElem? hw)
      simp [hzero]
  · intro h w hw
    obtain ⟨i, hi⟩ := getElem?_of_mem hw
    rw [beq_iff_eq]
    refine BitVec.eq_of_getLsbD_eq fun j hj => ?_
    have hget := h (i * 64 + j)
    rw [get_add_bit _ _ _ hj, word, getD_eq_getElem?_getD, hi, getD_some] at hget
    rw [hget]
    simp

theorem get_foldl_set (rows : List Nat) :
    (rows.foldl Bitset.set b).get r = (decide (r ∈ rows) || b.get r) := by
  induction rows generalizing b with
  | nil => simp
  | cons row rows ih =>
    rw [foldl_cons, ih, get_set]
    by_cases hr : r = row <;> simp [hr]

theorem get_foldl_clear (rows : List Nat) :
    (rows.foldl Bitset.clear b).get r = (b.get r && decide (r ∉ rows)) := by
  induction rows generalizing b with
  | nil => simp
  | cons row rows ih =>
    rw [foldl_cons, ih, get_clear]
    by_cases hr : r = row <;> simp [hr]

theorem length_foldl_clear (rows : List Nat) :
    (rows.foldl Bitset.clear b).words.length = b.words.length := by
  induction rows generalizing b with
  | nil => rfl
  | cons row rows ih => rw [foldl_cons, ih, length_clear]

/-- Bitsets of as many words and the same rows are equal. -/
theorem ext_of_get {a b : Bitset} (hlength : a.words.length = b.words.length)
    (hget : ∀ row, a.get row = b.get row) : a = b := by
  have hword : ∀ i, a.word i = b.word i := by
    intro i
    refine BitVec.eq_of_getLsbD_eq fun j hj => ?_
    have h := hget (i * 64 + j)
    rwa [get_add_bit _ _ _ hj, get_add_bit _ _ _ hj] at h
  obtain ⟨words⟩ := a
  congr 1
  refine ext_getElem hlength fun i hi hi' => ?_
  simpa [word, hi, hi'] using hword i

theorem get_map_range (n : Nat) (f : Nat → BitVec 64) : (⟨(range n).map f⟩ : Bitset).get r =
      (decide (r / 64 < n) && (f (r / 64)).getLsbD (r % 64)) := by
  rw [get_eq]
  by_cases h : r / 64 < n <;> simp [word, h]

/-- The rows of the words `f` makes. -/
theorem get_mapIdx (f : Nat → BitVec 64 → BitVec 64) : (⟨b.words.mapIdx f⟩ : Bitset).get row =
      (decide (row / 64 < b.words.length) &&
        (f (row / 64) (b.word (row / 64))).getLsbD (row % 64)) := by
  rw [get_eq, word, getD_eq_getElem?_getD, getElem?_mapIdx]
  by_cases hi : row / 64 < b.words.length
  · simp [hi, word]
  · simp [hi]

/-! ### Trims -/

/-- The words of a bitset are those of its trim, with zero words behind. -/
theorem words_eq_trim : ∃ k, b.words = b.trim.words ++ replicate k 0 := by
  refine ⟨(b.words.rtakeWhile (· == 0)).length, ?_⟩
  have hzeros : replicate (b.words.rtakeWhile (· == 0)).length 0 = b.words.rtakeWhile (· == 0) :=
    (eq_replicate_of_mem fun w hw => by simpa using mem_rtakeWhile_imp hw).symm
  rw [hzeros, trim, rdropWhile_append_rtakeWhile]

theorem word_trim : b.trim.word i = b.word i := by
  obtain ⟨k, hk⟩ := b.words_eq_trim
  rw [word, word, hk, getD_append_replicate]

@[simp] theorem get_trim : b.trim.get row = b.get row := by
  rw [get_eq, get_eq, word_trim]

/-- **A bitset built a word at a time is trimmed**: words without rows do not grow it. -/
theorem foldl_setWord (words : List (BitVec 64)) :
    words.zipIdx.foldl (fun b entry => b.setWord entry.2 entry.1) {} = (⟨words⟩ : Bitset).trim := by
  induction words using reverseRecOn with
  | nil => rfl
  | append_singleton words w ih =>
    rw [zipIdx_append, foldl_append, ih]
    simp only [zipIdx_cons, zipIdx_nil, foldl_cons, foldl_nil, zero_add]
    by_cases hw : w = 0
    · rw [setWord, if_pos hw, trim, trim, rdropWhile_concat_pos _ _ _ (by simp [hw])]
    -- the zero words the trim dropped come back in front of `w`
    obtain ⟨k, hk⟩ := (⟨words⟩ : Bitset).words_eq_trim
    have hlen : words.length = (⟨words⟩ : Bitset).trim.words.length + k := by
      conv_lhs => rw [show words = _ from hk]
      simp
    have hgrown : (⟨words⟩ : Bitset).trim.grown words.length = words ++ [0] := by
      rw [grown, show words.length + 1 - (⟨words⟩ : Bitset).trim.words.length = k + 1 by omega,
        replicate_succ', ← append_assoc, ← hk]
    rw [setWord, if_neg hw, hgrown, trim, rdropWhile_concat_neg _ _ _ (by simpa using hw),
      modify_length]
    simp

/-- A bitset built anew from what `f` makes of each word. -/
theorem foldl_setWord_map (f : BitVec 64 → Nat → BitVec 64) :
    b.words.zipIdx.foldl (fun present entry => present.setWord entry.2 (f entry.1 entry.2)) {} =
      (⟨b.words.mapIdx fun index word => f word index⟩ : Bitset).trim := by
  rw [← foldl_setWord]
  have hzip : (b.words.mapIdx fun index word => f word index).zipIdx =
      b.words.zipIdx.map fun entry => (f entry.1 entry.2, entry.2) := by
    refine ext_getElem? fun i => ?_
    simp [getElem?_zipIdx, getElem?_mapIdx, Function.comp_def]
  rw [hzip, foldl_map]

end Bitset

end Grafeo.RowGroup
