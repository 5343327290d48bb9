import Grafeo.RowGroup.Bitset
import Grafeo.Lib.Bytes
import Grafeo.Lib.Except
import Mathlib.Data.Bool.Count

/-!
# Grafeo.Codec.BitVector

**Booleans a bit each** (`grafeo-core/src/codec/bitvec.rs`): a vector is its words of 64 bits
and its length in bits. A `BitVectorBuilder` has the same two fields, and `freeze` keeps them.

The bits past the length are compared like the others, and a `push` of false leaves the bit as
it is, so a vector means its booleans only while those bits are clear (`Holds`). `filled` with
true, `not`, and `or` and `xor` of vectors of two lengths can set them, unless the length ends
with a word (`Whole`).
-/

namespace Grafeo.Codec

open List Lib RowGroup Bitset Nat Option

structure BitVector where
  data : Bitset
  len : Nat
deriving DecidableEq

inductive BitOp where
  | and | or | xor
deriving DecidableEq

def BitOp.onWords : BitOp → BitVec 64 → BitVec 64 → BitVec 64
  | and => (· &&& ·)
  | or => (· ||| ·)
  | xor => (· ^^^ ·)

def BitOp.onBools : BitOp → Bool → Bool → Bool
  | and => (· && ·)
  | or => (· || ·)
  | xor => (· ^^ ·)

/-- A call of a builder. -/
inductive BuilderCall where
  | push (value : Bool)
  | set (index : Nat) (value : Bool)

def BuilderCall.onBools (bits : List Bool) : BuilderCall → List Bool
  | push value => bits ++ [value]
  | set index value => bits.set index value

namespace BitVector

def filled (len : Nat) (value : Bool) : BitVector :=
  ⟨⟨replicate ((len + 63) / 64) (if value then .allOnes 64 else 0)⟩, len⟩

/-- The builder after a call; a `set` past its end panics. -/
def call (v : BitVector) : BuilderCall → Option BitVector
  | .push value =>
    let data : Bitset := ⟨v.data.grown (v.len / 64)⟩
    some ⟨if value then data.set v.len else data, v.len + 1⟩
  | .set index value =>
    if index < v.len then
      some { v with data := if value then v.data.set index else v.data.clear index }
    else none

def get (v : BitVector) (index : Nat) : Option Bool :=
  if v.len ≤ index then none
  else v.data.words[index / 64]?.map fun word => decide (word &&& Bitset.bit index ≠ 0)

def countOnes (v : BitVector) : Nat :=
  ((range (v.len / 64)).map fun i => (v.data.word i).cpop.toNat).sum +
    if v.len % 64 = 0 then 0
    else (v.data.word (v.len / 64) &&& ((1#64 <<< (v.len % 64)) - 1#64)).cpop.toNat

def countZeros (v : BitVector) : Nat := v.len - v.countOnes

def toBools (v : BitVector) : Option (List Bool) := (range v.len).mapM v.get

/-- The indices of the bits set; a bit that is missing panics. -/
def onesIter (v : BitVector) : Option (List Nat) := do
  let _ ← v.toBools
  return (range v.len).filter fun i => v.get i = some true

/-- `and`, `or` and `xor`. -/
def zip (op : BitOp) (v w : BitVector) : BitVector :=
  let len := min v.len w.len
  ⟨⟨(range ((len + 63) / 64)).map fun i => op.onWords (v.data.word i) (w.data.word i)⟩, len⟩

def not (v : BitVector) : BitVector :=
  ⟨⟨(range v.data.words.length).map fun i => ~~~v.data.word i⟩, v.len⟩

def toBytes (v : BitVector) : Except String (List Byte) :=
  if v.len < 2 ^ 32 then .ok (toLe 4 v.len ++ v.data.words.flatMap fun word => toLe 8 word.toNat)
  else .error s!"BitVector length {v.len} exceeds u32::MAX, cannot serialize"

def fromBytes (bytes : List Byte) : Except String BitVector :=
  if bytes.length < 4 then .error "BitVector too short"
  else
    let len := ofLe (bytes.take 4)
    let length := (len + 63) / 64 * 8
    if bytes.length < 4 + length then .error "BitVector truncated"
    else
      .ok ⟨⟨(asChunks 8 (fieldAt bytes 4 length)).map fun word => .ofNat 64 (ofLe word)⟩, len⟩

end BitVector

/-! ### The vectors reached -/

/-- How a vector is made: by a builder that starts filled (`from_bools` pushes to an empty one,
`filled`, `zeros` and `ones` make no call), of others, or read back from its bytes. -/
inductive Made where
  | built (len : Nat) (value : Bool) (calls : List BuilderCall)
  | zip (op : BitOp) (a b : Made)
  | not (a : Made)
  | reread (a : Made)

namespace Made

/-- The vector made, unless a call panics or `to_bytes` refuses. -/
def vector : Made → Option BitVector
  | built len value calls => calls.foldlM BitVector.call (.filled len value)
  | zip op a b => do return .zip op (← a.vector) (← b.vector)
  | not a => a.vector.map .not
  | reread a => a.vector.bind fun v => (v.toBytes.bind BitVector.fromBytes).toOption

/-- The booleans meant. -/
def means : Made → List Bool
  | built len value calls => calls.foldl BuilderCall.onBools (replicate len value)
  | zip op a b => zipWith op.onBools a.means b.means
  | not a => a.means.map (!·)
  | reread a => a.means

/-- Bits are filled with true or complemented only up to the end of a word, and those of
vectors of two lengths joined by `or` or `xor` only where the shorter ends with one. -/
def Whole : Made → Prop
  | built len value _ => value = true → 64 ∣ len
  | zip op a b => a.Whole ∧ b.Whole ∧ (op = .and ∨ a.means.length = b.means.length ∨
      64 ∣ min a.means.length b.means.length)
  | not a => a.Whole ∧ 64 ∣ a.means.length
  | reread a => a.Whole

end Made

namespace BitVector

/-- The vector has the words its length asks for, and in them the bits, the others clear. -/
structure Holds (v : BitVector) (bits : List Bool) : Prop where
  len : v.len = bits.length
  words : v.data.words.length = (bits.length + 63) / 64
  bit : ∀ r, v.data.get r = bits.getD r false

variable {v w : BitVector} {bits : List Bool} {value : Bool}

theorem holds_filled {len : Nat} {value : Bool} (h : value = true → 64 ∣ len) :
    (filled len value).Holds (replicate len value) where
  len := by simp [filled]
  words := by simp [filled]
  bit r := by
    have hwords : (filled len value).data.words = (range ((len + 63) / 64)).map fun _ =>
        if value then .allOnes 64 else 0 := by simp [filled]
    rw [show (filled len value).data = ⟨_⟩ from congrArg Bitset.mk hwords, Bitset.get_map_range]
    cases value with
    | false => cases hr : decide (r < len) <;> simp_all
    | true =>
      have hr : r / 64 < (len + 63) / 64 ↔ r < len := by
        have := h rfl
        omega
      have hlt : r % 64 < 64 := mod_lt _ (by decide)
      rw [if_pos rfl, BitVec.getLsbD_allOnes, decide_eq_true hlt]
      by_cases hin : r < len <;> simp [hr, hin]

variable (h : v.Holds bits)
include h

theorem Holds.push (hw : v.call (.push value) = some w) : w.Holds (bits ++ [value]) := by
  cases hw
  have hget : ∀ r, (⟨v.data.grown (v.len / 64)⟩ : Bitset).get r = bits.getD r false := fun r => by
    rw [get_eq, word_grown, ← get_eq, h.bit]
  refine ⟨by simp [h.len], ?_, fun r => ?_⟩
  · cases value <;> simp [Bitset.length_set, Bitset.grown, h.words, h.len] <;> omega
  · cases value <;> grind [get_set, h.len]

theorem Holds.set {index : Nat} (hw : v.call (.set index value) = some w) :
    w.Holds (bits.set index value) := by
  rw [call, ite_none_right_eq_some] at hw
  obtain ⟨hindex, hw⟩ := hw
  cases hw
  rw [h.len] at hindex
  refine ⟨by simp [h.len], ?_, fun r => ?_⟩
  · cases value <;> simp [Bitset.length_set, h.words]
    omega
  · have hr := h.bit r
    cases value <;> grind [Bitset.get_set, Bitset.get_clear]

theorem Holds.zip {op : BitOp} {others : List Bool} (h' : w.Holds others)
    (hop : op = .and ∨ bits.length = others.length ∨ 64 ∣ min bits.length others.length) :
    (zip op v w).Holds (zipWith op.onBools bits others) := by
  refine ⟨by simp [BitVector.zip, h.len, h'.len], by simp [BitVector.zip, h.len, h'.len], fun r => ?_⟩
  have hbits : (op.onWords (v.data.word (r / 64)) (w.data.word (r / 64))).getLsbD (r % 64) =
      op.onBools (bits.getD r false) (others.getD r false) := by
    rw [← h.bit, ← h'.bit, get_eq, get_eq]
    cases op <;> simp [BitOp.onWords, BitOp.onBools]
  rw [BitVector.zip, h.len, h'.len, get_map_range, hbits]
  by_cases hr : r < min bits.length others.length
  · rw [decide_eq_true (by omega)]
    grind
  -- past the end `and` meets a clear bit, and the others two
  rw [getD_eq_default (zipWith op.onBools bits others) _ (by rw [length_zipWith]; omega)]
  by_cases hword : r / 64 < (min bits.length others.length + 63) / 64
  · have hclear : op = .and ∨ bits.length ≤ r ∧ others.length ≤ r := hop.imp id (by omega)
    cases op <;> grind [BitOp.onBools]
  · rw [decide_eq_false hword, Bool.false_and]

theorem Holds.not (hwhole : 64 ∣ bits.length) : v.not.Holds (bits.map (!·)) := by
  refine ⟨by simp [BitVector.not, h.len], by simp [BitVector.not, h.words], fun r => ?_⟩
  have hlt : r % 64 < 64 := mod_lt _ (by decide)
  have hr : r / 64 < (bits.length + 63) / 64 ↔ r < bits.length := by omega
  rw [BitVector.not, get_map_range, BitVec.getLsbD_not, ← get_eq, h.bit, h.words]
  by_cases hin : r < bits.length <;> simp [hr, hin, hlt]

theorem Holds.reread (hw : (v.toBytes.bind fromBytes).toOption = some w) : w = v := by
  unfold toBytes at hw
  split at hw
  next hlen =>
    have hchunks := asChunks_flatten (show 0 < 8 by decide)
      (show ∀ record ∈ v.data.words.map fun word => toLe 8 word.toNat, record.length = 8 by simp)
    have hlength : (v.data.words.flatMap fun word => toLe 8 word.toNat).length =
        (v.len + 63) / 64 * 8 := by
      simp [h.words, h.len]
    have hread : fromBytes (toLe 4 v.len ++ v.data.words.flatMap fun word => toLe 8 word.toNat) =
        .ok v := by
      simp only [fromBytes, take_left' (length_toLe 4 v.len), ofLe_u32 hlen]
      rw [if_neg (by simp), if_neg (by rw [length_append, length_toLe, hlength]; omega), fieldAt,
        drop_left' (length_toLe 4 v.len), ← hlength, take_length, flatMap_def, hchunks]
      simp [Function.comp_def, bv64_ofLe]
    rw [Except.bind, hread] at hw
    exact (some.inj hw).symm
  next => cases hw

/-! ### What is read -/

theorem Holds.get (i : Nat) : v.get i = bits[i]? := by
  unfold BitVector.get
  rw [h.len]
  split
  next hi => exact (getElem?_eq_none hi).symm
  next hi =>
    have hword : i / 64 < v.data.words.length := by
      rw [h.words]
      omega
    have hbit := h.bit i
    rw [Bitset.get, getElem?_eq_getElem hword, getD_eq_getElem _ _ (by omega)] at hbit
    rw [getElem?_eq_getElem hword, getElem?_eq_getElem (by omega)]
    exact congrArg some hbit

theorem Holds.toBools : v.toBools = some bits := by
  rw [BitVector.toBools, h.len]
  refine (mapM_eq_pure fun i hi => ?_).trans (congrArg some (map_getD_range bits false))
  have hi := mem_range.mp hi
  rw [h.get, getElem?_eq_getElem hi, getD_eq_getElem _ _ hi]
  rfl

theorem Holds.onesIter :
    v.onesIter = some ((range bits.length).filter fun i => bits[i]? = some true) := by
  simp [BitVector.onesIter, h.toBools, h.get, h.len]

/-- The bits of the last word past the length are clear. -/
theorem Holds.and_mask :
    v.data.word (v.len / 64) &&& ((1#64 <<< (v.len % 64)) - 1#64) = v.data.word (v.len / 64) := by
  have hlt : (v.data.word (v.len / 64)).toNat < 2 ^ (v.len % 64) := by
    refine lt_pow_two_of_testBit _ fun i hi => ?_
    by_cases hi' : i < 64
    · have hbit := h.bit (v.len / 64 * 64 + i)
      rwa [get_add_bit _ _ _ hi', getD_eq_default _ _ (by rw [← h.len]; omega)] at hbit
    · exact BitVec.getLsbD_of_ge _ i (le_of_not_gt hi')
  refine BitVec.eq_of_toNat_eq ?_
  rw [BitVec.toNat_and, toNat_mask (mod_lt _ (by decide)), and_two_pow_sub_one_eq_mod,
    mod_eq_of_lt hlt]

theorem Holds.countOnes : v.countOnes = bits.count true := by
  have hsum : ∀ m, ((range m).map fun i => (v.data.word i).cpop.toNat).sum =
      ((range (64 * m)).filter v.data.get).length := by
    intro m
    rw [funext v.data.get_eq, ← flatMap_ones, length_flatMap]
    simp [toNat_cpop_eq]
  have hcount : v.countOnes = ((range (64 * ((v.len + 63) / 64))).filter v.data.get).length := by
    rw [← hsum, BitVector.countOnes, h.and_mask]
    split
    next hzero => rw [add_zero, show (v.len + 63) / 64 = v.len / 64 by omega]
    next hrest =>
      rw [show (v.len + 63) / 64 = v.len / 64 + 1 by omega, range_succ, map_append, sum_append]
      simp
  rw [hcount, h.len, funext h.bit, filter_range_of_le (by omega) fun r hr => getD_eq_default _ _ hr]
  conv_rhs => rw [← map_getD_range bits false]
  rw [count_eq_countP, countP_map, countP_eq_length_filter]
  simp [Function.comp_def]

end BitVector

theorem Made.holds {a : Made} (h : a.Whole) {v : BitVector} (hv : a.vector = some v) :
    v.Holds a.means := by
  induction a generalizing v with
  | built len value calls =>
    have hcalls : ∀ {v w : BitVector} {bits : List Bool}, v.Holds bits →
        calls.foldlM BitVector.call v = some w → w.Holds (calls.foldl BuilderCall.onBools bits) := by
      clear hv h
      induction calls with
      | nil =>
        intro v w bits h hw
        cases hw
        exact h
      | cons call calls ih =>
        intro v w bits h hw
        obtain ⟨u, hu, hw⟩ := bind_eq_some_iff.mp hw
        refine ih ?_ hw
        cases call with
        | push value => exact h.push hu
        | set index value => exact h.set hu
    exact hcalls (BitVector.holds_filled h) hv
  | zip op a b iha ihb =>
    simp only [vector, bind_eq_bind, bind_eq_some_iff] at hv
    obtain ⟨u, hu, w, hw, hv⟩ := hv
    cases hv
    exact (iha h.1 hu).zip (ihb h.2.1 hw) h.2.2
  | not a ih =>
    obtain ⟨w, hw, rfl⟩ := map_eq_some_iff.mp hv
    exact (ih h.1 hw).not h.2
  | reread a ih =>
    obtain ⟨w, hw, hv⟩ := bind_eq_some_iff.mp hv
    have hw := ih h hw
    rw [hw.reread hv]
    exact hw

end Grafeo.Codec
