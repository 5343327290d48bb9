import Grafeo.Common.Decimal

/-!
# Grafeo.Common.DecimalOrder

**The order of decimals, their normal form and their text.** Comparison goes by the integer part
and then by the fraction, widened to 38 digits; hashing by the pair without trailing zeros.
-/

namespace Grafeo.Common

open List Option Nat

namespace Decimal

/-! ### Order -/

/-- The integer part, and the fraction widened to 38 digits. -/
def parts (d : Decimal) : Option (Int × Int) := do
  let unit ← i128 (10 ^ d.scale)
  let widen ← i128 (10 ^ (maxDecimalDigits - d.scale))
  let fraction ← i128 (d.mantissa.tmod unit * widen)
  pure (d.mantissa.tdiv unit, fraction)

def cmp (a b : Decimal) : Option Ordering := do
  let left ← a.parts
  let right ← b.parts
  pure ((compare left.1 right.1).then (compare left.2 right.2))

/-- The mantissa at the largest scale. -/
def widened (d : Decimal) : Int := d.mantissa * 10 ^ (maxDecimalDigits - d.scale)

theorem value_eq_widened (d : Decimal) : d.value = d.widened / 10 ^ maxDecimalDigits := by
  obtain ⟨extra, hextra⟩ := Nat.exists_eq_add_of_le d.scale_le
  rw [value, widened, hextra, Nat.add_sub_cancel_left, pow_add]
  push_cast
  field_simp

theorem i128_eq {n : Int} (h : n.natAbs ≤ 10 ^ 38) : i128 n = some n := if_pos (by omega)

theorem parts_eq (d : Decimal) :
    d.parts = some (d.widened.tdiv (10 ^ maxDecimalDigits), d.widened.tmod (10 ^ maxDecimalDigits)) := by
  have hscale := d.scale_le
  have hpow : ∀ k ≤ maxDecimalDigits, i128 (10 ^ k) = some (10 ^ k) := by
    intro k hk
    refine i128_eq ?_
    exact Nat.pow_le_pow_right (by decide) hk
  have hunit : (10 : Int) ^ maxDecimalDigits =
      10 ^ d.scale * 10 ^ (maxDecimalDigits - d.scale) := by
    rw [← pow_add, Nat.add_sub_cancel' hscale]
  have hpos : ∀ k, (0 : Int) < 10 ^ k := fun k => by positivity
  have hfraction : d.mantissa.tmod (10 ^ d.scale) * 10 ^ (maxDecimalDigits - d.scale) =
      d.widened.tmod (10 ^ maxDecimalDigits) := by
    rw [widened, hunit, mul_comm d.mantissa, mul_comm (10 ^ d.scale), mul_comm (Int.tmod ..),
      Int.mul_tmod_mul_of_pos _ _ (hpos _)]
  have hfits : i128 (d.widened.tmod (10 ^ maxDecimalDigits)) = some _ := i128_eq (by
    rw [Int.natAbs_tmod, Int.natAbs_pow]
    exact (mod_lt _ (by decide)).le)
  simp only [parts, hpow _ hscale, hpow _ (sub_le ..), bind_eq_bind, bind_some,
    hfraction, hfits, Option.pure_def]
  rw [widened, hunit, Int.mul_tdiv_mul_of_pos_left _ _ (hpos _)]

/-- Truncated quotients and remainders, compared one after the other, go in the order of the
numbers: the two have the number's sign. -/
theorem compare_tdiv_tmod (x y : Int) {k : Int} (hk : 0 < k) :
    (compare (x.tdiv k) (y.tdiv k)).then (compare (x.tmod k) (y.tmod k)) = compare x y := by
  have hx := Int.tmod_add_mul_tdiv x k
  have hy := Int.tmod_add_mul_tdiv y k
  obtain hlt | heq | hgt := lt_trichotomy (x.tdiv k) (y.tdiv k)
  · have hless : x < y := lt_of_not_ge fun hge => absurd (Int.tdiv_le_tdiv hk hge) hlt.not_ge
    rw [compare_lt_iff_lt.mpr hlt, compare_lt_iff_lt.mpr hless]
    rfl
  · rw [compare_eq_iff_eq.mpr heq, Ordering.eq_then]
    rw [heq] at hx
    obtain hlt | heq | hgt := lt_trichotomy x y
    · rw [compare_lt_iff_lt.mpr hlt, compare_lt_iff_lt.mpr (by omega)]
    · rw [compare_eq_iff_eq.mpr heq, compare_eq_iff_eq.mpr (by omega)]
    · rw [compare_gt_iff_gt.mpr hgt, compare_gt_iff_gt.mpr (by omega)]
  · have hmore : y < x := lt_of_not_ge fun hge => absurd (Int.tdiv_le_tdiv hk hge) hgt.not_ge
    rw [compare_gt_iff_gt.mpr hgt, compare_gt_iff_gt.mpr hmore]
    rfl

/-- **Comparison is the order of the numbers.** -/
theorem cmp_eq (a b : Decimal) : cmp a b = some (compare a.value b.value) := by
  have hlt : ∀ c d : Decimal, c.value < d.value ↔ c.widened < d.widened := by
    intro c d
    rw [value_eq_widened, value_eq_widened, div_lt_div_iff_of_pos_right (by positivity),
      Int.cast_lt]
  have hcompare : compare a.widened b.widened = compare a.value b.value := by
    obtain h | h | h := lt_trichotomy a.widened b.widened
    · rw [compare_lt_iff_lt.mpr h, compare_lt_iff_lt.mpr ((hlt a b).mpr h)]
    · rw [compare_eq_iff_eq.mpr h, value_eq_widened, value_eq_widened, h, compare_eq_iff_eq.mpr rfl]
    · rw [compare_gt_iff_gt.mpr h, compare_gt_iff_gt.mpr ((hlt b a).mpr h)]
  simp only [cmp, parts_eq, bind_eq_bind, bind_some, Option.pure_def]
  rw [compare_tdiv_tmod _ _ (by positivity), hcompare]

/-! ### The normal form -/

/-- The mantissa and the scale without trailing zeros after the point. -/
def dropZeros : Int → Nat → Int × Nat
  | mantissa, 0 => (mantissa, 0)
  | mantissa, scale + 1 =>
      if mantissa.tmod 10 = 0 then dropZeros (mantissa.tdiv 10) scale else (mantissa, scale + 1)

def normalized (d : Decimal) : Int × Nat := dropZeros d.mantissa d.scale

/-- The pair has no zero to drop. -/
def IsNormal (pair : Int × Nat) : Prop := pair.2 = 0 ∨ ¬10 ∣ pair.1

theorem dropZeros_spec (mantissa : Int) (scale : Nat) : IsNormal (dropZeros mantissa scale) ∧
      ((dropZeros mantissa scale).1 : ℚ) / 10 ^ (dropZeros mantissa scale).2 =
        mantissa / 10 ^ scale := by
  induction scale generalizing mantissa with
  | zero => exact ⟨.inl rfl, rfl⟩
  | succ scale ih =>
    unfold dropZeros
    split
    case isTrue hzero =>
      obtain ⟨shorter, rfl⟩ := Int.dvd_of_tmod_eq_zero hzero
      rw [Int.mul_tdiv_cancel_left _ (by decide)]
      refine ⟨(ih shorter).1, (ih shorter).2.trans ?_⟩
      rw [pow_succ]
      push_cast
      field_simp
    case isFalse hzero =>
      exact ⟨.inr fun hdvd => hzero (Int.tmod_eq_zero_of_dvd hdvd), rfl⟩

theorem IsNormal.unique {pair pair' : Int × Nat} (h : IsNormal pair) (h' : IsNormal pair')
    (heq : (pair.1 : ℚ) / 10 ^ pair.2 = pair'.1 / 10 ^ pair'.2) : pair = pair' := by
  have hless : ∀ {pair pair' : Int × Nat}, IsNormal pair' →
      (pair.1 : ℚ) / 10 ^ pair.2 = pair'.1 / 10 ^ pair'.2 → ¬pair.2 < pair'.2 := by
    intro ⟨m, s⟩ ⟨m', s'⟩ hnormal heq (hlt : s < s')
    obtain ⟨extra, rfl⟩ := Nat.exists_eq_add_of_lt hlt
    have hmantissa : (m' : ℚ) = m * 10 ^ extra * 10 := by
      rw [pow_succ, pow_add] at heq
      field_simp at heq
      linarith
    obtain hzero | hdvd := hnormal
    · exact absurd hzero (succ_ne_zero _)
    · exact hdvd ⟨m * 10 ^ extra, by rw [mul_comm]; exact_mod_cast hmantissa⟩
  have hscale : pair.2 = pair'.2 :=
    le_antisymm (le_of_not_gt (hless h heq.symm)) (le_of_not_gt (hless h' heq))
  refine Prod.ext ?_ hscale
  rw [hscale, div_left_inj' (by positivity)] at heq
  exact_mod_cast heq

theorem normalized_eq_iff (a b : Decimal) : a.normalized = b.normalized ↔ a.value = b.value := by
  obtain ⟨hnormal, hvalue⟩ := dropZeros_spec a.mantissa a.scale
  obtain ⟨hnormal', hvalue'⟩ := dropZeros_spec b.mantissa b.scale
  unfold normalized value
  rw [← hvalue, ← hvalue']
  exact ⟨fun h => by rw [h], hnormal.unique hnormal'⟩

/-! ### Text -/

/-- The value with its scale: `1.50`, `-0.5`, `12`. -/
def display (d : Decimal) : List Char :=
  let digits := Nat.toDigits 10 d.mantissa.natAbs
  let sign := if d.mantissa < 0 then ['-'] else []
  if d.scale = 0 then sign ++ digits
  else if d.scale < digits.length then
    sign ++ digits.take (digits.length - d.scale) ++ '.' :: digits.drop (digits.length - d.scale)
  else sign ++ ['0'] ++ '.' :: List.replicate (d.scale - digits.length) '0' ++ digits

/-- The number of the digits, each step checked against the limit. The digit is added without a
check of the width. -/
def parseMagnitude : List Char → Nat → Option (Except DecimalError Nat)
  | [], magnitude => some (.ok magnitude)
  | digit :: rest, magnitude =>
      match u128 (magnitude * 10) with
      | none => some (.error .overflow)
      | some value => do
          let value ← u128 (value + (digit.toNat - '0'.toNat))
          if value < limit then parseMagnitude rest value else pure (.error .overflow)

/-- A sign, if there is one, and the rest. -/
def splitSign : List Char → Bool × List Char
  | '-' :: rest => (true, rest)
  | '+' :: rest => (false, rest)
  | text => (false, text)

/-- Parses `[+-]digits[.digits]`; with `round`, more than 38 digits after the point are rounded. -/
def parseDigits (text : List Char) (round : Bool) : Option (Except DecimalError Decimal) := do
  let (negative, unsigned) := splitSign text
  let integer := unsigned.takeWhile (· ≠ '.')
  let fraction := (unsigned.dropWhile (· ≠ '.')).drop 1
  if (integer.isEmpty && fraction.isEmpty) || !integer.all Char.isDigit ||
      !fraction.all Char.isDigit then pure (.error .invalid)
  else if maxDecimalDigits < fraction.length && !round then pure (.error .overflow)
  else
    let kept := fraction.take maxDecimalDigits
    match ← parseMagnitude (integer ++ kept) 0 with
    | .error error => pure (.error error)
    | .ok magnitude =>
        let half := (fraction.drop maxDecimalDigits).head?.any ('5' ≤ ·)
        let magnitude ← nearest magnitude half
        pure (fromMagnitude magnitude negative kept.length)

def parse (text : List Char) : Option (Except DecimalError Decimal) := parseDigits text false

section

variable {digits integer fraction : List Char} {negative : Bool}

theorem parseMagnitude_eq {magnitude : Nat} (h : ofDigitChars 10 digits magnitude < limit) :
    parseMagnitude digits magnitude = some (.ok (ofDigitChars 10 digits magnitude)) := by
  induction digits generalizing magnitude with
  | nil => rw [parseMagnitude, ofDigitChars_nil]
  | cons digit rest ih =>
    rw [ofDigitChars_cons] at h ⊢
    have hlt := h
    rw [ofDigitChars_eq_ofDigitChars_zero] at hlt
    have hone : 0 < 10 ^ rest.length := Nat.pow_pos (by decide)
    have hle := Nat.le_mul_of_pos_left (10 * magnitude + (digit.toNat - '0'.toNat)) hone
    have hbits : limit ≤ 2 ^ 128 := by decide
    have htimes : u128 (magnitude * 10) = some (10 * magnitude) := by
      rw [mul_comm]
      exact if_pos (by omega)
    have hplus : u128 (10 * magnitude + (digit.toNat - '0'.toNat)) = some _ := if_pos (by omega)
    simp only [parseMagnitude, htimes, hplus, bind_eq_bind, bind_some]
    rw [if_pos (by omega), ih h]

/-- The text of a sign, an integer part and a fraction. -/
def written (negative : Bool) (integer fraction : List Char) : List Char :=
  (if negative then ['-'] else []) ++ integer ++ if fraction = [] then [] else '.' :: fraction

theorem splitSign_written (hne : integer ≠ []) (hdigits : ∀ c ∈ integer, c.isDigit) :
    splitSign (written negative integer fraction) = (negative, written false integer fraction) := by
  cases negative with
  | true => rfl
  | false =>
    obtain ⟨first, rest, rfl⟩ := exists_cons_of_ne_nil hne
    rw [written, if_neg (by simp), nil_append, cons_append]
    unfold splitSign
    split
    · simp_all
    · simp_all
    · rfl

theorem parse_written (hne : integer ≠ []) (hinteger : ∀ c ∈ integer, c.isDigit)
    (hfraction : ∀ c ∈ fraction, c.isDigit) (hlength : fraction.length ≤ maxDecimalDigits)
    (hlimit : ofDigitChars 10 (integer ++ fraction) 0 < limit) :
    parse (written negative integer fraction) =
      some (fromMagnitude (ofDigitChars 10 (integer ++ fraction) 0) negative fraction.length) := by
  have hpoint : ∀ c ∈ integer, decide (c ≠ '.') = true := by
    intro c hc
    rw [decide_eq_true_eq]
    rintro rfl
    exact absurd (hinteger _ hc) (by decide)
  have htake : (written false integer fraction).takeWhile (· ≠ '.') = integer := by
    rw [written, if_neg (by simp), nil_append, takeWhile_append_of_pos hpoint]
    split <;> simp
  have hdrop : ((written false integer fraction).dropWhile (· ≠ '.')).drop 1 = fraction := by
    rw [written, if_neg (by simp), nil_append, dropWhile_append_of_pos hpoint]
    split <;> simp_all
  have hvalid : ((integer.isEmpty && fraction.isEmpty) || !integer.all Char.isDigit ||
      !fraction.all Char.isDigit) = false := by
    simp [hne, all_eq_true.mpr hinteger, all_eq_true.mpr hfraction]
  have hshort : (decide (maxDecimalDigits < fraction.length) && !false) = false := by
    simpa using hlength
  simp only [parse, parseDigits, splitSign_written hne hinteger, htake, hdrop, hvalid, hshort,
    take_of_length_le hlength, drop_of_length_le hlength, parseMagnitude_eq hlimit]
  rfl

end

theorem display_eq_written (d : Decimal) : ∃ integer fraction : List Char,
    d.display = written (decide (d.mantissa < 0)) integer fraction ∧ integer ≠ [] ∧
      (∀ c ∈ integer, c.isDigit) ∧ (∀ c ∈ fraction, c.isDigit) ∧ fraction.length = d.scale ∧
      ofDigitChars 10 (integer ++ fraction) 0 = d.mantissa.natAbs := by
  have hdigits : ∀ c ∈ toDigits 10 d.mantissa.natAbs, c.isDigit := fun c hc =>
    isDigit_of_mem_toDigits (by decide) (by decide) hc
  have hvalue : ofDigitChars 10 (toDigits 10 d.mantissa.natAbs) 0 = d.mantissa.natAbs :=
    ofDigitChars_ten_toDigits
  unfold display written
  simp only [decide_eq_true_eq]
  generalize hsign : toDigits 10 d.mantissa.natAbs = digits at *
  have hne : digits ≠ [] := hsign ▸ toDigits_ne_nil
  split
  case isTrue hscale =>
    exact ⟨digits, [], by simp, hne, hdigits, by simp, hscale.symm, by simpa using hvalue⟩
  case isFalse hscale =>
    split
    case isTrue hlong =>
      have hrest : digits.drop (digits.length - d.scale) ≠ [] := fun hnil => by
        have := drop_eq_nil_iff.mp hnil
        omega
      refine ⟨digits.take (digits.length - d.scale), digits.drop (digits.length - d.scale), ?_, ?_,
        fun c hc => hdigits c (mem_of_mem_take hc),
        fun c hc => hdigits c (mem_of_mem_drop hc), ?_, ?_⟩
      · rw [if_neg hrest]
      · exact fun hnil => absurd (take_eq_nil_iff.mp hnil) (by simp [hne]; omega)
      · rw [length_drop]
        omega
      · rw [take_append_drop, hvalue]
    case isFalse hshort =>
      refine ⟨['0'], replicate (d.scale - digits.length) '0' ++ digits, by simp [hne],
        by simp, by simp, fun c hc => ?_, ?_, ?_⟩
      · obtain hc | hc := mem_append.mp hc
        · rw [eq_of_mem_replicate hc]
          rfl
        · exact hdigits c hc
      · rw [length_append, length_replicate]
        omega
      · rw [← append_assoc, ofDigitChars_append, singleton_append,
          ← replicate_succ, ofDigitChars_replicate_zero, mul_zero, hvalue]

/-- **The text reads back**, with its scale. -/
theorem parse_display (d : Decimal) : parse d.display = some (.ok d) := by
  obtain ⟨integer, fraction, hdisplay, hne, hinteger, hfraction, hlength, hvalue⟩ :=
    display_eq_written d
  have hnew : fromMagnitude d.mantissa.natAbs (decide (d.mantissa < 0)) d.scale = .ok d := by
    have hlt := d.mantissa_lt
    have hscale := d.scale_le
    have hbits : limit ≤ 2 ^ 127 := by decide
    have hsigned : signed (decide (d.mantissa < 0)) d.mantissa.natAbs = d.mantissa := by
      unfold signed
      split
      case isTrue hneg => exact neg_eq_iff_eq_neg.mpr (Int.ofNat_natAbs_of_nonpos
        (of_decide_eq_true hneg).le)
      case isFalse hnonneg => exact Int.natAbs_of_nonneg (not_lt.mp (by simpa using hnonneg))
    rw [fromMagnitude, if_pos (by omega), hsigned, new, dif_neg (by omega)]
  rw [hdisplay, parse_written hne hinteger hfraction (hlength ▸ d.scale_le)
    (hvalue ▸ d.mantissa_lt), hvalue, hlength, hnew]

/-- **Decimals are ordered as the numbers they stand for**, are equal just if the pairs that are
hashed are, and read back from their text. -/
theorem order_hash_text (a b : Decimal) : cmp a b = some (compare a.value b.value) ∧
      (cmp a b = some .eq ↔ a.normalized = b.normalized) ∧ parse a.display = some (.ok a) := by
  refine ⟨cmp_eq a b, ?_, parse_display a⟩
  rw [cmp_eq, some_inj, compare_eq_iff_eq, normalized_eq_iff]

end Decimal

end Grafeo.Common
