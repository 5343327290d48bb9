import Mathlib.Data.List.TakeWhile
import Mathlib.Order.Lattice

/-!
# Grafeo.Lib.SortedRun

Lists **sorted by a key**, as the slices a program searches.

`partitionPoint p` is what the standard library documents for a slice in which the
elements that satisfy `p` come first: how many they are. In a list sorted by a key the
elements below, at or up to a bound come first (`takeWhile_eq_filter`), so a slice
between two partition points is the list of the elements it was searched for
(`SortedBy.equalRange`). `slice` fails where the program would read past the end.

Lists laid **one after the other** with the offsets at which each begins and ends, as a
compressed sparse row array keeps its rows. `offsetsFrom` says what the offsets are, and
`slice_flatten` that the slice between two neighbouring ones is the list between them.
-/

namespace Grafeo.Lib

open List

variable {α κ : Type} {p : α → Bool} {l : List α}

/-- How many leading elements satisfy `p`. -/
def partitionPoint (p : α → Bool) (l : List α) : Nat :=
  (l.takeWhile p).length

/-- The elements from `start` to before `stop`; `none` past the end. -/
def slice (l : List α) (start stop : Nat) : Option (List α) :=
  if start ≤ stop ∧ stop ≤ l.length then some ((l.take stop).drop start) else none

/-! ### Partition points -/

theorem partitionPoint_le (p : α → Bool) (l : List α) : partitionPoint p l ≤ l.length :=
  (takeWhile_sublist p).length_le

theorem take_partitionPoint (p : α → Bool) (l : List α) :
    l.take (partitionPoint p l) = l.takeWhile p := by
  exact ( prefix_iff_eq_take.mp ( takeWhile_prefix p)).symm

theorem drop_partitionPoint (p : α → Bool) (l : List α) :
    l.drop (partitionPoint p l) = l.dropWhile p := by
  have hsplit := takeWhile_append_dropWhile (p := p) (l := l)
  calc l.drop (partitionPoint p l)
      = (l.takeWhile p ++ l.dropWhile p).drop (l.takeWhile p).length := by
        rw [hsplit, partitionPoint]
    _ = l.dropWhile p := drop_left

/-- Every element before the partition point satisfies the predicate. -/
theorem of_lt_partitionPoint {i : Nat} {a : α}
    (hi : i < partitionPoint p l) (ha : l[i]? = some a) : p a = true := by
  have hmem : a ∈ l.takeWhile p := by
    rw [← take_partitionPoint]
    exact mem_of_getElem? ((getElem?_take_of_lt hi).trans ha)
  exact mem_takeWhile_imp hmem

/-- The element at the partition point does not. -/
theorem not_of_partitionPoint {a : α} (ha : l[partitionPoint p l]? = some a) : p a = false := by
  have hnot := head?_dropWhile_not p l
  rw [← drop_partitionPoint, head?_drop, ha] at hnot
  simpa using hnot

theorem partitionPoint_append {first second : List α} (h : ∀ a ∈ first, p a = true) :
    partitionPoint p (first ++ second) = first.length + partitionPoint p second := by
  rw [partitionPoint, takeWhile_append_of_pos h, length_append, partitionPoint]

/-- What comes after an element that fails the predicate is not read. -/
theorem partitionPoint_append_of_neg {first second : List α} {a : α}
    (ha : a ∈ first) (hp : p a = false) :
    partitionPoint p (first ++ second) = partitionPoint p first := by
  have hne : (first.takeWhile p).length ≠ first.length := fun h => by
    have hall := takeWhile_eq_self_iff.mp ((takeWhile_sublist p).eq_of_length h) a ha
    rw [hp] at hall
    cases hall
  rw [partitionPoint, takeWhile_append, if_neg hne, partitionPoint]

/-- Where `p` holds of every element before one it holds of, the leading elements that
    satisfy it are all of them. -/
theorem takeWhile_eq_filter
    (h : l.Pairwise fun a b => p b = true → p a = true) : l.takeWhile p = l.filter p := by
  induction l with
  | nil => rfl
  | cons a l ih =>
    obtain ⟨ha, hl⟩ := pairwise_cons.mp h
    by_cases hp : p a = true
    · rw [takeWhile_cons_of_pos hp, filter_cons_of_pos hp, ih hl]
    · rw [takeWhile_cons_of_neg hp, filter_cons_of_neg hp]
      exact (filter_eq_nil_iff.mpr fun b hb hpb => hp (ha b hb hpb)).symm

theorem dropWhile_eq_filter (h : l.Pairwise fun a b => p b = true → p a = true) :
    l.dropWhile p = l.filter fun a => !p a := by
  induction l with
  | nil => rfl
  | cons a l ih =>
    obtain ⟨ha, hl⟩ := pairwise_cons.mp h
    by_cases hp : p a = true
    · rw [dropWhile_cons_of_pos hp, filter_cons_of_neg (by simp [hp]), ih hl]
    · rw [dropWhile_cons_of_neg hp]
      refine (filter_eq_self.mpr fun b hb => ?_).symm
      rcases mem_cons.mp hb with rfl | hb
      · simpa using hp
      · simpa using fun hpb => hp (ha b hb hpb)

/-! ### Slices -/

theorem slice_eq_some {start stop : Nat} (hstart : start ≤ stop)
    (hstop : stop ≤ l.length) : slice l start stop = some ((l.take stop).drop start) :=
  if_pos ⟨hstart, hstop⟩

/-- A slice that starts at `start` and is `count` long. -/
theorem slice_add_eq_some {start count : Nat} (h : start + count ≤ l.length) :
    slice l start (start + count) = some ((l.drop start).take count) := by
  rw [slice_eq_some (Nat.le_add_right ..) h, drop_take, Nat.add_sub_cancel_left]

/-! ### Sorted lists -/

section Sorted

variable [LinearOrder κ] {key : α → κ} {l : List α}

/-- The keys do not go down. -/
def SortedBy (key : α → κ) (l : List α) : Prop :=
  l.Pairwise fun a b => key a ≤ key b

section

variable (h : SortedBy key l)
include h

theorem SortedBy.drop (n : Nat) : SortedBy key (l.drop n) :=
  Pairwise.sublist (drop_sublist n l) h

theorem SortedBy.lt_first (x : κ) :
    l.Pairwise fun a b => decide (key b < x) = true → decide (key a < x) = true :=
  h.imp fun hab hb => decide_eq_true (hab.trans_lt (of_decide_eq_true hb))

theorem SortedBy.le_first (x : κ) :
    l.Pairwise fun a b => decide (key b ≤ x) = true → decide (key a ≤ x) = true :=
  h.imp fun hab hb => decide_eq_true (hab.trans (of_decide_eq_true hb))

/-- In a sorted list that starts at `x`, the elements with key `x` come first. -/
theorem SortedBy.eq_first {x : κ} (hle : ∀ a ∈ l, x ≤ key a) :
    l.Pairwise fun a b => decide (key b = x) = true → decide (key a = x) = true := by
  refine h.imp_of_mem fun ha _ hab hb => decide_eq_true ?_
  exact le_antisymm (hab.trans ((of_decide_eq_true hb).le)) (hle _ ha)

/-- The slice between the first element at or above `x` and the first above it. -/
theorem SortedBy.equalRange (x : κ) :
    (l.drop (partitionPoint (fun a => decide (key a < x)) l)).takeWhile
      (fun a => decide (key a = x)) = l.filter fun a => decide (key a = x) := by
  rw [drop_partitionPoint, dropWhile_eq_filter (h.lt_first x)]
  have hle : ∀ a ∈ l.filter (fun a => !decide (key a < x)), x ≤ key a := by
    intro a ha
    simpa using (mem_filter.mp ha).2
  rw [takeWhile_eq_filter (SortedBy.eq_first (Pairwise.filter _ h) hle), filter_filter]
  refine filter_congr fun a _ => ?_
  by_cases hx : key a = x <;> simp [hx]

/-- The slice between the first element at or above `x` and the first above `x`. -/
theorem SortedBy.slice_range (x : κ) : slice l (partitionPoint (fun a => decide (key a < x)) l)
      (partitionPoint (fun a => decide (key a ≤ x)) l) =
        some (l.filter fun a => decide (key a = x)) := by
  have hle : partitionPoint (fun a => decide (key a < x)) l ≤
      partitionPoint (fun a => decide (key a ≤ x)) l := by
    rw [partitionPoint, partitionPoint, takeWhile_eq_filter (h.lt_first x),
      takeWhile_eq_filter (h.le_first x), ← countP_eq_length_filter,
      ← countP_eq_length_filter]
    exact countP_mono_left fun a _ ha => decide_eq_true ((of_decide_eq_true ha).le)
  rw [slice_eq_some hle (partitionPoint_le ..), take_partitionPoint,
    takeWhile_eq_filter (h.le_first x)]
  -- Below `x`, the two searches see the same elements.
  have hsame : partitionPoint (fun a => decide (key a < x)) l =
      partitionPoint (fun a => decide (key a < x)) (l.filter fun a => decide (key a ≤ x)) := by
    rw [partitionPoint, partitionPoint, takeWhile_eq_filter (h.lt_first x),
      takeWhile_eq_filter (SortedBy.lt_first (Pairwise.filter _ h) x), filter_filter]
    congr 2
    refine funext fun a => ?_
    by_cases hlt : key a < x
    · simp [hlt, hlt.le]
    · simp [hlt]
  rw [hsame, drop_partitionPoint,
    dropWhile_eq_filter (SortedBy.lt_first (Pairwise.filter _ h) x), filter_filter]
  congr 1
  refine filter_congr fun a _ => Bool.eq_iff_iff.mpr ?_
  rw [Bool.and_eq_true, Bool.not_eq_true', decide_eq_false_iff_not, decide_eq_true_eq,
    decide_eq_true_eq, not_lt, le_antisymm_iff, and_comm]

end

/-- The first group of a sorted list: the elements with the key of the first one. -/
theorem SortedBy.firstGroup {a : α} (h : SortedBy key (a :: l)) {run : Nat}
    (hrun : partitionPoint (fun b => decide (key b = key a)) (a :: l) = run) :
    0 < run ∧ run ≤ (a :: l).length ∧ (∀ b ∈ (a :: l).take run, key b = key a) ∧
      ∀ b ∈ (a :: l).drop run, key a < key b := by
  have hle : ∀ b ∈ a :: l, key a ≤ key b := by
    intro b hb
    rcases mem_cons.mp hb with rfl | hb
    · exact le_refl _
    · exact (pairwise_cons.mp h).1 b hb
  subst hrun
  refine ⟨?_, partitionPoint_le .., fun b hb => ?_, fun b hb => ?_⟩
  · rw [partitionPoint, takeWhile_cons_of_pos (by simp)]
    exact Nat.succ_pos _
  · rw [take_partitionPoint] at hb
    simpa using mem_takeWhile_imp hb
  · rw [drop_partitionPoint, dropWhile_eq_filter (SortedBy.eq_first h hle)] at hb
    obtain ⟨hmem, hne⟩ := mem_filter.mp hb
    exact lt_of_le_of_ne (hle b hmem) fun heq => by simp [heq] at hne

/-- A cursor that has passed only elements below `x`, moved on to the first element at or
    above it: it passes only elements below `x`, and the group of `x` starts there. -/
theorem SortedBy.seek (h : SortedBy key l) {x : κ} {cursor start : Nat}
    (hbelow : ∀ a ∈ l.take cursor, key a < x) (hcursor : cursor ≤ l.length)
    (hstart : cursor + partitionPoint (fun a => decide (key a < x)) (l.drop cursor) = start) :
    start ≤ l.length ∧ (∀ a ∈ l.take start, key a < x) ∧
      (l.drop start).takeWhile (fun a => decide (key a = x)) =
        l.filter fun a => decide (key a = x) := by
  subst hstart
  refine ⟨?_, fun a ha => ?_, ?_⟩
  · have hle := partitionPoint_le (fun a => decide (key a < x)) (l.drop cursor)
    rw [length_drop] at hle
    omega
  · rw [take_add, mem_append, take_partitionPoint] at ha
    rcases ha with ha | ha
    · exact hbelow a ha
    · simpa using mem_takeWhile_imp ha
  · have hnone : (l.take cursor).filter (fun a => decide (key a = x)) = [] := by
      refine filter_eq_nil_iff.mpr fun a ha heq => ?_
      exact absurd (of_decide_eq_true heq) ((hbelow a ha).ne)
    rw [← drop_drop, (h.drop cursor).equalRange x]
    conv_rhs => rw [← take_append_drop cursor l, filter_append, hnone, nil_append]

end Sorted

/-! ### Ascending numbers -/

/-- Numbers without repeats, sorted, ascend. -/
theorem pairwise_lt_mergeSort {l : List Nat} (h : l.Nodup) : l.mergeSort.Pairwise (· < ·) := by
  have hsorted : l.mergeSort.Pairwise fun a b => decide (a ≤ b) = true :=
    pairwise_mergeSort (by simpa using fun a b c => le_trans)
      (by simpa using le_total) l
  have hnodup := (mergeSort_perm l fun a b : Nat => decide (a ≤ b)).nodup_iff.mpr h
  exact (hsorted.and hnodup).imp fun ⟨hle, hne⟩ =>
    lt_of_le_of_ne (of_decide_eq_true hle) hne

open Nat

variable {α : Type}

/-- The offsets of `lists`, laid one after the other from `start` on. -/
def offsetsFrom (start : Nat) : List (List α) → List Nat
  | [] => [start]
  | l :: lists => start :: offsetsFrom (start + l.length) lists

@[simp] theorem length_offsetsFrom (start : Nat) (lists : List (List α)) :
    (offsetsFrom start lists).length = lists.length + 1 := by
  induction lists generalizing start with
  | nil => rfl
  | cons l lists ih => simp [offsetsFrom, ih]

/-- One more list ends where all of them end. -/
theorem offsetsFrom_concat (start : Nat) (lists : List (List α)) (l : List α) :
    offsetsFrom start (lists ++ [l]) =
      offsetsFrom start lists ++ [start + (lists ++ [l]).flatten.length] := by
  induction lists generalizing start with
  | nil => simp [offsetsFrom]
  | cons first lists ih =>
    simp [offsetsFrom, ih, Nat.add_assoc]

/-- Empty lists all end where they begin. -/
theorem offsetsFrom_replicate (start : Nat) (lists : List (List α)) (n : Nat) :
    offsetsFrom start (lists ++ replicate n []) =
      offsetsFrom start lists ++ replicate n (start + lists.flatten.length) := by
  induction n with
  | zero => simp
  | succ n ih =>
    rw [replicate_succ', ← append_assoc, offsetsFrom_concat, ih, replicate_succ', ← append_assoc]
    simp

theorem getElem?_offsetsFrom {start : Nat} {lists : List (List α)} {i : Nat}
    (hi : i ≤ lists.length) :
    (offsetsFrom start lists)[i]? = some (start + (lists.take i).flatten.length) := by
  induction lists generalizing start i with
  | nil =>
    obtain rfl : i = 0 := le_zero.mp hi
    rfl
  | cons l lists ih =>
    cases i with
    | zero => rfl
    | succ i =>
      simp only [offsetsFrom, getElem?_cons_succ, take_succ_cons, flatten_cons, length_append]
      rw [ih (le_of_succ_le_succ hi), Nat.add_assoc]

/-- The slice between the offsets of a list is the list. -/
theorem slice_flatten {lists : List (List α)} {i : Nat} {l : List α} (hi : lists[i]? = some l) :
    slice lists.flatten (lists.take i).flatten.length (lists.take (i + 1)).flatten.length =
      some l := by
  obtain ⟨hlt, rfl⟩ := List.getElem?_eq_some_iff.mp hi
  have hnext : (lists.take (i + 1)).flatten.length =
      (lists.take i).flatten.length + lists[i].length := by
    rw [take_succ_eq_append_getElem hlt, flatten_append, length_append, flatten_singleton]
  have hsplit : lists.flatten =
      (lists.take i).flatten ++ (lists[i] ++ (lists.drop (i + 1)).flatten) := by
    rw [← flatten_cons, ← drop_eq_getElem_cons hlt, ← flatten_append, take_append_drop]
  rw [hnext, slice_add_eq_some (by rw [hsplit]; simp), hsplit, drop_left, take_left]

/-- The list of row `i`, read through the offsets; empty past the last one. -/
def rowSlice (offsets : List Nat) (values : List α) (i : Nat) : Option (List α) :=
  match offsets[i]?, offsets[i + 1]? with
  | some start, some stop => slice values start stop
  | _, _ => some []

theorem rowSlice_offsetsFrom (lists : List (List α)) (i : Nat) :
    rowSlice (offsetsFrom 0 lists) lists.flatten i = some (lists[i]?.getD []) := by
  by_cases hi : i < lists.length
  · rw [rowSlice, getElem?_offsetsFrom (hi.le), getElem?_offsetsFrom hi,
      Nat.zero_add, Nat.zero_add, getElem?_eq_getElem hi]
    exact slice_flatten (getElem?_eq_getElem hi)
  have hnext : (offsetsFrom 0 lists)[i + 1]? = none := by
    rw [getElem?_eq_none_iff, length_offsetsFrom]
    omega
  rw [getElem?_eq_none (le_of_not_gt hi), rowSlice, hnext]
  split
  next hsome => cases hsome
  · rfl

end Grafeo.Lib
