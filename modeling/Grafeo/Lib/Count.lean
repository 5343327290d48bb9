import Mathlib.Data.Nat.Count
import Mathlib.Algebra.BigOperators.Group.Finset.Basic
import Mathlib.Data.Int.Basic

/-!
# Grafeo.Lib.Count

How many numbers below a bound a predicate holds of (`Nat.count`), when the
predicate **changes at one number**, and a sum of weights when the weight of one element
changes: the counters a program keeps beside a table move by what each change of one
entry moves them.
-/

namespace Grafeo.Lib

open List Nat

variable {p q : Nat → Prop} [DecidablePred p] [DecidablePred q]

/-- Two predicates that agree below the bound count alike. -/
theorem count_congr {n : Nat} (h : ∀ k < n, p k ↔ q k) : count p n = count q n :=
  le_antisymm (count_mono_left fun k hk => (h k hk).mp) (count_mono_left fun k hk => (h k hk).mpr)

/-- Two predicates that agree everywhere but at `t` differ by what they say of `t`. -/
theorem count_change {n t : Nat} (ht : t < n) (h : ∀ k, k ≠ t → (p k ↔ q k)) :
    count p n + (if q t then 1 else 0) = count q n + (if p t then 1 else 0) := by
  induction n with
  | zero => omega
  | succ n ih =>
    rw [count_succ, count_succ]
    by_cases htn : t = n
    · subst htn
      rw [count_congr fun k hk => h k (hk.ne)]
      omega
    · have hn := h n (Ne.symm htn)
      simp only [hn]
      omega

theorem count_pos {n t : Nat} (ht : t < n) (h : p t) : 0 < count p n :=
  Nat.pos_of_ne_zero (count_ne_iff_exists.mpr ⟨t, ht, h⟩)

/-- Where only one number counts, no other satisfies the predicate. -/
theorem eq_of_count_le_one {n t u : Nat} (ht : t < n) (hu : u < n) (hpt : p t) (hpu : p u)
    (hone : count p n ≤ 1) : t = u := by
  -- each of them is counted below `n`, and nothing below it is
  have hlast := count_strict_mono hpt ht
  have hlast' := count_strict_mono hpu hu
  exact count_injective hpt hpu (by omega)

/-- Sums of weights that agree everywhere but at `x` differ by the weights of `x`. -/
theorem sum_change {α : Type} {S : Finset α} {x : α} {f g : α → Int} (hx : x ∈ S)
    (h : ∀ y, y ≠ x → f y = g y) : ∑ y ∈ S, f y = ∑ y ∈ S, g y + (f x - g x) := by
  have hdiff : ∑ y ∈ S, (f y - g y) = f x - g x :=
    Finset.sum_eq_single x (fun y _ hy => by rw [h y hy, Int.sub_self]) fun hnot => absurd hx hnot
  rw [Finset.sum_sub_distrib] at hdiff
  omega

/-- How many numbers below `n` a list scan keeps, as a sum. -/
theorem length_filter_range (n : Nat) (keep : Nat → Bool) : (((range n).filter keep).length : Int) =
      ∑ k ∈ Finset.range n, if keep k then 1 else 0 := by
  induction n with
  | zero => simp
  | succ n ih =>
    rw [range_succ, filter_append, length_append, Finset.sum_range_succ, ← ih]
    cases hkeep : keep n <;> simp [hkeep]

end Grafeo.Lib
