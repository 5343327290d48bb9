import Mathlib.Order.Basic
import Mathlib.Data.List.Basic

/-!
# Grafeo.Lib.Gaps

Cutting a list into **pieces of a bounded length**, as a producer does that fills
one buffer after another: nothing is lost, and no piece is empty or too long.

**First fit over gaps.** A gap is its first place and its count of places; the gaps stand
in ascending order and do not overlap. `fill` takes places from the start of the first
gap a test accepts, and leaves the rest of the gap where it was: the places taken are
exactly those the gaps lose (`fill_spec`).
-/

namespace Grafeo.Lib

open List Nat

variable {α : Type}

/-- What still goes into a buffer with room for `room` elements, and the pieces of
`n + 1` elements after it. -/
def piecesFrom (n : Nat) : Nat → List α → List α × List (List α)
  | _, [] => ([], [])
  | 0, a :: l => ([], (a :: (piecesFrom n n l).1) :: (piecesFrom n n l).2)
  | room + 1, a :: l => (a :: (piecesFrom n room l).1, (piecesFrom n room l).2)

/-- The list in pieces of `n` elements, the last one perhaps shorter. -/
def pieces (n : Nat) (l : List α) : List (List α) := (piecesFrom (n - 1) 0 l).2

theorem piecesFrom_append (n room : Nat) (l : List α) :
    (piecesFrom n room l).1 ++ (piecesFrom n room l).2.flatten = l := by
  induction l generalizing room with
  | nil => cases room <;> rfl
  | cons a l ih =>
    cases room with
    | zero =>
      rw [piecesFrom, nil_append, flatten_cons, cons_append, ih]
    | succ room => rw [piecesFrom, cons_append, ih]

theorem piecesFrom_length (n room : Nat) (l : List α) : (piecesFrom n room l).1.length ≤ room ∧
      ∀ piece ∈ (piecesFrom n room l).2, piece ≠ [] ∧ piece.length ≤ n + 1 := by
  induction l generalizing room with
  | nil => cases room <;> simp [piecesFrom]
  | cons a l ih =>
    cases room with
    | zero =>
      refine ⟨Nat.le_refl 0, fun piece hpiece => ?_⟩
      rw [piecesFrom, mem_cons] at hpiece
      obtain rfl | hpiece := hpiece
      · exact ⟨cons_ne_nil _ _, succ_le_succ (ih n).1⟩
      · exact (ih n).2 piece hpiece
    | succ room => exact ⟨succ_le_succ (ih room).1, (ih room).2⟩

theorem flatten_pieces (n : Nat) (l : List α) : (pieces n l).flatten = l := by
  have hfirst : (piecesFrom (n - 1) 0 l).1 = [] :=
    eq_nil_of_length_eq_zero (le_zero.mp (piecesFrom_length (n - 1) 0 l).1)
  have happend := piecesFrom_append (n - 1) 0 l
  rwa [hfirst, nil_append] at happend

theorem of_mem_pieces {n : Nat} (hn : 0 < n) {l piece : List α} (h : piece ∈ pieces n l) :
    piece ≠ [] ∧ piece.length ≤ n := by
  obtain ⟨hne, hlength⟩ := (piecesFrom_length (n - 1) 0 l).2 piece h
  exact ⟨hne, by omega⟩

theorem pieces_map {β : Type} (f : α → β) (n : Nat) (l : List α) :
    pieces n (l.map f) = (pieces n l).map (map f) := by
  have hfrom : ∀ room, piecesFrom (n - 1) room (l.map f) =
      ((piecesFrom (n - 1) room l).1.map f, (piecesFrom (n - 1) room l).2.map (map f)) := by
    induction l with
    | nil => intro room; cases room <;> rfl
    | cons a l ih =>
      intro room
      cases room with
      | zero => simp [piecesFrom, ih]
      | succ room => simp [piecesFrom, ih]
  rw [pieces, hfrom, pieces]

/-- The place is one of the gap's. -/
def InGap (gap : Nat × Nat) (place : Nat) : Prop := gap.1 ≤ place ∧ place < gap.1 + gap.2

/-- The gaps ascend and do not overlap. -/
def Apart (gaps : List (Nat × Nat)) : Prop := gaps.Pairwise fun a b => a.1 + a.2 ≤ b.1

/-- The gap without its first `count` places. -/
def shrink (count : Nat) (gap : Nat × Nat) : List (Nat × Nat) :=
  if count < gap.2 then [(gap.1 + count, gap.2 - count)] else []

/-- Takes `count` places from the start of the first gap that `fits`: the first of them, and the
gaps left. -/
def fill (fits : Nat × Nat → Bool) (count : Nat) :
    List (Nat × Nat) → Option (Nat × List (Nat × Nat))
  | [] => none
  | gap :: gaps =>
      if fits gap then some (gap.1, shrink count gap ++ gaps)
      else (fill fits count gaps).map fun taken => (taken.1, gap :: taken.2)

variable {fits : Nat × Nat → Bool} {count first : Nat} {gaps left : List (Nat × Nat)}

/-- The gap that was taken from, between those before it and those after it. -/
theorem fill_split (h : fill fits count gaps = some (first, left)) :
    ∃ before gap after, gaps = before ++ gap :: after ∧ fits gap = true ∧ gap.1 = first ∧
      left = before ++ shrink count gap ++ after := by
  induction gaps generalizing left with
  | nil => cases h
  | cons gap gaps ih =>
    rw [fill] at h
    split at h
    next hfits =>
      cases h
      exact ⟨[], gap, gaps, rfl, hfits, rfl, rfl⟩
    · obtain ⟨taken, htaken, heq⟩ := Option.map_eq_some_iff.mp h
      cases heq
      obtain ⟨before, found, after, rfl, hfits, hfirst, hleft⟩ := ih htaken
      exact ⟨gap :: before, found, after, rfl, hfits, hfirst, by rw [hleft]; rfl⟩

theorem mem_shrink {gap rest : Nat × Nat} (h : rest ∈ shrink count gap) :
    count < gap.2 ∧ rest = (gap.1 + count, gap.2 - count) := by
  unfold shrink at h
  split at h
  · exact ⟨‹_›, mem_singleton.mp h⟩
  · cases h

/-- **What `fill` does**: the places are those of one gap, and the gaps lose exactly them. -/
theorem fill_spec (h : fill fits count gaps = some (first, left)) (hapart : Apart gaps)
    (hfits : ∀ gap, fits gap = true → count ≤ gap.2) :
    (∃ gap ∈ gaps, fits gap = true ∧ gap.1 = first) ∧ Apart left ∧
      (∀ rest ∈ left, ∃ gap ∈ gaps, gap.1 ≤ rest.1 ∧ rest.1 + rest.2 = gap.1 + gap.2) ∧
      ∀ place, (∃ rest ∈ left, InGap rest place) ↔
        (∃ gap ∈ gaps, InGap gap place) ∧ ¬(first ≤ place ∧ place < first + count) := by
  obtain ⟨before, gap, after, rfl, hfit, rfl, rfl⟩ := fill_split h
  have hroom := hfits gap hfit
  obtain ⟨hbefore, hafter, hcross⟩ := pairwise_append.mp hapart
  obtain ⟨hnext, hafter⟩ := pairwise_cons.mp hafter
  have hprev : ∀ b ∈ before, b.1 + b.2 ≤ gap.1 := fun b hb => hcross b hb gap mem_cons_self
  refine ⟨⟨gap, by simp, hfit, rfl⟩, ?_, fun rest hrest => ?_, fun place => ⟨?_, ?_⟩⟩
  · refine pairwise_append.mpr ⟨pairwise_append.mpr ⟨hbefore, ?_, fun b hb r hr => ?_⟩,
      hafter, fun x hx a ha => ?_⟩
    · unfold shrink
      split
      · exact pairwise_singleton ..
      · exact .nil
    · obtain ⟨-, rfl⟩ := mem_shrink hr
      exact Nat.le_trans (hprev b hb) (Nat.le_add_right ..)
    · obtain hx | hx := mem_append.mp hx
      · exact hcross x hx a (mem_cons_of_mem _ ha)
      · obtain ⟨hlt, rfl⟩ := mem_shrink hx
        have hle := hnext a ha
        omega
  · obtain hrest | hrest := mem_append.mp hrest
    · obtain hrest | hrest := mem_append.mp hrest
      · exact ⟨rest, by simp [hrest], Nat.le_refl _, rfl⟩
      · obtain ⟨hlt, rfl⟩ := mem_shrink hrest
        exact ⟨gap, by simp, Nat.le_add_right .., by dsimp only; omega⟩
    · exact ⟨rest, by simp [hrest], Nat.le_refl _, rfl⟩
  · rintro ⟨rest, hrest, hin⟩
    obtain hrest | hrest := mem_append.mp hrest
    · obtain hrest | hrest := mem_append.mp hrest
      · refine ⟨⟨rest, by simp [hrest], hin⟩, ?_⟩
        have hle := hprev rest hrest
        have hlt := hin.2
        omega
      · obtain ⟨hlt, rfl⟩ := mem_shrink hrest
        obtain ⟨hfrom, hto⟩ := hin
        exact ⟨⟨gap, by simp, by omega, by omega⟩, by omega⟩
    · refine ⟨⟨rest, by simp [hrest], hin⟩, ?_⟩
      have hle := hnext rest hrest
      have hge := hin.1
      omega
  · rintro ⟨⟨other, hother, hin⟩, hnot⟩
    obtain hother | hother := mem_append.mp hother
    · exact ⟨other, by simp [hother], hin⟩
    obtain rfl | hother := mem_cons.mp hother
    · obtain ⟨hfrom, hto⟩ := hin
      have hlt : count < other.2 := by omega
      refine ⟨(other.1 + count, other.2 - count), by simp [shrink, hlt], ?_, ?_⟩ <;>
        (dsimp only; omega)
    · exact ⟨other, by simp [hother], hin⟩

end Grafeo.Lib
