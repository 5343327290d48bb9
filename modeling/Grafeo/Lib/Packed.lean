import Mathlib.Data.List.ReduceOption
import Grafeo.Lib.Ascending

/-!
# Grafeo.Lib.Packed

A **packed sparse array**: of a fixed number of slots the filled ones stand one
after the other in `entries`, in the order of their slots, and `places` says per
slot where its entry is (one past its place, `0` for an empty slot).

The abstract model is the list of slots, each empty or filled. `pack` says how an
array holds it, and each operation is described by what it does to the slots
(`find_pack_filled`, `find_pack_empty`, `sweep_pack`), so a caller never sees a
place or a mark.
-/

namespace Grafeo.Lib

open List Nat

variable {α : Type} {place k : Nat}

/-- The filled slots' entries, and per slot one past the place of its entry. -/
structure Packed (α : Type) where
  places : List Nat
  entries : List α
deriving Repr, DecidableEq

namespace Packed

/-- Where the entry of slot `i` is (`ok`), or would go (`error`). -/
def find (p : Packed α) (i : Nat) : Except Nat Nat :=
  match p.places.getD i 0 with
  | 0 => .error ((p.places.take i).countP (· != 0))
  | place + 1 => .ok place

/-- Fills slot `i`, whose entry goes to `place`. -/
def insert (p : Packed α) (place i : Nat) (x : α) : Packed α where
  entries := p.entries.insertIdx place x
  places :=
    (p.places.map fun later => if place < later then later + 1 else later).set i (place + 1)

/-- Empties slot `i`, whose entry is at `place`. -/
def remove (p : Packed α) (place i : Nat) : Packed α where
  entries := p.entries.eraseIdx place
  places :=
    (p.places.set i 0).map fun later => if place + 1 < later then later - 1 else later

/-- Puts `x` in the place of the entry at `place`. -/
def put (p : Packed α) (place : Nat) (x : α) : Packed α :=
  { p with entries := p.entries.set place x }

/-- The entry of slot `i`. -/
def get? (p : Packed α) (i : Nat) : Option α :=
  match p.find i with
  | .ok place => p.entries[place]?
  | .error _ => none

/-- One slot of a sweep: the array, the place the next entry that stays gets, and
what the sweep took out so far. -/
def sweepSlot (f : α → Option α × Nat) (s : Packed α × Nat × Nat) (i : Nat) :
    Packed α × Nat × Nat :=
  let (p, place, dropped) := s
  if p.places.getD i 0 = 0 then s
  else
    match p.entries[place]? with
    | none => s
    | some x =>
        match f x with
        | (none, n) =>
            ({ places := p.places.set i 0, entries := p.entries.eraseIdx place },
              place, dropped + n)
        | (some y, n) =>
            ({ places := p.places.set i (place + 1), entries := p.entries.set place y },
              place + 1, dropped + n)

/-- Goes over every slot once: each entry that stays gets its new place as the
walk passes it. Returns what it took out. -/
def sweep (f : α → Option α × Nat) (p : Packed α) : Packed α × Nat :=
  let (p, _, dropped) := (List.range p.places.length).foldl (sweepSlot f) (p, 0, 0)
  (p, dropped)

/-! ### The slots an array holds -/

/-- The marks of `slots`, the first filled one's being one past `k`. -/
def marks : Nat → List (Option α) → List Nat
  | _, [] => []
  | k, none :: slots => 0 :: marks k slots
  | k, some _ :: slots => (k + 1) :: marks (k + 1) slots

/-- The array that holds `slots`. -/
def pack (slots : List (Option α)) : Packed α where
  places := marks 0 slots
  entries := slots.reduceOption

@[simp] theorem length_marks (k : Nat) (slots : List (Option α)) :
    (marks k slots).length = slots.length := by
  induction slots generalizing k with
  | nil => rfl
  | cons x slots ih => cases x <;> simp [marks, ih]

theorem marks_append (k : Nat) (a b : List (Option α)) :
    marks k (a ++ b) = marks k a ++ marks (k + a.reduceOption.length) b := by
  induction a generalizing k with
  | nil => simp [marks]
  | cons x a ih =>
    cases x with
    | none => simp [marks, ih]
    | some c => simp [marks, ih, Nat.add_assoc, Nat.add_comm 1]

theorem countP_marks (k : Nat) (slots : List (Option α)) :
    (marks k slots).countP (· != 0) = slots.reduceOption.length := by
  induction slots generalizing k with
  | nil => rfl
  | cons x slots ih => cases x <;> simp [marks, ih]

/-- The marks of the slots before a place do not move with it. -/
theorem map_marks_of_le {f : Nat → Nat} (slots : List (Option α))
    (hk : k + slots.reduceOption.length ≤ place) (hf : ∀ m ≤ place, f m = m) :
    (marks k slots).map f = marks k slots := by
  induction slots generalizing k with
  | nil => rfl
  | cons x slots ih =>
    cases x with
    | none =>
      rw [marks, map_cons, hf 0 (zero_le _), ih hk]
    | some c =>
      rw [reduceOption_cons_of_some, length_cons] at hk
      rw [marks, map_cons, hf (k + 1) (by omega), ih (by omega)]

theorem map_marks_insert (slots : List (Option α)) (hk : place ≤ k) :
    (marks k slots).map (fun later => if place < later then later + 1 else later) =
      marks (k + 1) slots := by
  induction slots generalizing k with
  | nil => rfl
  | cons x slots ih =>
    cases x with
    | none => simp [marks, ih hk]
    | some c =>
      rw [marks, marks, map_cons, ih (by omega), if_pos (by omega)]

theorem map_marks_remove (slots : List (Option α)) (hk : place ≤ k) :
    (marks (k + 1) slots).map (fun later => if place + 1 < later then later - 1 else later) =
      marks k slots := by
  induction slots generalizing k with
  | nil => rfl
  | cons x slots ih =>
    cases x with
    | none => simp [marks, ih hk]
    | some c =>
      rw [marks, marks, map_cons, ih (by omega), if_pos (by omega)]
      rfl

/-! ### One slot -/

theorem marks_split (a b : List (Option α)) (x : Option α) :
    marks 0 (a ++ x :: b) = marks 0 a ++ marks a.reduceOption.length (x :: b) := by
  rw [marks_append, Nat.zero_add]

theorem find_split (a b : List (Option α)) (x : α) :
    (pack (a ++ some x :: b)).find a.length = .ok a.reduceOption.length := by
  have hget : (pack (a ++ some x :: b)).places.getD a.length 0 = a.reduceOption.length + 1 := by
    simp [pack, marks_split, marks]
  unfold find
  rw [hget]

variable {slots : List (Option α)} {i : Nat}

/-- An empty slot is found where its entry would go, and is filled there. -/
theorem find_pack_empty (h : slots[i]? = some none) : ∃ place, (pack slots).find i = .error place ∧
      ∀ x, (pack slots).insert place i x = pack (slots.set i (some x)) ∧
        (pack (slots.set i (some x))).find i = .ok place := by
  obtain ⟨a, b, rfl, rfl⟩ := split_at h
  have hlen : a.length = (marks 0 a).length := (length_marks 0 a).symm
  refine ⟨a.reduceOption.length, ?_, fun x => ?_⟩
  · have hget : (pack (a ++ none :: b)).places.getD a.length 0 = 0 := by
      simp [pack, marks_split, marks]
    have htake : (pack (a ++ none :: b)).places.take a.length = marks 0 a := by
      simp [pack, marks_split, marks]
    unfold find
    rw [hget, htake, countP_marks]
  · -- The marks before the slot stay, those after it move one place up.
    have hlow := map_marks_of_le (k := 0) a ((Nat.zero_add a.reduceOption.length).le)
      (f := fun later => if a.reduceOption.length < later then later + 1 else later)
      fun m hm => if_neg (not_lt.mpr hm)
    have hhigh := map_marks_insert b (le_refl a.reduceOption.length)
    refine ⟨?_, by rw [set_split _ _ rfl, find_split]⟩
    simp only [insert, pack, mk.injEq]
    constructor
    · rw [marks_split, map_append, hlow, marks, map_cons, hhigh, set_split _ _ hlen,
        set_split _ _ rfl, marks_split, marks]
    · simp [reduceOption_append, insertIdx_length]

/-- A filled slot is found at its entry, which may be changed or taken out there. -/
theorem find_pack_filled {x : α} (h : slots[i]? = some (some x)) :
    ∃ place, (pack slots).find i = .ok place ∧ (pack slots).entries[place]? = some x ∧
      (pack slots).remove place i = pack (slots.set i none) ∧
      ∀ y, (pack slots).put place y = pack (slots.set i (some y)) := by
  obtain ⟨a, b, rfl, rfl⟩ := split_at h
  have hlen : a.length = (marks 0 a).length := (length_marks 0 a).symm
  refine ⟨a.reduceOption.length, find_split a b x, ?_, ?_, fun y => ?_⟩
  · simp [pack, reduceOption_append]
  · have hlow := map_marks_of_le (k := 0) a ((Nat.zero_add a.reduceOption.length).le)
      (f := fun later => if a.reduceOption.length + 1 < later then later - 1 else later)
      fun m hm => if_neg (by omega)
    have hhigh := map_marks_remove b (le_refl a.reduceOption.length)
    simp only [remove, pack, mk.injEq]
    constructor
    · rw [marks_split, marks, set_split _ _ hlen, map_append, hlow, map_cons, hhigh,
        set_split _ _ rfl, marks_split, marks]
      simp
    · simp [reduceOption_append, eraseIdx_append_of_length_le]
  · simp only [put, pack, mk.injEq]
    constructor
    · simp [marks_split, marks]
    · simp [reduceOption_append]

theorem get?_pack (slots : List (Option α)) (i : Nat) : (pack slots).get? i = slots[i]?.join := by
  unfold get?
  cases h : slots[i]? with
  | none =>
    have hget : (pack slots).places.getD i 0 = 0 := by
      have hi : slots.length ≤ i := getElem?_eq_none_iff.mp h
      simp [pack, hi]
    have hfind : (pack slots).find i = .error (((pack slots).places.take i).countP (· != 0)) := by
      unfold find
      rw [hget]
    simp [hfind]
  | some x =>
    cases x with
    | none =>
      obtain ⟨place, hfind, -⟩ := find_pack_empty h
      simp [hfind]
    | some c =>
      obtain ⟨place, hfind, hget, -⟩ := find_pack_filled h
      simp [hfind, hget]

/-! ### A sweep of every slot -/

/-- A slot after a sweep. -/
def swept (f : α → Option α × Nat) (slot : Option α) : Option α :=
  slot.bind fun x => (f x).1

/-- The slots gone over hold what stayed of them; the marks of the others are those
of before, whose places the walk has not come to. -/
theorem foldl_sweepSlot (f : α → Option α × Nat) (rest : List (Option α)) :
    ∀ (done : List (Option α)) (k dropped : Nat), ∃ dropped',
      (range' done.length rest.length).foldl (sweepSlot f)
          (⟨marks 0 done ++ marks k rest, done.reduceOption ++ rest.reduceOption⟩,
            done.reduceOption.length, dropped) =
        (pack (done ++ rest.map (swept f)),
          (done ++ rest.map (swept f)).reduceOption.length, dropped') := by
  induction rest with
  | nil =>
    intro done k dropped
    exact ⟨dropped, by simp [pack, marks]⟩
  | cons slot rest ih =>
    intro done k dropped
    rw [length_cons, range'_succ, foldl_cons]
    -- One slot leaves what stays of it.
    obtain ⟨k', dropped₁, hstep⟩ : ∃ k' dropped₁, sweepSlot f
        (⟨marks 0 done ++ marks k (slot :: rest), done.reduceOption ++ (slot :: rest).reduceOption⟩,
          done.reduceOption.length, dropped) done.length =
        (⟨marks 0 (done ++ [swept f slot]) ++ marks k' rest,
          (done ++ [swept f slot]).reduceOption ++ rest.reduceOption⟩,
          (done ++ [swept f slot]).reduceOption.length, dropped₁) := by
      cases slot with
      | none =>
        refine ⟨k, dropped, ?_⟩
        simp [sweepSlot, swept, marks, marks_append, reduceOption_append]
      | some x =>
        refine ⟨k + 1, dropped + (f x).2, ?_⟩
        rcases hx : f x with ⟨_ | y, n⟩
        · simp [sweepSlot, swept, hx, marks, marks_append, reduceOption_append,
            eraseIdx_append_of_length_le]
        · simp [sweepSlot, swept, hx, marks, marks_append, reduceOption_append]
    obtain ⟨dropped', hrest⟩ := ih (done ++ [swept f slot]) k' dropped₁
    rw [length_append, length_singleton] at hrest
    exact ⟨dropped', by rw [hstep, hrest]; simp⟩

/-- A sweep does to each slot what it does to its entry. -/
theorem sweep_pack (f : α → Option α × Nat) (slots : List (Option α)) :
    (sweep f (pack slots)).1 = pack (slots.map (swept f)) := by
  obtain ⟨dropped, h⟩ := foldl_sweepSlot f slots [] 0 0
  have hrange : range (pack slots).places.length = range' 0 slots.length := by
    simp [pack, range_eq_range']
  simp only [sweep, hrange]
  simp only [length_nil, marks, nil_append, reduceOption_nil] at h
  rw [show pack slots = ⟨marks 0 slots, slots.reduceOption⟩ from rfl, h]

end Packed

end Grafeo.Lib
