import Grafeo.Lib.Ascending
import Mathlib.Data.List.Perm.Subperm

/-!
# Grafeo.Common.Value

**Property values and their two equalities** (`grafeo-common/src/types/value.rs`).

`==` compares floats as IEEE does: the two zeros are equal, and no NaN equals anything. A
`HashableValue` compares them by their bits (`valuesHashEq`), so that values can key a hash
table. Both go through lists, maps, vectors and paths element by element, and every other
kind of value has one equality of its own.

A float is its bit pattern. The kinds of values with one equality (nulls, booleans, integers,
strings, dates, decimals and the like) are `Scalar`s, taken up to that equality. A map is a
`BTreeMap`: its keys go up (`Value.Ok`), and then `valuesHashEq` is equality (`hashEq_iff`).
-/

namespace Grafeo.Common

open List Bool

/-- A value. -/
inductive Value (Scalar Key : Type) where
  | scalar (x : Scalar)
  | float64 (bits : BitVec 64)
  | vector (floats : List (BitVec 32))
  | list (items : List (Value Scalar Key))
  | map (entries : List (Key × Value Scalar Key))
  | path (nodes edges : List (Value Scalar Key))

/-! ### Floats -/

/-- `==` of two floats of one format: `magnitude` masks the sign out, and a magnitude above
`infinity` is a NaN. -/
def ieeeEq {n : Nat} (magnitude infinity a b : BitVec n) : Bool :=
  !decide (infinity < a &&& magnitude) && !decide (infinity < b &&& magnitude) &&
    (decide (a = b) || decide (a &&& magnitude = 0) && decide (b &&& magnitude = 0))

/-- `==` of two `f64`. -/
def f64Eq (a b : BitVec 64) : Bool := ieeeEq 0x7fffffffffffffff#64 0x7ff0000000000000#64 a b

/-- `==` of two `f32`. -/
def f32Eq (a b : BitVec 32) : Bool := ieeeEq 0x7fffffff#32 0x7f800000#32 a b

namespace Value

variable {Scalar Key : Type} [DecidableEq Scalar] [LinearOrder Key]

/-! ### The two equalities -/

mutual

/-- `==`. -/
def eq : Value Scalar Key → Value Scalar Key → Bool
  | scalar a, scalar b => decide (a = b)
  | float64 a, float64 b => f64Eq a b
  | vector a, vector b => a.length == b.length && (a.zip b).all fun p => f32Eq p.1 p.2
  | list a, list b => eqEach a b
  | map a, map b => eqEntries a b
  | path an ae, path bn be => eqEach an bn && eqEach ae be
  | _, _ => false

/-- `==` of two lists of values, element by element. -/
def eqEach : List (Value Scalar Key) → List (Value Scalar Key) → Bool
  | [], [] => true
  | a :: as, b :: bs => eq a b && eqEach as bs
  | _, _ => false

/-- `==` of two maps, entry by entry in the order of their keys. -/
def eqEntries : List (Key × Value Scalar Key) → List (Key × Value Scalar Key) → Bool
  | [], [] => true
  | (k, a) :: as, (l, b) :: bs => decide (k = l) && eq a b && eqEntries as bs
  | _, _ => false

end

mutual

/-- The equality of a `HashableValue`: floats by their bits. -/
def valuesHashEq : Value Scalar Key → Value Scalar Key → Bool
  | scalar a, scalar b => decide (a = b)
  | float64 a, float64 b => decide (a = b)
  | vector a, vector b => a.length == b.length && (a.zip b).all fun p => decide (p.1 = p.2)
  | list a, list b => a.length == b.length && hashEqEach a b
  | map a, map b => a.length == b.length && hashEqFound b a
  | path an ae, path bn be =>
      an.length == bn.length && ae.length == be.length && hashEqEach an bn && hashEqEach ae be
  | _, _ => false

/-- Whether the elements of two lists, side by side, are equal. -/
def hashEqEach : List (Value Scalar Key) → List (Value Scalar Key) → Bool
  | a :: as, b :: bs => valuesHashEq a b && hashEqEach as bs
  | _, _ => true

/-- Whether each entry's value is the one `b` has under its key. -/
def hashEqFound (b : List (Key × Value Scalar Key)) : List (Key × Value Scalar Key) → Bool
  | [] => true
  | (k, a) :: as =>
      (match b.lookup k with
        | some found => valuesHashEq a found
        | none => false) && hashEqFound b as

end

mutual

/-- The keys of every map go up. -/
def Ok : Value Scalar Key → Prop
  | scalar _ | float64 _ | vector _ => True
  | list items => OkEach items
  | map entries => Lib.Ascending entries ∧ OkEntries entries
  | path nodes edges => OkEach nodes ∧ OkEach edges

/-- The keys of every map of the values go up. -/
def OkEach : List (Value Scalar Key) → Prop
  | [] => True
  | a :: as => Ok a ∧ OkEach as

/-- The keys of every map of the entries' values go up. -/
def OkEntries : List (Key × Value Scalar Key) → Prop
  | [] => True
  | (_, a) :: as => Ok a ∧ OkEntries as

end

/-! ### Hash equality is equality -/

theorem zip_all_iff {α : Type} [DecidableEq α] {a b : List α} (h : a.length = b.length) :
    ((a.zip b).all fun p => decide (p.1 = p.2)) = true ↔ a = b := by
  induction a generalizing b with
  | nil => simp [length_eq_zero_iff.mp h.symm]
  | cons x a ih =>
    cases b with
    | nil => cases h
    | cons y b => simp [ih (Nat.succ.inj h)]

/-- Maps of as many entries are equal when one has each entry of the other. -/
theorem entries_eq_of_found {a b : List (Key × Value Scalar Key)} (ha : Lib.Ascending a)
    (hb : Lib.Ascending b) (hlength : a.length = b.length)
    (hfound : ∀ entry ∈ a, b.lookup entry.1 = some entry.2) : a = b := by
  have hnodup : a.Nodup := Pairwise.imp (fun hlt heq => absurd (congrArg Prod.fst heq) hlt.ne) ha
  have hsub : a ⊆ b := fun entry hentry => Lib.mem_of_lookup (hfound entry hentry)
  have hperm : a.Perm b := (subperm_of_subset hnodup hsub).perm_of_length_le hlength.ge
  exact hperm.eq_of_pairwise (fun x y _ _ hxy hyx => absurd hxy hyx.asymm) ha hb

theorem okEntries_lookup {b : List (Key × Value Scalar Key)} {k : Key} {found : Value Scalar Key}
    (h : OkEntries b) (hlookup : b.lookup k = some found) : found.Ok := by
  induction b with
  | nil => cases hlookup
  | cons entry b ih =>
    rw [lookup_cons] at hlookup
    split at hlookup
    · cases hlookup
      exact h.1
    · exact ih h.2 hlookup

mutual

/-- **Hash equality is equality**, of values whose maps are ordered. -/
theorem hashEq_iff : ∀ (a b : Value Scalar Key), a.Ok → b.Ok → (valuesHashEq a b = true ↔ a = b)
  | scalar a, b, _, _ | float64 a, b, _, _ => by cases b <;> simp [valuesHashEq]
  | vector a, b, _, _ => by
    cases b with
    | vector b =>
      rw [valuesHashEq, and_eq_true, beq_iff_eq, vector.injEq]
      constructor
      · rintro ⟨hlength, hall⟩
        exact (zip_all_iff hlength).mp hall
      · rintro rfl
        exact ⟨rfl, (zip_all_iff rfl).mpr rfl⟩
    | _ => simp [valuesHashEq]
  | list a, b, ha, hb => by
    cases b with
    | list b =>
      rw [valuesHashEq, and_eq_true, beq_iff_eq, list.injEq]
      constructor
      · rintro ⟨hlength, heach⟩
        exact (hashEqEach_iff a b ha hb hlength).mp heach
      · rintro rfl
        exact ⟨rfl, (hashEqEach_iff a a ha ha rfl).mpr rfl⟩
    | _ => simp [valuesHashEq]
  | map a, b, ha, hb => by
    cases b with
    | map b =>
      rw [valuesHashEq, and_eq_true, beq_iff_eq, map.injEq]
      have hfound := hashEqFound_iff b a ha.2 hb.2
      constructor
      · rintro ⟨hlength, heach⟩
        exact entries_eq_of_found ha.1 hb.1 hlength (hfound.mp heach)
      · rintro rfl
        exact ⟨rfl, hfound.mpr fun entry hentry => Lib.lookup_of_mem ha.1 hentry⟩
    | _ => simp [valuesHashEq]
  | path an ae, b, ha, hb => by
    cases b with
    | path bn be =>
      simp only [valuesHashEq, and_eq_true, beq_iff_eq, path.injEq]
      constructor
      · rintro ⟨⟨⟨hn, he⟩, hnodes⟩, hedges⟩
        exact ⟨(hashEqEach_iff an bn ha.1 hb.1 hn).mp hnodes,
          (hashEqEach_iff ae be ha.2 hb.2 he).mp hedges⟩
      · rintro ⟨rfl, rfl⟩
        exact ⟨⟨⟨rfl, rfl⟩, (hashEqEach_iff an an ha.1 ha.1 rfl).mpr rfl⟩,
          (hashEqEach_iff ae ae ha.2 ha.2 rfl).mpr rfl⟩
    | _ => simp [valuesHashEq]

theorem hashEqEach_iff : ∀ (a b : List (Value Scalar Key)), OkEach a → OkEach b →
    a.length = b.length → (hashEqEach a b = true ↔ a = b)
  | [], b, _, _, hlength => by
    rw [length_eq_zero_iff.mp hlength.symm]
    simp [hashEqEach]
  | x :: a, b, ha, hb, hlength => by
    cases b with
    | nil => cases hlength
    | cons y b =>
      rw [hashEqEach, and_eq_true, hashEq_iff x y ha.1 hb.1,
        hashEqEach_iff a b ha.2 hb.2 (Nat.succ.inj hlength), cons.injEq]

theorem hashEqFound_iff : ∀ (b a : List (Key × Value Scalar Key)), OkEntries a → OkEntries b →
    (hashEqFound b a = true ↔ ∀ entry ∈ a, b.lookup entry.1 = some entry.2)
  | b, [], _, _ => by simp [hashEqFound]
  | b, (k, x) :: a, ha, hb => by
    rw [hashEqFound, and_eq_true, hashEqFound_iff b a ha.2 hb, forall_mem_cons]
    refine and_congr_left' ?_
    cases hlookup : b.lookup k with
    | none => simp
    | some found =>
      have hfound : found.Ok := okEntries_lookup hb hlookup
      simp [hashEq_iff x found ha.1 hfound, eq_comm]

end

end Value

/-- A value whose maps are ordered, as every value is. -/
abbrev OrderedValue (Scalar Key : Type) [LinearOrder Key] := { v : Value Scalar Key // v.Ok }

/-- Values are told apart as a `HashableValue` tells them apart. -/
instance {Scalar Key : Type} [DecidableEq Scalar] [LinearOrder Key] :
    DecidableEq (OrderedValue Scalar Key) := fun a b =>
  decidable_of_iff (Value.valuesHashEq a.1 b.1 = true)
    ((Value.hashEq_iff a.1 b.1 a.2 b.2).trans Subtype.ext_iff.symm)

end Grafeo.Common
