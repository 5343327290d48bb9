import Grafeo.Common.Value
import Grafeo.Lib.Bytes
import Mathlib.Data.BitVec

/-!
# Grafeo.Execution.HashKey

**The key of a value in a hash join** (`HashKey::from_value` of
`grafeo-core/src/execution/operators/join.rs`).

Nineteen kinds of values share eight kinds of keys: all that hold one number are keyed by it, and
all that hold several by the list of their keys, so values of different kinds can share a key.
`Apart` says of a set of kinds that no two values made of them do.
-/

namespace Grafeo.Execution

open List
open Common (Value)
open Lib (Byte)

/-- The values without values in them, floats apart. A zoned datetime is its instant, which is all
that `==` compares of it, and a decimal or an RDF term is taken up to `==`. -/
inductive Scalar (Decimal Term : Type) where
  | null
  | bool (b : Bool)
  | int64 (i : BitVec 64)
  | string (s : String)
  | bytes (b : List Byte)
  | timestamp (micros : BitVec 64)
  | date (days : BitVec 32)
  | time (nanos : BitVec 64) (offset : Option (BitVec 32))
  | duration (months days nanos : BitVec 64)
  | zonedDatetime (utcMicros : BitVec 64)
  | gCounter (counts : List (String × BitVec 64))
  | onCounter (pos neg : List (String × BitVec 64))
  | decimal (d : Decimal)
  | rdfTerm (t : Term)

/-- `HashKey`. -/
inductive HashKey (Decimal Term : Type) where
  | null
  | bool (b : Bool)
  | int64 (i : BitVec 64)
  | string (s : String)
  | bytes (b : List Byte)
  | composite (keys : List (HashKey Decimal Term))
  | decimal (d : Decimal)
  | term (t : Term)

variable {Decimal Term : Type}

/-- The sum of a counter's replicas. -/
def total (counts : List (String × BitVec 64)) : BitVec 64 :=
  (counts.map Prod.snd).sum

namespace HashKey

def fromScalar : Scalar Decimal Term → HashKey Decimal Term
  | .null => .null
  | .bool b => .bool b
  | .int64 i => .int64 i
  | .string s => .string s
  | .bytes b => .bytes b
  | .timestamp micros => .int64 micros
  | .date days => .int64 (days.signExtend 64)
  | .time nanos _ => .int64 nanos
  | .duration months days nanos => .composite [.int64 months, .int64 days, .int64 nanos]
  | .zonedDatetime utcMicros => .int64 utcMicros
  | .gCounter counts => .int64 (total counts)
  | .onCounter pos neg => .int64 (total pos - total neg)
  | .decimal d => .decimal d
  | .rdfTerm t => .term t

mutual

/-- `HashKey::from_value`. -/
def fromValue : Value (Scalar Decimal Term) String → HashKey Decimal Term
  | .scalar x => fromScalar x
  | .float64 bits => .int64 bits
  | .list items => .composite (fromEach items)
  | .map entries => .composite (fromEntries entries)
  | .vector floats => .composite (floats.map fun f => .int64 (f.setWidth 64))
  | .path nodes edges => .composite (fromEach nodes ++ fromEach edges)

def fromEach : List (Value (Scalar Decimal Term) String) → List (HashKey Decimal Term)
  | [] => []
  | item :: items => fromValue item :: fromEach items

def fromEntries : List (String × Value (Scalar Decimal Term) String) → List (HashKey Decimal Term)
  | [] => []
  | (k, v) :: entries => .composite [.string k, fromValue v] :: fromEntries entries

end

end HashKey

/-- The kinds of values. -/
inductive Kind where
  | null | bool | int64 | float64 | string | bytes | timestamp | date | time | duration
  | zonedDatetime | list | map | vector | path | gCounter | onCounter | decimal | rdfTerm
deriving DecidableEq

/-- The kind of a value. -/
def kind : Value (Scalar Decimal Term) String → Kind
  | .scalar x => match x with
    | .null => .null
    | .bool _ => .bool
    | .int64 _ => .int64
    | .string _ => .string
    | .bytes _ => .bytes
    | .timestamp _ => .timestamp
    | .date _ => .date
    | .time _ _ => .time
    | .duration _ _ _ => .duration
    | .zonedDatetime _ => .zonedDatetime
    | .gCounter _ => .gCounter
    | .onCounter _ _ => .onCounter
    | .decimal _ => .decimal
    | .rdfTerm _ => .rdfTerm
  | .float64 _ => .float64
  | .list _ => .list
  | .map _ => .map
  | .vector _ => .vector
  | .path _ _ => .path

mutual

/-- The value and every value in it is of one of the `kinds`. -/
def Of (kinds : Kind → Prop) : Value (Scalar Decimal Term) String → Prop
  | .list items => kinds .list ∧ OfEach kinds items
  | .map entries => kinds .map ∧ OfEntries kinds entries
  | .path nodes edges => kinds .path ∧ OfEach kinds nodes ∧ OfEach kinds edges
  | v => kinds (kind v)

def OfEach (kinds : Kind → Prop) : List (Value (Scalar Decimal Term) String) → Prop
  | [] => True
  | item :: items => Of kinds item ∧ OfEach kinds items

def OfEntries (kinds : Kind → Prop) : List (String × Value (Scalar Decimal Term) String) → Prop
  | [] => True
  | (_, v) :: entries => Of kinds v ∧ OfEntries kinds entries

end

/-- Kinds keyed by one number that tells their values apart. -/
def Kind.isNumber (k : Kind) : Bool :=
  k ∈ [Kind.int64, .float64, .timestamp, .date, .zonedDatetime]

/-- Kinds keyed by the keys of their elements. -/
def Kind.isSequence (k : Kind) : Bool := k ∈ [Kind.list, .map, .vector]

/-- Kinds whose keys leave a part of the value out, or run two together. -/
def Kind.mixed : List Kind := [.time, .gCounter, .onCounter, .path]

/-- No two values of these kinds share a key: times and counters, whose keys leave a part out, and
paths, whose nodes and edges run together, are not among them, at most one kind is a number and
at most one a sequence, and no sequence of numbers reads as a duration. -/
structure Apart (kinds : Kind → Prop) : Prop where
  whole (k : Kind) : kinds k → k ∉ Kind.mixed
  number (k l : Kind) : kinds k → kinds l → k.isNumber → l.isNumber → k = l
  sequence (k l : Kind) : kinds k → kinds l → k.isSequence → l.isSequence → k = l
  duration (k : Kind) : kinds .duration → ¬kinds .vector ∧ (kinds .list → k.isNumber → ¬kinds k)

/-! ### Apart, the key tells the value -/

/-- Which constructor of `HashKey` a kind is keyed by. -/
def Kind.keyed : Kind → Nat
  | .null => 0
  | .bool => 1
  | .string => 3
  | .bytes => 4
  | .duration | .list | .map | .vector | .path => 5
  | .decimal => 6
  | .rdfTerm => 7
  | _ => 2

open HashKey (fromValue fromScalar fromEach fromEntries)

variable {kinds : Kind → Prop} {a b : Value (Scalar Decimal Term) String}

theorem ctorIdx_fromValue (a : Value (Scalar Decimal Term) String) :
    (fromValue a).ctorIdx = (kind a).keyed := by
  cases a with
  | scalar x => cases x <;> rw [fromValue] <;> rfl
  | _ => rw [fromValue]; rfl

theorem Of.kind (h : Of kinds a) : kinds (kind a) := by
  cases a <;> simp_all [Of, Execution.kind]

theorem kind_cases (h : Apart kinds) (ha : Of kinds a) (hb : Of kinds b)
    (heq : fromValue a = fromValue b) :
    kind a = kind b ∨ (kind a = .duration ∧ (kind b).isSequence) ∨
      ((kind a).isSequence ∧ kind b = .duration) := by
  have hkeyed : (kind a).keyed = (kind b).keyed := by
    rw [← ctorIdx_fromValue, ← ctorIdx_fromValue, heq]
  have hsplit : ∀ k l : Kind, k.keyed = l.keyed → k ∉ Kind.mixed → l ∉ Kind.mixed →
      k = l ∨ k.isNumber ∧ l.isNumber ∨ k.isSequence ∧ l.isSequence ∨
        k = .duration ∧ l.isSequence ∨ k.isSequence ∧ l = .duration := by
    intro k l
    cases k <;> cases l <;> decide
  obtain heq | ⟨hk, hl⟩ | ⟨hk, hl⟩ | hrest :=
    hsplit _ _ hkeyed (h.whole _ ha.kind) (h.whole _ hb.kind)
  · exact .inl heq
  · exact .inl (h.number _ _ ha.kind hb.kind hk hl)
  · exact .inl (h.sequence _ _ ha.kind hb.kind hk hl)
  · exact .inr hrest

/-- The key of a duration is no sequence's. -/
theorem fromValue_ne_duration (h : Apart kinds) (ha : Of kinds a) (hduration : kinds .duration)
    (hsequence : (kind a).isSequence) (months days nanos : BitVec 64) :
    fromValue a ≠ .composite [.int64 months, .int64 days, .int64 nanos] := by
  intro heq
  cases a with
  | scalar x => cases x <;> cases hsequence
  | float64 | path => cases hsequence
  | vector floats => exact (h.duration .null hduration).1 ha.kind
  | map entries =>
    rw [fromValue, HashKey.composite.injEq] at heq
    cases entries <;> simp [fromEntries] at heq
  | list items =>
    rw [fromValue, HashKey.composite.injEq] at heq
    cases items with
    | nil => simp [fromEach] at heq
    | cons item items =>
      rw [fromEach, cons.injEq] at heq
      have hitem : Of kinds item := ha.2.1
      have hkeyed : (kind item).keyed = 2 := by rw [← ctorIdx_fromValue, heq.1]; rfl
      have hnumber : ∀ k : Kind, k.keyed = 2 → k ∉ Kind.mixed → k.isNumber := by
        intro k
        cases k <;> decide
      exact (h.duration _ hduration).2 ha.1 (hnumber _ hkeyed (h.whole _ hitem.kind)) hitem.kind

theorem eq_duration (ha : kind a = .duration) :
    ∃ months days nanos, a = .scalar (.duration months days nanos) := by
  cases a with
  | scalar x => cases x <;> simp_all [kind]
  | _ => cases ha

theorem kind_eq (h : Apart kinds) (ha : Of kinds a) (hb : Of kinds b)
    (heq : fromValue a = fromValue b) : kind a = kind b := by
  obtain heq | ⟨hka, hkb⟩ | ⟨hka, hkb⟩ := kind_cases h ha hb heq
  · exact heq
  · obtain ⟨months, days, nanos, rfl⟩ := eq_duration hka
    exact absurd heq.symm (fromValue_ne_duration h hb ha.kind hkb _ _ _)
  · obtain ⟨months, days, nanos, rfl⟩ := eq_duration hkb
    exact absurd heq (fromValue_ne_duration h ha hb.kind hka _ _ _)

theorem signExtend_inj {x y : BitVec 32} (h : x.signExtend 64 = y.signExtend 64) : x = y := by
  have hx (z : BitVec 32) := BitVec.toInt_signExtend_of_le (x := z) (v := 64) (by decide)
  exact BitVec.eq_of_toInt_eq (by rw [← hx, ← hx, h])

theorem setWidth_inj {x y : BitVec 32} (h : x.setWidth 64 = y.setWidth 64) : x = y := by
  have := congrArg (BitVec.setWidth 32) h
  simpa using this

mutual

theorem fromValue_inj (h : Apart kinds) : ∀ (a b : Value (Scalar Decimal Term) String),
    Of kinds a → Of kinds b → fromValue a = fromValue b → a = b := by
  intro a b ha hb heq
  have hkind := kind_eq h ha hb heq
  have hwhole := h.whole _ ha.kind
  match a, b with
  | .scalar x, .scalar y =>
    cases x <;> cases y <;>
      simp_all [fromValue, fromScalar, kind, Kind.mixed]
    exact signExtend_inj heq
  | .float64 x, .float64 y => simp_all [fromValue]
  | .vector x, .vector y =>
    simp only [fromValue, HashKey.composite.injEq] at heq
    rw [map_injective_iff.mpr (fun f g h => setWidth_inj (HashKey.int64.inj h)) heq]
  | .list items, .list items' =>
    rw [fromEach_inj h items items' ha.2 hb.2 (by simpa [fromValue] using heq)]
  | .map entries, .map entries' =>
    rw [fromEntries_inj h entries entries' ha.2 hb.2 (by simpa [fromValue] using heq)]
  | .path .., _ => simp [kind, Kind.mixed] at hwhole
  | .scalar x, .float64 _ | .scalar x, .vector _ | .scalar x, .list _ | .scalar x, .map _
  | .scalar x, .path _ _ | .float64 _, .scalar x | .vector _, .scalar x | .list _, .scalar x
  | .map _, .scalar x => cases x <;> cases hkind

theorem fromEach_inj (h : Apart kinds) : ∀ (a b : List (Value (Scalar Decimal Term) String)),
    OfEach kinds a → OfEach kinds b → fromEach a = fromEach b → a = b
  | [], [], _, _, _ => rfl
  | [], _ :: _, _, _, heq | _ :: _, [], _, _, heq => by simp [fromEach] at heq
  | a :: as, b :: bs, ha, hb, heq => by
    rw [fromEach, fromEach, cons.injEq] at heq
    rw [fromValue_inj h a b ha.1 hb.1 heq.1, fromEach_inj h as bs ha.2 hb.2 heq.2]

theorem fromEntries_inj (h : Apart kinds) :
    ∀ (a b : List (String × Value (Scalar Decimal Term) String)),
    OfEntries kinds a → OfEntries kinds b → fromEntries a = fromEntries b → a = b
  | [], [], _, _, _ => rfl
  | [], _ :: _, _, _, heq | _ :: _, [], _, _, heq => by simp [fromEntries] at heq
  | (k, a) :: as, (l, b) :: bs, ha, hb, heq => by
    simp only [fromEntries, cons.injEq, HashKey.composite.injEq, HashKey.string.injEq,
      and_true] at heq
    rw [heq.1.1, fromValue_inj h a b ha.1 hb.1 heq.1.2, fromEntries_inj h as bs ha.2 hb.2 heq.2]

end

/-! ### Not apart, two values share a key -/

variable (Decimal Term) in
/-- Each kind of number has a value keyed by zero, and each kind of sequence one keyed by no
elements. -/
theorem exists_zero {k : Kind} (hk : k.isNumber) (hkinds : kinds k) :
    ∃ v : Value (Scalar Decimal Term) String,
      kind v = k ∧ Of kinds v ∧ fromValue v = .int64 0 := by
  cases k <;> cases hk
  · exact ⟨.scalar (.int64 0), rfl, hkinds, rfl⟩
  · exact ⟨.float64 0, rfl, hkinds, rfl⟩
  · exact ⟨.scalar (.timestamp 0), rfl, hkinds, rfl⟩
  · exact ⟨.scalar (.date 0), rfl, hkinds, rfl⟩
  · exact ⟨.scalar (.zonedDatetime 0), rfl, hkinds, rfl⟩

variable (Decimal Term) in
theorem exists_empty {k : Kind} (hk : k.isSequence) (hkinds : kinds k) :
    ∃ v : Value (Scalar Decimal Term) String,
      kind v = k ∧ Of kinds v ∧ fromValue v = .composite [] := by
  cases k <;> cases hk
  · exact ⟨.list [], rfl, ⟨hkinds, trivial⟩, rfl⟩
  · exact ⟨.map [], rfl, ⟨hkinds, trivial⟩, rfl⟩
  · exact ⟨.vector [], rfl, hkinds, rfl⟩

/-- Values of the kinds have the same key exactly when they are the same value of the same kind,
when and only when the kinds are apart. -/
theorem hash_key_eq_iff (kinds : Kind → Prop) :
    (∀ a b : Value (Scalar Decimal Term) String, Of kinds a → Of kinds b →
      (HashKey.fromValue a = HashKey.fromValue b ↔ a = b)) ↔ Apart kinds := by
  refine ⟨fun h => ?_, fun h a b ha hb => ⟨fromValue_inj h a b ha hb, congrArg _⟩⟩
  constructor
  case whole =>
    intro k hk hmixed
    simp only [Kind.mixed, mem_cons, not_mem_nil, or_false] at hmixed
    obtain rfl | rfl | rfl | rfl := hmixed
    · cases (h (.scalar (.time 0 none)) (.scalar (.time 0 (some 0))) hk hk).mp rfl
    · cases (h (.scalar (.gCounter [])) (.scalar (.gCounter [("", 0)])) hk hk).mp rfl
    · cases (h (.scalar (.onCounter [] [])) (.scalar (.onCounter [("", 0)] [])) hk hk).mp rfl
    · have hpath : Of kinds (.path [] [] : Value (Scalar Decimal Term) String) :=
        ⟨hk, trivial, trivial⟩
      cases (h (.path [] [.path [] []]) (.path [.path [] []] []) ⟨hk, trivial, hpath, trivial⟩
        ⟨hk, ⟨hpath, trivial⟩, trivial⟩).mp rfl
  case number =>
    intro k l hk hl hkn hln
    obtain ⟨v, rfl, hv, hkey⟩ := exists_zero Decimal Term hkn hk
    obtain ⟨w, rfl, hw, hkey'⟩ := exists_zero Decimal Term hln hl
    rw [(h v w hv hw).mp (hkey.trans hkey'.symm)]
  case sequence =>
    intro k l hk hl hks hls
    obtain ⟨v, rfl, hv, hkey⟩ := exists_empty Decimal Term hks hk
    obtain ⟨w, rfl, hw, hkey'⟩ := exists_empty Decimal Term hls hl
    rw [(h v w hv hw).mp (hkey.trans hkey'.symm)]
  case duration =>
    intro k hduration
    refine ⟨fun hvector => ?_, fun hlist hnumber hk => ?_⟩
    · cases (h (.scalar (.duration 0 0 0)) (.vector [0, 0, 0]) hduration hvector).mp rfl
    · obtain ⟨v, -, hv, hkey⟩ := exists_zero Decimal Term hnumber hk
      have heq := h (.scalar (.duration 0 0 0)) (.list [v, v, v]) hduration
        ⟨hlist, hv, hv, hv, trivial⟩
      cases heq.mp (by simp [fromValue, fromScalar, fromEach, hkey])

/-- An integer and a float share a key. -/
theorem hash_key_shared : ∃ a b : Value (Scalar Nat Nat) String,
    kind a ≠ kind b ∧ HashKey.fromValue a = HashKey.fromValue b :=
  ⟨.scalar (.int64 0), .float64 0, by decide, rfl⟩

end Grafeo.Execution
