import Mathlib.Data.List.Nodup

/-!
# Grafeo.Rdf.Minus

**`MINUS` as an anti join** (`plan_anti_join` of `grafeo-engine/src/query/planner/rdf/mod.rs`,
`build_anti_join` of `grafeo-engine/src/query/planner/common.rs`), over the keys of
`grafeo-core/src/execution/operators/join.rs`.

A solution is a row with a term id in each column, or nothing where it leaves the variable unbound.
The join hashes all the columns the two sides share, so a key of several columns takes two unbound
variables for the same term, and an unbound one and a bound one for different terms.
-/

namespace Grafeo.Rdf

open List

/-- The columns of an operator: each variable has one. -/
structure Columns where
  names : List String
  nodup : names.Nodup

/-- A row: one value for each column. -/
structure Row (Id : Type) (columns : Columns) where
  values : List (Option Id)
  width : values.length = columns.names.length
deriving DecidableEq

variable {Id : Type} {columns left right : Columns}

/-- The variables both sides have a column for, in the order of the right side's. -/
def shared (left right : Columns) : List String :=
  right.names.filter (· ∈ left.names)

/-! ### The solutions to take out -/

namespace Row

/-- The solution a row is. -/
def value (row : Row Id columns) (x : String) : Option Id :=
  row.values[columns.names.idxOf x]?.join

def binds (row : Row Id columns) (x : String) : Bool := (row.value x).isSome

/-- Two solutions are compatible: the same term for every variable that both bind. -/
abbrev Compatible (row : Row Id left) (other : Row Id right) : Prop :=
  ∀ x ∈ shared left right, ∀ a ∈ row.value x, ∀ b ∈ other.value x, a = b

/-- The variables that both sides have are bound by both solutions or by neither. -/
def BindsAlike (row : Row Id left) (other : Row Id right) : Prop :=
  ∀ x ∈ shared left right, row.binds x = other.binds x

/-- A variable is bound by both solutions. -/
abbrev Overlaps (row : Row Id left) (other : Row Id right) : Prop :=
  ∃ x ∈ shared left right, row.binds x = true ∧ other.binds x = true

end Row

/-- `P MINUS Q`: the solutions of `P` that no compatible solution of `Q` shares a bound variable
with. -/
def minus [DecidableEq Id] (p : List (Row Id left)) (q : List (Row Id right)) :
    List (Row Id left) :=
  p.filter fun row => ∀ other ∈ q, ¬(row.Compatible other ∧ row.Overlaps other)

/-! ### The plan -/

/-- The forms of `HashKey` that rows of term ids have. -/
inductive RowKey (Id : Type) where
  | null
  | id (id : Id)
  | composite (keys : List (Option Id))
deriving DecidableEq

/-- The columns of the right side that the left side has, by their places in both. -/
def findSharedJoinKeys (left right : List String) : List Nat × List Nat :=
  ((right.zipIdx.filter fun column => column.1 ∈ left).map fun column =>
    (left.idxOf column.1, column.2)).unzip

def extractKey (row : Row Id columns) (keyColumns : List Nat) : RowKey Id :=
  match keyColumns.map fun column => row.values[column]?.join with
  | [none] => .null
  | [some id] => .id id
  | keys => .composite keys

/-- `HashJoinOperator` as an anti join: the rows of the build side are hashed, those with the key
`Null` apart, and a probe row is kept when none has its key. -/
def antiJoin [DecidableEq Id] (probe : List (Row Id left)) (build : List (Row Id right))
    (probeKeys buildKeys : List Nat) : List (Row Id left) :=
  let table := (build.map fun row => extractKey row buildKeys).filter (· ≠ .null)
  probe.filter fun row => extractKey row probeKeys ∉ table

def buildAntiJoin [DecidableEq Id] (p : List (Row Id left)) (q : List (Row Id right)) :
    List (Row Id left) :=
  let (probeKeys, buildKeys) := findSharedJoinKeys left.names right.names
  if probeKeys.isEmpty then p else antiJoin p q probeKeys buildKeys

/-! ### The keys -/

theorem findSharedJoinKeys_eq (left right : Columns) :
    findSharedJoinKeys left.names right.names =
      ((shared left right).map left.names.idxOf, (shared left right).map right.names.idxOf) := by
  have hplaces : right.names.zipIdx = right.names.map fun x => (x, right.names.idxOf x) := by
    refine ext_getElem (by simp) fun i hi hi' => ?_
    simp [right.nodup.idxOf_getElem]
  rw [findSharedJoinKeys, hplaces, filter_map, map_map, unzip_eq_map, map_map, map_map]
  rfl

section

variable {row : Row Id left} {other : Row Id right}

/-- The two rows have the same key, and it is hashed. -/
def Matches (row : Row Id left) (other : Row Id right) : Prop :=
  extractKey other ((shared left right).map right.names.idxOf) =
      extractKey row ((shared left right).map left.names.idxOf) ∧
    extractKey row ((shared left right).map left.names.idxOf) ≠ .null

instance [DecidableEq Id] : Decidable (Matches row other) :=
  inferInstanceAs (Decidable (_ ∧ _))

/-- With one shared variable the rows with the same key are those to take out. -/
theorem matches_of_one (h : (shared left right).length = 1) :
    Matches row other ↔ row.Compatible other ∧ row.Overlaps other := by
  obtain ⟨x, hx⟩ := length_eq_one_iff.mp h
  simp only [Matches, Row.Compatible, Row.Overlaps, hx, extractKey, map_cons, map_nil,
    mem_singleton, forall_eq, exists_eq_left, Row.binds, Row.value]
  cases row.values[left.names.idxOf x]?.join <;>
    cases other.values[right.names.idxOf x]?.join <;> simp [eq_comm]

/-- With several, they are those that bind the same variables, to the same terms. -/
theorem matches_of_several (h : 1 < (shared left right).length) :
    Matches row other ↔ row.Compatible other ∧ row.BindsAlike other := by
  obtain ⟨x, y, rest, hshared⟩ : ∃ x y rest, shared left right = x :: y :: rest := by
    match hs : shared left right with
    | [] | [x] => simp [hs] at h
    | x :: y :: rest => exact ⟨x, y, rest, rfl⟩
  have hsame : Matches row other ↔
      (shared left right).map other.value = (shared left right).map row.value := by
    simp [Matches, hshared, extractKey, Row.value, Function.comp_def]
  have hvalue : ∀ a b : Option Id, b = a ↔
      (∀ x ∈ a, ∀ y ∈ b, x = y) ∧ a.isSome = b.isSome := by
    intro a b
    cases a <;> cases b <;> simp [eq_comm]
  rw [hsame, map_inj_left]
  simp only [hvalue, Row.Compatible, Row.BindsAlike, Row.binds, ← forall₂_and]

theorem buildAntiJoin_eq [DecidableEq Id] (p : List (Row Id left)) (q : List (Row Id right))
    (h : shared left right ≠ []) :
    buildAntiJoin p q = p.filter fun row => ∀ other ∈ q, ¬Matches row other := by
  simp [buildAntiJoin, findSharedJoinKeys_eq, h, antiJoin, Matches]

end

/-! ### When the plan is right -/

/-- The row with one term in place of all its terms. -/
def Row.blank [Inhabited Id] (row : Row Id columns) : Row Id columns where
  values := row.values.map (Option.map fun _ => default)
  width := by rw [length_map, row.width]

theorem Row.value_blank [Inhabited Id] (row : Row Id columns) (x : String) :
    row.blank.value x = (row.value x).map fun _ => default := by
  simp only [value, blank, getElem?_map]
  cases row.values[columns.names.idxOf x]? <;> rfl

theorem Row.binds_blank [Inhabited Id] (row : Row Id columns) : row.blank.binds = row.binds := by
  funext x
  rw [binds, value_blank, Option.isSome_map, binds]

end Grafeo.Rdf
