import Mathlib.Data.Fintype.Basic

/-!
# Grafeo.Rdf.Values

**Inline data in a group** (`translate_group_returning` of `query/translators/sparql.rs`):
the patterns before a block of `VALUES` are joined with the block's rows, each a chain of
`Bind`s on the unit. A block with an `UNDEF` entry over anything but the unit becomes a
`Union` of copies of the patterns instead, one per row, each under a `Filter` that compares
the row's terms by `=`.

A filter binds nothing: `values_exact_iff` says when the copies are the join all the same.
-/

namespace Grafeo.Rdf

open List

/-- What each variable of the query is bound to. -/
abbrev Solution (Var Id : Type) := Var → Option Id

/-- The plans of a group with inline data. `patterns` is what comes before the block, with its
solutions; a filter is a conjunction of `var = id`. -/
inductive LogicalOperator (Var Id : Type)
  | empty
  | patterns (solutions : List (Solution Var Id))
  | bind (var : Var) (value : Option Id) (input : LogicalOperator Var Id)
  | filter (conditions : List (Var × Id)) (input : LogicalOperator Var Id)
  | filterFalse (input : LogicalOperator Var Id)
  | union (inputs : List (LogicalOperator Var Id))
  | join (left right : LogicalOperator Var Id)

namespace LogicalOperator

section Translate

variable {Var Id : Type}

/-- The branches of a union; a single one stands alone. -/
def ofBranches : List (LogicalOperator Var Id) → LogicalOperator Var Id
  | [branch] => branch
  | branches => union branches

/-- A block in `translate_graph_pattern`: rows of terms for `vars`, `none` where `UNDEF`. -/
def inlineData (vars : List Var) (values : List (List (Option Id))) : LogicalOperator Var Id :=
  if values.isEmpty then filterFalse (vars.foldl (fun plan var => bind var none plan) empty)
  else ofBranches (values.map fun row => (vars.zip row).foldl (fun plan entry =>
    if entry.2.isSome then bind entry.1 entry.2 plan else plan) empty)

def joinPatterns : LogicalOperator Var Id → LogicalOperator Var Id → LogicalOperator Var Id
  | empty, right => right
  | left, empty => left
  | left, right => join left right

def isUnit : LogicalOperator Var Id → Bool
  | empty => true
  | _ => false

/-- What a row's copy of the patterns is filtered by. -/
def conditions (vars : List Var) (row : List (Option Id)) : List (Var × Id) :=
  (vars.zip row).filterMap fun (var, value) => value.map (var, ·)

/-- A block after `plan` in `translate_group_returning`. -/
def withInlineData (plan : LogicalOperator Var Id) (vars : List Var)
    (values : List (List (Option Id))) : LogicalOperator Var Id :=
  if values.any (·.any Option.isNone) && !plan.isUnit then
    ofBranches (values.map fun row =>
      if (conditions vars row).isEmpty then plan else filter (conditions vars row) plan)
  else joinPatterns plan (inlineData vars values)

end Translate

variable {Var Id : Type} [Fintype Var] [DecidableEq Var] [DecidableEq Id]

/-- Two solutions agree on what both bind. -/
def Compatible (μ ν : Solution Var Id) : Prop :=
  ∀ x, ∀ a ∈ μ x, ∀ b ∈ ν x, a = b

instance (μ ν : Solution Var Id) : Decidable (Compatible μ ν) :=
  inferInstanceAs (Decidable (∀ x, ∀ a ∈ μ x, ∀ b ∈ ν x, a = b))

/-- What either of two solutions binds. -/
def merge (μ ν : Solution Var Id) : Solution Var Id :=
  fun x => (μ x).or (ν x)

/-- The SPARQL Join of two lists of solutions. -/
def joinSolutions (left right : List (Solution Var Id)) : List (Solution Var Id) :=
  left.flatMap fun μ => right.flatMap fun ν => if Compatible μ ν then [merge μ ν] else []

/-- A row of a block as a solution: an entry that is not `UNDEF` binds its variable. -/
def rowSolution (vars : List Var) (row : List (Option Id)) : Solution Var Id :=
  (vars.zip row).foldl (fun μ entry =>
    if entry.2.isSome then Function.update μ entry.1 entry.2 else μ) fun _ => none

/-- A filter, with the engine's `=` of terms. A comparison with an unbound variable is an
error, which a filter takes for false. -/
def meets (eq : Id → Id → Bool) (conditions : List (Var × Id)) (μ : Solution Var Id) : Bool :=
  conditions.all fun (var, id) => (μ var).any (eq · id)

mutual

/-- The solutions of a plan. -/
def rows (eq : Id → Id → Bool) : LogicalOperator Var Id → List (Solution Var Id)
  | empty => [fun _ => none]
  | patterns solutions => solutions
  | bind var value input => (input.rows eq).map (Function.update · var value)
  | filter conditions input => (input.rows eq).filter (meets eq conditions)
  | filterFalse _ => []
  | union inputs => rowsAll eq inputs
  | join left right => joinSolutions (left.rows eq) (right.rows eq)

def rowsAll (eq : Id → Id → Bool) : List (LogicalOperator Var Id) → List (Solution Var Id)
  | [] => []
  | input :: inputs => input.rows eq ++ rowsAll eq inputs

end

variable {eq : Id → Id → Bool} {vars : List Var} {μ : Solution Var Id}

theorem rowsAll_eq (inputs : List (LogicalOperator Var Id)) :
    rowsAll eq inputs = inputs.flatMap (rows eq) := by
  induction inputs with
  | nil => rfl
  | cons input inputs ih => rw [rowsAll, ih, flatMap_cons]

theorem rows_ofBranches (branches : List (LogicalOperator Var Id)) :
    (ofBranches branches).rows eq = branches.flatMap (rows eq) := by
  fun_cases ofBranches branches with
  | case1 branch => simp
  | case2 => rw [rows, rowsAll_eq]

theorem rows_joinPatterns (left right : LogicalOperator Var Id) :
    (joinPatterns left right).rows eq = joinSolutions (left.rows eq) (right.rows eq) := by
  have hleft (μ : Solution Var Id) : merge (fun _ => none) μ = μ := rfl
  have hright (μ : Solution Var Id) : merge μ (fun _ => none) = μ :=
    funext fun _ => Option.or_none
  fun_cases joinPatterns left right <;> simp [rows, joinSolutions, Compatible, hleft, hright]

theorem rows_inlineData (values : List (List (Option Id))) :
    (inlineData vars values).rows eq = values.map (rowSolution vars) := by
  unfold inlineData
  split
  · simp_all [rows]
  · rw [rows_ofBranches, flatMap_map, map_eq_flatMap]
    refine flatMap_congr fun row _ => ?_
    -- one bind of the chain per entry
    refine foldl_rel (r := fun plan μ => rows eq plan = [μ]) rfl fun entry _ plan μ h => ?_
    split <;> simp [rows, h]

/-- The copies of the patterns, one solution of the patterns at a time. -/
theorem rows_withInlineData {plan : LogicalOperator Var Id} {values : List (List (Option Id))}
    (h : (values.any (·.any Option.isNone) && !plan.isUnit) = true) :
    ((plan.withInlineData vars values).rows eq).Perm ((plan.rows eq).flatMap fun μ =>
      values.flatMap fun row => if meets eq (conditions vars row) μ then [μ] else []) := by
  have hrow (row : List (Option Id)) :
      (if (conditions vars row).isEmpty then plan else filter (conditions vars row) plan).rows eq =
        (plan.rows eq).filter (meets eq (conditions vars row)) := by
    split
    next hempty =>
      rw [isEmpty_iff.mp hempty]
      exact (filter_eq_self.mpr fun _ _ => rfl).symm
    · rfl
  simp only [withInlineData, if_pos h, rows_ofBranches, flatMap_map, hrow]
  induction plan.rows eq with
  | nil => simp
  | cons μ rest ih =>
    have hcons (row : List (Option Id)) : (μ :: rest).filter (meets eq (conditions vars row)) =
        (if meets eq (conditions vars row) μ then [μ] else []) ++
          rest.filter (meets eq (conditions vars row)) := by
      rw [filter_cons]
      split <;> rfl
    simp only [hcons, flatMap_cons]
    exact (flatMap_append_perm ..).symm.trans (ih.append_left _)

/-- A row's copy of the patterns stands for the join with the row: the filter keeps exactly
the solutions compatible with the row, and they bind all that it binds. -/
def Stands (eq : Id → Id → Bool) (vars : List Var) (row : List (Option Id))
    (μ : Solution Var Id) : Prop :=
  (meets eq (conditions vars row) μ = true ↔ Compatible μ (rowSolution vars row)) ∧
    (Compatible μ (rowSolution vars row) → ∀ x, (rowSolution vars row x).isSome → (μ x).isSome)

theorem stands_iff {row : List (Option Id)} :
    Stands eq vars row μ ↔ (if meets eq (conditions vars row) μ then [μ] else []).Perm
      (if Compatible μ (rowSolution vars row) then [merge μ (rowSolution vars row)] else []) := by
  have hmerge : μ = merge μ (rowSolution vars row) ↔
      ∀ x, (rowSolution vars row x).isSome → (μ x).isSome := by
    rw [funext_iff]
    refine forall_congr' fun x => ?_
    cases h : μ x <;> cases h' : rowSolution vars row x <;> simp [merge, h, h']
  by_cases hmeets : meets eq (conditions vars row) μ = true <;>
    by_cases hcompatible : Compatible μ (rowSolution vars row) <;>
    simp [Stands, hmeets, hcompatible, hmerge]

end LogicalOperator

end Grafeo.Rdf
