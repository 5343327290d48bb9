import Mathlib.Tactic.Common

/-!
# Grafeo.Lib.Transition

Tables (ordered maps, compared by their contents) through what a **lookup** finds
after each update. The keys are compared by equality, so a caller splits on
`key = k` and never on an `Ordering`.

Finite runs of a **deterministic transition system** whose step is a partial
function: `step s a` is `none` where action `a` is not possible in `s` (it
would block, or the protocol around it rules it out). Nondeterminism is in the
choice of the actions, so "for every interleaving" reads "for every list of
actions whose run exists".

The rule every safety proof ends with: what each step keeps, a run keeps
(`run_invariant`).
-/

namespace Grafeo.Lib

open List

variable {κ β : Type} [Ord κ] [Std.TransOrd κ] [Std.LawfulEqOrd κ] [DecidableEq κ]
  {table : Std.ExtTreeMap κ β}

theorem lookup_insert (key k : κ) (value : β) :
    (table.insert key value)[k]? = if k = key then some value else table[k]? := by
  rw [Std.ExtTreeMap.getElem?_insert]
  by_cases h : k = key
  · simp [h]
  · simp [h, Ne.symm h]

theorem lookup_erase (key k : κ) : (table.erase key)[k]? = if k = key then none else table[k]? := by
  rw [Std.ExtTreeMap.getElem?_erase]
  by_cases h : k = key
  · simp [h]
  · simp [h, Ne.symm h]

theorem lookup_modify (key k : κ) (f : β → β) :
    (table.modify key f)[k]? = if k = key then table[key]?.map f else table[k]? := by
  rw [Std.ExtTreeMap.getElem?_modify]
  by_cases h : k = key
  · simp [h]
  · simp [h, Ne.symm h]

/-- A list of keys taken out one after the other. -/
theorem lookup_foldl_erase (keys : List κ) (k : κ) :
    (keys.foldl (fun table key => table.erase key) table)[k]? =
      if k ∈ keys then none else table[k]? := by
  induction keys generalizing table with
  | nil => simp
  | cons key keys ih =>
    rw [foldl_cons, ih, lookup_erase]
    by_cases hk : k = key <;> simp [hk]

variable {σ α : Type} {actions : List α}

/-- The state after `actions`, taken in order from `s`. -/
def run (step : σ → α → Option σ) : σ → List α → Option σ
  | s, [] => some s
  | s, a :: actions => (step s a).bind fun s' => run step s' actions

variable {step : σ → α → Option σ}

@[simp] theorem run_nil (s : σ) : run step s [] = some s := rfl

theorem run_cons_eq_some {s t : σ} {a : α} : run step s (a :: actions) = some t ↔
      ∃ s', step s a = some s' ∧ run step s' actions = some t := by
  rw [run, Option.bind_eq_some_iff]

theorem run_append_eq_some {s t : σ} {first second : List α} :
    run step s (first ++ second) = some t ↔
      ∃ s', run step s first = some s' ∧ run step s' second = some t := by
  induction first generalizing s with
  | nil => simp
  | cons a first ih =>
    rw [cons_append, run_cons_eq_some]
    constructor
    · rintro ⟨s', hs, hrun⟩
      obtain ⟨m, hm, ht⟩ := ih.mp hrun
      exact ⟨m, run_cons_eq_some.mpr ⟨s', hs, hm⟩, ht⟩
    · rintro ⟨m, hm, ht⟩
      obtain ⟨s', hs, hrun⟩ := run_cons_eq_some.mp hm
      exact ⟨s', hs, ih.mpr ⟨m, hrun, ht⟩⟩

/-- What every step of a run keeps holds after the run. -/
theorem run_invariant_of_mem (Inv : σ → Prop)
    (hstep : ∀ s, ∀ a ∈ actions, ∀ s', Inv s → step s a = some s' → Inv s')
    {s t : σ} (hs : Inv s) (hrun : run step s actions = some t) : Inv t := by
  induction actions generalizing s with
  | nil => cases hrun; exact hs
  | cons a actions ih =>
    obtain ⟨s', hs', hrest⟩ := run_cons_eq_some.mp hrun
    exact ih (fun s b hb => hstep s b (mem_cons_of_mem a hb))
      (hstep s a mem_cons_self s' hs hs') hrest

/-- What every step keeps holds after every run. -/
theorem run_invariant (Inv : σ → Prop) (hstep : ∀ s a s', Inv s → step s a = some s' → Inv s')
    {s t : σ} (hs : Inv s) (hrun : run step s actions = some t) : Inv t :=
  run_invariant_of_mem Inv (fun s a _ => hstep s a) hs hrun

/-- The steps that meet a condition. -/
def restrict (condition : σ → α → Bool) (step : σ → α → Option σ) (s : σ) (a : α) : Option σ :=
  if condition s a then step s a else none

theorem restrict_eq_some {condition : σ → α → Bool} {s t : σ} {a : α} :
    restrict condition step s a = some t ↔ condition s a = true ∧ step s a = some t := by
  unfold restrict
  split <;> simp_all

end Grafeo.Lib
