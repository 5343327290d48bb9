import Grafeo.Lib.Transition
import Mathlib.Algebra.Group.Nat.Defs

/-!
# Grafeo.Rdf.TermIds

**The ids of a query's terms** (`grafeo-engine/src/query/planner/rdf/term_ids.rs`) over the
**term dictionary** of the dataset (`grafeo-core/src/graph/rdf/dictionary.rs`).

A dictionary is the list of its terms, in the order they were added: it only grows, so an entry
keeps its index. A query asks the dataset's dictionary first, and gives a term it does not find
there an id of the query's own. Each dictionary has a lock of its own, so another session may add
the term in between, or between two calls for it.
-/

namespace Grafeo.Rdf

open List Lib Option

/-- `TermId`: an index in one of the two dictionaries, or an inlined literal. -/
inductive TermId (Code : Type) where
  | dictionary (index : Nat)
  | query (index : Nat)
  | inlined (code : Code)
deriving DecidableEq

/-- What the ids read of a term: the literal an id inlines (`TermId::inline`), which gives the
term back (`inline_term`), and whether the engine handles its kind (`supported`). -/
structure TermKinds (Term Code : Type) where
  inline : Term → Option Code
  inlineTerm : Code → Term
  inlineTerm_inline {term : Term} {code : Code} : inline term = some code → inlineTerm code = term
  supported : Term → Bool

/-- The largest index of a dictionary or query term. -/
def maxIndex : Nat := 2 ^ 60 - 1

variable {Term Code : Type} [DecidableEq Term]

/-! ### The dictionary -/

/-- `TermDictionary`: every index fits an id. -/
structure TermDictionary (Term : Type) where
  terms : List Term := []
  bounded : terms.length ≤ maxIndex + 1 := by exact Nat.zero_le _

namespace TermDictionary

variable {d d' : TermDictionary Term} {term t : Term} {index i : Nat}

def get (d : TermDictionary Term) (index : Nat) : Option Term := d.terms[index]?

def find (d : TermDictionary Term) (term : Term) : Option Nat := d.terms.findIdx? (· = term)

/-- The index of a term that is not inlined, added when it is new; `none` when the dictionary is
full. -/
def add (d : TermDictionary Term) (term : Term) : Option (TermDictionary Term × Nat) :=
  match d.find term with
  | some index => some (d, index)
  | none =>
      if h : d.terms.length ≤ maxIndex then
        some (⟨d.terms ++ [term], by simpa using h⟩, d.terms.length)
      else none

theorem get_of_find (h : d.find term = some index) : d.get index = some term := by
  obtain ⟨hlt, hterm, -⟩ := findIdx?_eq_some_iff_getElem.mp h
  rw [get, getElem?_eq_getElem hlt, of_decide_eq_true hterm]

/-- After `add` the term has the index, and every other what it had. -/
theorem find_add (h : d.add term = some (d', index)) (t : Term) :
    d'.find t = if t = term then some index else d.find t := by
  unfold add at h
  split at h
  case h_1 found hfound =>
    cases h
    split
    · simp_all
    · rfl
  case h_2 hnone =>
    split at h
    case isFalse => cases h
    cases h
    by_cases ht : t = term
    · subst ht
      rw [find] at hnone
      simp [find, findIdx?_append, hnone]
    · simp [find, findIdx?_append, ht, Ne.symm ht]

/-- An index stays. -/
theorem find_add_of_some (h : d.add term = some (d', index)) (hi : d.find t = some i) :
    d'.find t = some i := by
  rw [find_add h]
  split
  case isFalse => exact hi
  case isTrue heq =>
    subst heq
    simp only [add, hi] at h
    cases h
    rfl

end TermDictionary

/-! ### A query's calls among other sessions' additions -/

/-- A query and the dictionaries it reads: `pending` is the term of a call that did not find it in
the dataset's, and `given` what each call returned. -/
structure QueryTermIds (Term Code : Type) where
  dataset : TermDictionary Term := {}
  own : TermDictionary Term := {}
  pending : Option Term := none
  given : List (Term × TermId Code) := []

/-- What can happen: another session adds a term to the dataset, the query looks a term up there,
and goes on to its own terms when it did not find it. -/
inductive Action (Term : Type) where
  | add (term : Term)
  | lookup (term : Term)
  | intern

namespace QueryTermIds

variable (kinds : TermKinds Term Code)

/-- `TermDictionary::lookup` of the dataset. -/
def lookup (s : QueryTermIds Term Code) (term : Term) : Option (TermId Code) :=
  match kinds.inline term with
  | some code => some (.inlined code)
  | none => (s.dataset.find term).map .dictionary

/-- The term of an id. -/
def entry (s : QueryTermIds Term Code) : TermId Code → Option Term
  | .dictionary index => s.dataset.get index
  | .query index => s.own.get index
  | .inlined code => some (kinds.inlineTerm code)

def step (s : QueryTermIds Term Code) : Action Term → Option (QueryTermIds Term Code)
  | .add term =>
      match kinds.inline term, s.dataset.add term with
      | none, some (dataset, _) => some { s with dataset }
      | _, _ => some s
  | .lookup term =>
      -- a term of another kind is refused before anything is read
      if s.pending.isSome || !kinds.supported term then none
      else match s.lookup kinds term with
        | some id => some { s with given := (term, id) :: s.given }
        | none => some { s with pending := some term }
  | .intern => s.pending.bind fun term =>
      match kinds.inline term, s.own.add term with
      | none, some (own, index) =>
          some { s with own, pending := none, given := (term, .query index) :: s.given }
      | _, _ => some { s with pending := none }

/-- The query does not ask for a term that both dictionaries hold. -/
def apart (s : QueryTermIds Term Code) : Action Term → Bool
  | .lookup term => !((s.dataset.find term).isSome && (s.own.find term).isSome)
  | _ => true

/-- Two calls returned the same id exactly when they were for the same term. -/
def Consistent (s : QueryTermIds Term Code) : Prop :=
  ∀ p ∈ s.given, ∀ q ∈ s.given, p.2 = q.2 ↔ p.1 = q.1

/-- No term has both an id of the dataset and one of the query's own. -/
def Separate (s : QueryTermIds Term Code) : Prop :=
  ∀ term i j, (term, .dictionary i) ∈ s.given → (term, .query j) ∉ s.given

/-- The id is the one a dictionary, or inlining, has for the term. -/
def Names (s : QueryTermIds Term Code) (term : Term) : TermId Code → Prop
  | .dictionary i => kinds.inline term = none ∧ s.dataset.find term = some i
  | .query i => kinds.inline term = none ∧ s.own.find term = some i
  | .inlined code => kinds.inline term = some code

/-- What holds in every reachable state: the query's own terms are those it has given ids of its
own, and a pending term has none of the dataset's. -/
structure Inv (s : QueryTermIds Term Code) : Prop where
  names : ∀ given ∈ s.given, s.Names kinds given.1 given.2
  own {term : Term} {i : Nat} : s.own.find term = some i → (term, .query i) ∈ s.given
  pending {term : Term} : s.pending = some term →
    kinds.inline term = none ∧ ∀ i, (term, .dictionary i) ∉ s.given

variable {kinds} {s s' : QueryTermIds Term Code} {action : Action Term} {term : Term}

theorem Inv.entry (h : s.Inv kinds) {given : Term × TermId Code} (hgiven : given ∈ s.given) :
    s.entry kinds given.2 = some given.1 := by
  have hnames := h.names given hgiven
  obtain ⟨term, id⟩ := given
  cases id with
  | dictionary i => exact TermDictionary.get_of_find hnames.2
  | query i => exact TermDictionary.get_of_find hnames.2
  | inlined code => exact congrArg some (kinds.inlineTerm_inline hnames)

theorem Inv.consistent_iff (h : s.Inv kinds) : s.Consistent ↔ s.Separate := by
  constructor
  · intro hs term i j hi hj
    cases (hs _ hi _ hj).mpr rfl
  · intro hs ⟨term, id⟩ hp ⟨term', id'⟩ hq
    refine ⟨fun heq => some.inj ?_, fun heq => ?_⟩
    · rw [← h.entry hp, ← h.entry hq, heq]
    · cases heq
      have hid := h.names _ hp
      have hid' := h.names _ hq
      -- two names of one term differ only between the two dictionaries
      cases id <;> cases id' <;> simp_all [Names]
      · exact hs _ _ _ hp hq
      · exact hs _ _ _ hq hp

theorem Names.mono {id : TermId Code} (h : s.Names kinds term id)
    (hdataset : ∀ i, s.dataset.find term = some i → s'.dataset.find term = some i)
    (hown : ∀ i, s.own.find term = some i → s'.own.find term = some i) :
    s'.Names kinds term id := by
  cases id with
  | dictionary i => exact ⟨h.1, hdataset i h.2⟩
  | query i => exact ⟨h.1, hown i h.2⟩
  | inlined code => exact h

theorem Inv.query_mem (h : s.Inv kinds) {i : Nat} :
    (term, .query i) ∈ s.given ↔ s.own.find term = some i :=
  ⟨fun hmem => (h.names _ hmem).2, h.own⟩

theorem Inv.give (h : s.Inv kinds) (hidle : s.pending = none) {id : TermId Code}
    (hname : s.Names kinds term id) : Inv kinds { s with given := (term, id) :: s.given } :=
  ⟨forall_mem_cons.mpr ⟨hname, h.names⟩, fun hi => mem_cons_of_mem _ (h.own hi), by simp [hidle]⟩

/-- A call's answer from the dataset. -/
theorem Inv.found (h : s.Inv kinds) (hidle : s.pending = none) {id : TermId Code}
    (hid : s.lookup kinds term = some id) :
    Inv kinds { s with given := (term, id) :: s.given } ∧
      (Separate { s with given := (term, id) :: s.given } ↔
        s.Separate ∧ s.apart (.lookup term) = true) := by
  rw [lookup] at hid
  split at hid
  case h_1 code hinline =>
    cases hid
    have hown : s.own.find term = none := by
      rw [eq_none_iff_forall_ne_some]
      intro i hi
      simpa [hinline] using (h.names _ (h.own hi)).1
    exact ⟨h.give hidle hinline, by simp [Separate, apart, hown]⟩
  case h_2 hinline =>
    obtain ⟨i, hi, rfl⟩ := map_eq_some_iff.mp hid
    refine ⟨h.give hidle ⟨hinline, hi⟩, ?_⟩
    have happart : s.apart (.lookup term) = true ↔ ∀ j, (term, .query j) ∉ s.given := by
      simp [apart, hi, h.query_mem, eq_none_iff_forall_ne_some]
    rw [happart]
    simp only [Separate, mem_cons, Prod.mk.injEq, TermId.dictionary.injEq, reduceCtorEq, and_false,
      false_or]
    constructor
    · intro hs
      exact ⟨fun t j k hj => hs t j k (.inr hj), fun j => hs term i j (.inl ⟨rfl, rfl⟩)⟩
    · rintro ⟨hs, hnot⟩ t j k (⟨rfl, rfl⟩ | hj)
      · exact hnot k
      · exact hs t j k hj

/-- **Step.** A term gets ids of both dictionaries at a call that finds it in both. -/
theorem Inv.step (h : s.Inv kinds) (hstep : s.step kinds action = some s') :
    s'.Inv kinds ∧ (s'.Separate ↔ s.Separate ∧ s.apart action = true) := by
  cases action with
  | add term =>
    rw [QueryTermIds.step] at hstep
    split at hstep
    case h_2 => cases hstep; exact ⟨h, by simp [apart]⟩
    case h_1 dataset index hinline hadd =>
      cases hstep
      refine ⟨⟨fun given hgiven => ?_, h.own, h.pending⟩, by simp [apart, Separate]⟩
      exact (h.names given hgiven).mono (fun i => TermDictionary.find_add_of_some hadd)
        (fun i => id)
  | lookup term =>
    rw [QueryTermIds.step, ite_none_left_eq_some] at hstep
    obtain ⟨hidle, hstep⟩ := hstep
    have hpending : s.pending = none := by simp_all
    split at hstep
    case h_1 id hid =>
      cases hstep
      exact h.found hpending hid
    case h_2 hid =>
      cases hstep
      rw [lookup] at hid
      split at hid
      case h_1 => cases hid
      case h_2 hinline =>
        rw [map_eq_none_iff] at hid
        refine ⟨⟨h.names, h.own, fun heq => ?_⟩, by simp [apart, Separate, hid]⟩
        cases heq
        refine ⟨hinline, fun i hi => ?_⟩
        simpa [hid] using (h.names _ hi).2
  | intern =>
    obtain ⟨term, hterm, hstep⟩ := bind_eq_some_iff.mp hstep
    obtain ⟨-, hnot⟩ := h.pending hterm
    split at hstep
    case h_2 =>
      cases hstep
      exact ⟨⟨h.names, h.own, nofun⟩, by simp [apart, Separate]⟩
    case h_1 own index hinline hadd =>
      cases hstep
      refine ⟨⟨forall_mem_cons.mpr ⟨⟨hinline, ?_⟩, ?_⟩, ?_, nofun⟩, ?_⟩
      · simp [TermDictionary.find_add hadd]
      · intro given hgiven
        exact (h.names given hgiven).mono (fun i => id)
          (fun i => TermDictionary.find_add_of_some hadd)
      · intro t i hi
        rw [TermDictionary.find_add hadd] at hi
        split at hi
        · cases hi
          simp [*]
        · exact mem_cons_of_mem _ (h.own hi)
      · simp only [Separate, mem_cons, Prod.mk.injEq, TermId.query.injEq, reduceCtorEq, and_false,
          false_or, apart, and_true, not_or]
        refine ⟨fun hs t i j hi => (hs t i j hi).2, fun hs t i j hi => ⟨?_, hs t i j hi⟩⟩
        rintro ⟨rfl, -⟩
        exact hnot i hi

/-- **Run.** -/
theorem Inv.run {actions : List (Action Term)} (h : s.Inv kinds) (hs : s.Separate) :
    run (restrict apart (QueryTermIds.step kinds)) s actions = some s' ↔
      run (QueryTermIds.step kinds) s actions = some s' ∧ s'.Separate := by
  induction actions generalizing s with
  | nil =>
    simp only [run_nil, some.injEq, iff_self_and]
    rintro rfl
    exact hs
  | cons action actions ih =>
    simp only [run_cons_eq_some, restrict_eq_some]
    constructor
    · rintro ⟨next, ⟨hapart, hstep⟩, hrun⟩
      obtain ⟨hnext, hiff⟩ := h.step hstep
      obtain ⟨hrun, hsep⟩ := (ih hnext (hiff.mpr ⟨hs, hapart⟩)).mp hrun
      exact ⟨⟨next, hstep, hrun⟩, hsep⟩
    · rintro ⟨⟨next, hstep, hrun⟩, hsep⟩
      obtain ⟨hnext, hiff⟩ := h.step hstep
      -- two ids of one term stay
      have hmid : next.Separate := by
        by_contra hmid
        refine (run_invariant (fun t => t.Inv kinds ∧ ¬t.Separate) ?_ ⟨hnext, hmid⟩ hrun).2 hsep
        intro t a t' ht hstep
        obtain ⟨hinv, hiff⟩ := ht.1.step hstep
        exact ⟨hinv, fun h' => ht.2 (hiff.mp h').1⟩
      exact ⟨next, ⟨(hiff.mp hmid).2, hstep⟩, (ih hnext hmid).mpr ⟨hrun, hsep⟩⟩

theorem inv_empty : Inv kinds ({} : QueryTermIds Term Code) :=
  ⟨by simp, by simp [TermDictionary.find], by simp⟩

/-- Every id resolves to its term, and the ids are consistent in exactly the runs whose calls never
ask for a term both dictionaries hold. -/
theorem term_ids_consistent_iff (kinds : TermKinds Term Code) (actions : List (Action Term))
    (s : QueryTermIds Term Code) :
    (run (restrict apart (step kinds)) {} actions = some s ↔
      run (step kinds) {} actions = some s ∧ s.Consistent) ∧
    (run (step kinds) {} actions = some s →
      ∀ given ∈ s.given, s.entry kinds given.2 = some given.1) := by
  have hreach (hrun : run (step kinds) {} actions = some s) : s.Inv kinds :=
    run_invariant (Inv kinds) (fun t a t' hinv hstep => (hinv.step hstep).1) inv_empty hrun
  constructor
  · rw [inv_empty.run (by simp [Separate])]
    exact and_congr_right fun hrun => (hreach hrun).consistent_iff.symm
  · intro hrun given hgiven
    exact (hreach hrun).entry hgiven

/-- Terms no id inlines. -/
def blankNodes : TermKinds Nat Empty := ⟨fun _ => none, nofun, nofun, fun _ => true⟩

/-- A term another session adds between two calls for it gets two ids. -/
theorem term_ids_added_between : ∃ s,
    run (step blankNodes) {} [.lookup 7, .intern, .add 7, .lookup 7] = some s ∧
      ¬s.Consistent := by
  refine ⟨_, rfl, fun h => ?_⟩
  cases (h (7, .dictionary 0) (by decide) (7, .query 0) (by decide)).mpr rfl

end QueryTermIds

end Grafeo.Rdf
