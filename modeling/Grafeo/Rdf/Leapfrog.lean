import Mathlib.Data.List.Nodup

/-!
# Grafeo.Rdf.Leapfrog

**The ring's join of annotated patterns** (`index/ring/leapfrog.rs`). For each triple of the first
pattern the join takes, pattern by pattern, the first triple of the ring that fits what is bound
so far, and never another. What it yields are these first choices (`mem_withVariables`), which are
the natural join just if every joined tuple is one of them and none of them gives a variable that
a pattern repeats two terms.
-/

namespace Grafeo.Rdf

open List Option Function Bool

structure Triple (Term : Type) where
  subject : Term
  predicate : Term
  object : Term
deriving DecidableEq, Repr

/-- The terms a triple must have, where one is given. -/
structure TriplePattern (Term : Type) where
  subject : Option Term
  predicate : Option Term
  object : Option Term

/-- A position of a pattern. -/
inductive Slot (Term Var : Type) where
  | bound (term : Term)
  | var (name : Var)

/-- A triple pattern with a bound term or a variable in each position. -/
structure AnnotatedPattern (Term Var : Type) where
  subject : Slot Term Var
  predicate : Slot Term Var
  object : Slot Term Var

/-- The distinct triples of a ring, in the order of their ids. -/
structure TripleRing (Term : Type) where
  triples : List (Triple Term)
  nodup : triples.Nodup

abbrev Bindings (Term Var : Type) := Var → Option Term

variable {Term Var : Type}

/-! ### The code -/

section

variable [DecidableEq Term]

def TriplePattern.matches (pattern : TriplePattern Term) (triple : Triple Term) : Bool :=
  pattern.subject.all (· = triple.subject) && pattern.predicate.all (· = triple.predicate) &&
    pattern.object.all (· = triple.object)

def TripleRing.find (ring : TripleRing Term) (pattern : TriplePattern Term) : List (Triple Term) :=
  ring.triples.filter pattern.matches

/-- The term of a position, of a variable the one it is bound to. -/
def Slot.refined (bindings : Bindings Term Var) : Slot Term Var → Option Term
  | .bound term => some term
  | .var name => bindings name

/-- The pattern with the variables that are bound as bound terms. -/
def refinePattern (ann : AnnotatedPattern Term Var) (bindings : Bindings Term Var) :
    TriplePattern Term :=
  ⟨ann.subject.refined bindings, ann.predicate.refined bindings, ann.object.refined bindings⟩

/-- The pattern as written. -/
def AnnotatedPattern.pattern (ann : AnnotatedPattern Term Var) : TriplePattern Term :=
  refinePattern ann fun _ => none

/-- Whether a term is the one the variable of its position is bound to. -/
def Slot.consistent (bindings : Bindings Term Var) (term : Term) : Slot Term Var → Bool
  | .bound _ => true
  | .var name => (bindings name).all (· = term)

def isConsistent (ann : AnnotatedPattern Term Var) (triple : Triple Term)
    (bindings : Bindings Term Var) : Bool :=
  ann.subject.consistent bindings triple.subject &&
    ann.predicate.consistent bindings triple.predicate &&
    ann.object.consistent bindings triple.object

variable [DecidableEq Var]

/-- Binds the variable of a position, unless it is bound. -/
def Slot.bind (bindings : Bindings Term Var) (term : Term) : Slot Term Var → Bindings Term Var
  | .bound _ => bindings
  | .var name =>
      if (bindings name).isNone then Function.update bindings name (some term) else bindings

def bindTriple (ann : AnnotatedPattern Term Var) (triple : Triple Term)
    (bindings : Bindings Term Var) : Bindings Term Var :=
  ann.object.bind (ann.predicate.bind (ann.subject.bind bindings triple.subject)
    triple.predicate) triple.object

/-- The rest of a match: for each pattern the first triple found that is consistent. -/
def extend (ring : TripleRing Term) :
    List (AnnotatedPattern Term Var) → Bindings Term Var → Option (List (Triple Term))
  | [], _ => some []
  | ann :: rest, bindings =>
      match (ring.find (refinePattern ann bindings)).find? (isConsistent ann · bindings) with
      | none => none
      | some triple =>
          (extend ring rest (bindTriple ann triple bindings)).map fun matched => triple :: matched

/-- What the iterator of `LeapfrogRing::with_variables` yields. -/
def withVariables (ring : TripleRing Term) :
    List (AnnotatedPattern Term Var) → List (List (Triple Term))
  | [] => []
  | first :: rest => (ring.find first.pattern).filterMap fun triple =>
      (extend ring rest (bindTriple first triple fun _ => none)).map fun matched =>
        triple :: matched

end

/-! ### The natural join -/

/-- The position holds the term, its variable being `σ`'s. -/
def Slot.Agrees (σ : Bindings Term Var) (term : Term) : Slot Term Var → Prop
  | .bound t => t = term
  | .var name => σ name = some term

def AnnotatedPattern.Agrees (ann : AnnotatedPattern Term Var) (σ : Bindings Term Var)
    (triple : Triple Term) : Prop :=
  ann.subject.Agrees σ triple.subject ∧ ann.predicate.Agrees σ triple.predicate ∧
    ann.object.Agrees σ triple.object

/-- A tuple of the natural join: triples of the ring, one a pattern, in which every variable is
one term throughout. -/
def Joined (ring : TripleRing Term) (patterns : List (AnnotatedPattern Term Var))
    (tuple : List (Triple Term)) : Prop :=
  ∃ σ : Bindings Term Var, List.Forall₂ (fun ann triple => triple ∈ ring.triples ∧ ann.Agrees σ triple)
    patterns tuple

section

variable [DecidableEq Term] [DecidableEq Var] {ring : TripleRing Term}
  {ann first : AnnotatedPattern Term Var} {rest patterns : List (AnnotatedPattern Term Var)}
  {bindings : Bindings Term Var} {triple : Triple Term} {tuple matched : List (Triple Term)}

/-- Each triple is the first of the ring that fits its pattern with what the ones before it
bound. -/
inductive FirstChoices (ring : TripleRing Term) :
    List (AnnotatedPattern Term Var) → Bindings Term Var → List (Triple Term) → Prop
  | nil {bindings : Bindings Term Var} : FirstChoices ring [] bindings []
  | cons {ann : AnnotatedPattern Term Var} {rest : List (AnnotatedPattern Term Var)}
      {bindings : Bindings Term Var} {triple : Triple Term} {matched : List (Triple Term)}
      (head : (ring.find (refinePattern ann bindings)).head? = some triple)
      (tail : FirstChoices ring rest (bindTriple ann triple bindings) matched) :
      FirstChoices ring (ann :: rest) bindings (triple :: matched)

/-- A triple of the first pattern, and first choices for the others. -/
def Picked (ring : TripleRing Term) : List (AnnotatedPattern Term Var) → List (Triple Term) → Prop
  | first :: rest, triple :: matched =>
      triple ∈ ring.find first.pattern ∧
        FirstChoices ring rest (bindTriple first triple fun _ => none) matched
  | _, _ => False

/-- What the refined pattern finds is consistent: the second check never refuses. -/
theorem isConsistent_of_matches (h : (refinePattern ann bindings).matches triple = true) :
    isConsistent ann triple bindings = true := by
  have hslot : ∀ (slot : Slot Term Var) (term : Term), (slot.refined bindings).all (· = term) = true →
      slot.consistent bindings term = true := by
    intro slot term hall
    cases slot with
    | bound t => rfl
    | var name => exact hall
  simp only [refinePattern, TriplePattern.matches, and_eq_true] at h
  simp only [isConsistent, and_eq_true]
  exact ⟨⟨hslot _ _ h.1.1, hslot _ _ h.1.2⟩, hslot _ _ h.2⟩

theorem extend_eq_some : extend ring patterns bindings = some matched ↔
    FirstChoices ring patterns bindings matched := by
  induction patterns generalizing bindings matched with
  | nil =>
    refine ⟨fun h => ?_, fun h => by cases h; rfl⟩
    cases h
    exact .nil
  | cons ann rest ih =>
    have hfirst : (ring.find (refinePattern ann bindings)).find? (isConsistent ann · bindings) =
        (ring.find (refinePattern ann bindings)).head? := by
      cases hfind : ring.find (refinePattern ann bindings) with
      | nil => rfl
      | cons triple others =>
        have hmem : triple ∈ ring.find (refinePattern ann bindings) := hfind ▸ mem_cons_self
        have hcheck := isConsistent_of_matches (of_mem_filter hmem)
        rw [find?_cons, hcheck, head?_cons]
    rw [extend, hfirst]
    constructor
    · intro h
      split at h
      case h_1 => cases h
      case h_2 triple hhead =>
        obtain ⟨tail, htail, rfl⟩ := map_eq_some_iff.mp h
        exact .cons hhead (ih.mp htail)
    · intro h
      cases h with
      | cons hhead htail =>
        simp only [hhead, ih.mpr htail]
        rfl

/-- **What the join yields** are the first choices for each triple of the first pattern. -/
theorem mem_withVariables : tuple ∈ withVariables ring patterns ↔ Picked ring patterns tuple := by
  cases patterns with
  | nil => simp [withVariables, Picked]
  | cons first rest =>
    simp only [withVariables, mem_filterMap, map_eq_some_iff, extend_eq_some]
    constructor
    · rintro ⟨triple, hmem, matched, hchoices, rfl⟩
      exact ⟨hmem, hchoices⟩
    · intro h
      cases tuple with
      | nil => exact h.elim
      | cons triple matched => exact ⟨triple, h.1, matched, h.2, rfl⟩

theorem nodup_withVariables : (withVariables ring patterns).Nodup := by
  cases patterns with
  | nil => exact nodup_nil
  | cons first rest =>
    refine Nodup.filterMap (fun a b tuple ha hb => ?_) (ring.nodup.filter _)
    obtain ⟨_, -, rfl⟩ := map_eq_some_iff.mp ha
    obtain ⟨_, -, heq⟩ := map_eq_some_iff.mp hb
    exact (cons.inj heq).1.symm

/-! ### First choices that are joined -/

theorem Slot.bind_of_some {slot : Slot Term Var} {name : Var} {term t : Term}
    (h : bindings name = some term) : slot.bind bindings t name = some term := by
  cases slot with
  | bound _ => exact h
  | var other =>
    rw [Slot.bind]
    split
    case isFalse => exact h
    case isTrue hnone =>
      rw [update_of_ne, h]
      rintro rfl
      rw [h] at hnone
      cases hnone

theorem Slot.bind_var (name : Var) (term : Term) (bindings : Bindings Term Var) :
    ∃ t, (Slot.var name).bind bindings term name = some t := by
  cases h : bindings name with
  | none => exact ⟨term, by simp [Slot.bind, h]⟩
  | some t => exact ⟨t, Slot.bind_of_some h⟩

/-- `σ` takes what is bound. -/
def Extends (σ : Bindings Term Var) (bindings : Bindings Term Var) : Prop :=
  ∀ name term, bindings name = some term → σ name = some term

/-- A triple that fits, and gives a variable its pattern repeats one term, agrees with all that
is bound after it. -/
theorem agrees_of_extends {σ : Bindings Term Var} (hmatches : (refinePattern ann bindings).matches triple)
    (hself : ∃ τ : Bindings Term Var, ann.Agrees τ triple)
    (hextends : Extends σ (bindTriple ann triple bindings)) : ann.Agrees σ triple := by
  obtain ⟨τ, hs, hp, ho⟩ := hself
  -- A variable is bound as before, or to what the triple holds in its place.
  have hslot : ∀ {b : Bindings Term Var} {slot : Slot Term Var} {term : Term},
      slot.Agrees τ term → (∀ name, b name = bindings name ∨ b name = τ name) →
      ∀ name, slot.bind b term name = bindings name ∨ slot.bind b term name = τ name := by
    intro b slot term hagrees hb name
    cases slot with
    | bound _ => exact hb name
    | var other =>
      rw [Slot.bind]
      split
      case isFalse => exact hb name
      case isTrue =>
        by_cases hname : name = other
        · subst hname
          exact .inr (by rw [update_self, show τ name = some term from hagrees])
        · rw [update_of_ne hname]
          exact hb name
  have hbound := hslot ho (hslot hp (hslot hs fun _ => .inl rfl))
  have hfits : ∀ {slot : Slot Term Var} {term : Term}, slot.Agrees τ term →
      (slot.refined bindings).all (· = term) = true →
      (∀ name, slot = .var name → ∃ t, bindTriple ann triple bindings name = some t) →
      slot.Agrees σ term := by
    intro slot term hagrees hall hsome
    cases slot with
    | bound _ => exact hagrees
    | var name =>
      obtain ⟨t, ht⟩ := hsome name rfl
      refine (hextends name t ht).trans (congrArg some ?_)
      obtain hold | hnew := hbound name
      · rw [Slot.refined, ← hold.symm.trans ht |>.symm] at hall
        exact of_decide_eq_true hall
      · exact some.inj ((ht.symm.trans hnew).trans hagrees)
  simp only [refinePattern, TriplePattern.matches, and_eq_true] at hmatches
  refine ⟨hfits hs hmatches.1.1 ?_, hfits hp hmatches.1.2 ?_, hfits ho hmatches.2 ?_⟩
  · intro name hname
    obtain ⟨t, ht⟩ := Slot.bind_var name triple.subject bindings
    exact ⟨t, Slot.bind_of_some (Slot.bind_of_some (hname ▸ ht))⟩
  · intro name hname
    obtain ⟨t, ht⟩ := Slot.bind_var name triple.predicate (ann.subject.bind bindings triple.subject)
    exact ⟨t, Slot.bind_of_some (hname ▸ ht)⟩
  · intro name hname
    rw [bindTriple, hname]
    exact Slot.bind_var name triple.object _

/-- The triples give each variable that their pattern repeats one term. -/
def SelfConsistent : List (AnnotatedPattern Term Var) → List (Triple Term) → Prop :=
  List.Forall₂ fun ann triple => ∃ τ : Bindings Term Var, ann.Agrees τ triple

/-- First choices that are consistent in themselves are joined, under every `σ` that takes what
they bind. -/
theorem FirstChoices.joined (h : FirstChoices ring patterns bindings matched)
    (hself : SelfConsistent patterns matched) :
    ∃ bindings' : Bindings Term Var,
      (∀ name term, bindings name = some term → bindings' name = some term) ∧
      ∀ σ, Extends σ bindings' → Forall₂
        (fun ann triple => triple ∈ ring.triples ∧ ann.Agrees σ triple) patterns matched := by
  induction h with
  | @nil bindings => exact ⟨bindings, fun _ _ h => h, fun _ _ => .nil⟩
  | @cons ann rest bindings triple matched hhead _ ih =>
    obtain ⟨hown, hrest⟩ := forall₂_cons.mp hself
    obtain ⟨bindings', hmore, hjoined⟩ := ih hrest
    have hmem := mem_of_mem_head? hhead
    refine ⟨bindings', fun name term h => hmore _ _ (Slot.bind_of_some (Slot.bind_of_some
      (Slot.bind_of_some h))), fun σ hσ => ?_⟩
    exact .cons ⟨mem_of_mem_filter hmem, agrees_of_extends (of_mem_filter hmem) hown
      fun name term h => hσ _ _ (hmore _ _ h)⟩ (hjoined σ hσ)

theorem Picked.joined (h : Picked ring patterns tuple) (hself : SelfConsistent patterns tuple) :
    Joined ring patterns tuple := by
  obtain - | ⟨first, rest⟩ := patterns
  · exact h.elim
  obtain - | ⟨triple, matched⟩ := tuple
  · exact h.elim
  obtain ⟨hmem, hchoices⟩ := h
  obtain ⟨hown, hrest⟩ := forall₂_cons.mp hself
  obtain ⟨bindings, hmore, hjoined⟩ := hchoices.joined hrest
  exact ⟨bindings, .cons ⟨mem_of_mem_filter hmem,
    agrees_of_extends (of_mem_filter hmem) hown hmore⟩ (hjoined _ fun _ _ h => h)⟩

end

/-- An edge to a node with two edges on. -/
def forkedRing : TripleRing Nat := ⟨[⟨0, 10, 1⟩, ⟨1, 11, 2⟩, ⟨1, 11, 3⟩], by decide⟩

def edgePattern : AnnotatedPattern Nat Nat := ⟨.var 0, .bound 10, .var 1⟩
def nextPattern : AnnotatedPattern Nat Nat := ⟨.var 1, .bound 11, .var 2⟩

end Grafeo.Rdf
