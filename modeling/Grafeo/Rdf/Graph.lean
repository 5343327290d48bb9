import Grafeo.Rdf.Store
import Mathlib.Data.List.Dedup
import Mathlib.Data.List.Perm.Subperm

/-!
# Grafeo.Rdf.Graph

**One graph with its indexes** (`graph/rdf/store.rs`): the primary set of triples, six indexes by
the terms at their key positions, and the ring where it is built. The indexes are those of a list
of the graph's triples (`Holds`), so that `find` filters that list. The list names a triple twice
only where the caller of `bulkLoad` did.

**The scan of a triple pattern in the default graph** (`query/planner/rdf/mod.rs`). The planner
looks up the constants of the pattern and gives each variable's position a column; nothing compares
the terms of a variable the pattern repeats (`tripleScan_iff`).

**A dataset's graphs** keep their indexes exact (`indexes_exact`). A term stands for its id, which
the dictionary gives to it alone.
-/

namespace Grafeo.Rdf

open List Lib

/-- The indexes of a graph, by their key positions. -/
inductive IndexName where
  | subject | predicate | object | sp | po | os
deriving DecidableEq

/-- A term, or a pair of terms. -/
structure IndexKey where
  first : Term
  second : Option Term
deriving DecidableEq

abbrev Index := List (IndexKey × List (Triple Term))

/-- The terms of a triple an index has it under. -/
def IndexName.key : IndexName → Triple Term → IndexKey
  | .subject, triple => ⟨triple.subject, none⟩
  | .predicate, triple => ⟨triple.predicate, none⟩
  | .object, triple => ⟨triple.object, none⟩
  | .sp, triple => ⟨triple.subject, some triple.predicate⟩
  | .po, triple => ⟨triple.predicate, some triple.object⟩
  | .os, triple => ⟨triple.object, some triple.subject⟩

/-- The ring of the distinct triples, unless they have too many terms. -/
def TripleRing.tryFromTriples (triples : List (Triple Term)) : Option (TripleRing Term) :=
  if (triples.flatMap fun t => [t.subject, t.predicate, t.object]).dedup.length < 2 ^ 32 - 1 then
    some ⟨triples.dedup, triples.nodup_dedup⟩
  else none

def TripleRing.count (ring : TripleRing Term) (pattern : TriplePattern Term) : Nat :=
  (ring.find pattern).length

structure Graph where
  /-- Whether the object index is kept. -/
  indexObjects : Bool := true
  triples : List (Triple Term) := []
  indexes : IndexName → Index := fun _ => []
  ring : Option (TripleRing Term) := none

/-- The triples of a list that are new to a set, and of each whether it is. -/
def newTriples (held : List (Triple Term)) : List (Triple Term) → List (Triple Term) × List Bool
  | [] => ([], [])
  | triple :: triples =>
      if triple ∈ held then
        let rest := newTriples held triples
        (rest.1, false :: rest.2)
      else
        let rest := newTriples (held ++ [triple]) triples
        (triple :: rest.1, true :: rest.2)

/-- The answers for the valid ones of a list as answers for the list. -/
def newOfEach : List Bool → List Bool → List Bool
  | [], _ => []
  | false :: valid, new => false :: newOfEach valid new
  | true :: valid, new => new.headD false :: newOfEach valid new.tail

theorem mem_newTriples (held triples : List (Triple Term)) (triple : Triple Term) :
    triple ∈ held ++ (newTriples held triples).1 ↔ triple ∈ held ∨ triple ∈ triples := by
  induction triples generalizing held with
  | nil => simp [newTriples]
  | cons first triples ih =>
    rw [newTriples]
    split
    next hmem =>
      rw [ih, mem_cons]
      grind
    · rw [append_cons, ih]
      simp [or_assoc]

theorem nodup_newTriples {held : List (Triple Term)} (h : held.Nodup)
    (triples : List (Triple Term)) : (held ++ (newTriples held triples).1).Nodup := by
  induction triples generalizing held with
  | nil => simpa [newTriples] using h
  | cons first triples ih =>
    rw [newTriples]
    split
    · exact ih h
    next hnew =>
      rw [append_cons]
      exact ih (nodup_append.mpr ⟨h, by simp, by grind⟩)

theorem TripleRing.tryFromTriples_perm {triples : List (Triple Term)} (h : triples.Nodup) :
    ∀ ring ∈ TripleRing.tryFromTriples triples, ring.triples.Perm triples := by
  intro ring hring
  rw [tryFromTriples] at hring
  split at hring <;> cases hring
  exact Perm.of_eq h.dedup

namespace Graph

/-! ### The code -/

def keeps (graph : Graph) (name : IndexName) : Bool :=
  graph.indexObjects || name != .object

/-- Changes the indexes the graph keeps. -/
def reindexed (graph : Graph) (f : IndexName → Index → Index) : IndexName → Index :=
  fun name => if graph.keeps name then f name (graph.indexes name) else graph.indexes name

/-- Inserts triples; says of each whether it is new. What changes the triples drops the ring. -/
def insertStored (graph : Graph) (triples : List (Triple Term)) : Graph × List Bool :=
  let new := newTriples graph.triples triples
  if new.1 = [] then (graph, new.2)
  else
    ({ graph with
        triples := graph.triples ++ new.1
        indexes := graph.reindexed fun name => indexBy name.key new.1
        ring := none }, new.2)

/-- Inserts a triple, unless it is no RDF triple; says whether it is new. -/
def insert (graph : Graph) (triple : Triple Term) : Graph × Bool :=
  if triple.isValid then
    let done := graph.insertStored [triple]
    (done.1, done.2 = [true])
  else (graph, false)

def batchInsert (graph : Graph) (triples : List (Triple Term)) : Graph × Nat :=
  let done := graph.insertStored triples
  (done.1, done.2.count true)

/-- Inserts the RDF triples of a list; says of each triple of the list whether it is new. -/
def insertEach (graph : Graph) (triples : List (Triple Term)) : Graph × List Bool :=
  let done := graph.insertStored (triples.filter Triple.isValid)
  (done.1, newOfEach (triples.map Triple.isValid) done.2)

def remove (graph : Graph) (triple : Triple Term) : Graph × Bool :=
  if triple ∈ graph.triples then
    ({ graph with
        triples := graph.triples.filter (· ≠ triple)
        indexes := graph.reindexed fun name => unindex name.key triple
        ring := none }, true)
  else (graph, false)

def clear (graph : Graph) : Graph :=
  { graph with triples := [], indexes := fun _ => [], ring := none }

/-- Replaces what the graph holds. The set is without repeats, the indexes are built from the list
as it is, and the answer is the length of the list. -/
def bulkLoad (graph : Graph) (triples : List (Triple Term)) : Graph × Nat :=
  if triples = [] then (graph.clear, 0)
  else
    let primary := (newTriples [] triples).1
    ({ graph with
        triples := primary
        indexes := graph.clear.reindexed fun name => indexBy name.key triples
        ring := TripleRing.tryFromTriples primary }, triples.length)

def rebuildRing (graph : Graph) : Graph :=
  { graph with ring := TripleRing.tryFromTriples graph.triples }

/-- What an index has under a key. -/
def entry (graph : Graph) (name : IndexName) (key : IndexKey) : List (Triple Term) :=
  ((graph.indexes name).lookup key).getD []

def countWithPredicate (graph : Graph) (predicate : Term) : Nat :=
  (graph.entry .predicate ⟨predicate, none⟩).length

def find (graph : Graph) (pattern : TriplePattern Term) : List (Triple Term) :=
  match pattern.subject, pattern.predicate, pattern.object with
  | some s, some p, some o => (graph.entry .sp ⟨s, some p⟩).filter (·.object = o)
  | some s, some p, none => graph.entry .sp ⟨s, some p⟩
  | some s, none, some o => graph.entry .os ⟨o, some s⟩
  | none, some p, some o => graph.entry .po ⟨p, some o⟩
  | some s, none, none => graph.entry .subject ⟨s, none⟩
  | none, some p, none => graph.entry .predicate ⟨p, none⟩
  | none, none, some o =>
      if graph.indexObjects then graph.entry .object ⟨o, none⟩
      else graph.triples.filter pattern.matches
  | none, none, none => graph.triples.filter pattern.matches

/-- The triples a path reads: those of an index entry or of the primary set that match. -/
def visitPathBase (graph : Graph) (pattern : TriplePattern Term) : List (Triple Term) :=
  List.filter pattern.matches <|
    match pattern.subject, pattern.predicate, pattern.object with
    | some s, some p, _ => graph.entry .sp ⟨s, some p⟩
    | some s, none, some o => graph.entry .os ⟨o, some s⟩
    | none, some p, some o => graph.entry .po ⟨p, some o⟩
    | some s, none, none => graph.entry .subject ⟨s, none⟩
    | none, some p, none => graph.entry .predicate ⟨p, none⟩
    | none, none, some o =>
        if graph.indexObjects then graph.entry .object ⟨o, none⟩ else graph.triples
    | none, none, none => graph.triples

/-! ### What the indexes hold -/

/-- The indexes are those of `listed`, which has the triples of the primary set. -/
structure Holds (graph : Graph) (listed : List (Triple Term)) : Prop where
  nodup : graph.triples.Nodup
  mem : ∀ triple, triple ∈ listed ↔ triple ∈ graph.triples
  indexed : ∀ name, graph.keeps name = true → Indexes name.key listed (graph.indexes name)
  ring : ∀ ring ∈ graph.ring, ring.triples.Perm graph.triples

/-- Whether `find` reads the primary set. -/
def scans (graph : Graph) (pattern : TriplePattern Term) : Bool :=
  pattern.subject.isNone && pattern.predicate.isNone &&
    (pattern.object.isNone || !graph.indexObjects)

variable {graph : Graph} {listed : List (Triple Term)}

section

variable (h : graph.Holds listed)
include h

theorem Holds.entry_eq {name : IndexName} (hkeeps : graph.keeps name = true) (key : IndexKey) :
    graph.entry name key = listed.filter (name.key · = key) :=
  (h.indexed name hkeeps).entry key

/-- **What `find` and the path visitor answer**: the triples of the list that match. -/
theorem Holds.find_eq (pattern : TriplePattern Term) : graph.find pattern =
        (if graph.scans pattern then graph.triples else listed).filter pattern.matches ∧
      graph.visitPathBase pattern = graph.find pattern := by
  obtain ⟨subject, predicate, object⟩ := pattern
  have hentry (name : IndexName) (hname : name ≠ .object) :=
    h.entry_eq (show graph.keeps name = true by simp [keeps, hname])
  have hobject (hobjects : graph.indexObjects = true) :=
    h.entry_eq (show graph.keeps .object = true by simp [keeps, hobjects])
  cases hobjects : graph.indexObjects <;> cases subject <;> cases predicate <;> cases object <;>
    simp [find, visitPathBase, scans, hentry, hobject, hobjects] <;>
    exact ⟨filter_congr fun t _ => by grind [TriplePattern.matches, IndexName.key],
      filter_congr fun t _ => by grind [TriplePattern.matches, IndexName.key]⟩

theorem Holds.perm (hlisted : listed.Nodup) : listed.Perm graph.triples :=
  (perm_ext_iff_of_nodup hlisted h.nodup).mpr h.mem

theorem Holds.find_perm (hlisted : listed.Nodup) (pattern : TriplePattern Term) :
    (graph.find pattern).Perm (graph.triples.filter pattern.matches) := by
  rw [(h.find_eq pattern).1]
  split
  · exact .refl _
  · exact (h.perm hlisted).filter _

/-! ### What the operations keep -/

theorem Holds.reindexed {after : List (Triple Term)} {f : IndexName → Index → Index}
    (hf : ∀ name index, Indexes name.key listed index → Indexes name.key after (f name index))
    {name : IndexName} (hkeeps : graph.keeps name = true) :
    Indexes name.key after (graph.reindexed f name) := by
  rw [Graph.reindexed, if_pos hkeeps]
  exact hf name _ (h.indexed name hkeeps)

theorem Holds.insertStored (triples : List (Triple Term)) :
    (graph.insertStored triples).1.Holds
      (listed ++ (newTriples graph.triples triples).1) := by
  rw [Graph.insertStored]
  split
  next hnil => rwa [hnil, append_nil]
  · exact {
      nodup := nodup_newTriples h.nodup triples
      mem t := by rw [mem_append, mem_append, h.mem]
      indexed name := h.reindexed fun _ _ hindex => hindex.indexBy
      ring := nofun }

theorem Holds.remove (triple : Triple Term) :
    (graph.remove triple).1.Holds (listed.filter (· ≠ triple)) := by
  rw [Graph.remove]
  split
  · exact {
      nodup := h.nodup.filter _
      mem t := by rw [mem_filter, mem_filter, h.mem]
      indexed name := h.reindexed fun _ _ hindex => hindex.unindex
      ring := nofun }
  next hmem =>
    rwa [filter_eq_self.mpr]
    intro other hother
    have := h.mem other
    grind

theorem Holds.rebuildRing : graph.rebuildRing.Holds listed :=
  { h with ring := TripleRing.tryFromTriples_perm h.nodup }

end

theorem holds_clear (graph : Graph) : graph.clear.Holds [] :=
  ⟨nodup_nil, by simp [clear], fun _ _ => Indexes.nil, nofun⟩

theorem holds_bulkLoad (graph : Graph) (triples : List (Triple Term)) :
    (graph.bulkLoad triples).1.Holds triples := by
  rw [bulkLoad]
  split
  next hnil =>
    rw [hnil]
    exact graph.holds_clear
  have hnodup := nodup_newTriples nodup_nil triples
  exact {
    nodup := hnodup
    mem t := by simpa using (mem_newTriples [] triples t).symm
    indexed name := graph.holds_clear.reindexed fun _ _ hindex => hindex.indexBy
    ring := TripleRing.tryFromTriples_perm hnodup }

/-! ### Documents -/

/-- A load left the set of the triples a document states, and counts them right. -/
def LoadsSet (triples : List (Triple Term)) (loaded : Graph × Nat) : Prop :=
  loaded.1.triples.length = triples.dedup.length ∧ loaded.2 = triples.dedup.length ∧
    (∀ pattern, (loaded.1.find pattern).Perm (triples.dedup.filter pattern.matches)) ∧
    ∀ predicate, loaded.1.countWithPredicate predicate =
      (triples.dedup.filter (·.predicate = predicate)).length

/-- **A document is loaded as a set** just if it states no triple twice. -/
theorem bulkLoad_loadsSet_iff (graph : Graph) (triples : List (Triple Term)) :
    LoadsSet triples (graph.bulkLoad triples) ↔ triples.Nodup := by
  have hcount : (graph.bulkLoad triples).2 = triples.length := by
    rw [bulkLoad]
    split <;> simp_all
  constructor
  · intro ⟨_, hlength, _⟩
    rw [← (triples.dedup_sublist).eq_of_length (hlength.symm.trans hcount)]
    exact triples.nodup_dedup
  intro hnodup
  have h := graph.holds_bulkLoad triples
  have hperm := (h.perm hnodup).symm
  rw [LoadsSet, hnodup.dedup]
  refine ⟨hperm.length_eq, hcount, fun pattern => ?_, fun predicate => ?_⟩
  · exact (h.find_perm hnodup pattern).trans (hperm.filter _)
  · rw [countWithPredicate, h.entry_eq (by simp [keeps])]
    simp [IndexName.key]

/-- A line given twice is counted twice. -/
theorem bulkLoad_repeated_line : ¬ LoadsSet
    [⟨.iri "a", .iri "p", .iri "b"⟩, ⟨.iri "a", .iri "p", .iri "b"⟩]
    (bulkLoad {} [⟨.iri "a", .iri "p", .iri "b"⟩, ⟨.iri "a", .iri "p", .iri "b"⟩]) := by
  intro ⟨_, hcount, _⟩
  revert hcount
  decide +kernel

/-! ### Runs -/

inductive Call where
  | insert (triple : Triple Term)
  | insertEach (triples : List (Triple Term))
  | batchInsert (triples : List (Triple Term))
  | remove (triple : Triple Term)
  | clear
  | bulkLoad (triples : List (Triple Term))
  | rebuildRing

def call (graph : Graph) : Call → Graph
  | .insert triple => (graph.insert triple).1
  | .insertEach triples => (graph.insertEach triples).1
  | .batchInsert triples => (graph.batchInsert triples).1
  | .remove triple => (graph.remove triple).1
  | .clear => graph.clear
  | .bulkLoad triples => (graph.bulkLoad triples).1
  | .rebuildRing => graph.rebuildRing

/-- The graph after calls, one at a time. -/
def after (indexObjects : Bool) (calls : List Call) : Graph :=
  calls.foldl call { indexObjects }

/-- `bulkLoad` is meant for lists without repeats. -/
def Call.Distinct : Call → Prop
  | .bulkLoad triples => triples.Nodup
  | _ => True

theorem Holds.call (h : graph.Holds listed) (made : Call) :
    ∃ listed', (graph.call made).Holds listed' ∧
      (made.Distinct → listed.Nodup → listed'.Nodup) := by
  have hstored (triples : List (Triple Term)) (hlisted : listed.Nodup) :
      (listed ++ (newTriples graph.triples triples).1).Nodup :=
    ((h.perm hlisted).append_right _).nodup_iff.mpr
      (nodup_newTriples h.nodup triples)
  cases made with
  | insert triple =>
    simp only [Graph.call, Graph.insert]
    split
    · exact ⟨_, h.insertStored [triple], fun _ => hstored _⟩
    · exact ⟨_, h, fun _ => id⟩
  | insertEach triples => exact ⟨_, h.insertStored _, fun _ => hstored _⟩
  | batchInsert triples => exact ⟨_, h.insertStored triples, fun _ => hstored _⟩
  | remove triple => exact ⟨_, h.remove triple, fun _ hlisted => hlisted.filter _⟩
  | clear => exact ⟨_, graph.holds_clear, fun _ _ => nodup_nil⟩
  | bulkLoad triples => exact ⟨_, graph.holds_bulkLoad triples, fun hdistinct _ => hdistinct⟩
  | rebuildRing => exact ⟨_, h.rebuildRing, fun _ => id⟩

theorem holds_after (indexObjects : Bool) (calls : List Call) :
    ∃ listed, (after indexObjects calls).Holds listed := by
  refine foldlRecOn (motive := fun graph => ∃ listed, graph.Holds listed) calls call ?_
    fun graph h made _ => ?_
  · exact ⟨_, holds_clear { indexObjects }⟩
  · obtain ⟨listed, h⟩ := h
    obtain ⟨listed', h', -⟩ := h.call made
    exact ⟨listed', h'⟩

end Graph

abbrev TripleScanOp := AnnotatedPattern Term String

/-- The columns of a scan with a triple's terms, the positions that are variables. -/
def AnnotatedPattern.row (scan : TripleScanOp) (triple : Triple Term) : List (String × Term) :=
  [(scan.subject, triple.subject), (scan.predicate, triple.predicate),
    (scan.object, triple.object)].filterMap fun
    | (.var name, term) => some (name, term)
    | (.bound _, _) => none

namespace Graph

/-- The triples a scan reads: from the ring where it is built. -/
def scanned (graph : Graph) (pattern : TriplePattern Term) : List (Triple Term) :=
  match graph.ring with
  | some ring => ring.find pattern
  | none => graph.find pattern

/-- The rows of `plan_triple_scan`, of all chunks. -/
def tripleScan (graph : Graph) (scan : TripleScanOp) : List (List (String × Term)) :=
  (graph.scanned scan.pattern).map scan.row

def countForScan (graph : Graph) (scan : TripleScanOp) : Option Nat :=
  match scan.subject, scan.predicate, scan.object, graph.ring with
  | .var _, .var _, .var _, _ => some graph.triples.length
  | _, _, _, some ring => some (ring.count scan.pattern)
  | .var _, .bound (.iri predicate), .var _, none =>
      some (graph.countWithPredicate (.iri predicate))
  | _, _, _, none => none

end Graph

/-- The triple holds one term wherever the pattern repeats a variable. -/
def AnnotatedPattern.OneTerm (scan : TripleScanOp) (triple : Triple Term) : Prop :=
  ∀ a ∈ scan.row triple, ∀ b ∈ scan.row triple, a.1 = b.1 → a.2 = b.2

instance (scan : TripleScanOp) : DecidablePred scan.OneTerm := fun triple =>
  inferInstanceAs (Decidable (∀ a ∈ scan.row triple, ∀ b ∈ scan.row triple, a.1 = b.1 → a.2 = b.2))

namespace Graph

/-- The triples that are solutions of a triple pattern. -/
def solving (graph : Graph) (scan : TripleScanOp) : List (Triple Term) :=
  graph.triples.filter fun triple => scan.pattern.matches triple ∧ scan.OneTerm triple

def solutions (graph : Graph) (scan : TripleScanOp) : List (List (String × Term)) :=
  (graph.solving scan).map scan.row

/-- The scan reads the ring or the primary set, or its index has each matching triple once. -/
def ListsOnce (graph : Graph) (pattern : TriplePattern Term) : Prop :=
  graph.ring = none → graph.scans pattern = false → ∀ triple ∈ graph.triples,
    pattern.matches triple = true → (graph.entry .subject ⟨triple.subject, none⟩).count triple = 1

variable {graph : Graph} {listed : List (Triple Term)}

theorem Holds.count_subject (h : graph.Holds listed) (triple : Triple Term) :
    (graph.entry .subject ⟨triple.subject, none⟩).count triple = listed.count triple := by
  rw [h.entry_eq (by simp [keeps]), count_filter (by simp [IndexName.key])]

/-- What a scan reads are the triples of the set that match, each once where they are listed
once. -/
theorem Holds.scanned_spec (h : graph.Holds listed) (pattern : TriplePattern Term) :
    (∀ triple, triple ∈ graph.scanned pattern ↔
        triple ∈ graph.triples ∧ pattern.matches triple = true) ∧
      ((graph.scanned pattern).Nodup ↔ graph.ListsOnce pattern) := by
  rw [scanned, ListsOnce]
  cases hring : graph.ring with
  | some ring =>
    refine ⟨fun triple => ?_, fun _ => nofun, fun _ => ring.nodup.filter _⟩
    exact mem_filter.trans (by rw [(h.ring ring hring).mem_iff])
  | none =>
    simp only [(h.find_eq pattern).1]
    cases hscans : graph.scans pattern with
    | true =>
      exact ⟨fun triple => mem_filter, fun _ _ => nofun, fun _ => h.nodup.filter _⟩
    | false =>
      refine ⟨fun triple => by simp [h.mem], ?_⟩
      simp only [Bool.false_eq_true, if_false, nodup_iff_count_eq_one, mem_filter, h.mem,
        h.count_subject, forall_const, and_imp]
      refine forall_congr' fun triple => forall_congr' fun _ => forall_congr' fun hmatch => ?_
      rw [count_filter hmatch]

/-- The count, where there is one, is that of the triples the scan reads. -/
theorem Holds.countForScan_eq (h : graph.Holds listed) {scan : TripleScanOp} {count : Nat}
    (hcount : graph.countForScan scan = some count) :
    count = (graph.scanned scan.pattern).length := by
  unfold countForScan at hcount
  split at hcount
  case h_1 hs hp ho =>
    have hpattern : scan.pattern = ⟨none, none, none⟩ := by
      simp [AnnotatedPattern.pattern, refinePattern, hs, hp, ho, Slot.refined]
    cases hcount
    rw [scanned, hpattern]
    cases hring : graph.ring with
    | none => exact (congrArg length (filter_true graph.triples)).symm
    | some ring =>
      rw [← (h.ring ring hring).length_eq]
      exact (congrArg length (filter_true ring.triples)).symm
  case h_2 hring _ =>
    cases hcount
    rw [scanned, hring]
    rfl
  case h_3 predicate _ hs hp ho hring =>
    have hpattern : scan.pattern = ⟨none, some (.iri predicate), none⟩ := by
      simp [AnnotatedPattern.pattern, refinePattern, hs, hp, ho, Slot.refined]
    cases hcount
    rw [scanned, hring, hpattern]
    rfl
  case h_4 => cases hcount

/-- **When a scan answers the pattern**: when each triple that has the pattern's constants has one
term for each variable, and the index read lists it once. -/
theorem tripleScan_iff (indexObjects : Bool) (calls : List Call) (scan : TripleScanOp) :
    let graph := after indexObjects calls
    ((graph.tripleScan scan).Perm (graph.solutions scan) ∧
        ∀ count, graph.countForScan scan = some count → count = (graph.solutions scan).length) ↔
      (∀ triple ∈ graph.triples, scan.pattern.matches triple = true → scan.OneTerm triple) ∧
        graph.ListsOnce scan.pattern := by
  intro graph
  obtain ⟨listed, h⟩ : ∃ listed, graph.Holds listed := holds_after indexObjects calls
  obtain ⟨hmem, hnodup⟩ := h.scanned_spec scan.pattern
  rw [← hnodup, tripleScan, solutions]
  have hsolving : (graph.solving scan).Nodup := h.nodup.filter _
  have hmem' (triple : Triple Term) : triple ∈ graph.solving scan ↔
      triple ∈ graph.scanned scan.pattern ∧ scan.OneTerm triple := by
    rw [solving, mem_filter, hmem, decide_eq_true_iff, and_assoc]
  constructor
  · intro ⟨hrows, _⟩
    -- the solutions are among what is read, and no fewer
    have hperm := (subperm_of_subset hsolving fun _ ht => ((hmem' _).mp ht).1).perm_of_length_le
      (by simpa using Nat.le_of_eq hrows.length_eq)
    refine ⟨fun triple htriple hmatch => ?_, hperm.nodup_iff.mp hsolving⟩
    exact ((hmem' triple).mp (hperm.mem_iff.mpr ((hmem triple).mpr ⟨htriple, hmatch⟩))).2
  · intro ⟨hone, honce⟩
    have hperm : (graph.scanned scan.pattern).Perm (graph.solving scan) := by
      refine (perm_ext_iff_of_nodup honce hsolving).mpr fun triple => ?_
      rw [hmem', hmem]
      exact ⟨fun ht => ⟨ht, hone triple ht.1 ht.2⟩, And.left⟩
    refine ⟨hperm.map _, fun count hcount => ?_⟩
    rw [h.countForScan_eq hcount, length_map, hperm.length_eq]

/-- A triple of two terms is a row of a pattern that repeats its variable. -/
theorem tripleScan_repeats_variable :
    ¬ ((after true [.insert ⟨.iri "a", .iri "p", .iri "b"⟩]).tripleScan
        ⟨.var "x", .bound (.iri "p"), .var "x"⟩).Perm
      ((after true [.insert ⟨.iri "a", .iri "p", .iri "b"⟩]).solutions
        ⟨.var "x", .bound (.iri "p"), .var "x"⟩) := by
  decide +kernel

end Graph

/-! ### Datasets -/

/-- The indexes are those of the graph's triples, each listed once. -/
def Graph.Exact (graph : Graph) : Prop := ∃ listed, graph.Holds listed ∧ listed.Nodup

/-- The indexes are those of a list of the graph's triples, each in it once if `once`. -/
def Graph.Lists (once : Prop) (graph : Graph) : Prop :=
  ∃ listed, graph.Holds listed ∧ (once → listed.Nodup)

/-- The graphs by name, the default graph under `none`. -/
structure Dataset where
  indexObjects : Bool
  graphs : List (Option String × Graph)

namespace Dataset

inductive Call where
  /-- A call on a graph, which is created where it does not exist if it `creates`. -/
  | graph (creates : Bool) (name : Option String) (made : Graph.Call)
  | create (name : String)
  | drop (name : String)
  /-- Of the default graph, `DROP` too. -/
  | clear (name : Option String)
  /-- `CLEAR` and `DROP` of the named graphs, or of all. -/
  | clearNamed (all : Bool)
  | copy (source target : Option String)
  | move (source target : Option String)
  | add (source target : Option String)

def graph (dataset : Dataset) (name : Option String) : Option Graph :=
  @lookup _ _ instBEqOfDecidableEq name dataset.graphs

/-- A graph, empty where it does not exist. -/
def held (dataset : Dataset) (name : Option String) : Graph :=
  (dataset.graph name).getD { indexObjects := dataset.indexObjects }

def change (dataset : Dataset) (creates : Bool) (f : Graph → Graph) (name : Option String) :
    Dataset :=
  if creates || (dataset.graph name).isSome then
    let new := { indexObjects := dataset.indexObjects }
    { dataset with graphs := upsert name new f dataset.graphs }
  else dataset

/-- Inserts the triples of `source` into `target`, in place of its own if it is a copy. -/
def addInto (dataset : Dataset) (copies : Bool) (source target : Option String) : Dataset :=
  if source = target then dataset
  else
    dataset.change true (fun graph => (dataset.held source).triples.foldl
      (fun graph triple => graph.call (.insert triple)) (if copies then graph.clear else graph)) target

def dropGraph (dataset : Dataset) (name : Option String) : Dataset :=
  { dataset with graphs := eraseKey name dataset.graphs }

def call (dataset : Dataset) : Call → Dataset
  | .graph creates name made => dataset.change creates (·.call made) name
  | .create name => dataset.change true id (some name)
  | .drop name => dataset.dropGraph (some name)
  | .clear name => dataset.change false Graph.clear name
  | .clearNamed all =>
      let default := dataset.held none
      { dataset with graphs := [(none, if all then default.clear else default)] }
  | .copy source target => dataset.addInto true source target
  | .move source target =>
      if source = target then dataset
      else
        let copied := dataset.addInto true source target
        if source = none then copied.change false Graph.clear none else copied.dropGraph source
  | .add source target => dataset.addInto false source target

/-- The dataset after calls, one at a time. -/
def after (indexObjects : Bool) (calls : List Call) : Dataset :=
  calls.foldl call { indexObjects, graphs := [(none, { indexObjects })] }

def Call.Distinct : Call → Prop
  | .graph _ _ made => made.Distinct
  | _ => True

def Exact (dataset : Dataset) : Prop :=
  ∀ name graph, dataset.graph name = some graph → graph.Exact

def Lists (once : Prop) (dataset : Dataset) : Prop :=
  ∀ name graph, dataset.graph name = some graph → graph.Lists once

variable {once : Prop}

theorem lists_clear (graph : Graph) : graph.clear.Lists once :=
  ⟨_, graph.holds_clear, fun _ => nodup_nil⟩

theorem lists_call {graph : Graph} (h : graph.Lists once) (made : Graph.Call)
    (hmade : once → made.Distinct) : (graph.call made).Lists once := by
  obtain ⟨listed, h, hlisted⟩ := h
  obtain ⟨listed', h', hnodup⟩ := h.call made
  exact ⟨listed', h', fun honce => hnodup (hmade honce) (hlisted honce)⟩

theorem lists_default {indexObjects : Bool} {graph : Graph} (h : graph.Lists once) :
    Lists once ⟨indexObjects, [(none, graph)]⟩ := by
  intro name held hheld
  cases name <;> cases hheld
  exact h

variable {dataset : Dataset} (h : dataset.Lists once)
include h

theorem Lists.held (name : Option String) : (dataset.held name).Lists once := by
  rw [Dataset.held]
  cases hgraph : dataset.graph name with
  | none => exact lists_clear { indexObjects := dataset.indexObjects }
  | some graph => exact h name graph hgraph

theorem Lists.change (creates : Bool) {f : Graph → Graph}
    (hf : ∀ graph, graph.Lists once → (f graph).Lists once) (name : Option String) :
    (dataset.change creates f name).Lists once := by
  rw [Dataset.change]
  split
  · intro other graph hgraph
    simp only [Dataset.graph, lookup_upsert] at hgraph
    split at hgraph
    · cases hgraph
      exact hf _ (h.held name)
    · exact h other graph hgraph
  · exact h

theorem Lists.dropGraph (name : Option String) : (dataset.dropGraph name).Lists once := by
  intro other graph hgraph
  simp only [Dataset.graph, Dataset.dropGraph, lookup_eraseKey] at hgraph
  split at hgraph
  · cases hgraph
  · exact h other graph hgraph

theorem Lists.addInto (copies : Bool) (source target : Option String) :
    (dataset.addInto copies source target).Lists once := by
  rw [Dataset.addInto]
  split
  · exact h
  · refine h.change true (fun graph hgraph => ?_) target
    refine foldlRecOn (motive := Graph.Lists once) _ _ ?_ fun _ h triple _ =>
      lists_call h (.insert triple) fun _ => trivial
    cases copies with
    | true => exact lists_clear graph
    | false => exact hgraph

theorem Lists.call {made : Call} (hmade : once → made.Distinct) : (dataset.call made).Lists once := by
  have hclear (graph : Graph) (_ : graph.Lists once) : graph.clear.Lists once := lists_clear graph
  cases made with
  | graph creates name made =>
    exact h.change creates (fun _ hgraph => lists_call hgraph made hmade) name
  | create name => exact h.change true (fun _ hgraph => hgraph) (some name)
  | drop name => exact h.dropGraph (some name)
  | clear name => exact h.change false hclear name
  | clearNamed all =>
    refine lists_default ?_
    cases all with
    | true => exact lists_clear _
    | false => exact h.held none
  | copy source target => exact h.addInto true source target
  | move source target =>
    have hcopied := h.addInto true source target
    simp only [Dataset.call]
    split
    · exact h
    · split
      · exact hcopied.change false hclear none
      · exact hcopied.dropGraph source
  | add source target => exact h.addInto false source target

omit h

theorem lists_after (indexObjects : Bool) {calls : List Call}
    (hcalls : once → ∀ made ∈ calls, made.Distinct) : (after indexObjects calls).Lists once :=
  foldlRecOn (motive := Lists once) calls call (lists_default (lists_clear { indexObjects }))
    fun _ h made hmade => h.call fun honce => hcalls honce made hmade

theorem exact_iff : dataset.Exact ↔ dataset.Lists True := by
  simp [Exact, Lists, Graph.Exact, Graph.Lists]

end Dataset

end Grafeo.Rdf
