import Grafeo.Rdf.Graph
import Grafeo.Transaction.Triples
import Mathlib

/-!
# Grafeo.Transaction.Overlay

**What a transaction reads of an RDF dataset** (`transaction/rdf.rs`): the triples of the store,
without those it deleted and with those it inserted (`mem_find`). A scan under `FROM` reads the
graphs named so (`query/planner/rdf/mod.rs`). It makes the names unique and not the triples, so it
reads the merge of the graphs (`PendingTriples.ReadsMerge`) just if no two of them share a match.

A transaction so reads **the store as its commit leaves it** (`PendingTriples.Overlays`), its log
applied entry by entry, and a write tells whether that changed.
-/

namespace Grafeo.Transaction

open Rdf List TransactionChanges PendingTriples

variable {Name Value : Type} {graphs : List (Option String)}

/-- The triples that match in `graphs`, each with its graph. -/
def findInGraphs (store : Dataset) (pattern : TriplePattern Term) (graphs : List (Option String)) :
    List (Option String × Triple Term) :=
  graphs.flatMap fun graph => ((store.held graph).find pattern).map (graph, ·)

namespace PendingTriples

/-- The triples written that match in `graphs`. -/
def matching (pending : PendingTriples) (pattern : TriplePattern Term)
    (graphs : List (Option String)) : PendingTriples :=
  graphs.flatMap fun graph => pending.filter fun ((key, triple), _) =>
    key = graph && pattern.matches triple

/-- Whether the transaction sees `triple` in `graph`: its last write of it decides, else the
store. -/
def sees (pending : PendingTriples) (store : Dataset) (item : Option String × Triple Term) : Bool :=
  (pending.lookup item).getD (item.2 ∈ (store.held item.1).triples)

def find (pending : PendingTriples) (store : Dataset) (pattern : TriplePattern Term)
    (graphs : List (Option String)) : List (Option String × Triple Term) :=
  let written := pending.matching pattern graphs
  (findInGraphs store pattern graphs).filter (fun item => (item, false) ∉ written) ++
    (written.filter fun (item, present) =>
      present && item.2 ∉ (store.held item.1).triples).map Prod.fst

/-- The triples of a scan under `FROM`. A session without a transaction has none pending. -/
def fromScan (pending : PendingTriples) (store : Dataset) (pattern : TriplePattern Term)
    (names : List String) : List (Triple Term) :=
  -- `sort_unstable`, then `dedup`.
  let unique := (names.insertionSort (· ≤ ·)).destutter (· ≠ ·)
  (pending.find store pattern (unique.map some)).map Prod.snd

/-- The scan reads the merge of the graphs named, as the transaction sees them: each triple once. -/
def ReadsMerge (pending : PendingTriples) (store : Dataset) (pattern : TriplePattern Term)
    (names : List String) : Prop :=
  ∀ triple, (pending.fromScan store pattern names).count triple = if pattern.matches triple ∧
    ∃ name ∈ names, pending.sees store (some name, triple) then 1 else 0

variable {pending : PendingTriples} {store : Dataset} {pattern : TriplePattern Term}
  {item : Option String × Triple Term}

theorem nodup_of (set : ChangeSet Name Value) : ((of set).map Prod.fst).Nodup := by
  rw [of]
  refine foldlRecOn (motive := fun l : PendingTriples => (l.map Prod.fst).Nodup) _ _ nodup_nil ?_
  intro pending h entry _
  cases entry with
  | bulk => exact h
  | data _ op =>
    cases op with
    | insertTriple | deleteTriple => exact Lib.nodup_upsert h
    | lpg => exact h

theorem lookup_eq (h : (pending.map Prod.fst).Nodup) {present : Bool} :
    pending.lookup item = some present ↔ (item, present) ∈ pending := by
  refine ⟨Lib.mem_of_lookup, fun hmem => ?_⟩
  obtain ⟨first, rest, rfl⟩ := append_of_mem hmem
  rw [map_append, map_cons, nodup_append] at h
  have hfirst : first.lookup item = none := lookup_eq_none_iff.mpr fun entry hentry =>
    bne_iff_ne.mpr (h.2.2 entry.1 (mem_map_of_mem hentry) item mem_cons_self).symm
  rw [lookup_append, hfirst, Option.none_or, lookup_cons_self]

/-- What is listed graph by graph is listed once. -/
theorem nodup_flatMap_graphs {f : Option String → List (Option String × Triple Term)}
    (hgraphs : graphs.Nodup) (hf : ∀ graph, (f graph).Nodup ∧ ∀ item ∈ f graph, item.1 = graph) :
    (graphs.flatMap f).Nodup := by
  refine nodup_flatMap.mpr ⟨fun graph _ => (hf graph).1, hgraphs.imp fun hne item ha hb => ?_⟩
  exact hne (((hf _).2 item ha).symm.trans ((hf _).2 item hb))

section

variable (hstore : store.Lists True)
include hstore

theorem mem_findInGraphs : item ∈ findInGraphs store pattern graphs ↔ item.1 ∈ graphs ∧
      item.2 ∈ (store.held item.1).triples ∧ pattern.matches item.2 = true := by
  obtain ⟨listed, hheld, hlisted⟩ := hstore.held item.1
  rw [← mem_filter, ← (hheld.find_perm (hlisted trivial) pattern).mem_iff]
  simp only [findInGraphs, mem_flatMap, mem_map]
  grind

theorem nodup_findInGraphs (hgraphs : graphs.Nodup) :
    (findInGraphs store pattern graphs).Nodup := by
  refine nodup_flatMap_graphs hgraphs fun graph => ?_
  obtain ⟨listed, hheld, hlisted⟩ := hstore.held graph
  have hnodup := (hheld.find_perm (hlisted trivial) pattern).nodup_iff.mpr (hheld.nodup.filter _)
  exact ⟨hnodup.map (Prod.mk_right_injective graph), by simp⟩

variable (h : (pending.map Prod.fst).Nodup)
include h

/-- **What a transaction reads**: the matches that it sees in the graphs. -/
theorem mem_find : item ∈ pending.find store pattern graphs ↔
      item.1 ∈ graphs ∧ pattern.matches item.2 = true ∧ pending.sees store item = true := by
  have hwritten (present : Bool) : (item, present) ∈ pending.matching pattern graphs ↔
      item.1 ∈ graphs ∧ pattern.matches item.2 = true ∧ (item, present) ∈ pending := by
    simp only [matching, mem_flatMap, mem_filter, Bool.and_eq_true, decide_eq_true_eq]
    grind
  simp only [find, mem_append, mem_filter, mem_findInGraphs hstore, mem_map, Prod.exists, sees,
    exists_and_right, exists_eq_right, hwritten, ← lookup_eq h]
  cases pending.lookup item with
  | none => grind
  | some present => cases present <;> grind

theorem nodup_find (hgraphs : graphs.Nodup) : (pending.find store pattern graphs).Nodup := by
  refine nodup_append.mpr ⟨(nodup_findInGraphs hstore hgraphs).filter _, ?_, ?_⟩
  · refine Nodup.sublist (filter_sublist.map _) ?_
    rw [matching, map_flatMap]
    refine nodup_flatMap_graphs hgraphs fun graph => ⟨h.sublist (filter_sublist.map _), ?_⟩
    simp +contextual
  · intro item hfound other hnew heq
    rw [mem_filter, mem_findInGraphs hstore] at hfound
    simp at hnew
    grind

end

end PendingTriples

abbrev sampleTriple : Triple Term := ⟨.iri "s", .iri "p", .iri "o"⟩

/-- Graph `a` with one triple. -/
abbrev sampleCalls : List Dataset.Call := [.graph true (some "a") (.insert sampleTriple)]

/-! ### The log applied -/

/-- What the commit of an entry does to the store. -/
def ChangeSet.apply (set : ChangeSet Name Value) (store : Dataset) : LogEntry Name Value → Dataset
  | .data graph (.insertTriple triple) .. =>
      store.call (.graph true (set.keyOf graph) (.insert triple))
  | .data graph (.deleteTriple triple) .. =>
      store.call (.graph false (set.keyOf graph) (.remove triple))
  | _ => store

/-- The store after the entries of a log, applied in order. -/
def ChangeSet.applied (set : ChangeSet Name Value) (store : Dataset) : Dataset :=
  set.entries.foldl set.apply store

/-- Whether what an entry inserts is an RDF triple. -/
def LogEntry.isValid : LogEntry Name Value → Bool
  | .data _ (.insertTriple triple) .. => triple.isValid
  | _ => true

/-- `insert` and `delete` of a transaction: records the write if it changes what the transaction
sees, and says whether it does. -/
def TransactionChanges.write [DecidableEq Name] (c : TransactionChanges Name Value) (store : Dataset)
    (graph : Option String) (triple : Triple Term) (insert : Bool) :
    Except Refused Bool × TransactionChanges Name Value :=
  if c.triples.sees store (graph, triple) = insert then (.ok false, c)
  else
    let op := if insert then LogOp.insertTriple triple else .deleteTriple triple
    let pushed := (c.set.slot ⟨.rdf, graph⟩).bind fun (set, slot) =>
      set.push slot op .absent .created
    (pushed.map fun _ => true, c.recordTriple graph triple insert)

namespace PendingTriples

variable {pending : PendingTriples} {store applied : Dataset}

/-- What a transaction sees of `store` is what `applied` holds. -/
def Overlays (pending : PendingTriples) (store applied : Dataset) : Prop :=
  ∀ item, pending.sees store item = decide (item.2 ∈ (applied.held item.1).triples)

theorem sees_note (graph : Option String) (triple : Triple Term) (present : Bool)
    (item : Option String × Triple Term) : (pending.note graph triple present).sees store item =
      if item = (graph, triple) then present else pending.sees store item := by
  have hlookup := Lib.lookup_upsert (graph, triple) item present (fun _ => present) pending
  rw [lawful_beq_subsingleton (instBEqOfDecidableEq) instBEqProd] at hlookup
  rw [sees, note, hlookup]
  split <;> rfl

theorem held_change (store : Dataset) (creates : Bool) (f : Graph → Graph)
    (name other : Option String) : (store.change creates f name).held other =
      if other = name ∧ (creates || (store.graph name).isSome) then f (store.held name)
      else store.held other := by
  rw [Dataset.change]
  by_cases hexists : (creates || (store.graph name).isSome) = true
  · rw [if_pos hexists, Dataset.held, Dataset.graph, Lib.lookup_upsert]
    by_cases hname : other = name
    · rw [if_pos hname, if_pos ⟨hname, hexists⟩]
      rfl
    · rw [if_neg hname, if_neg fun h => hname h.1]
      rfl
  · rw [if_neg hexists, if_neg fun h => hexists h.2]

/-- A write noted, and made in a graph. -/
theorem Overlays.note (h : pending.Overlays store applied) {graph : Option String}
    {triple : Triple Term} {present creates : Bool} {f : Graph → Graph}
    (hf : ∀ graph t, t ∈ (f graph).triples ↔ if t = triple then present else t ∈ graph.triples)
    (hcreates : present → creates) :
    (pending.note graph triple present).Overlays store (applied.change creates f graph) := by
  intro ⟨other, t⟩
  have hempty (hnone : (applied.graph graph).isSome = false) :
      t ∉ (applied.held graph).triples := by
    rw [Dataset.held, Option.isSome_eq_false_iff.mp hnone |> Option.isNone_iff_eq_none.mp]
    exact not_mem_nil
  rw [sees_note, h (other, t), held_change]
  grind

/-- **One entry** of a log, noted and applied. -/
theorem Overlays.entry (h : pending.Overlays store applied) (set : ChangeSet Name Value)
    {entry : LogEntry Name Value} (hvalid : entry.isValid = true) :
    (noteEntry set pending entry).Overlays store (set.apply applied entry) := by
  cases entry with
  | bulk => exact h
  | data graph op =>
    cases op with
    | lpg => exact h
    | insertTriple triple =>
      refine h.note (fun g t => ?_) id
      have hvalid : triple.isValid = true := hvalid
      have hmem := mem_newTriples g.triples [triple] t
      simp only [Graph.call, Graph.insert, hvalid, Graph.insertStored]
      grind
    | deleteTriple triple =>
      refine h.note (fun g t => ?_) (by simp)
      simp only [Graph.call, Graph.remove]
      grind

theorem overlays_of (store : Dataset) {set : ChangeSet Name Value}
    (hvalid : ∀ entry ∈ set.entries, entry.isValid = true) :
    (of set).Overlays store (set.applied store) := by
  exact foldl_rel (r := (Overlays · store ·)) (fun _ => rfl) fun entry hentry _ _ h =>
    h.entry set (hvalid entry hentry)

end PendingTriples

theorem lists_applied {store : Dataset} (h : store.Lists True) (set : ChangeSet Name Value) :
    (set.applied store).Lists True := by
  refine foldlRecOn _ _ h fun dataset h entry _ => ?_
  match entry with
  | .data _ (.insertTriple _) .. | .data _ (.deleteTriple _) .. => exact h.call fun _ => trivial
  | .data _ (.lpg _) .. | .bulk .. => exact h

variable [DecidableEq Name] {store : Dataset}

/-- A write that is not refused reports whether it changes what the transaction sees. -/
theorem write_changed {c c' : TransactionChanges Name Value} {graph : Option String}
    {triple : Triple Term} {insert changed : Bool}
    (h : c.write store graph triple insert = (.ok changed, c')) :
    changed = true ↔ c'.triples.sees store ≠ c.triples.sees store := by
  unfold TransactionChanges.write TransactionChanges.recordTriple at h
  split at h
  · cases h
    simp
  next hsees =>
    cases hslot : c.set.slot ⟨.rdf, graph⟩ with
    | error refused => simp [hslot, Except.bind, Except.map] at h
    | ok found =>
      simp only [hslot, Except.bind] at h
      generalize found.1.push .. = pushed at h
      cases pushed with
      | error refused => cases h
      | ok set =>
        cases h
        refine iff_of_true rfl fun hsame => hsees ?_
        rw [← congrFun hsame (graph, triple), sees_note, if_pos rfl]

/-- **A transaction sees the store as its commit will leave it**, and lists it so, each triple once,
just if the store's indexes list each triple once. Its callers insert RDF triples only. -/
theorem overlay_iff (indexObjects : Bool) (calls : List Dataset.Call) :
    let store := Dataset.after indexObjects calls
    (∀ writes : List (Recording Name Value), let c := recorded writes
      (∀ entry ∈ c.set.entries, entry.isValid = true) →
        c.triples.Overlays store (c.set.applied store) ∧
        (∀ pattern graphs, graphs.Nodup → (c.triples.find store pattern graphs).Nodup ∧
          (c.triples.find store pattern graphs).Perm
            (findInGraphs (c.set.applied store) pattern graphs)) ∧
        ∀ graph triple insert changed c', c.write store graph triple insert = (.ok changed, c') →
          (changed = true ↔ c'.triples.sees store ≠ c.triples.sees store)) ↔
      ∀ graph triple,
        ((store.held graph).entry .subject ⟨triple.subject, none⟩).count triple ≤ 1 := by
  intro store
  constructor
  · intro h graph triple
    have hfound := ((h [] (forall_mem_nil _)).2.1 ⟨some triple.subject, none, none⟩ [graph] (nodup_singleton _)).1
    have hentry : ((store.held graph).entry .subject ⟨triple.subject, none⟩).Nodup := by
      simp [recorded, PendingTriples.find, matching, findInGraphs, Graph.find] at hfound
      exact hfound.of_map _
    exact nodup_iff_count_le_one.mp hentry triple
  · intro honce writes c hvalid
    have hstore : store.Lists True := by
      intro name graph hgraph
      have hheld : store.held name = graph := by rw [Dataset.held, hgraph]; rfl
      obtain ⟨listed, h, -⟩ := @Dataset.lists_after False indexObjects calls (by simp) name graph hgraph
      refine ⟨listed, h, fun _ => nodup_iff_count_le_one.mpr fun triple => ?_⟩
      rw [← h.count_subject, ← hheld]
      exact honce name triple
    have htriples : c.triples = of c.set := (recorded_spec writes).triples
    have hpending : (c.triples.map Prod.fst).Nodup := htriples ▸ nodup_of _
    have hoverlays : c.triples.Overlays store (c.set.applied store) :=
      htriples ▸ overlays_of store hvalid
    have happlied := lists_applied hstore c.set
    refine ⟨hoverlays, fun pattern graphs hgraphs => ?_, fun _ _ _ _ _ => write_changed⟩
    have hnodup := @nodup_find graphs c.triples store pattern hstore hpending hgraphs
    refine ⟨hnodup, (perm_ext_iff_of_nodup hnodup ?_).mpr fun item => ?_⟩
    · exact nodup_findInGraphs happlied hgraphs
    · rw [mem_find hstore hpending, mem_findInGraphs happlied, hoverlays item]
      grind

/-- A triple loaded twice is listed twice. -/
theorem find_loaded_twice :
    let calls := [.graph true none (.bulkLoad [sampleTriple, sampleTriple])]
    ¬ ((recorded ([] : List (Recording Nat Nat))).triples.find (Dataset.after true calls)
      ⟨some (.iri "s"), none, none⟩ [none]).Nodup := by
  decide +kernel

end Grafeo.Transaction
