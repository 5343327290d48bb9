import Grafeo.RowGroup.Change
import Grafeo.Rdf.Store
import Mathlib.Algebra.Order.BigOperators.Group.List
import Mathlib.Algebra.Order.Ring.Nat

/-!
# Grafeo.Transaction.Triples

**The log of a transaction** (`grafeo-common/src/change.rs`): the graphs it writes, its entries in
the order they were recorded, and beside them the rows kept with bulk ranges, each list under the
index of its range's entry. The set checks every entry it takes, so it takes an entry that it held
before again (`Ok.checked`).

**The triples of a transaction at its commit** (`transaction/changes.rs`, `transaction/rdf.rs`).
The commit applies the log's triple ops to the store, inserts of one graph in batches, and takes
those that changed nothing out of the log. The batches change the store as the ops would one by
one (`applyAll_spec`). The log is rebuilt entry by entry, without the rows kept with its bulk
ranges, so it keeps every other op just if it is not rebuilt or there are no such rows
(`applyTriples_ops_iff`).
-/

namespace Grafeo.Transaction

open Rdf List Lib
open RowGroup (DataOp Before PendingVersion BulkRange)

inductive DataModel where
  | lpg
  | rdf
deriving Repr, DecidableEq

/-- A graph of the database: the default one (`none`) or one with a storage key. -/
structure GraphRef where
  model : DataModel
  key : Option String
deriving Repr, DecidableEq

/-- What a write of a transaction did, in a labeled property graph or an RDF graph. -/
inductive LogOp (Name Value : Type) where
  | lpg (op : DataOp Name Value)
  | insertTriple (triple : Triple Term)
  | deleteTriple (triple : Triple Term)

variable {Name Value : Type} [DecidableEq Name] {graphs : List GraphRef}

namespace LogOp

def model : LogOp Name Value → DataModel
  | lpg _ => .lpg
  | _ => .rdf

/-- Whether an id is not the one that stands for none. -/
def isValidId (id : Nat) : Bool := id ≠ 2 ^ 64 - 1

/-- Whether every id the op names is a real one. -/
def namesRealIds : LogOp Name Value → Bool
  | lpg (.createEdge id src dst _ _) => isValidId id && isValidId src && isValidId dst
  | lpg op => isValidId op.entity.raw
  | _ => true

/-- Whether `before` is the before-image the op has. -/
def hasBefore (before : Before Name Value) : LogOp Name Value → Bool
  | lpg op => before.fits op
  | _ => before matches .absent

end LogOp

/-- One entry: a write to the graph of a slot, or the ids a bulk write reserved there. -/
inductive LogEntry (Name Value : Type) where
  | data (graph : Nat) (op : LogOp Name Value) (before : Before Name Value)
    (version : PendingVersion)
  | bulk (graph : Nat) (range : BulkRange)

/-- Why the set refuses an entry, or rows of a bulk write. -/
inductive Refused where
  | tooManyGraphs
  | unknownGraph
  | otherModel
  | invalidId
  | misfit
  | replacedVersion
  | notBulkRange
  | notCreate
deriving Repr, DecidableEq

/-- Whether `row` is a create in the range, of an edge with real endpoints. -/
def holds (range : BulkRange) : LogOp Name Value → Bool
  | .lpg op => range.holds op && (range.table = .nodes || (LogOp.lpg op).namesRealIds)
  | _ => false

namespace LogEntry

def graph : LogEntry Name Value → Nat
  | data graph .. | bulk graph _ => graph

def model : LogEntry Name Value → DataModel
  | data _ op _ _ => op.model
  | bulk .. => .lpg

/-- An empty range reserves nothing. -/
def isEmpty : LogEntry Name Value → Bool
  | data .. => false
  | bulk _ range => range.stop ≤ range.start

/-- What of an entry the set refuses, whatever its graph. -/
def misfit : LogEntry Name Value → Option Refused
  | data _ op before version =>
      if !op.namesRealIds then some .invalidId
      else if !op.hasBefore before then some .misfit
      else if version = .replaced ∧ before matches .absent then some .replacedVersion
      else none
  | bulk .. => none

/-- Why a set that writes `graphs` refuses the entry. -/
def refusal (graphs : List GraphRef) (entry : LogEntry Name Value) : Option Refused :=
  match graphs[entry.graph]? with
  | none => some .unknownGraph
  | some known => if known.model ≠ entry.model then some .otherModel else entry.misfit

theorem lt_of_refusal {entry : LogEntry Name Value}
    (h : entry.refusal graphs = none) : entry.graph < graphs.length := by
  by_contra hle
  rw [refusal, getElem?_eq_none (le_of_not_gt hle)] at h
  cases h

theorem refusal_append {entry : LogEntry Name Value}
    (h : entry.refusal graphs = none) (more : List GraphRef) :
    entry.refusal (graphs ++ more) = none := by
  rw [refusal, getElem?_append_left (lt_of_refusal h)]
  exact h

end LogEntry

/-- The changes of one transaction, in the order they were applied. -/
structure ChangeSet (Name Value : Type) where
  graphs : List GraphRef := []
  entries : List (LogEntry Name Value) := []
  bulkRows : List (Nat × List (LogOp Name Value)) := []

/-- `rows`, kept with the entry `index` after those kept with it before. -/
def keepRows (index : Nat) (rows : List (LogOp Name Value))
    (kept : List (Nat × List (LogOp Name Value))) :
    List (Nat × List (LogOp Name Value)) :=
  match kept.getLast? with
  | some (last, old) =>
      if last = index then kept.dropLast ++ [(last, old ++ rows)] else kept ++ [(index, rows)]
  | none => [(index, rows)]

namespace ChangeSet

/-- The slot of `graph`, added to the set's graphs the first time. -/
def slot (set : ChangeSet Name Value) (graph : GraphRef) :
    Except Refused (ChangeSet Name Value × Nat) :=
  match set.graphs.idxOf? graph with
  | some slot => .ok (set, slot)
  | none =>
      if set.graphs.length < 2 ^ 32 then
        .ok ({ set with graphs := set.graphs ++ [graph] }, set.graphs.length)
      else .error .tooManyGraphs

/-- The storage key of the graph of a slot. -/
def keyOf (set : ChangeSet Name Value) (slot : Nat) : Option String :=
  set.graphs[slot]?.bind GraphRef.key

/-- Takes an entry; an empty range adds none. -/
def record (set : ChangeSet Name Value)
    (entry : LogEntry Name Value) : Except Refused (ChangeSet Name Value) :=
  match entry.refusal set.graphs with
  | some refused => .error refused
  | none => .ok (if entry.isEmpty then set else { set with entries := set.entries ++ [entry] })

/-- Records a write. -/
def push (set : ChangeSet Name Value) (graph : Nat)
    (op : LogOp Name Value) (before : Before Name Value) (version : PendingVersion) :
    Except Refused (ChangeSet Name Value) :=
  set.record (.data graph op before version)

/-- Records the ids a bulk write reserved. -/
def pushBulk (set : ChangeSet Name Value) (graph : Nat)
    (range : BulkRange) : Except Refused (ChangeSet Name Value) :=
  set.record (.bulk graph range)

/-- Keeps `rows` with the range recorded last. -/
def pushBulkRows (set : ChangeSet Name Value) (graph : Nat)
    (rows : List (LogOp Name Value)) : Except Refused (ChangeSet Name Value) :=
  if rows.isEmpty then .ok set
  else
    match set.entries.getLast? with
    | some (.bulk g range) =>
        if g ≠ graph then .error .notBulkRange
        else if !rows.all (holds range) then .error .notCreate
        else .ok { set with bulkRows := keepRows (set.entries.length - 1) rows set.bulkRows }
    | _ => .error .notBulkRange

/-- The rows kept with the range of entry `index`. -/
def rowsOf (set : ChangeSet Name Value) (index : Nat) : List (LogOp Name Value) :=
  (set.bulkRows.lookup index).getD []

/-- What an entry did, with the rows kept where it is a range. -/
def opsAt (rows : List (LogOp Name Value)) :
    LogEntry Name Value → List (Nat × LogOp Name Value × Before Name Value)
  | .data graph op before _ => [(graph, op, before)]
  | .bulk graph _ => rows.map fun row => (graph, row, .absent)

/-- What the set's writes did, in the order they were applied. -/
def ops (set : ChangeSet Name Value) : List (Nat × LogOp Name Value × Before Name Value) :=
  set.entries.zipIdx.flatMap fun entry => opsAt (set.rowsOf entry.2) entry.1

/-- Removes the entries recorded after `mark`, with the rows kept with them, and returns the
entries. -/
def splitOff (set : ChangeSet Name Value) (mark : Nat) :
    ChangeSet Name Value × List (LogEntry Name Value) :=
  if set.entries.length ≤ mark then (set, [])
  else
    ({ set with
      entries := set.entries.take mark
      bulkRows := set.bulkRows.takeWhile fun kept => kept.1 < mark }, set.entries.drop mark)

/-! ### What every set holds -/

variable {set set' : ChangeSet Name Value}

/-- Every entry passed the checks, and every list of rows is kept with a range. -/
structure Ok (set : ChangeSet Name Value) : Prop where
  checked : ∀ entry ∈ set.entries, entry.refusal set.graphs = none ∧ entry.isEmpty = false
  kept : ∀ kept ∈ set.bulkRows, kept.2 ≠ [] ∧
    ∃ graph range, set.entries[kept.1]? = some (.bulk graph range)

theorem Ok.slot (h : set.Ok) {graph : GraphRef} {slot : Nat}
    (hslot : set.slot graph = .ok (set', slot)) : set'.Ok ∧ set'.entries = set.entries ∧
      set'.graphs[slot]? = some graph ∧ ∃ more, set'.graphs = set.graphs ++ more := by
  unfold ChangeSet.slot at hslot
  split at hslot
  next found hfound =>
    cases hslot
    obtain ⟨hlt, heq, -⟩ := findIdx?_eq_some_iff_getElem.mp hfound
    exact ⟨h, rfl, List.getElem?_eq_some_iff.mpr ⟨hlt, by simpa using heq⟩, [], by simp⟩
  · split at hslot <;> cases hslot
    refine ⟨⟨fun entry hentry => ?_, h.kept⟩, rfl, by simp, _, rfl⟩
    exact ⟨LogEntry.refusal_append (h.checked entry hentry).1 _, (h.checked entry hentry).2⟩

theorem Ok.record (h : set.Ok) {entry : LogEntry Name Value}
    (hrecord : set.record entry = .ok set') : set'.Ok := by
  unfold ChangeSet.record at hrecord
  split at hrecord
  · cases hrecord
  rename_i hrefusal
  cases hrecord
  split
  · exact h
  rename_i hempty
  refine ⟨forall_mem_concat.mpr ⟨h.checked, hrefusal, Bool.not_eq_true _ ▸ hempty⟩,
    fun kept hkept => ?_⟩
  · obtain ⟨hrows, graph, range, hat⟩ := h.kept kept hkept
    refine ⟨hrows, graph, range, ?_⟩
    rw [getElem?_append_left (List.getElem?_eq_some_iff.mp hat).1, hat]

theorem Ok.pushBulkRows (h : set.Ok) {graph : Nat} {rows : List (LogOp Name Value)}
    (hpush : set.pushBulkRows graph rows = .ok set') : set'.Ok ∧ set'.entries = set.entries ∧
      set'.graphs = set.graphs := by
  unfold ChangeSet.pushBulkRows at hpush
  split at hpush
  · cases hpush
    exact ⟨h, rfl, rfl⟩
  rename_i hrows
  split at hpush
  case h_2 => cases hpush
  rename_i g range hlast
  split at hpush
  · cases hpush
  split at hpush
  · cases hpush
  cases hpush
  refine ⟨⟨h.checked, ?_⟩, rfl, rfl⟩
  have hat : set.entries[set.entries.length - 1]? = some (.bulk g range) := by
    rw [← getLast?_eq_getElem?, hlast]
  have hrows : rows ≠ [] := by simpa using hrows
  have hnew : ∀ kept : Nat × List (LogOp Name Value), kept.1 = set.entries.length - 1 →
      kept.2 ≠ [] → kept.2 ≠ [] ∧ ∃ graph range, set.entries[kept.1]? = some (.bulk graph range) :=
    fun kept hindex hkept => ⟨hkept, g, range, hindex ▸ hat⟩
  unfold keepRows
  split
  · split
    next hindex =>
      exact forall_mem_concat.mpr ⟨fun kept hkept => h.kept kept (mem_of_mem_dropLast hkept),
        hnew _ hindex (append_ne_nil_of_right_ne_nil _ hrows)⟩
    · exact forall_mem_concat.mpr ⟨h.kept, hnew _ rfl hrows⟩
  · exact forall_mem_singleton.mpr (hnew _ rfl hrows)

theorem Ok.splitOff (h : set.Ok) (mark : Nat) : (set.splitOff mark).1.Ok := by
  unfold ChangeSet.splitOff
  split
  · exact h
  refine ⟨fun entry hentry => h.checked entry (mem_of_mem_take hentry), fun kept hkept => ?_⟩
  have hlt : kept.1 < mark :=
    of_decide_eq_true (all_eq_true.mp all_takeWhile kept hkept)
  obtain ⟨hrows, graph, range, hat⟩ := h.kept kept (takeWhile_subset _ hkept)
  exact ⟨hrows, graph, range, by rw [getElem?_take_of_lt hlt, hat]⟩

end ChangeSet

open Option

open RowGroup (DataOp Before PendingVersion BulkRange)

variable {Name Value : Type} [DecidableEq Name] {set : ChangeSet Name Value}
  {entries : List (LogEntry Name Value)} {entry : LogEntry Name Value} {pending : PendingTriples}

/-- The net effect of a transaction's triples: whether each is there once it commits. -/
abbrev PendingTriples := List ((Option String × Triple Term) × Bool)

namespace PendingTriples

/-- Notes a write of `triple` in `graph`: the triple is there after it (`present`) or not. -/
def note (pending : PendingTriples) (graph : Option String) (triple : Triple Term)
    (present : Bool) : PendingTriples :=
  upsert (graph, triple) present (fun _ => present) pending

/-- Notes the write of an entry, if it is of a triple. -/
def noteEntry (set : ChangeSet Name Value) (pending : PendingTriples) :
    LogEntry Name Value → PendingTriples
  | .data graph (.insertTriple triple) .. => pending.note (set.keyOf graph) triple true
  | .data graph (.deleteTriple triple) .. => pending.note (set.keyOf graph) triple false
  | _ => pending

/-- The net effect of the RDF entries of `set`. -/
def of (set : ChangeSet Name Value) : PendingTriples :=
  set.entries.foldl (noteEntry set) []

end PendingTriples

/-- The changes of one transaction: its log, and the net effect of its triples. -/
structure TransactionChanges (Name Value : Type) where
  set : ChangeSet Name Value := {}
  triples : PendingTriples := []

/-- What a session does with the changes of its transaction. -/
inductive Recording (Name Value : Type) where
  | bind (key : Option String)
  | record (slot : Nat) (op : DataOp Name Value) (before : Before Name Value)
    (version : PendingVersion)
  | bulk (slot : Nat) (range : BulkRange)
  | bulkRows (slot : Nat) (rows : List (DataOp Name Value))
  | triple (graph : Option String) (triple : Triple Term) (insert : Bool)
  | rollbackTo (mark : Nat)

namespace TransactionChanges

/-- The changes with what the set took; as they were when it refuses. -/
def take (c : TransactionChanges Name Value) (set : Except Refused (ChangeSet Name Value)) :
    TransactionChanges Name Value :=
  { c with set := set.toOption.getD c.set }

/-- Records the insert or the delete of `triple`. -/
def recordTriple (c : TransactionChanges Name Value) (graph : Option String)
    (triple : Triple Term) (insert : Bool) : TransactionChanges Name Value :=
  match c.set.slot ⟨.rdf, graph⟩ with
  | .error _ => c
  | .ok (set, slot) =>
      let op := if insert then LogOp.insertTriple triple else .deleteTriple triple
      match set.push slot op .absent .created with
      | .error _ => { c with set }
      | .ok set => { set, triples := c.triples.note graph triple insert }

/-- Takes the entries recorded after `mark` off; the net effect is computed again when one of
them is of a triple. -/
def rollbackTo (c : TransactionChanges Name Value) (mark : Nat) : TransactionChanges Name Value :=
  let (set, dropped) := c.set.splitOff mark
  { set, triples := if dropped.any (·.model = .rdf) then PendingTriples.of set else c.triples }

def step (c : TransactionChanges Name Value) : Recording Name Value → TransactionChanges Name Value
  | .bind key => c.take ((c.set.slot ⟨.lpg, key⟩).map Prod.fst)
  | .record slot op before version => c.take (c.set.push slot (.lpg op) before version)
  | .bulk slot range => c.take (c.set.pushBulk slot range)
  | .bulkRows slot rows => c.take (c.set.pushBulkRows slot (rows.map .lpg))
  | .triple graph triple insert => c.recordTriple graph triple insert
  | .rollbackTo mark => c.rollbackTo mark

/-- The changes after the calls of a session, in order. -/
def recorded (calls : List (Recording Name Value)) : TransactionChanges Name Value :=
  calls.foldl step {}

end TransactionChanges

/-! ### The commit -/

/-- A commit halfway: the store, the inserts collected for the graph of slot `run` with the places
of their entries, and the places of the entries that changed nothing. -/
structure Applying where
  store : RdfStore
  run : Option Nat := none
  positions : List Nat := []
  triples : List (Triple Term) := []
  unchanged : List Nat := []

namespace Applying

/-- Inserts the triples collected. -/
def flush (set : ChangeSet Name Value) (a : Applying) : Applying :=
  match a.run with
  | none => a
  | some slot =>
      let (store, new) := a.store.insertEachInto (set.keyOf slot) a.triples
      { store
        unchanged := a.unchanged ++
          (a.positions.zip new).filterMap fun each => if each.2 then none else some each.1 }

/-- Applies the entry at a place of the log. -/
def applyOne (set : ChangeSet Name Value) (a : Applying) : LogEntry Name Value × Nat → Applying
  | (.data graph (.insertTriple triple) .., place) =>
      let a := if a.run ≠ some graph then { a.flush set with run := some graph } else a
      { a with positions := a.positions ++ [place], triples := a.triples ++ [triple] }
  | (.data graph (.deleteTriple triple) .., place) =>
      let a := a.flush set
      let (store, removed) := a.store.removeFrom (set.keyOf graph) triple
      { a with store, unchanged := if removed then a.unchanged else a.unchanged ++ [place] }
  | _ => a

end Applying

/-- Puts entries back, but those at the places of `unchanged`. -/
def putBack (set : ChangeSet Name Value) : List (LogEntry Name Value × Nat) → List Nat →
    Except Refused (ChangeSet Name Value)
  | [], _ => .ok set
  | (entry, place) :: entries, unchanged =>
      if unchanged.head? = some place then putBack set entries unchanged.tail
      else
        match set.record entry with
        | .error refused => .error refused
        | .ok set => putBack set entries unchanged

/-- Applies the triples to `store`, and takes those that changed nothing out of the log. -/
def TransactionChanges.applyTriples (c : TransactionChanges Name Value) (store : RdfStore) :
    Except Refused (TransactionChanges Name Value × RdfStore) :=
  if c.triples.isEmpty then .ok (c, store)
  else
    let applied := (c.set.entries.zipIdx.foldl (Applying.applyOne c.set) { store }).flush c.set
    if applied.unchanged.isEmpty then .ok (c, applied.store)
    else
      let (set, entries) := c.set.splitOff 0
      (putBack set entries.zipIdx applied.unchanged).map fun set => ({ c with set }, applied.store)

/-! ### One by one -/

/-- What an entry does to the store, and whether it changes it; of what is no triple op, the
latter is so. -/
def applyEntry (set : ChangeSet Name Value) (store : RdfStore) :
    LogEntry Name Value → RdfStore × Bool
  | .data graph (.insertTriple triple) .. =>
      let inserted := store.insertEachInto (set.keyOf graph) [triple]
      (inserted.1, inserted.2.all id)
  | .data graph (.deleteTriple triple) .. => store.removeFrom (set.keyOf graph) triple
  | _ => (store, true)

/-- Which entries stay in the log: all but the triple ops that change nothing, applied in order. -/
def stays (set : ChangeSet Name Value) (store : RdfStore) : List (LogEntry Name Value) → List Bool
  | [] => []
  | entry :: entries =>
      (applyEntry set store entry).2 :: stays set (applyEntry set store entry).1 entries

/-- The places of the entries that go. -/
def dropped (place : Nat) (stay : List Bool) : List Nat :=
  (stay.zipIdx place).filterMap fun each => if each.1 then none else some each.2

/-- What of a list stays. -/
def kept {α : Type} (l : List α) (stay : List Bool) : List α :=
  ((l.zip stay).filter (·.2)).map Prod.fst

/-- The ops of a log without the triple ops that change nothing. -/
def ChangeSet.opsThatStay (set : ChangeSet Name Value) (store : RdfStore) :
    List (Nat × LogOp Name Value × Before Name Value) :=
  (kept set.entries.zipIdx (stays set store set.entries)).flatMap fun entry =>
    ChangeSet.opsAt (set.rowsOf entry.2) entry.1

theorem dropped_cons (place : Nat) (b : Bool) (stay : List Bool) :
    dropped place (b :: stay) = dropped place [b] ++ dropped (place + 1) stay := by
  cases b <;> rfl

/-! ### The batches -/

namespace Applying

variable {set : ChangeSet Name Value} {a : Applying}

/-- Each insert collected has its place, and a run its graph. -/
def Balanced (a : Applying) : Prop :=
  a.positions.length = a.triples.length ∧ (a.run = none → a.triples = [])

theorem dropped_one (place : Nat) (b : Bool) :
    ([place].zip [b]).filterMap (fun each => if each.2 then none else some each.1) =
      dropped place [[b].all id] := by
  cases b <;> rfl

theorem flush_of_none (h : a.run = none) : a.flush set = a := by
  rw [Applying.flush, h]

theorem flush_of_some {slot : Nat} (h : a.run = some slot) : a.flush set =
      { store := (a.store.insertEachInto (set.keyOf slot) a.triples).1
        unchanged := a.unchanged ++
          (a.positions.zip (a.store.insertEachInto (set.keyOf slot) a.triples).2).filterMap
            fun each => if each.2 then none else some each.1 } := by
  rw [Applying.flush, h]

theorem Balanced.flush (h : a.Balanced) (set : ChangeSet Name Value) :
    (a.flush set).run = none ∧ (a.flush set).positions = [] ∧ (a.flush set).triples = [] := by
  cases hrun : a.run with
  | none =>
    have hnil := h.2 hrun
    rw [flush_of_none hrun]
    exact ⟨hrun, eq_nil_of_length_eq_zero (by rw [h.1, hnil]; rfl), hnil⟩
  | some slot =>
    rw [flush_of_some hrun]
    exact ⟨rfl, rfl, rfl⟩

/-- One entry, after what was collected before it. -/
theorem Balanced.applyOne (h : a.Balanced) (set : ChangeSet Name Value)
    (entry : LogEntry Name Value) (place : Nat) :
    (a.applyOne set (entry, place)).Balanced ∧ ((a.applyOne set (entry, place)).flush set).store =
        (applyEntry set (a.flush set).store entry).1 ∧
      ((a.applyOne set (entry, place)).flush set).unchanged = (a.flush set).unchanged ++
        dropped place [(applyEntry set (a.flush set).store entry).2] := by
  obtain ⟨hrun, hpositions, htriples⟩ := h.flush set
  cases entry with
  | bulk => exact ⟨h, rfl, (append_nil _).symm⟩
  | data graph op => cases op with
  | lpg => exact ⟨h, rfl, (append_nil _).symm⟩
  | deleteTriple triple =>
    simp only [Applying.applyOne, applyEntry]
    generalize a.flush set = b at *
    rw [flush_of_none (by exact hrun)]
    refine ⟨⟨by simp [hpositions, htriples], fun _ => htriples⟩, rfl, ?_⟩
    cases (b.store.removeFrom (set.keyOf graph) triple).2 <;> simp [dropped]
  | insertTriple triple =>
    by_cases hsame : a.run = some graph
    · -- The insert joins the batch.
      have hlength := length_insertEach (a.store.triples (set.keyOf graph)) a.triples
      simp only [Applying.applyOne, applyEntry, hsame, ne_eq, not_true_eq_false, if_false]
      rw [flush_of_some rfl, flush_of_some hsame]
      simp only [RdfStore.insertEachInto_append]
      refine ⟨⟨by simp [h.1], by simp⟩, trivial, ?_⟩
      rw [zip_append (by rw [h.1]; exact hlength.symm), filterMap_append, ← append_assoc]
      simp only [RdfStore.insertEachInto, insertEach, dropped_one]
    · simp only [Applying.applyOne, applyEntry, hsame, ne_eq, not_false_eq_true, if_true]
      generalize a.flush set = b at *
      rw [flush_of_some rfl, hpositions, htriples, nil_append, nil_append]
      refine ⟨⟨rfl, by simp⟩, rfl, ?_⟩
      simp only [RdfStore.insertEachInto, insertEach, dropped_one]

/-- **The batches leave out what the ops would one by one.** -/
theorem applyAll_spec (h : a.Balanced) (set : ChangeSet Name Value)
    (entries : List (LogEntry Name Value)) (place : Nat) :
    (((entries.zipIdx place).foldl (Applying.applyOne set) a).flush set).unchanged =
      (a.flush set).unchanged ++ dropped place (stays set (a.flush set).store entries) := by
  induction entries generalizing a place with
  | nil => exact (append_nil _).symm
  | cons entry entries ih =>
    obtain ⟨hbalanced, hstore, hunchanged⟩ := h.applyOne set entry place
    rw [zipIdx_cons, foldl_cons, ih hbalanced, hstore, hunchanged, append_assoc, ← dropped_cons]
    rfl

end Applying

/-! ### The log after the commit -/

theorem length_stays (set : ChangeSet Name Value) (store : RdfStore)
    (entries : List (LogEntry Name Value)) : (stays set store entries).length = entries.length := by
  induction entries generalizing store with
  | nil => rfl
  | cons entry entries ih => simp [stays, ih]

theorem dropped_eq_nil {place : Nat} {stay : List Bool} :
    dropped place stay = [] ↔ false ∉ stay := by
  induction stay generalizing place with
  | nil => simp [dropped]
  | cons b stay ih =>
    cases b
    · simp [dropped]
    · simpa [dropped] using ih

theorem head_dropped_ne (place : Nat) (stay : List Bool) :
    (dropped (place + 1) stay).head? ≠ some place := by
  intro hhead
  obtain ⟨each, hmem, heq⟩ := mem_filterMap.mp (mem_of_head? hhead)
  have hle := (mem_zipIdx hmem).1
  cases hb : each.1 <;> simp [hb] at heq
  omega

/-- What is put back: the entries that stay. -/
theorem putBack_eq {stay : List Bool} (hlength : stay.length = entries.length)
    (h : ∀ entry ∈ entries, entry.refusal set.graphs = none ∧ entry.isEmpty = false) (place : Nat) :
    putBack set (entries.zipIdx place) (dropped place stay) = .ok { set with
      entries := set.entries ++ kept entries stay } := by
  induction entries generalizing set stay place with
  | nil => simp [putBack, kept]
  | cons entry entries ih =>
    obtain ⟨b, stay, rfl⟩ : ∃ b rest, stay = b :: rest :=
      exists_cons_of_length_eq_add_one hlength
    have hstay : stay.length = entries.length := by simpa using hlength
    obtain ⟨hentry, hrest⟩ := forall_mem_cons.mp h
    rw [zipIdx_cons, putBack]
    cases b with
    | false =>
      have hcons : dropped place (false :: stay) = place :: dropped (place + 1) stay := rfl
      rw [hcons, head?_cons, if_pos rfl, tail_cons, ih hstay hrest]
      rfl
    | true =>
      have hcons : dropped place (true :: stay) = dropped (place + 1) stay := rfl
      rw [hcons, if_neg (head_dropped_ne place stay), ChangeSet.record, hentry.1]
      simp only [hentry.2, Bool.false_eq_true, if_false]
      rw [@ih { set with entries := set.entries ++ [entry] } stay hstay hrest]
      simp [kept]

theorem kept_of_true {α : Type} {l : List α} {stay : List Bool} (hlength : stay.length = l.length)
    (h : false ∉ stay) : kept l stay = l := by
  rw [kept, filter_eq_self.mpr fun each hmem => ?_, map_fst_zip (hlength.symm.le)]
  cases hb : each.2 with
  | false => exact absurd (hb ▸ (of_mem_zip hmem).2) h
  | true => rfl

theorem kept_zipIdx {α : Type} (l : List α) (stay : List Bool) (place : Nat) :
    (kept (l.zipIdx place) stay).map Prod.fst = kept l stay := by
  induction l generalizing stay place with
  | nil => simp [kept]
  | cons a l ih =>
    cases stay with
    | nil => simp [kept]
    | cons b stay =>
      have hrest := ih stay (place + 1)
      cases b <;> simpa [kept] using hrest

theorem applyEntry_of_lpg
    (h : entry.model = .lpg) (store : RdfStore) : applyEntry set store entry = (store, true) := by
  match entry, h with
  | .data _ (.lpg _) .., _ | .bulk .., _ => rfl

/-- What is no triple op stays. -/
theorem mem_kept {store : RdfStore} {place index : Nat}
    (hmem : (entry, index) ∈ entries.zipIdx place) (hmodel : entry.model = .lpg) :
    (entry, index) ∈ kept (entries.zipIdx place) (stays set store entries) := by
  induction entries generalizing store place with
  | nil => cases hmem
  | cons first entries ih =>
    rw [zipIdx_cons, mem_cons] at hmem
    obtain hfirst | hmem := hmem
    · cases hfirst
      simp [stays, kept, applyEntry_of_lpg hmodel]
    have hrest := @ih (applyEntry set store first).1 _ hmem
    cases hb : (applyEntry set store first).2 with
    | false => simpa [stays, kept, hb] using hrest
    | true =>
      rw [stays, hb]
      exact mem_cons_of_mem _ hrest

/-! ### Sessions -/

namespace PendingTriples

variable {set set' : ChangeSet Name Value} {entries : List (LogEntry Name Value)}

theorem foldl_noteEntry_eq_nil : entries.foldl (noteEntry set) pending = [] ↔
      pending = [] ∧ ∀ entry ∈ entries, entry.model = .lpg := by
  have hnote : ∀ (pending : PendingTriples) graph triple present,
      pending.note graph triple present ≠ [] := by
    intro pending graph triple present
    cases pending with
    | nil => simp [note, upsert]
    | cons each pending =>
      simp only [note, upsert]
      split <;> simp
  induction entries generalizing pending with
  | nil => simp
  | cons entry entries ih =>
    refine ih.trans ?_
    cases entry with
    | bulk => simp [noteEntry, LogEntry.model]
    | data _ op => cases op <;> simp [noteEntry, hnote, LogEntry.model, LogOp.model]

theorem foldl_noteEntry_of_lpg (h : ∀ entry ∈ entries, entry.model = .lpg) :
    entries.foldl (noteEntry set) pending = pending := by
  induction entries with
  | nil => rfl
  | cons entry entries ih =>
    obtain ⟨hentry, hrest⟩ := forall_mem_cons.mp h
    match entry, hentry with
    | .data _ (.lpg _) .., _ | .bulk .., _ => exact ih hrest

/-- More graphs change nothing of what the entries say. -/
theorem of_more {more : List GraphRef} (hset : set.Ok) (hentries : set'.entries = set.entries)
    (hgraphs : set'.graphs = set.graphs ++ more) : of set' = of set := by
  unfold of
  rw [hentries]
  refine foldl_ext _ _ _ fun pending entry hentry => ?_
  have hkey : set'.keyOf entry.graph = set.keyOf entry.graph := by
    rw [ChangeSet.keyOf, hgraphs,
      getElem?_append_left (LogEntry.lt_of_refusal (hset.checked entry hentry).1)]
    rfl
  match entry, hkey with
  | .data _ (.insertTriple _) .., hkey | .data _ (.deleteTriple _) .., hkey =>
    exact congrArg (note pending · _ _) hkey
  | .data _ (.lpg _) .., _ | .bulk .., _ => rfl

end PendingTriples

namespace TransactionChanges

variable {c : TransactionChanges Name Value}

/-- **What every session keeps**: the log holds entries it would take, and the net effect is that
of its triples. -/
structure Recorded (c : TransactionChanges Name Value) : Prop where
  ok : c.set.Ok
  triples : c.triples = PendingTriples.of c.set

theorem Recorded.take (h : c.Recorded) {taken : Except Refused (ChangeSet Name Value)}
    (htaken : ∀ set, taken = .ok set →
      set.Ok ∧ PendingTriples.of set = PendingTriples.of c.set) : (c.take taken).Recorded := by
  cases taken with
  | error refused => exact h
  | ok set =>
    obtain ⟨hok, hof⟩ := htaken set rfl
    exact ⟨hok, h.triples.trans hof.symm⟩

open PendingTriples

theorem Recorded.record (h : c.Recorded)
    (hmodel : entry.model = .lpg) : (c.take (c.set.record entry)).Recorded := by
  refine h.take fun set hrecord => ⟨h.ok.record hrecord, ?_⟩
  unfold ChangeSet.record at hrecord
  split at hrecord
  · cases hrecord
  cases hrecord
  split
  · rfl
  · rw [of, of, foldl_append]
    exact foldl_noteEntry_of_lpg (by simpa using hmodel)

theorem Recorded.step (h : c.Recorded) (call : Recording Name Value) : (c.step call).Recorded := by
  cases call with
  | bind key =>
    refine h.take fun set hset => ?_
    cases hslot : c.set.slot ⟨.lpg, key⟩ with
    | error refused => simp [hslot, Except.map] at hset
    | ok found =>
      rw [hslot] at hset
      cases hset
      obtain ⟨hok, hentries, -, more, hgraphs⟩ := h.ok.slot hslot
      exact ⟨hok, of_more h.ok hentries hgraphs⟩
  | record slot op before version => exact h.record rfl
  | bulk slot range => exact h.record rfl
  | bulkRows slot rows =>
    refine h.take fun set hset => ?_
    obtain ⟨hok, hentries, hgraphs⟩ := h.ok.pushBulkRows hset
    exact ⟨hok, of_more h.ok hentries (hgraphs.trans (append_nil _).symm)⟩
  | triple graph triple insert =>
    simp only [TransactionChanges.step, recordTriple]
    cases hslot : c.set.slot ⟨.rdf, graph⟩ with
    | error refused => exact h
    | ok found =>
      obtain ⟨set, slot⟩ := found
      obtain ⟨hok, hentries, hat, more, hgraphs⟩ := h.ok.slot hslot
      have htriples := h.triples.trans (of_more h.ok hentries hgraphs).symm
      simp only
      cases hpush : set.push slot (if insert then .insertTriple triple else .deleteTriple triple)
        .absent .created with
      | error refused => exact ⟨hok, htriples⟩
      | ok set₁ =>
        refine ⟨hok.record hpush, ?_⟩
        have hkey : set.keyOf slot = graph := by rw [ChangeSet.keyOf, hat]; rfl
        simp only [ChangeSet.push, ChangeSet.record] at hpush
        split at hpush
        · cases hpush
        cases hpush
        simp only [of, htriples]
        cases insert <;> simp [noteEntry, LogEntry.isEmpty, ← hkey] <;> rfl
  | rollbackTo mark =>
    refine ⟨h.ok.splitOff mark, ?_⟩
    simp only [TransactionChanges.step, rollbackTo]
    split
    · rfl
    rename_i hnone
    rw [h.triples, ChangeSet.splitOff] at *
    split
    · rfl
    rename_i hlt
    rw [if_neg hlt] at hnone
    have hlpg : ∀ entry ∈ c.set.entries.drop mark, entry.model = .lpg := by
      intro entry hentry
      cases hmodel : entry.model with
      | lpg => rfl
      | rdf => exact absurd (any_eq_true.mpr ⟨entry, hentry, by simp [hmodel]⟩) hnone
    rw [of]
    conv => lhs; rw [← take_append_drop mark c.set.entries]
    rw [foldl_append, foldl_noteEntry_of_lpg hlpg]
    rfl

theorem recorded_spec (calls : List (Recording Name Value)) : (recorded calls).Recorded := by
  exact foldlRecOn calls _ ⟨⟨nofun, nofun⟩, rfl⟩ fun _ h call _ => h.step call

end TransactionChanges

/-! ### What the commit logs -/

theorem ChangeSet.ops_of_no_rows (graphs : List GraphRef) (entries : List (LogEntry Name Value))
    (stay : List Bool) :
    ChangeSet.ops { graphs, entries := kept entries stay } =
      (kept entries.zipIdx stay).flatMap fun entry => ChangeSet.opsAt [] entry.1 := by
  have hfst : ∀ l : List (LogEntry Name Value × Nat),
      l.flatMap (fun entry => ChangeSet.opsAt [] entry.1) =
        (l.map Prod.fst).flatMap (ChangeSet.opsAt []) := fun l => (flatMap_map ..).symm
  simp only [ChangeSet.ops, ChangeSet.rowsOf, lookup_nil, getD_none]
  rw [hfst, hfst, zipIdx_map_fst, kept_zipIdx]

/-- A range's rows are ops the set has, and none without them. -/
theorem ChangeSet.Ok.opsAt_lt (h : set.Ok)
    (hrows : set.bulkRows ≠ []) : ∃ entry ∈ set.entries.zipIdx, entry.1.model = .lpg ∧
      (ChangeSet.opsAt [] entry.1).length < (ChangeSet.opsAt (set.rowsOf entry.2) entry.1).length := by
  obtain ⟨⟨i, rows⟩, rest, hbulk⟩ := exists_cons_of_ne_nil hrows
  obtain ⟨hne, graph, range, hat⟩ := h.kept (i, rows) (by rw [hbulk]; exact mem_cons_self)
  refine ⟨(.bulk graph range, i), mem_zipIdx_iff_getElem?.mpr hat, rfl, ?_⟩
  have hlookup : set.rowsOf i = rows := by simp [rowsOf, hbulk]
  simpa [opsAt, hlookup] using length_pos_iff.mpr hne

theorem stays_of_lpg {store : RdfStore} (h : ∀ entry ∈ entries, entry.model = .lpg) :
    false ∉ stays set store entries := by
  induction entries with
  | nil => exact not_mem_nil
  | cons entry entries ih =>
    obtain ⟨hentry, hrest⟩ := forall_mem_cons.mp h
    simpa [stays, applyEntry_of_lpg hentry] using ih hrest

/-- **What the commit logs.** Whatever a session recorded, the commit leaves in the log the ops
but those of triples that changed nothing, in their order and with every row kept with a bulk
range, just if every triple op changed the store or no range has rows. -/
theorem applyTriples_ops_iff (calls : List (Recording Name Value)) (store : RdfStore) :
    ∃ c store', (TransactionChanges.recorded calls).applyTriples store = .ok (c, store') ∧
      (c.set.ops = (TransactionChanges.recorded calls).set.opsThatStay store ↔
        false ∉ stays (TransactionChanges.recorded calls).set store
            (TransactionChanges.recorded calls).set.entries ∨
          (TransactionChanges.recorded calls).set.bulkRows = []) := by
  have hrecorded := TransactionChanges.recorded_spec calls
  generalize TransactionChanges.recorded calls = c at *
  have hlength := length_stays c.set store c.set.entries
  -- Where every triple op changes the store, the log stays as it is.
  have hsame : false ∉ stays c.set store c.set.entries → c.set.ops = c.set.opsThatStay store := by
    intro hall
    rw [ChangeSet.opsThatStay, kept_of_true (by simp [hlength]) hall]
    rfl
  unfold TransactionChanges.applyTriples
  split
  next hempty =>
    have hlpg := PendingTriples.foldl_noteEntry_eq_nil.mp
      (hrecorded.triples.symm.trans (isEmpty_iff.mp hempty))
    have hall : false ∉ stays c.set store c.set.entries := stays_of_lpg hlpg.2
    exact ⟨c, store, rfl, iff_of_true (hsame hall) (.inl hall)⟩
  have hunchanged := Applying.applyAll_spec (a := { store }) ⟨rfl, fun _ => rfl⟩ c.set
    c.set.entries 0
  have hstart : Applying.flush c.set { store } = { store } := rfl
  rw [hstart, nil_append] at hunchanged
  simp only
  rw [hunchanged]
  split
  next hnil =>
    have hall := dropped_eq_nil.mp (isEmpty_iff.mp hnil)
    exact ⟨c, _, rfl, iff_of_true (hsame hall) (.inl hall)⟩
  rename_i hdropped
  have hfalse : ¬false ∉ stays c.set store c.set.entries := fun hall =>
    hdropped (isEmpty_iff.mpr (dropped_eq_nil.mpr hall))
  have hsplit : c.set.splitOff 0 = ({ graphs := c.set.graphs }, c.set.entries) := by
    unfold ChangeSet.splitOff
    rw [if_neg fun hle => hfalse (by
      rw [eq_nil_of_length_eq_zero (Nat.le_zero.mp hle)]
      exact not_mem_nil)]
    cases c.set.bulkRows <;> rfl
  rw [hsplit]
  rw [@putBack_eq _ _ _ { graphs := c.set.graphs } _ _ hlength hrecorded.ok.checked 0]
  refine ⟨_, _, rfl, ?_⟩
  change ChangeSet.ops { graphs := c.set.graphs, entries := kept _ _ } = _ ↔ _
  rw [ChangeSet.ops_of_no_rows, ChangeSet.opsThatStay]
  refine ⟨fun hops => .inr ?_, fun hor => ?_⟩
  · -- The rows of a range would be missing.
    by_contra hrows
    obtain ⟨entry, hmem, hmodel, hlt⟩ := hrecorded.ok.opsAt_lt hrows
    have hlengths := congrArg length hops
    rw [length_flatMap, length_flatMap] at hlengths
    refine (sum_lt_sum _ _ (fun other _ => ?_) ⟨entry, mem_kept hmem hmodel, hlt⟩).ne hlengths
    match other with
    | (.data .., _) => exact le_rfl
    | (.bulk .., _) => exact Nat.zero_le _
  · have hnone := hor.resolve_left hfalse
    simp [ChangeSet.rowsOf, hnone]

/-- A bulk range with one row kept, and the insert of a triple the store holds. -/
def lossyCalls : List (Recording Nat Nat) :=
  [.bind none, .bulk 0 ⟨.nodes, 0, 1⟩, .bulkRows 0 [.createNode 0 [] []],
    .triple none ⟨.iri "s", .iri "p", .iri "o"⟩ true]

def lossyStore : RdfStore := { default := [⟨.iri "s", .iri "p", .iri "o"⟩] }

theorem applyTriples_loses_row : ∃ c store',
    (TransactionChanges.recorded lossyCalls).applyTriples lossyStore = .ok (c, store') ∧
      c.set.ops ≠ (TransactionChanges.recorded lossyCalls).set.opsThatStay lossyStore := by
  refine ⟨_, _, rfl, fun hops => ?_⟩
  have hlengths := congrArg length hops
  revert hlengths
  decide +kernel

end Grafeo.Transaction
