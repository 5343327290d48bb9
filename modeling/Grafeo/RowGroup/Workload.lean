import Grafeo.Lib.Transition
import Grafeo.RowGroup.StoreUndo

/-!
# Grafeo.RowGroup.Workload

**A store under a workload**: the open transactions with their change sets
(`grafeo-engine/src/transaction/changes.rs`), and every call made of the store, in any
order. A write of a transaction is applied and then recorded; its commit and its rollbacks
hand the recorded entries to the store.

What the callers promise is the guard of a step (`Workload.allowed`):

* a row has one writer at a time, and a transaction writes no row a commit after its
  snapshot wrote (the claims of the transaction manager);
* commits are stamped in epoch order above the published epoch (a commit stamps in its
  turn), and so are the writes stamped at once;
* a transaction reads at a published epoch that no collect has passed, and a collect passes
  neither the published epoch nor an open snapshot (the collect horizon);
* ids are handed out once: the create of a row of a bulk write is one in the range the
  transaction recorded last, and no other create is of such an id.

The rows kept with a bulk range are read by the log and not by the store, so the model keeps
them always.

**Who wrote what is pending in each row.** An open transaction owns the rows its change set
names: its recorded writes lead from a row with nothing pending to the row as it is. A row no
change set names holds nothing pending (`Owned`). What each call does to the rows and to the
change sets keeps that.
-/

namespace Grafeo.RowGroup

/-- An open transaction: the epoch it reads at, and what it wrote. -/
structure OpenTransaction (Name Value : Type) where
  id : Nat
  snapshot : Nat
  changes : ChangeSet Name Value := {}

/-- The store, the published epoch, the open transactions, and the epoch of the last commit that
wrote each row. -/
structure Workload (Name Value : Type) where
  store : Store Name Value := {}
  published : Nat := 0
  transactions : List (OpenTransaction Name Value) := []
  written : Entity → Nat := fun _ => 0

/-- A call. -/
inductive Action (Name Value : Type) where
  | begin (id snapshot : Nat)
  | write (id : Nat) (op : DataOp Name Value)
  | bulk (id : Nat) (table : Table) (count : Nat)
  | bulkRow (id : Nat) (op : DataOp Name Value)
  | reserve (table : Table) (count : Nat)
  | direct (op : DataOp Name Value) (writer : Writer)
  | commit (id epoch : Nat)
  | rollback (id : Nat)
  | rollbackTo (id mark : Nat)
  | publish (epoch : Nat)
  | collect (horizon : Nat)
  | createPropertyIndex (property : Name)
  | dropPropertyIndex (property : Name)
  | createLabelIndex (label property : Name)
  | dropLabelIndex (label property : Name)

variable {Name Value : Type}

/-- The epoch of a writer that stamps at once. -/
def Writer.epoch : Writer → Option Nat
  | transaction .. => none
  | replay epoch | immediate epoch _ => some epoch

namespace Workload

/-- The open transaction `id`. -/
def find (w : Workload Name Value) (id : Nat) : Option (OpenTransaction Name Value) :=
  w.transactions.find? fun tx => decide (tx.id = id)

/-- The workload with other changes of transaction `id`. -/
def setChanges (w : Workload Name Value) (id : Nat) (changes : ChangeSet Name Value) :
    Workload Name Value :=
  { w with
    transactions := w.transactions.map fun tx => if tx.id = id then { tx with changes } else tx }

/-- The workload without transaction `id`. -/
def close (w : Workload Name Value) (id : Nat) : Workload Name Value :=
  { w with transactions := w.transactions.filter fun tx => decide (tx.id ≠ id) }

/-- Whether an open transaction other than `id` wrote or reserved `entity`. -/
def writtenByOther (w : Workload Name Value) (id : Nat) (entity : Entity) : Bool :=
  w.transactions.any fun tx => decide (tx.id ≠ id) && tx.changes.names entity

/-- Whether a range the transaction reserved holds `entity`. -/
def reserved (tx : OpenTransaction Name Value) (entity : Entity) : Bool :=
  tx.changes.entries.any fun change =>
    match change with
    | .bulk range _ => range.contains entity
    | .data .. => false

/-- Whether the transaction's last entry is a bulk range that holds the create `op`. -/
def inLastRange (tx : OpenTransaction Name Value) (op : DataOp Name Value) : Bool :=
  match tx.changes.entries.getLast? with
  | some (.bulk range _) => range.holds op
  | _ => false

/-- Whether the callers' promises allow the action. -/
def allowed (w : Workload Name Value) : Action Name Value → Bool
  | .begin id snapshot =>
      (w.find id).isNone && decide (id ≠ systemId) && decide (id < 2 ^ 63 - 1) &&
        decide (w.store.floor ≤ snapshot) && decide (snapshot ≤ w.published)
  | .write id op =>
      match w.find id with
      | some tx =>
          !w.writtenByOther id op.entity && decide (w.written op.entity ≤ tx.snapshot) &&
            !(op.isCreate && reserved tx op.entity)
      | none => false
  | .bulk id _ _ => (w.find id).isSome
  | .bulkRow id op =>
      match w.find id with
      | some tx => inLastRange tx op
      | none => false
  | .reserve _ _ => true
  | .direct op writer =>
      match writer.epoch with
      | some epoch =>
          decide (w.published < epoch) && decide (w.store.epoch ≤ epoch) &&
            w.transactions.all fun tx => !tx.changes.names op.entity
      | none => false
  | .commit id epoch =>
      (w.find id).isSome && decide (w.published < epoch) && decide (w.store.epoch < epoch)
  | .rollback id => (w.find id).isSome
  | .rollbackTo id _ => (w.find id).isSome
  | .publish epoch => decide (w.published ≤ epoch)
  | .collect horizon =>
      decide (horizon ≤ w.published) && w.transactions.all fun tx => decide (horizon ≤ tx.snapshot)
  | .createPropertyIndex _ | .dropPropertyIndex _ | .createLabelIndex _ _
  | .dropLabelIndex _ _ => true

variable [DecidableEq Name] [DecidableEq Value]

/-- A transaction's write: what it changed is recorded by `record`. -/
def writeWith (w : Workload Name Value) (tx : OpenTransaction Name Value) (op : DataOp Name Value)
    (record : Before Name Value → PendingVersion → ChangeSet Name Value) : Workload Name Value :=
  match w.store.apply op (.transaction tx.id tx.snapshot) with
  | (store, .ok (.changed before version)) =>
      { w with store }.setChanges tx.id (record before version)
  | (store, _) => { w with store }

/-- A write stamped at once, by replay or an immediate call. -/
def writeStamped (w : Workload Name Value) (op : DataOp Name Value) (writer : Writer) :
    Workload Name Value :=
  match w.store.apply op writer with
  | (store, .ok .unchanged) => { w with store }
  | (store, .ok _) =>
      { w with store, written := Function.update w.written op.entity (writer.epoch.getD 0) }
  | (store, .error _) => { w with store }

/-- The state after a call that the promises allow. -/
def act (w : Workload Name Value) : Action Name Value → Workload Name Value
  | .begin id snapshot => { w with transactions := w.transactions ++ [{ id, snapshot }] }
  | .write id op =>
      match w.find id with
      | some tx => w.writeWith tx op (tx.changes.push op)
      | none => w
  | .bulk id table count =>
      match w.find id, w.store.reserve table count with
      | some tx, .ok (store, range) => { w with store }.setChanges id (tx.changes.pushBulk range)
      | _, _ => w
  | .bulkRow id op =>
      match w.find id with
      | some tx =>
          w.writeWith tx op fun _ _ => (tx.changes.pushBulkRows [op]).getD tx.changes
      | none => w
  | .reserve table count =>
      match w.store.reserve table count with
      | .ok (store, _) => { w with store }
      | .error _ => w
  | .direct op writer => w.writeStamped op writer
  | .commit id epoch =>
      match w.find id with
      | some tx =>
          { w with
            store := (w.store.commit id tx.changes.entries epoch).1
            written := fun entity => if tx.changes.names entity then epoch else w.written entity
            : Workload Name Value }.close id
      | none => w
  | .rollback id =>
      match w.find id with
      | some tx => { w with store := (w.store.undo id tx.changes.entries).1 }.close id
      | none => w
  | .rollbackTo id mark =>
      match w.find id with
      | some tx =>
          let (kept, tail) := tx.changes.splitOff mark
          { w with store := (w.store.undo id tail).1 }.setChanges id kept
      | none => w
  | .publish epoch => { w with published := epoch }
  | .collect horizon => { w with store := w.store.collect horizon }
  | .createPropertyIndex property => { w with store := w.store.createPropertyIndex property }
  | .dropPropertyIndex property => { w with store := w.store.dropPropertyIndex property }
  | .createLabelIndex label property => { w with store := w.store.createLabelIndex label property }
  | .dropLabelIndex label property => { w with store := w.store.dropLabelIndex label property }

/-- One call. -/
def step (w : Workload Name Value) (action : Action Name Value) : Option (Workload Name Value) :=
  if w.allowed action then some (w.act action) else none

/-- An empty store, with or without the incoming adjacency and history. -/
def initial (keepsIncoming history : Bool) : Workload Name Value :=
  { store := { keepsIncoming, history } }

/-- The states of a run over an empty store. -/
def Reachable (w : Workload Name Value) : Prop :=
  ∃ keepsIncoming history actions, Lib.run step (initial keepsIncoming history) actions = some w

end Workload

open List Bool

variable {Name Value : Type} {changes : ChangeSet Name Value} {e : Entity} {range : BulkRange}
  {transactions : List (OpenTransaction Name Value)}

/-- Nothing in the row of transaction `t'` if another wrote it. -/
theorem Row.Shape.free {t t' : Nat} {base row : Row Name Value} (h : Row.Shape t base row)
    (hbase : base.NoPending) (hne : t' ≠ t) : row.Free t' := by
  have hstamp : Stamp.pending t ≠ .pending t' := by simpa using hne.symm
  have hcell : ∀ {T : Type} {found cell : Cell T}, found.NoPending → found.Changed t cell →
      cell.heldBy (.pending t') = false := by
    intro T found cell hfound hchanged
    rcases hchanged with rfl | hkept
    · exact hfound.heldBy t'
    by_contra hheld
    obtain ⟨v, hv⟩ := Cell.heldBy_iff.mp (by simpa using hheld)
    rw [hkept, mem_append] at hv
    rcases hv with hv | hv
    · cases hfound _ hv
    · simp only [mem_singleton, Prod.mk.injEq] at hv
      exact hstamp hv.1.symm
  have hempty : ∀ {T : Type} {cell : Cell T}, cell.kept = [] →
      cell.heldBy (.pending t') = false := by
    intro T cell hkept
    simp [Cell.heldBy, hkept]
  cases h with
  | same heq => rw [heq]; exact hbase.free t'
  | created hnone hcreated hdeleted hlabels hvalues =>
    refine ⟨?_, ?_, hempty hlabels, fun key => hempty (hvalues key)⟩
    · rw [hcreated]
      simpa using hstamp
    · rcases hdeleted with hd | hd <;> rw [hd] <;> simp [hne.symm]
  | changed he hdeleted hcreated hrow hlabels hvalues hends =>
    obtain ⟨e, he⟩ := he
    refine ⟨?_, ?_, hcell hbase.labels hlabels, fun key => hcell (hbase.values key) (hvalues key)⟩
    · rw [hcreated, he]
      simp
    · rcases hrow with hd | hd <;> rw [hd] <;> simp [hne.symm]

/-! ### Change sets -/

namespace ChangeSet

theorem names_iff : changes.names e = true ↔ ∃ change ∈ changes.entries, change.names e = true := by
  simp [names]

theorem names_eq_false :
    changes.names e = false ↔ ∀ change ∈ changes.entries, change.names e = false := by
  simp [names]

theorem names_pushBulk (h : changes.names e = true) : (changes.pushBulk range).names e = true := by
  unfold pushBulk
  split
  · obtain ⟨change, hchange, hname⟩ := names_iff.mp h
    exact names_iff.mpr ⟨change, mem_append_left _ hchange, hname⟩
  · exact h

/-- `changes'` has one write more than `changes`. -/
structure Adds (changes : ChangeSet Name Value) (record : Record Name Value)
    (changes' : ChangeSet Name Value) : Prop where
  ok : LogOk changes'.entries
  records : changes'.entries.flatMap Change.records =
    changes.entries.flatMap Change.records ++ [record]
  names : ∀ e, changes'.names e = true ↔ changes.names e = true ∨ e = record.op.entity

end ChangeSet

/-- A write recorded on its own. -/
theorem ChangeSet.adds_push (hok : LogOk changes.entries)
    {op : DataOp Name Value} {before : Before Name Value} {version : PendingVersion}
    (hcreate : op.isCreate = true → ∀ range rows, Change.bulk range rows ∈ changes.entries →
      range.contains op.entity = false) :
    changes.Adds ⟨op, before, version⟩ (changes.push op before version) where
  ok :=
    { rows := by
        exact Lib.forall_mem_concat.mpr ⟨hok.rows, trivial⟩
      order := by
        refine Lib.pairwise_concat.mpr ⟨hok.order, fun first hfirst => ?_⟩
        cases first with
        | data => exact trivial
        | bulk range rows => exact fun h => hcreate h range rows hfirst }
  records := by simp [push, Change.records]
  names e := by
    rw [show (changes.push op before version).names e =
      (changes.names e || (decide (op.entity = e) || false)) from any_append,
      Bool.or_false, or_eq_true, decide_eq_true_eq, eq_comm (a := op.entity)]

/-- A row of a bulk write recorded with its range. -/
theorem ChangeSet.adds_pushBulkRows (hok : LogOk changes.entries)
    {op : DataOp Name Value} {rows : List (DataOp Name Value)}
    (hlast : changes.entries.getLast? = some (.bulk range rows)) (hholds : range.holds op = true) :
    ∃ changes', changes.pushBulkRows [op] = some changes' ∧
      changes.Adds ⟨op, .absent, .created⟩ changes' := by
  obtain ⟨pre, hentries⟩ : ∃ pre, changes.entries = pre ++ [.bulk range rows] :=
    getLast?_eq_some_iff.mp hlast
  obtain ⟨entries⟩ := changes
  obtain rfl : entries = _ := hentries
  obtain ⟨hpre, -, hprecede⟩ := pairwise_append.mp hok.order
  have hcontains : range.contains op.entity = true := by
    simp only [BulkRange.holds, and_eq_true] at hholds
    exact hholds.2
  refine ⟨⟨pre ++ [.bulk range (rows ++ [op])]⟩, by simp [pushBulkRows, hholds], ⟨?_, ?_⟩, ?_, ?_⟩
  · obtain ⟨hrows, hbulk⟩ := Lib.forall_mem_concat.mp hok.rows
    exact Lib.forall_mem_concat.mpr ⟨hrows, Lib.forall_mem_concat.mpr ⟨hbulk, hholds⟩⟩
  · refine Lib.pairwise_concat.mpr ⟨hpre, fun first hfirst => ?_⟩
    have hbefore : first.MayPrecede (.bulk range rows) := hprecede first hfirst _ (by simp)
    cases first <;> exact hbefore
  · simp [Change.records]
  · intro e
    simp only [ChangeSet.names, any_append, any_cons, any_nil, Change.names,
      Bool.or_false, or_eq_true]
    refine ⟨.inl, ?_⟩
    rintro (h | rfl)
    · exact h
    · exact .inr hcontains

variable [DecidableEq Name]

theorem ChangeSet.Adds.eventsOf {changes changes' : ChangeSet Name Value}
    {record : Record Name Value} (h : changes.Adds record changes') (e : Entity) :
    eventsOf e changes'.entries = eventsOf e changes.entries ++ eventsIn e [record] := by
  simp [RowGroup.eventsOf, h.records]

/-- The ids a bulk write reserved, of rows no entry names. -/
theorem ChangeSet.ok_pushBulk (hok : LogOk changes.entries)
    (hfresh : ∀ e, range.contains e = true → changes.names e = false) :
    LogOk (changes.pushBulk range).entries ∧
      (∀ e, eventsOf e (changes.pushBulk range).entries = eventsOf e changes.entries) ∧
      ∀ e, (changes.pushBulk range).names e = true → changes.names e = true ∨
        range.contains e = true := by
  unfold pushBulk
  split
  · refine ⟨⟨?_, ?_⟩, fun e => ?_, fun e hnames => ?_⟩
    · exact Lib.forall_mem_concat.mpr ⟨hok.rows, nofun⟩
    · refine Lib.pairwise_concat.mpr ⟨hok.order, fun first hfirst => ?_⟩
      have hnot : ∀ e, range.contains e = true → first.names e = false := fun e he =>
        names_eq_false.mp (hfresh e he) first hfirst
      cases first <;> exact hnot
    · simp [RowGroup.eventsOf, Change.records]
    · simpa [ChangeSet.names, Change.names] using hnames
  · exact ⟨hok, fun _ => rfl, fun _ => .inl⟩

/-! ### Open transactions -/

namespace Workload

variable {w : Workload Name Value} {tx tx' : OpenTransaction Name Value}

theorem find_eq_some {id : Nat} (h : w.find id = some tx) : tx ∈ w.transactions ∧ tx.id = id :=
  ⟨mem_of_find?_eq_some h, by simpa using find?_some h⟩

theorem mem_close {id : Nat} :
    tx ∈ (w.close id).transactions ↔ tx ∈ w.transactions ∧ tx.id ≠ id := by
  simp [close]

theorem ids_setChanges (id : Nat) (changes : ChangeSet Name Value) :
    (w.setChanges id changes).transactions.map OpenTransaction.id =
      w.transactions.map OpenTransaction.id := by
  simp only [setChanges, map_map]
  refine map_congr_left fun tx _ => ?_
  simp only [Function.comp_apply]
  split <;> rfl

theorem eq_of_id (h : (w.transactions.map OpenTransaction.id).Nodup) (htx : tx ∈ w.transactions)
    (htx' : tx' ∈ w.transactions) (hid : tx.id = tx'.id) : tx = tx' :=
  inj_on_of_nodup_map h htx htx' hid

theorem find_id (h : (w.transactions.map OpenTransaction.id).Nodup) (htx : tx ∈ w.transactions) :
    w.find tx.id = some tx := by
  cases hfind : w.find tx.id with
  | none =>
    have := find?_eq_none.mp hfind tx htx
    simp at this
  | some tx' =>
    obtain ⟨htx', hid⟩ := find_eq_some hfind
    rw [eq_of_id h htx' htx hid]

theorem mem_setChanges (hids : (w.transactions.map OpenTransaction.id).Nodup)
    (htx : tx ∈ w.transactions) :
    tx' ∈ (w.setChanges tx.id changes).transactions ↔
      tx' = { tx with changes } ∨ tx' ∈ w.transactions ∧ tx'.id ≠ tx.id := by
  simp only [setChanges, mem_map]
  constructor
  · rintro ⟨old, hold, rfl⟩
    by_cases hid : old.id = tx.id
    · rw [if_pos hid, eq_of_id hids hold htx hid]
      exact .inl rfl
    · rw [if_neg hid]
      exact .inr ⟨hold, hid⟩
  · rintro (rfl | ⟨hmem, hid⟩)
    · exact ⟨tx, htx, if_pos rfl⟩
    · exact ⟨tx', hmem, if_neg hid⟩

end Workload

/-! ### Owned rows -/

/-- Every open transaction's recorded writes made the rows they name, and nothing else is
pending. -/
structure Owned (transactions : List (OpenTransaction Name Value))
    (row : Entity → Row Name Value) : Prop where
  ids : (transactions.map OpenTransaction.id).Nodup
  logs : ∀ tx ∈ transactions, LogOk tx.changes.entries
  disjoint : ∀ tx ∈ transactions, ∀ tx' ∈ transactions, ∀ e, tx.changes.names e = true →
    tx'.changes.names e = true → tx = tx'
  wrote : ∀ tx ∈ transactions, ∀ e, tx.changes.names e = true →
    ∃ base, base.NoPending ∧ Wrote tx.id base (eventsOf e tx.changes.entries) (row e)
  free : ∀ e, (∀ tx ∈ transactions, tx.changes.names e = false) → (row e).NoPending

namespace Owned

variable {w : Workload Name Value} {tx tx' : OpenTransaction Name Value}
  {row row' : Entity → Row Name Value}

/-- A row is one transaction's, or holds nothing pending. -/
theorem cases (h : Owned transactions row) (e : Entity) :
    (∃ tx ∈ transactions, tx.changes.names e = true ∧
      ∃ base, base.NoPending ∧ Wrote tx.id base (eventsOf e tx.changes.entries) (row e)) ∨
      (∀ tx ∈ transactions, tx.changes.names e = false) ∧ (row e).NoPending := by
  by_cases hnames : ∃ tx ∈ transactions, tx.changes.names e = true
  · obtain ⟨tx, htx, hname⟩ := hnames
    exact .inl ⟨tx, htx, hname, h.wrote tx htx e hname⟩
  · have hnone : ∀ tx ∈ transactions, tx.changes.names e = false := by simpa using hnames
    exact .inr ⟨hnone, h.free e hnone⟩

/-- What is pending in a row that no entry of a transaction names is none of its. -/
theorem free_of_not_names (h : Owned transactions row) {t : Nat}
    (hnot : ∀ tx ∈ transactions, tx.id = t → tx.changes.names e = false) : (row e).Free t := by
  rcases h.cases e with ⟨tx, htx, hname, base, hbase, hwrote⟩ | ⟨-, hfree⟩
  · refine (hwrote.shape hbase).free hbase fun heq => ?_
    rw [hnot tx htx heq.symm] at hname
    cases hname
  · exact hfree.free t

section

variable (h : Owned w.transactions row)
include h

theorem openTransaction {id : Nat} (hid : ∀ tx ∈ w.transactions, tx.id ≠ id) (snapshot : Nat) :
    Owned (w.transactions ++ [OpenTransaction.mk id snapshot {}]) row := by
  -- The new transaction names nothing.
  have hmem : ∀ tx ∈ w.transactions ++ [OpenTransaction.mk id snapshot {}], ∀ e,
      tx.changes.names e = true → tx ∈ w.transactions :=
    Lib.forall_mem_concat.mpr ⟨fun tx htx _ _ => htx, nofun⟩
  refine ⟨?_, Lib.forall_mem_concat.mpr ⟨h.logs, by simp, .nil⟩,
    fun tx htx tx' htx' e hname hname' => ?_, fun tx htx e hname => ?_,
    fun e hnone => h.free e fun tx htx => hnone tx (mem_append_left _ htx)⟩
  · rw [map_append]
    exact Lib.pairwise_concat.mpr ⟨h.ids, forall_mem_map.mpr hid⟩
  · exact h.disjoint tx (hmem tx htx e hname) tx' (hmem tx' htx' e hname') e hname hname'
  · exact h.wrote tx (hmem tx htx e hname) e hname

section

variable (htx : tx ∈ w.transactions)
include htx

/-- Two transactions name no row both. -/
theorem not_names (htx' : tx' ∈ w.transactions) (hid : tx'.id ≠ tx.id)
    (hname : tx.changes.names e = true) :
    tx'.changes.names e = false := by
  by_contra hname'
  exact hid (by rw [h.disjoint tx htx tx' htx' e hname (by simpa using hname')])

theorem free_of_others (hname : tx.changes.names e = false)
    (hother : ∀ tx' ∈ w.transactions, tx'.id ≠ tx.id → tx'.changes.names e = false) :
    (row e).NoPending := by
  refine h.free e fun tx' htx' => ?_
  by_cases hid : tx'.id = tx.id
  · rwa [Workload.eq_of_id h.ids htx' htx hid]
  · exact hother tx' htx' hid

/-- A row no other transaction wrote is what the transaction's writes made, if any. -/
theorem wrote_of_own
    (hother : ∀ tx' ∈ w.transactions, tx'.id ≠ tx.id → tx'.changes.names e = false) :
    ∃ base, base.NoPending ∧ Wrote tx.id base (eventsOf e tx.changes.entries) (row e) := by
  cases hname : tx.changes.names e with
  | true => exact h.wrote tx htx e hname
  | false =>
    rw [eventsOf_eq_nil (h.logs tx htx).rows (ChangeSet.names_eq_false.mp hname)]
    exact ⟨row e, h.free_of_others htx hname hother, .nil⟩

/-- A commit leaves a row alone that the transaction did not write. -/
theorem row_restamp (hname : tx.changes.names e = false) (epoch : Nat) :
    (row e).restamp tx.id epoch = row e := by
  refine Row.Free.restamp_eq (h.free_of_not_names fun tx' htx' hid => ?_) epoch
  rwa [Workload.eq_of_id h.ids htx' htx hid]

/-- Another change set of one transaction, with the rows it made. -/
theorem replace (hok : LogOk changes.entries) (hnames : ∀ e, changes.names e = true →
      ∀ tx' ∈ w.transactions, tx'.id ≠ tx.id → tx'.changes.names e = false)
    (hwrote : ∀ e, changes.names e = true →
      ∃ base, base.NoPending ∧ Wrote tx.id base (eventsOf e changes.entries) (row' e))
    (hfree : ∀ e, changes.names e = false →
      (∀ tx' ∈ w.transactions, tx'.id ≠ tx.id → tx'.changes.names e = false) →
      (row' e).NoPending)
    (hother : ∀ tx' ∈ w.transactions, tx'.id ≠ tx.id → ∀ e, tx'.changes.names e = true →
      row' e = row e) : Owned (w.setChanges tx.id changes).transactions row' := by
  have hmem : ∀ tx', tx' ∈ (w.setChanges tx.id changes).transactions ↔
      tx' = { tx with changes } ∨ tx' ∈ w.transactions ∧ tx'.id ≠ tx.id :=
    fun tx' => Workload.mem_setChanges h.ids htx
  have hclash : ∀ tx' ∈ w.transactions, tx'.id ≠ tx.id → ∀ e, changes.names e = true →
      tx'.changes.names e = true → False := by
    intro tx' htx' hid e hname hname'
    rw [hnames e hname tx' htx' hid] at hname'
    cases hname'
  refine ⟨by rw [Workload.ids_setChanges]; exact h.ids, fun tx' htx' => ?_,
    fun tx₁ htx₁ tx₂ htx₂ e hname₁ hname₂ => ?_, fun tx' htx' e hname => ?_, fun e hnone => ?_⟩
  · rcases (hmem tx').mp htx' with rfl | ⟨htx', -⟩
    · exact hok
    · exact h.logs tx' htx'
  · rcases (hmem tx₁).mp htx₁ with rfl | ⟨htx₁, hid₁⟩ <;>
      rcases (hmem tx₂).mp htx₂ with rfl | ⟨htx₂, hid₂⟩
    · rfl
    · exact (hclash tx₂ htx₂ hid₂ e hname₁ hname₂).elim
    · exact (hclash tx₁ htx₁ hid₁ e hname₂ hname₁).elim
    · exact h.disjoint tx₁ htx₁ tx₂ htx₂ e hname₁ hname₂
  · rcases (hmem tx').mp htx' with rfl | ⟨htx', hid⟩
    · exact hwrote e hname
    · rw [hother tx' htx' hid e hname]
      exact h.wrote tx' htx' e hname
  · exact hfree e (hnone _ ((hmem _).mpr (.inl rfl))) fun tx' htx' hid =>
      hnone tx' ((hmem tx').mpr (.inr ⟨htx', hid⟩))

end

/-- The rows of a transaction that ends hold nothing pending any more. -/
theorem close {t : Nat}
    (hfree : ∀ tx ∈ w.transactions, tx.id = t → ∀ e, tx.changes.names e = true → (row' e).NoPending)
    (hother : ∀ e, (∀ tx ∈ w.transactions, tx.id = t → tx.changes.names e = false) →
      row' e = row e) : Owned (w.close t).transactions row' := by
  have hmem : ∀ tx, tx ∈ (w.close t).transactions ↔ tx ∈ w.transactions ∧ tx.id ≠ t :=
    fun tx => Workload.mem_close
  refine ⟨(filter_sublist.map _).nodup h.ids, fun tx htx => h.logs tx ((hmem tx).mp htx).1,
    fun tx htx tx' htx' => h.disjoint tx ((hmem tx).mp htx).1 tx' ((hmem tx').mp htx').1,
    fun tx htx e hname => ?_, fun e hnone => ?_⟩
  · obtain ⟨htx, hid⟩ := (hmem tx).mp htx
    rw [hother e fun tx' htx' hid' => ?_]
    · exact h.wrote tx htx e hname
    · exact h.not_names htx htx' (fun heq => hid (heq ▸ hid')) hname
  by_cases hname : ∃ tx ∈ w.transactions, tx.id = t ∧ tx.changes.names e = true
  · obtain ⟨tx, htx, hid, hname⟩ := hname
    exact hfree tx htx hid e hname
  have hnot : ∀ tx ∈ w.transactions, tx.id = t → tx.changes.names e = false := by
    simpa using hname
  rw [hother e hnot]
  refine h.free e fun tx htx => ?_
  by_cases hid : tx.id = t
  · exact hnot tx htx hid
  · exact hnone tx ((hmem tx).mpr ⟨htx, hid⟩)

end

/-- The change set of an open transaction is the log of its marks. -/
theorem logged {tables : Tables Name Value} (h : Owned w.transactions tables.row)
    (htx : tx ∈ w.transactions) : tables.Logged tx.id tx.changes.entries where
  ok := h.logs tx htx
  wrote e hnames := h.wrote tx htx e (ChangeSet.names_iff.mpr hnames)
  free e hnames := by
    refine h.free_of_not_names fun tx' htx' hid => ?_
    rw [Workload.eq_of_id h.ids htx' htx hid]
    exact ChangeSet.names_eq_false.mpr hnames

/-- The rows change, and what was written of them is still. -/
theorem map (h : Owned transactions row)
    (hfree : ∀ e, (∀ tx ∈ transactions, tx.changes.names e = false) → (row' e).NoPending)
    (hwrote : ∀ tx ∈ transactions, ∀ e, tx.changes.names e = true → ∀ base events,
      base.NoPending → Wrote tx.id base events (row e) →
        ∃ base', base'.NoPending ∧ Wrote tx.id base' events (row' e)) :
    Owned transactions row' :=
  { h with
    wrote tx htx e hname := by
      obtain ⟨base, hbase, hrow⟩ := h.wrote tx htx e hname
      exact hwrote tx htx e hname base _ hbase hrow
    free := hfree }

end Owned

end Grafeo.RowGroup
