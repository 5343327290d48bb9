import Grafeo.RowGroup.Row

/-!
# Grafeo.RowGroup.Log

**The change set of a transaction, row by row**: the writes it records of one row, in
order, and what they say of the marks the transaction left on the row. A create is the
first write of its row and a delete the last, so a commit that stamps the entries in
order finds each mark once.
-/

namespace Grafeo.RowGroup

open List Bool Row DataOp

variable {Name Value : Type}

/-! ### What an entry names -/

/-- Whether the op deletes what it names. -/
def DataOp.isDelete : DataOp Name Value → Bool
  | deleteNode .. | deleteEdge .. => true
  | _ => false

namespace Change

/-- Whether the entry's commit stamps the create of `entity`: its own, or one of a bulk write's
reserved ids. -/
def creates (entity : Entity) : Change Name Value → Bool
  | data op _ _ => op.isCreate && decide (op.entity = entity)
  | bulk range _ => range.contains entity

/-- Whether the entry is a delete of `entity`. -/
def deletes (entity : Entity) : Change Name Value → Bool
  | data op _ _ => op.isDelete && decide (op.entity = entity)
  | bulk _ _ => false

/-- The rows of a bulk write are creates in its range. -/
def RowsWithin : Change Name Value → Prop
  | data _ _ _ => True
  | bulk range rows => ∀ row ∈ rows, range.holds row = true

/-- How an entry may stand before another in a change set: a bulk write's ids are no other
entry's before it, and no create after it. -/
def MayPrecede : Change Name Value → Change Name Value → Prop
  | first, bulk range _ => ∀ entity, range.contains entity = true → first.names entity = false
  | bulk range _, data op _ _ => op.isCreate = true → range.contains op.entity = false
  | data _ _ _, data _ _ _ => True

/-- Whether the entry writes the labels of a node. -/
def writesLabels (id : Nat) : Change Name Value → Bool
  | data (.addNodeLabel node _) _ _ | data (.removeNodeLabel node _) _ _ => decide (node = id)
  | _ => false

variable [DecidableEq Name]

/-- Whether the entry writes the value of `key` of `entity`. -/
def writesValue (entity : Entity) (key : Name) : Change Name Value → Bool
  | data op _ _ =>
      match op with
      | .setNodeProperty _ k _ | .removeNodeProperty _ k | .setEdgeProperty _ k _
      | .removeEdgeProperty _ k => decide (op.entity = entity) && decide (k = key)
      | _ => false
  | bulk _ _ => false

end Change

/-- A write of the log: its op, what it replaced and what it did to the transaction's version. -/
structure Record (Name Value : Type) where
  op : DataOp Name Value
  before : Before Name Value
  version : PendingVersion

/-- The writes of the entry: its own, or the creates of a bulk write's rows. -/
def Change.records : Change Name Value → List (Record Name Value)
  | data op before version => [{ op, before, version }]
  | bulk _ rows => rows.map fun op => { op, before := .absent, version := .created }

/-- The write as its row sees it. -/
def Record.event [DecidableEq Name] (record : Record Name Value) : Event Name Value where
  op := record.op.rowOp
  before := record.before
  version := record.version

/-- The entries of a change set, in order, are those of a transaction: the rows of a bulk write
are creates in its range, and its ids are no other entry's before it and no create after. -/
structure LogOk (log : List (Change Name Value)) : Prop where
  rows : ∀ change ∈ log, change.RowsWithin
  order : log.Pairwise Change.MayPrecede

/-- The writes of `entity` among some, in order. -/
def eventsIn [DecidableEq Name] (entity : Entity) (records : List (Record Name Value)) :
    List (Event Name Value) :=
  (records.filter fun record => decide (record.op.entity = entity)).map Record.event

/-- The writes of `entity` a change set records, in order. -/
def eventsOf [DecidableEq Name] (entity : Entity) (log : List (Change Name Value)) :
    List (Event Name Value) :=
  eventsIn entity (log.flatMap Change.records)

/-- Whether the write creates its row. -/
def RowOp.isCreate : RowOp Name Value → Bool
  | create .. => true
  | _ => false

variable [DecidableEq Name] {t : Nat} {base mid row row' : Row Name Value}
  {events first second : List (Event Name Value)} {event : Event Name Value}

theorem isCreate_rowOp (op : DataOp Name Value) : op.rowOp.isCreate = op.isCreate := by
  cases op <;> rfl

@[simp] theorem eventsIn_append (entity : Entity) (records more : List (Record Name Value)) :
    eventsIn entity (records ++ more) = eventsIn entity records ++ eventsIn entity more := by
  simp [eventsIn]

@[simp] theorem eventsIn_self (record : Record Name Value) :
    eventsIn record.op.entity [record] = [record.event] := by
  simp [eventsIn]

theorem eventsIn_of_ne {record : Record Name Value} {entity : Entity}
    (h : record.op.entity ≠ entity) : eventsIn entity [record] = [] := by
  simp [eventsIn, h]

@[simp] theorem eventsOf_append (entity : Entity) (log more : List (Change Name Value)) :
    eventsOf entity (log ++ more) = eventsOf entity log ++ eventsOf entity more := by
  simp [eventsOf]

theorem eventsOf_cons (e : Entity) (change : Change Name Value) (log : List (Change Name Value)) :
    eventsOf e (change :: log) = eventsIn e change.records ++ eventsOf e log := by
  simp [eventsOf]

/-- What an entry records of an entity, it names. -/
theorem Change.names_of_mem_records {change : Change Name Value} {record : Record Name Value}
    (hrows : change.RowsWithin) (h : record ∈ change.records) :
    change.names record.op.entity = true := by
  cases change with
  | data op before version =>
    obtain rfl := mem_singleton.mp h
    simp [Change.names]
  | bulk range rows =>
    obtain ⟨op, hop, rfl⟩ := mem_map.mp h
    have hholds := hrows op hop
    simp only [BulkRange.holds, and_eq_true] at hholds
    exact hholds.2

/-- Entries that do not name an entity record no write of it. -/
theorem eventsOf_eq_nil {log : List (Change Name Value)} {entity : Entity}
    (hrows : ∀ change ∈ log, change.RowsWithin)
    (h : ∀ change ∈ log, change.names entity = false) : eventsOf entity log = [] := by
  simp only [eventsOf, eventsIn, map_eq_nil_iff, filter_eq_nil_iff, mem_flatMap, decide_eq_true_eq]
  rintro record ⟨change, hchange, hrecord⟩ rfl
  have hnames := Change.names_of_mem_records (hrows change hchange) hrecord
  rw [h change hchange] at hnames
  cases hnames

/-- The marks the commit of an entry stamps: creates, deletes, values and labels. -/
structure Change.Marks (change : Change Name Value) (created deleted : Entity → Bool)
    (values : Entity → Name → Bool) (labels : Nat → Bool) : Prop where
  creates : ∀ e, change.creates e = created e
  deletes : ∀ e, change.deletes e = deleted e
  writesValue : ∀ e key, change.writesValue e key = values e key
  writesLabels : ∀ id, change.writesLabels id = labels id

section

variable {op : DataOp Name Value} (before : Before Name Value) (version : PendingVersion)

theorem Change.marks_of_value {key : Name} {value : Option Value}
    (hop : op.rowOp = .value key value) : (data op before version).Marks (fun _ => false)
      (fun _ => false) (fun e k => decide (e = op.entity) && decide (k = key)) fun _ => false := by
  constructor <;> cases op <;> simp_all [creates, deletes, writesValue, writesLabels,
    rowOp, isCreate, isDelete, eq_comm]

theorem Change.marks_of_label {label : Name} {add : Bool} {id : Nat}
    (hop : op.rowOp = .label label add) (hentity : op.entity = .node id) :
    (data op before version).Marks (fun _ => false) (fun _ => false) (fun _ _ => false)
      fun node => decide (node = id) := by
  constructor <;> cases op <;> simp_all [creates, deletes, writesValue, writesLabels,
    rowOp, isCreate, isDelete, entity, eq_comm]

theorem Change.marks_of_delete (hop : op.isDelete = true) :
    (data op before version).Marks (fun _ => false) (fun e => decide (e = op.entity))
      (fun _ _ => false) fun _ => false := by
  constructor <;> cases op <;> simp_all [creates, deletes, writesValue, writesLabels,
    isCreate, isDelete, eq_comm]

theorem Change.marks_of_create (hop : op.isCreate = true) :
    (data op before version).Marks (fun e => decide (e = op.entity)) (fun _ => false)
      (fun _ _ => false) fun _ => false := by
  constructor <;> cases op <;> simp_all [creates, deletes, writesValue, writesLabels,
    isCreate, isDelete, eq_comm]

end

section

variable {log : List (Change Name Value)} {e : Entity}

/-- The writes of a log, entry by entry. -/
theorem mem_eventsOf : event ∈ eventsOf e log ↔
    ∃ change ∈ log, ∃ record ∈ change.records, record.op.entity = e ∧ record.event = event := by
  simp only [eventsOf, eventsIn, mem_map, mem_filter, mem_flatMap, decide_eq_true_eq]
  constructor
  · rintro ⟨record, ⟨⟨change, hchange, hrecord⟩, he⟩, rfl⟩
    exact ⟨change, hchange, record, hrecord, he, rfl⟩
  · rintro ⟨change, hchange, record, hrecord, he, rfl⟩
    exact ⟨record, ⟨⟨change, hchange, hrecord⟩, he⟩, rfl⟩

/-- A create a log records is one its commit stamps. -/
theorem creates_of_event (hrows : ∀ change ∈ log, change.RowsWithin)
    (hevent : event ∈ eventsOf e log) (hcreate : event.op.isCreate = true) :
    ∃ change ∈ log, change.creates e = true := by
  obtain ⟨change, hchange, record, hrecord, rfl, rfl⟩ := mem_eventsOf.mp hevent
  refine ⟨change, hchange, ?_⟩
  have hnames := Change.names_of_mem_records (hrows change hchange) hrecord
  cases change with
  | data op before version =>
    obtain rfl := mem_singleton.mp hrecord
    simpa [Change.creates, Record.event, isCreate_rowOp] using hcreate
  | bulk range rows => exact hnames

/-- Only an entry of its own records a write that is no create. -/
theorem data_of_event (hrows : ∀ change ∈ log, change.RowsWithin)
    (hevent : event ∈ eventsOf e log) (hcreate : event.op.isCreate = false) :
    ∃ op before version, Change.data op before version ∈ log ∧ op.entity = e ∧
      op.rowOp = event.op := by
  obtain ⟨change, hchange, record, hrecord, rfl, rfl⟩ := mem_eventsOf.mp hevent
  cases change with
  | data op before version =>
    obtain rfl := mem_singleton.mp hrecord
    exact ⟨op, before, version, hchange, rfl, rfl⟩
  | bulk range rows =>
    obtain ⟨op, hop, rfl⟩ := mem_map.mp hrecord
    have hholds := hrows _ hchange op hop
    simp only [BulkRange.holds, and_eq_true] at hholds
    rw [Record.event, isCreate_rowOp, hholds.1] at hcreate
    cases hcreate

theorem event_of_data {op : DataOp Name Value} {before : Before Name Value}
    {version : PendingVersion} (h : Change.data op before version ∈ log) :
    ({ op := op.rowOp, before, version } : Event Name Value) ∈ eventsOf op.entity log :=
  mem_eventsOf.mpr ⟨_, h, { op, before, version }, mem_singleton.mpr rfl, rfl, rfl⟩

end

/-! ### The marks of the writes -/

/-- A row that was written exists. -/
theorem Writes.isSome_created (h : Writes t event row row') : row'.version.created.isSome = true := by
  obtain ⟨hop, -, -, rfl⟩ := h
  rcases hop.cases with ⟨⟨labels, values, ends, hcreate⟩, -⟩ | hlive
  · rw [hcreate]
    rfl
  · have hexists : row.version.created.isSome = true := by
      rcases hlive.2 with hc | ⟨e, hc⟩ <;> simp [hc]
    cases event.op with
    | create labels values ends => rfl
    | delete | label | value => exact hexists

theorem Writes.eq_empty (hwrites : Writes t event row row') (hcreate : event.op.isCreate = true) :
    row = {} := by
  have hop := hwrites.accepts
  cases hevent : event.op with
  | create labels values ends =>
    rw [hevent] at hop
    exact hop
  | delete | label | value => rw [hevent] at hcreate; cases hcreate

/-- Nothing is written after a delete. -/
theorem Writes.not_deleted (h : Writes t event row row') : row.version.deleted = none := by
  rcases h.accepts.cases with ⟨-, hempty⟩ | hlive
  · rw [hempty]
  · exact hlive.1

/-- A transaction's write of a cell leaves a value kept under its stamp, unless it created the
row. -/
theorem Row.heldBy_write {T : Type} (hcreated : row.version.created ≠ some (.pending t))
    (cell : Cell T) (value : T) :
    (cell.write (row.pushes t cell) value).heldBy (.pending t) = true := by
  rw [Cell.heldBy_iff]
  cases hheld : cell.heldBy (.pending t) with
  | true =>
    obtain ⟨v, hv⟩ := Cell.heldBy_iff.mp hheld
    exact ⟨v, by simp [Cell.write, hv]⟩
  | false => exact ⟨cell.value, by simp [Cell.write, pushes, hcreated, hheld]⟩

theorem Cell.Changed.ownsLast {T : Type} {base cell : Cell T} (h : base.Changed t cell)
    (hbase : base.NoPending) (hheld : cell.heldBy (.pending t) = true) : cell.OwnsLast t := by
  rcases h with rfl | hkept
  · rw [hbase.heldBy t] at hheld
    cases hheld
  · refine ⟨base.kept, base.value, hkept, fun w hw => ?_⟩
    cases hbase _ hw

variable (h : Wrote t base events row)
include h

/-- A create is the first write of its row. -/
theorem Wrote.eq_nil_of_create (hwrites : Writes t event row row')
    (hcreate : event.op.isCreate = true) : events = [] := by
  have hempty := hwrites.eq_empty hcreate
  cases h with
  | nil => rfl
  | snoc _ hlast =>
    have hexists := hlast.isSome_created
    rw [hempty] at hexists
    cases hexists

/-- The create of a row is the first of its writes. -/
theorem Wrote.create_first {event : Event Name Value} (hevent : event ∈ events)
    (hcreate : event.op.isCreate = true) :
    ∃ rest row₁, events = event :: rest ∧ Writes t event base row₁ ∧ Wrote t row₁ rest row := by
  obtain ⟨first, rest, rfl⟩ := append_of_mem hevent
  obtain ⟨mid, hfirst, hlast⟩ := Wrote.append_iff.mp h
  rw [← singleton_append] at hlast
  obtain ⟨row₁, hone, hrest⟩ := Wrote.append_iff.mp hlast
  have hwrites := Wrote.singleton_iff.mp hone
  obtain rfl := hfirst.eq_nil_of_create hwrites hcreate
  obtain rfl := Wrote.nil_iff.mp hfirst
  exact ⟨rest, row₁, rfl, hwrites, hrest⟩

variable (hbase : base.NoPending)
include hbase

theorem Wrote.created_iff :
    row.version.created = some (.pending t) ↔ ∃ event ∈ events, event.op.isCreate = true := by
  induction h with
  | nil =>
    refine ⟨fun hcreated => ?_, by simp⟩
    cases hbase.created _ hcreated
  | @snoc events event row row' _ hwrites ih =>
    obtain ⟨hop, -, -, rfl⟩ := hwrites
    simp only [mem_append, mem_singleton, or_and_right, exists_or, exists_eq_left]
    rw [← ih]
    cases hevent : event.op with
    | create | delete | label | value => simp [putBy, put, RowOp.isCreate]

theorem Wrote.deleted_iff :
    row.version.deleted = some (.pending t) ↔ ∃ event ∈ events, event.op = .delete := by
  induction h with
  | nil =>
    refine ⟨fun hdeleted => ?_, by simp⟩
    cases hbase.deleted _ hdeleted
  | @snoc events event row row' _ hwrites ih =>
    have hnone := hwrites.not_deleted
    obtain ⟨hop, -, -, rfl⟩ := hwrites
    simp only [mem_append, mem_singleton, or_and_right, exists_or, exists_eq_left]
    rw [← ih, hnone]
    cases hevent : event.op with
    | create | delete => simp [putBy, put]
    | label | value => simp [putBy, put, hnone]

/-- Which values of a row a transaction keeps: those it wrote, unless it created the row. -/
theorem Wrote.values_held (key : Name) :
    ((row.values key).heldBy (.pending t) = true →
        ∃ event ∈ events, ∃ value, event.op = .value key value) ∧
      ((∃ event ∈ events, ∃ value, event.op = .value key value) →
        (row.values key).heldBy (.pending t) = true ∨ row.version.created = some (.pending t)) := by
  induction h with
  | nil =>
    refine ⟨fun hheld => ?_, by simp⟩
    rw [(hbase.values key).heldBy t] at hheld
    cases hheld
  | @snoc events event row row' _ hwrites ih =>
    obtain ⟨hop, -, -, rfl⟩ := hwrites
    simp only [mem_append, mem_singleton, or_and_right, exists_or, exists_eq_left]
    cases hevent : event.op with
    | create labels values ends =>
      exact ⟨fun hheld => by simp [putBy, put, Cell.heldBy] at hheld, fun _ => .inr rfl⟩
    | delete | label => simpa [putBy, put] using ih
    | value k value =>
      by_cases hk : k = key
      · subst hk
        refine ⟨fun _ => .inr ⟨value, rfl⟩, fun _ => ?_⟩
        by_cases hcreated : row.version.created = some (.pending t)
        · exact .inr hcreated
        · left
          simpa [putBy, put, pushedBy] using heldBy_write hcreated ..
      · have hne : key ≠ k := fun heq => hk heq.symm
        simpa [putBy, put, hne, hk] using ih

/-- Whether a transaction keeps the labels of a row: if it wrote them, unless it created the
row. -/
theorem Wrote.labels_held :
    (row.labels.heldBy (.pending t) = true →
        ∃ event ∈ events, ∃ label add, event.op = .label label add) ∧
      ((∃ event ∈ events, ∃ label add, event.op = .label label add) →
        row.labels.heldBy (.pending t) = true ∨ row.version.created = some (.pending t)) := by
  induction h with
  | nil =>
    refine ⟨fun hheld => ?_, by simp⟩
    rw [hbase.labels.heldBy t] at hheld
    cases hheld
  | @snoc events event row row' _ hwrites ih =>
    obtain ⟨hop, -, -, rfl⟩ := hwrites
    simp only [mem_append, mem_singleton, or_and_right, exists_or, exists_eq_left]
    cases hevent : event.op with
    | create labels values ends =>
      exact ⟨fun hheld => by simp [putBy, put, Cell.heldBy] at hheld, fun _ => .inr rfl⟩
    | delete | value => simpa [putBy, put] using ih
    | label label add =>
      refine ⟨fun _ => .inr ⟨label, add, rfl⟩, fun _ => ?_⟩
      by_cases hcreated : row.version.created = some (.pending t)
      · exact .inr hcreated
      · left
        simpa [putBy, put, pushedBy] using heldBy_write hcreated ..

/-- What a commit finds of a value the transaction wrote: the transaction keeps the newest value
kept, or it created the row and nothing is kept. -/
theorem Wrote.value_mark {key : Name}
    (hevent : ∃ event ∈ events, ∃ value, event.op = .value key value) :
    (row.values key).OwnsLast t ∨
      row.version.created = some (.pending t) ∧ (row.values key).kept = [] := by
  have hheld := (h.values_held hbase key).2 hevent
  cases h.shape hbase with
  | same heq =>
    subst heq
    rcases hheld with hheld | hcreated
    · rw [(hbase.values key).heldBy t] at hheld
      cases hheld
    · cases hbase.created _ hcreated
  | created _ hcreated _ _ hvalues => exact .inr ⟨hcreated, hvalues key⟩
  | changed he _ hcreated _ _ hvalues _ =>
    obtain ⟨e, he⟩ := he
    refine .inl ((hvalues key).ownsLast (hbase.values key) (hheld.resolve_right fun hpending => ?_))
    rw [hcreated, he] at hpending
    cases hpending

theorem Wrote.labels_mark (hevent : ∃ event ∈ events, ∃ label add, event.op = .label label add) :
    row.labels.OwnsLast t ∨ row.version.created = some (.pending t) ∧ row.labels.kept = [] := by
  have hheld := (h.labels_held hbase).2 hevent
  cases h.shape hbase with
  | same heq =>
    subst heq
    rcases hheld with hheld | hcreated
    · rw [hbase.labels.heldBy t] at hheld
      cases hheld
    · cases hbase.created _ hcreated
  | created _ hcreated _ hlabels _ => exact .inr ⟨hcreated, hlabels⟩
  | changed he _ hcreated _ hlabels _ _ =>
    obtain ⟨e, he⟩ := he
    refine .inl (hlabels.ownsLast hbase.labels (hheld.resolve_right fun hpending => ?_))
    rw [hcreated, he] at hpending
    cases hpending

end Grafeo.RowGroup
