import Grafeo.RowGroup.TableCommits
import Grafeo.RowGroup.StoreWrites

/-!
# Grafeo.RowGroup.StoreCommits

**The commit of a transaction** succeeds and gives every version the transaction made its
epoch, and moves each counter by what the entries say. The entries are taken in order; what
a commit halfway has done is `Tables.Committing`, and each entry finds its mark because the
tables bear what the log records and nothing else of the transaction (`Tables.Logged`).
-/

namespace Grafeo.RowGroup

open List Option Change Tables DataOp

variable {Name Value : Type}

variable [DecidableEq Name]

/-- Writes of a row that exists keep its ends. -/
theorem Wrote.ends_eq {t : Nat} {mid row : Row Name Value}
    {events : List (Event Name Value)} (h : Wrote t mid events row)
    (hcreated : mid.version.created.isSome = true) : row.ends = mid.ends := by
  induction h with
  | nil => rfl
  | snoc hwrote hwrites ih =>
    refine (hwrites.ends_eq ?_).trans ih
    cases hwrote with
    | nil => exact hcreated
    | snoc _ hlast => exact hlast.isSome_created

/-- The tables bear what the log of transaction `t` records, and nothing else of the
transaction. -/
structure Tables.Logged (tables : Tables Name Value) (t : Nat) (log : List (Change Name Value)) :
    Prop where
  ok : LogOk log
  wrote : ∀ e, (∃ change ∈ log, change.names e = true) →
    ∃ base, base.NoPending ∧ Wrote t base (eventsOf e log) (tables.row e)
  free : ∀ e, (∀ change ∈ log, change.names e = false) → (tables.row e).Free t

variable {tables : Tables Name Value} {t epoch : Nat} {log pre post : List (Change Name Value)}
  {op : DataOp Name Value} {before : Before Name Value} {version : PendingVersion}
  {range : BulkRange} {rows : List (DataOp Name Value)}

namespace Tables.Logged

section

variable (h : tables.Logged t log)
include h

/-- The entries that name a row, or nothing of the transaction there. -/
theorem cases (e : Entity) :
    (∃ base, base.NoPending ∧ Wrote t base (eventsOf e log) (tables.row e)) ∨
      (tables.row e).Free t := by
  by_cases hnames : ∃ change ∈ log, change.names e = true
  · exact .inl (h.wrote e hnames)
  · exact .inr (h.free e (by simpa using hnames))

/-- Every mark of the transaction is of an entry. -/
theorem marked : Tables.Marked t log tables where
  created e hcreated := by
    rw [← version_row] at hcreated
    rcases h.cases e with ⟨base, hbase, hwrote⟩ | hfree
    · obtain ⟨event, hevent, hcreate⟩ := (hwrote.created_iff hbase).mp hcreated
      exact creates_of_event h.ok.rows hevent hcreate
    · exact absurd hcreated hfree.created
  deleted e := by
    rw [← version_row]
    constructor
    · intro hdeleted
      rcases h.cases e with ⟨base, hbase, hwrote⟩ | hfree
      · obtain ⟨event, hevent, hdelete⟩ := (hwrote.deleted_iff hbase).mp hdeleted
        obtain ⟨op, before, version, hmem, rfl, hop⟩ :=
          data_of_event h.ok.rows hevent (by rw [hdelete]; rfl)
        refine ⟨_, hmem, ?_⟩
        cases op <;> simp_all [deletes, isDelete, rowOp]
      · exact absurd hdeleted hfree.deleted
    · rintro ⟨change, hchange, hdeletes⟩
      cases change with
      | bulk range rows => cases hdeletes
      | data op before version =>
        simp only [deletes, Bool.and_eq_true, decide_eq_true_eq] at hdeletes
        obtain ⟨hdelete, rfl⟩ := hdeletes
        obtain ⟨base, hbase, hwrote⟩ := h.wrote op.entity ⟨_, hchange, by simp [names]⟩
        refine (hwrote.deleted_iff hbase).mpr ⟨_, event_of_data hchange, ?_⟩
        cases op <;> simp_all [isDelete, rowOp]
  values e key hheld := by
    rcases h.cases e with ⟨base, hbase, hwrote⟩ | hfree
    · obtain ⟨event, hevent, value, hvalue⟩ := (hwrote.values_held hbase key).1 hheld
      obtain ⟨op, before, version, hmem, rfl, hop⟩ :=
        data_of_event h.ok.rows hevent (by rw [hvalue]; rfl)
      refine ⟨_, hmem, ?_⟩
      cases op <;> simp_all [writesValue, rowOp]
    · rw [hfree.values key] at hheld
      cases hheld
  labels id hheld := by
    rcases h.cases (.node id) with ⟨base, hbase, hwrote⟩ | hfree
    · obtain ⟨event, hevent, label, add, hlabel⟩ := (hwrote.labels_held hbase).1 hheld
      obtain ⟨op, before, version, hmem, hentity, hop⟩ :=
        data_of_event h.ok.rows hevent (by rw [hlabel]; rfl)
      refine ⟨_, hmem, ?_⟩
      cases op <;> simp_all [writesLabels, rowOp, entity]
    · have := hfree.labels
      rw [show (tables.row (.node id)).labels.heldBy (.pending t) = true from hheld] at this
      cases this

variable (hmem : .data op before version ∈ log)
include hmem

/-- A write's entry is among the row's writes. -/
theorem wrote_of_data :
    ∃ base, base.NoPending ∧ Wrote t base (eventsOf op.entity log) (tables.row op.entity) ∧
      ({ op := op.rowOp, before, version } : Event Name Value) ∈ eventsOf op.entity log := by
  obtain ⟨base, hbase, hwrote⟩ := h.wrote op.entity ⟨_, hmem, by simp [names]⟩
  exact ⟨base, hbase, hwrote, event_of_data hmem⟩

theorem created_of_create (hcreate : op.isCreate = true) :
    (tables.version op.entity).created = some (.pending t) := by
  obtain ⟨base, hbase, hwrote, hevent⟩ := h.wrote_of_data hmem
  rw [← version_row]
  exact (hwrote.created_iff hbase).mpr ⟨_, hevent, (isCreate_rowOp op).trans hcreate⟩

theorem deleted_of_delete (hdelete : op.rowOp = .delete) :
    (tables.version op.entity).deleted = some (.pending t) := by
  obtain ⟨base, hbase, hwrote, hevent⟩ := h.wrote_of_data hmem
  rw [← version_row]
  exact (hwrote.deleted_iff hbase).mpr ⟨_, hevent, hdelete⟩

end

section

variable (h : tables.Logged t (pre ++ .data op before version :: post))
include h

/-- What a write's entry found and left of its row, between the entries before and after it. -/
theorem writes_of_data :
    ∃ base mid row, base.NoPending ∧ Wrote t base (eventsOf op.entity pre) mid ∧
      Writes t { op := op.rowOp, before, version } mid row ∧
      Wrote t row (eventsOf op.entity post) (tables.row op.entity) := by
  obtain ⟨base, hbase, hwrote⟩ := h.wrote op.entity
    ⟨_, mem_append_right _ (mem_cons_self ..), by simp [names]⟩
  have hevents : eventsOf op.entity (pre ++ .data op before version :: post) =
      eventsOf op.entity pre ++
        ([{ op := op.rowOp, before, version }] ++ eventsOf op.entity post) := by
    simp [eventsOf, eventsIn, records, Record.event]
  rw [hevents] at hwrote
  obtain ⟨mid, hpre, hrest⟩ := Wrote.append_iff.mp hwrote
  obtain ⟨row, hone, hpost⟩ := Wrote.append_iff.mp hrest
  exact ⟨base, mid, row, hbase, hpre, Wrote.singleton_iff.mp hone, hpost⟩

/-- No entry before a create is of a create of its row. -/
theorem creates_before_create (hcreate : op.isCreate = true) :
    ∀ c ∈ pre, c.creates op.entity = false := by
  intro c hc
  obtain ⟨base, mid, row, hbase, hpre, hwrites, -⟩ := h.writes_of_data
  have hnil := hpre.eq_nil_of_create hwrites ((isCreate_rowOp op).trans hcreate)
  cases c with
  | data op' before' version' =>
    -- Another create of the row would be one of its writes.
    by_contra hcreates
    simp only [creates, Bool.not_eq_false, Bool.and_eq_true, decide_eq_true_eq] at hcreates
    have hevent := event_of_data hc
    rw [hcreates.2, hnil] at hevent
    cases hevent
  | bulk range rows =>
    have horder := (pairwise_append.mp h.ok.order).2.2 _ hc _ (mem_cons_self ..)
    exact horder hcreate

/-- No entry before a delete is of a delete of its row. -/
theorem deletes_before_delete : ∀ c ∈ pre, c.deletes op.entity = false := by
  intro c hc
  obtain ⟨base, mid, row, hbase, hpre, hwrites, -⟩ := h.writes_of_data
  have hdeleted := hwrites.not_deleted
  cases c with
  | bulk range rows => rfl
  | data op' before' version' =>
    by_contra hdeletes
    simp only [deletes, Bool.not_eq_false, Bool.and_eq_true, decide_eq_true_eq] at hdeletes
    have hevent := event_of_data hc
    rw [hdeletes.2] at hevent
    have hmark := (hpre.deleted_iff hbase).mpr ⟨_, hevent, by
      cases op' <;> simp_all [isDelete, rowOp]⟩
    rw [hdeleted] at hmark
    cases hmark

end

variable (h : tables.Logged t (pre ++ .bulk range rows :: post))
include h

theorem creates_before_bulk {e : Entity} (he : range.contains e = true) :
    ∀ c ∈ pre, c.creates e = false := by
  intro c hc
  have horder := (pairwise_append.mp h.ok.order).2.2 _ hc _ (mem_cons_self ..)
  cases c with
  | data op before version =>
    have hnames := horder e he
    simp_all [creates, names]
  | bulk range' rows' => exact horder e he

theorem bulk_rows (hop : op ∈ rows) : op.isCreate = true ∧ range.contains op.entity = true := by
  simpa [BulkRange.holds] using h.ok.rows (.bulk range rows) (by simp) op hop

/-- Of the rows of a bulk write the log holds no write before. -/
theorem eventsOf_bulk {e : Entity} (he : range.contains e = true) : eventsOf e pre = [] := by
  refine eventsOf_eq_nil (fun c hc => h.ok.rows c (by simp [hc])) fun c hc => ?_
  have horder := (pairwise_append.mp h.ok.order).2.2 _ hc _ (mem_cons_self ..)
  cases c <;> exact horder e he

end Tables.Logged

/-- What the commit of an entry adds to the counter: a bulk write's rows count with the labels
and the type they have now. -/
def Change.moved (t : Nat) (tables : Tables Name Value) (counter : Counter Name) :
    Change Name Value → Int
  | data op before version =>
      Record.delta { op, before, version } counter (tables.row op.entity).ends
  | bulk range _ =>
      (((List.range' range.start (range.stop - range.start)).filter fun raw =>
          decide ((tables.version (Tables.entityOf range.table raw)).created =
            some (.pending t))).map
        fun raw =>
          let row := tables.row (Tables.entityOf range.table raw)
          counter.weight (Tables.entityOf range.table raw) row.labels.value row.ends).sum

/-- An edge that exists has ends. -/
theorem Tables.Sound.ends_of_has (h : tables.Sound) (id : Nat)
    (hhas : tables.has (.edge id) = true) :
    ∃ ends, tables.ends id = some ends ∧ (tables.row (.edge id)).ends = some ends := by
  have hends := (h.fits (.edge id)).ends hhas
  have hrow : (tables.row (.edge id)).ends = tables.ends id := if_pos hhas
  rw [hrow] at hends ⊢
  obtain ⟨ends, hends⟩ := isSome_iff_exists.mp (hends.trans (by rfl))
  exact ⟨ends, hends, hends⟩

namespace Store

variable {s s' : Store Name Value} {base : Tables Name Value}
  {done : List (Change Name Value)} {change : Change Name Value}

/-- A part of a commit: the tables bear the entries `done`, the counts moved, and nothing else
changed. -/
structure Stamps (s : Store Name Value) (t epoch : Nat) (base : Tables Name Value)
    (done : List (Change Name Value)) (moved : Counter Name → Int) (s' : Store Name Value) :
    Prop where
  committing : Tables.Committing t epoch base done s'.toTables
  counts : ∀ counter, s'.counts.at counter = s.counts.at counter + moved counter
  outgoing : s'.outgoing = s.outgoing
  incoming : s'.incoming = s.incoming
  indexes : s'.indexes = s.indexes
  frame : s.SameFrame s'

/-- Counting the rows of a list, one after the other. -/
theorem foldl_count {count : Store Name Value → Nat → Store Name Value}
    {weight : Nat → Counter Name → Int} (created : List Nat)
    (h : ∀ id ∈ created, ∀ counts, ∃ counts', count { s with counts } id = { s with counts := counts' } ∧
      ∀ counter, counts'.at counter = counts.at counter + weight id counter) :
    ∃ counts, created.foldl count s = { s with counts } ∧ ∀ counter,
      counts.at counter = s.counts.at counter + (created.map fun id => weight id counter).sum := by
  induction created generalizing s with
  | nil => exact ⟨s.counts, rfl, by simp⟩
  | cons id created ih =>
    obtain ⟨hid, hrest⟩ := forall_mem_cons.mp h
    obtain ⟨first, hfirst, hone⟩ := hid s.counts
    obtain ⟨counts, heq, hcounts⟩ := ih (s := { s with counts := first }) hrest
    refine ⟨counts, by rw [foldl_cons, hfirst]; exact heq, fun counter => ?_⟩
    rw [hcounts counter, hone counter, map_cons, sum_cons, add_assoc]

/-- Where a commit is: the entries `pre` are stamped, `change` is next. -/
structure Next (t epoch : Nat) (base : Tables Name Value) (pre : List (Change Name Value))
    (change : Change Name Value) (post : List (Change Name Value)) (s : Store Name Value) :
    Prop where
  sound : base.Sound
  logged : base.Logged t (pre ++ change :: post)
  /-- The epoch is new to the tables. -/
  fresh : ∀ e, (base.version e).created ≠ some (.epoch epoch)
  committing : Tables.Committing t epoch base pre.reverse s.toTables

/-- The commit of the next entry succeeds, and stamps it. -/
def StampsNext (s : Store Name Value) (t epoch : Nat) (base : Tables Name Value)
    (pre : List (Change Name Value)) (change : Change Name Value) : Prop :=
  ∃ s', s.stampChange change (.pending t) epoch = (s', .ok ()) ∧
    s.Stamps t epoch base (change :: pre.reverse) (fun counter => change.moved t base counter) s'

/-- A value or label write passes the check of what its commit found. -/
theorem checkKept_ok {entity : Entity} {kept created : Option Stamp} (what : Pending)
    (h : Found t epoch kept created) :
    checkKept entity kept created (.pending t) epoch what = .ok () := if_pos h

section

variable (h : Next t epoch base pre (.data op before version) post s)
include h

/-- The entry's write is among those of its row, which exists. -/
theorem Next.wrote :
    base.has op.entity = true ∧ ∃ row events, row.NoPending ∧
      Wrote t row events (base.row op.entity) ∧ { op := op.rowOp, before, version } ∈ events := by
  obtain ⟨row, hrow, hwrote, hevent⟩ :=
    h.logged.wrote_of_data (mem_append_right _ mem_cons_self)
  refine ⟨?_, row, _, hrow, hwrote, hevent⟩
  rw [has_row]
  exact hwrote.isSome_created (ne_nil_of_mem hevent)

/-- The entry of a create, of either table. -/
theorem Next.commitCreated (hcreate : op.isCreate = true) :
    (s.commitCreated op.entity.table op.entity.raw (op.entity.raw + 1) (.pending t)
        epoch).2.isEmpty = false ∧
      Tables.Committing t epoch base (.data op before version :: pre.reverse)
        (s.commitCreated op.entity.table op.entity.raw (op.entity.raw + 1) (.pending t) epoch).1 := by
  have hmem : data op before version ∈ pre ++ .data op before version :: post := by simp
  have hmarks := marks_of_create before version hcreate
  have hcreates : ∀ table' raw,
      (data op before version).creates (entityOf table' raw) = true ↔
        table' = op.entity.table ∧ op.entity.raw ≤ raw ∧ raw < op.entity.raw + 1 := by
    intro table' raw
    rw [hmarks.creates, decide_eq_true_eq]
    constructor
    · intro heq
      rw [← heq]
      simp
    · rintro ⟨rfl, hle, hlt⟩
      obtain rfl : raw = op.entity.raw := by omega
      exact entityOf_table_raw op.entity
  obtain ⟨hcommitting, hcreated, -⟩ := h.committing.commitCreated { hmarks with creates := fun _ => rfl }
    hcreates h.fresh fun raw hle hlt c hc => by
      obtain rfl : raw = op.entity.raw := by omega
      rw [entityOf_table_raw]
      exact h.logged.creates_before_create hcreate c (mem_reverse.mp hc)
  refine ⟨?_, hcommitting⟩
  have hraw := (hcreated op.entity.raw).mpr ⟨⟨le_rfl, by omega⟩, by
    rw [entityOf_table_raw]
    exact h.logged.created_of_create hmem hcreate⟩
  cases hlist : (s.commitCreated op.entity.table op.entity.raw (op.entity.raw + 1) (.pending t)
      epoch).2 with
  | nil => rw [hlist] at hraw; cases hraw
  | cons => rfl

/-- The entry of a delete, of either table: it finds its mark. -/
theorem Next.setDeleted (hdelete : op.isDelete = true) :
    base.has op.entity = true ∧ (s.version op.entity).deleted = some (.pending t) ∧
      Tables.Committing t epoch base (.data op before version :: pre.reverse)
        (s.setDeleted op.entity (some (.epoch epoch))) := by
  have hmem : data op before version ∈ pre ++ .data op before version :: post := by simp
  have hrowOp : op.rowOp = .delete := by cases op <;> simp_all [isDelete, rowOp]
  obtain ⟨hhas, -⟩ := h.wrote
  exact ⟨hhas, h.committing.setDeleted (marks_of_delete before version hdelete) hhas
    (h.logged.deleted_of_delete hmem hrowOp)
    fun c hc => h.logged.deletes_before_delete c (mem_reverse.mp hc)⟩

/-- The entry of a value write, of either table. -/
theorem Next.writeValue {key : Name} {value : Option Value} (hop : op.rowOp = .value key value) :
    ∃ s', s.stampValueOf op.entity key (.pending t) epoch = (s', .ok ()) ∧
      s.Stamps t epoch base (.data op before version :: pre.reverse) (fun _ => 0) s' := by
  obtain ⟨hhas, row, events, hbase, hwrote, hevent⟩ := h.wrote
  have hhas : s.has op.entity = true := (h.committing.has_eq _).trans hhas
  have hmark := hwrote.value_mark hbase ⟨_, hevent, value, hop⟩
  rw [version_row] at hmark
  obtain ⟨hcommitting, hfound⟩ :=
    h.committing.stampValue (marks_of_value before version hop) hmark
  simp only [stampValueOf, hhas, if_true, checkKept_ok _ hfound]
  exact ⟨_, rfl, hcommitting, fun counter => by simp, rfl, rfl, rfl, .set ..⟩

/-- The entry of a label write. -/
theorem Next.writeLabel {id : Nat} {label : Name} {add : Bool}
    (hop : op.rowOp = .label label add) (hentity : op.entity = .node id) (delta : Int) :
    ∃ s', s.stampLabelOf id label delta (.pending t) epoch = (s', .ok ()) ∧
      s.Stamps t epoch base (.data op before version :: pre.reverse)
        (fun counter => if counter = .label label then delta else 0) s' := by
  obtain ⟨hhas, row, events, hbase, hwrote, hevent⟩ := h.wrote
  have hhas : s.has (.node id) = true := (h.committing.has_eq _).trans (hentity ▸ hhas)
  have hmark := hwrote.labels_mark hbase ⟨_, hevent, label, add, hop⟩
  rw [version_row, hentity] at hmark
  obtain ⟨hcommitting, hfound⟩ :=
    h.committing.stampLabels (marks_of_label before version hop hentity) hmark
  simp only [stampLabelOf, hhas, if_true, checkKept_ok _ hfound]
  exact ⟨_, rfl, hcommitting, fun counter => Counts.at_label s.counts counter label delta, rfl,
    rfl, rfl, .set ..⟩

end

/-- The entry of an edge, once its mark is stamped, counts the edge with the type it has. -/
theorem Next.countEdge (h : Next t epoch base pre change post s) {id : Nat} {after : Tables Name Value}
    (hhas : base.has (.edge id) = true)
    (hcommitting : Tables.Committing t epoch base (change :: pre.reverse) after) (delta : Int)
    (hmoved : ∀ counter, change.moved t base counter =
      delta * counter.weight (.edge id) ∅ (base.row (.edge id)).ends) :
    s.Stamps t epoch base (change :: pre.reverse) (fun counter => change.moved t base counter)
      (({ s with toTables := after } : Store Name Value).countEdge id delta) := by
  obtain ⟨ends, hends, hrow⟩ := h.sound.ends_of_has id hhas
  have hnow : after.ends id = some ends := (congrFun hcommitting.ends id).trans hends
  rw [countEdge_eq { s with toTables := after } hnow]
  refine ⟨hcommitting, fun counter => ?_, rfl, rfl, rfl, .set ..⟩
  rw [hmoved, hrow]
  exact Counts.at_edge s.counts counter ends delta id ∅

theorem Next.createNode {id : Nat} {labels : List Name} {properties : Properties Name Value}
    (h : Next t epoch base pre (.data (.createNode id labels properties) before version) post s) :
    s.StampsNext t epoch base pre (.data (.createNode id labels properties) before version) := by
  obtain ⟨hne, hcommitting⟩ := h.commitCreated rfl
  simp only [entity, Entity.table, Entity.raw] at hne hcommitting
  simp only [StampsNext, Store.stampChange, stampOp, hne, Bool.false_eq_true, if_false]
  refine ⟨_, rfl, hcommitting, fun counter => ?_, rfl, rfl, rfl, .set ..⟩
  have hcount := Counts.at_node s.counts counter labels.toFinset 1 id none
  simp only [countNode, hcount, moved, Record.delta]
  omega

theorem Next.createEdge {id src dst : Nat} {edgeType : Name} {properties : Properties Name Value}
    (h : Next t epoch base pre (.data (.createEdge id src dst edgeType properties) before version)
      post s) :
    s.StampsNext t epoch base pre
      (.data (.createEdge id src dst edgeType properties) before version) := by
  obtain ⟨hne, hcommitting⟩ := h.commitCreated rfl
  simp only [entity, Entity.table, Entity.raw] at hne hcommitting
  simp only [StampsNext, Store.stampChange, stampOp, hne, Bool.false_eq_true, if_false]
  refine ⟨_, rfl, h.countEdge h.wrote.1 hcommitting 1 fun counter => ?_⟩
  simp only [moved, Record.delta, entity]
  omega

theorem Next.deleteNode {id : Nat}
    (h : Next t epoch base pre (.data (.deleteNode id) before version) post s) :
    s.StampsNext t epoch base pre (.data (.deleteNode id) before version) := by
  obtain ⟨hhas, hmark, hcommitting⟩ := h.setDeleted rfl
  -- What the delete found is a node's image: the row has no ends.
  have himage : ∃ image, before = .node image := by
    obtain ⟨_, mid, row, -, -, hwrites, hpost⟩ := h.logged.writes_of_data
    have hlive : mid.Live t := hwrites.accepts
    have hnone : (base.row (.node id)).ends = none := by rfl
    have hmid : mid.ends = none := by
      rw [← hwrites.ends_eq hlive.isSome_created, ← hpost.ends_eq hwrites.isSome_created]
      exact hnone
    exact ⟨_, hwrites.before.trans (by simp [rowOp, Row.before, Row.image, hmid]; rfl)⟩
  obtain ⟨image, rfl⟩ := himage
  simp only [entity] at hmark hcommitting
  simp only [StampsNext, Store.stampChange, stampOp, hmark, if_true]
  refine ⟨_, rfl, hcommitting, fun counter => ?_, rfl, rfl, rfl, .set ..⟩
  have hcount := Counts.at_node s.counts counter image.labels (-1) id none
  simp only [countNode, hcount, moved, Record.delta]
  omega

theorem Next.deleteEdge {id : Nat}
    (h : Next t epoch base pre (.data (.deleteEdge id) before version) post s) :
    s.StampsNext t epoch base pre (.data (.deleteEdge id) before version) := by
  obtain ⟨hhas, hmark, hcommitting⟩ := h.setDeleted rfl
  simp only [entity] at hmark hcommitting hhas
  simp only [StampsNext, Store.stampChange, stampOp, hmark, if_true]
  refine ⟨_, rfl, h.countEdge hhas hcommitting (-1) fun counter => ?_⟩
  simp only [moved, Record.delta, entity]
  omega

/-- The rows of a bulk write that the transaction created, and the counts they add. -/
theorem Next.bulk (h : Next t epoch base pre (.bulk range rows) post s) :
    s.Stamps t epoch base (.bulk range rows :: pre.reverse)
      (fun counter => (Change.bulk range rows).moved t base counter)
      (s.stampBulk range (.pending t) epoch) := by
  have hcontains : ∀ table' raw,
      (Change.bulk range rows).creates (entityOf table' raw) = true ↔
        table' = range.table ∧ range.start ≤ raw ∧ raw < range.stop := by
    intro table' raw
    simp [Change.creates, BulkRange.contains, and_assoc]
  obtain ⟨hcommitting, hcreated, hnodup⟩ := h.committing.commitCreated
    ⟨fun _ => rfl, fun _ => rfl, fun _ _ => rfl, fun _ => rfl⟩ hcontains h.fresh
    fun raw hle hlt c hc => h.logged.creates_before_bulk ((hcontains range.table raw).mpr ⟨rfl, hle, hlt⟩) c
        (mem_reverse.mp hc)
  -- The rows found are those of the range the transaction created.
  have hperm : ((range' range.start (range.stop - range.start)).filter fun raw =>
      decide ((base.version (entityOf range.table raw)).created = some (.pending t))).Perm
      (s.commitCreated range.table range.start range.stop (.pending t) epoch).2 := by
    refine (perm_ext_iff_of_nodup (Nodup.filter _ nodup_range') hnodup).mpr fun raw => ?_
    rw [hcreated raw, mem_filter, mem_range'_1, decide_eq_true_eq]
    refine and_congr_left fun _ => ?_
    omega
  obtain ⟨table, start, stop⟩ := range
  generalize hfound : s.commitCreated table start stop (.pending t) epoch = found
    at hcommitting hcreated hperm
  obtain ⟨after, created⟩ := found
  -- Each is counted with what its row weighs.
  have hstamps : ∀ count : Store Name Value → Nat → Store Name Value,
      (∀ id ∈ created, ∀ counts, ∃ counts', count { s with toTables := after, counts } id =
          { s with toTables := after, counts := counts' } ∧
        ∀ counter, counts'.at counter = counts.at counter + counter.weight
          (entityOf table id) (base.row (entityOf table id)).labels.value
          (base.row (entityOf table id)).ends) →
      s.Stamps t epoch base (.bulk ⟨table, start, stop⟩ rows :: pre.reverse)
        (fun counter => (bulk ⟨table, start, stop⟩ rows).moved t base counter)
        (created.foldl count { s with toTables := after }) := by
    intro count hcount
    obtain ⟨counts, heq, hcounts⟩ := foldl_count (s := { s with toTables := after }) created hcount
    rw [heq]
    refine ⟨hcommitting, fun counter => (hcounts counter).trans ?_, rfl, rfl, rfl, .set ..⟩
    rw [moved, (hperm.map _).sum_eq]
  unfold stampBulk
  rw [hfound]
  cases table with
  | nodes =>
    obtain ⟨_, hlabels, -⟩ := hcommitting.labels
    refine hstamps _ fun id _ counts => ⟨_, rfl, fun counter => ?_⟩
    refine (Counts.at_node counts counter (after.labels.values id) 1 id none).trans ?_
    rw [one_mul, hlabels.values]
    rfl
  | edges =>
    refine hstamps _ fun id hid counts => ?_
    obtain ⟨ends, hends, hrow⟩ := h.sound.ends_of_has id (by
      rw [has_eq, show (base.version (.edge id)).created = _ from ((hcreated id).mp hid).2]
      rfl)
    refine ⟨_, countEdge_eq _ ((congrFun hcommitting.ends id).trans hends) 1, fun counter => ?_⟩
    rw [entityOf, hrow]
    exact (Counts.at_edge counts counter ends 1 id _).trans (by rw [one_mul])

/-- **Every entry of a commit is stamped.** -/
theorem Next.stampChange (h : Next t epoch base pre change post s) :
    s.StampsNext t epoch base pre change := by
  cases change with
  | bulk range rows => exact ⟨_, rfl, h.bulk⟩
  | data op before version =>
    cases op with
    | createNode id labels properties => exact h.createNode
    | deleteNode id => exact h.deleteNode
    | createEdge id src dst edgeType properties => exact h.createEdge
    | deleteEdge id => exact h.deleteEdge
    | setNodeProperty | removeNodeProperty | setEdgeProperty | removeEdgeProperty =>
      exact h.writeValue rfl
    | addNodeLabel id label => exact h.writeLabel rfl rfl 1
    | removeNodeLabel id label => exact h.writeLabel rfl rfl (-1)

/-- The entries that are left are stamped in turn. -/
theorem stampAll_spec (hsound : base.Sound) (hlogged : base.Logged t (pre ++ post))
    (hfresh : ∀ e, (base.version e).created ≠ some (.epoch epoch))
    (hcommitting : Tables.Committing t epoch base pre.reverse s.toTables) :
    ∃ s', s.stampAll (.pending t) epoch post = (s', .ok ()) ∧
      s.Stamps t epoch base (pre ++ post).reverse
        (fun counter => (post.map (Change.moved t base counter)).sum) s' := by
  induction post generalizing pre s with
  | nil =>
    refine ⟨s, rfl, by rwa [append_nil], fun counter => by simp, rfl, rfl, rfl, .set ..⟩
  | cons change post ih =>
    obtain ⟨s₁, hstamp, hstamps⟩ := Next.stampChange ⟨hsound, hlogged, hfresh, hcommitting⟩
    have hcons : pre ++ change :: post = (pre ++ [change]) ++ post := by simp
    have hnext : base.Logged t ((pre ++ [change]) ++ post) := hcons ▸ hlogged
    obtain ⟨s', hall, hrest⟩ := ih (s := s₁) hnext (by simpa using hstamps.committing)
    refine ⟨s', by rw [stampAll, hstamp]; exact hall, ?_⟩
    refine ⟨by rw [hcons]; exact hrest.committing, fun counter => ?_,
      hrest.outgoing.trans hstamps.outgoing, hrest.incoming.trans hstamps.incoming,
      hrest.indexes.trans hstamps.indexes, hstamps.frame.trans hrest.frame⟩
    rw [hrest.counts counter, hstamps.counts counter, map_cons, sum_cons]
    omega

/-- What the commit of transaction `t`'s log at `epoch` did. -/
structure Commits (s : Store Name Value) (t epoch : Nat) (log : List (Change Name Value))
    (s' : Store Name Value) : Prop where
  sound : s'.Sound
  row : ∀ e, s'.row e = (s.row e).restamp t epoch
  stamps : ∀ c group vector, s'.stampsOf c group vector =
    (s.stampsOf c group vector).map (Updates.restamp t epoch)
  ends : s'.ends = s.ends
  counts : ∀ counter, s'.counts.at counter = s.counts.at counter +
    (log.map (Change.moved t s.toTables counter)).sum
  outgoing : s'.outgoing = s.outgoing
  incoming : s'.incoming = s.incoming
  indexes : s'.indexes = s.indexes
  listed : s'.listed = s.listed
  keepsIncoming : s'.keepsIncoming = s.keepsIncoming
  history : s'.history = s.history
  nextNodeId : s'.nextNodeId = s.nextNodeId
  nextEdgeId : s'.nextEdgeId = s.nextEdgeId
  epoch : s'.epoch = max s.epoch epoch
  floor : s'.floor = s.floor

/-- **A commit succeeds**, and every version of the transaction gets its epoch. -/
theorem commit_spec (hid : pendingStamp t = .ok (.pending t)) (hsound : s.Sound)
    (hlogged : s.Logged t log) (hfresh : ∀ e, (s.version e).created ≠ some (.epoch epoch)) :
    ∃ s', s.commit t log epoch = (s', .ok ()) ∧ s.Commits t epoch log s' := by
  obtain ⟨s', hall, hstamps⟩ := stampAll_spec (s := s) hsound (nil_append log ▸ hlogged)
    hfresh (Committing.refl hsound t epoch)
  obtain ⟨hsound', hrows, hchains⟩ := hstamps.committing.restamped hsound hlogged.marked
  refine ⟨s'.syncEpoch epoch, by simp only [commit, hid, hall], ?_⟩
  exact
    { sound := hsound'
      row := hrows
      stamps := hchains
      ends := hstamps.committing.ends
      counts := hstamps.counts
      outgoing := hstamps.outgoing
      incoming := hstamps.incoming
      indexes := hstamps.indexes
      listed := hstamps.frame.listed
      keepsIncoming := hstamps.frame.keepsIncoming
      history := hstamps.frame.history
      nextNodeId := hstamps.frame.nextNodeId
      nextEdgeId := hstamps.frame.nextEdgeId
      epoch := congrArg (max · epoch) hstamps.frame.epoch
      floor := hstamps.frame.floor }

end Store

end Grafeo.RowGroup
