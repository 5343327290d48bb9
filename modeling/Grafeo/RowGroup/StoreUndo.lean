import Grafeo.RowGroup.StoreCommits

/-!
# Grafeo.RowGroup.StoreUndo

**The undo of an entry** gives its row back as the entry found it: the row of a create is
taken out, a delete's mark goes, a value or label write gets what it replaced. So the undo
of the last entries of a log, last to first, leaves the rows the entries before them made.
-/

namespace Grafeo.RowGroup

open List Option Tables

variable {Name Value : Type} [DecidableEq Name]
  {t : Nat} {base mid row : Row Name Value} {events : List (Event Name Value)} {entity : Entity}
  {pending : Stamp} {undone : List (Change Name Value)}

/-- Of a row it created a transaction keeps nothing. -/
def Row.KeepsNone (t : Nat) (row : Row Name Value) : Prop :=
  row.version.created = some (.pending t) →
    row.labels.kept = [] ∧ ∀ key, (row.values key).kept = []

theorem Wrote.keepsNone (h : Wrote t base events row) (hbase : base.NoPending) :
    row.KeepsNone t := by
  intro hcreated
  cases h.shape hbase with
  | same heq =>
    rw [heq] at hcreated
    cases hbase.created _ hcreated
  | created _ _ _ hlabels hvalues => exact ⟨hlabels, hvalues⟩
  | changed he _ heq =>
    obtain ⟨e, he⟩ := he
    rw [heq, he] at hcreated
    cases hcreated

namespace Store

variable [DecidableEq Value] {s s' : Store Name Value} {pre log : List (Change Name Value)}
  {change : Change Name Value} {op : DataOp Name Value} {before : Before Name Value}
  {version : PendingVersion}

/-- What the undo of the last entry of transaction `t`'s log did to the rows. -/
structure Undoes (s : Store Name Value) (t : Nat) (pre undone : List (Change Name Value))
    (s' : Store Name Value) : Prop where
  sound : s'.Sound
  /-- Each row is as the entries before left it. -/
  back : ∀ e base, base.NoPending → Wrote t base (eventsOf e (pre ++ undone)) (s.row e) →
    Wrote t base (eventsOf e pre) (s'.row e)
  other : ∀ e, (∀ change ∈ undone, change.names e = false) → s'.row e = s.row e
  stamps : ∀ c group vector, (s'.stampsOf c group vector).Sublist (s.stampsOf c group vector)
  ends : s'.ends = s.ends
  counts : s'.counts = s.counts
  frame : s.SameFrame s'

theorem unlinkEdge_eq (s : Store Name Value) (edge : Nat) : s.unlinkEdge edge = { s with
      outgoing := (s.unlinkEdge edge).outgoing
      incoming := (s.unlinkEdge edge).incoming } := by
  unfold unlinkEdge
  split
  next ends hends =>
    clear hends
    generalize s.keptEnds ends.src ends.dst = kept
    induction kept generalizing s with
    | nil => rfl
    | cons first kept ih =>
      obtain ⟨node, other, out⟩ := first
      refine (ih _).trans ?_
      cases out <;> rfl
  · rfl

/-- A row is taken out of the tables, whatever goes out of the indexes and the adjacency. -/
theorem removeRow_eq (s : Store Name Value) (entity : Entity) : s.removeRow entity = { s with
      toTables := s.remove entity
      outgoing := (s.removeRow entity).outgoing
      incoming := (s.removeRow entity).incoming
      indexes := (s.removeRow entity).indexes } := by
  cases entity with
  | node id =>
    simp only [removeRow]
    rw [unindex_eq]
    rfl
  | edge id =>
    simp only [removeRow]
    rw [unlinkEdge_eq]

/-! ### What an undo did, op by op -/

theorem undoValue_cases {key : Name} {old : Option Value}
    (h : s.undoValue entity key old version pending = .ok s') :
    s.has entity = true ∧ ∃ column, s' = { s with
      toTables := s.setRows entity.table ((s.rows entity.table).setColumn key column)
      : Store Name Value }.indexWritten entity key ((s.row entity).values key).value := by
  simp only [undoValue] at h
  split at h
  next hhas =>
    split at h
    next tables hrestore =>
      obtain ⟨column, -, rfl⟩ := map_eq_some_iff.mp hrestore
      cases h
      refine ⟨hhas, column, ?_⟩
      rw [values_row]
      rfl
    · cases h
  · cases h

theorem undoLabels_cases {id : Nat} {old : Finset Name}
    (h : s.undoLabels id old version pending = .ok s') :
    s.has (.node id) = true ∧ ∃ labels, s' = { s with toTables := { s.toTables with labels }
      : Store Name Value }.indexLabels id none := by
  simp only [undoLabels] at h
  split at h
  next hhas =>
    split at h
    next tables hrestore =>
      obtain ⟨labels, -, rfl⟩ := map_eq_some_iff.mp hrestore
      cases h
      exact ⟨hhas, labels, rfl⟩
    · cases h
  · cases h

/-- **What the undo of one entry did**: it took a created row out, or a delete's mark off, or put
a value or the labels back. -/
theorem undoOp_cases (h : s.undoOp op before version pending = .ok s') :
    op.isCreate = true ∧ (s.version op.entity).created = some pending ∧ s' = s.removeRow op.entity ∨
      op.isDelete = true ∧ (s.version op.entity).deleted = some pending ∧
        s' = { s with toTables := s.setDeleted op.entity none } ∨
      (∃ key value column, op.rowOp = .value key value ∧ s.has op.entity = true ∧ s' = { s with
        toTables := s.setRows op.entity.table ((s.rows op.entity.table).setColumn key column)
        : Store Name Value }.indexWritten op.entity key ((s.row op.entity).values key).value) ∨
      ∃ id label add labels, op.rowOp = .label label add ∧ op.entity = .node id ∧
        s.has (.node id) = true ∧ s' = { s with toTables := { s.toTables with labels }
          : Store Name Value }.indexLabels id none := by
  have hcreate : ∀ {entity}, s.undoCreate entity pending = .ok s' →
      (s.version entity).created = some pending ∧ s' = s.removeRow entity := by
    intro entity h
    unfold undoCreate at h
    split at h <;> cases h
    exact ⟨by assumption, rfl⟩
  have hdelete : ∀ {entity}, s.undoDelete entity pending = .ok s' →
      (s.version entity).deleted = some pending ∧
        s' = { s with toTables := s.setDeleted entity none } := by
    intro entity h
    unfold undoDelete at h
    split at h <;> cases h
    exact ⟨by assumption, rfl⟩
  unfold undoOp at h
  split at h
  · exact .inl ⟨rfl, hcreate h⟩
  · exact .inl ⟨rfl, hcreate h⟩
  · exact .inr (.inl ⟨rfl, hdelete h⟩)
  · exact .inr (.inl ⟨rfl, hdelete h⟩)
  all_goals try
    obtain ⟨hhas, column, rfl⟩ := undoValue_cases h
    exact .inr (.inr (.inl ⟨_, _, column, rfl, hhas, rfl⟩))
  all_goals try
    obtain ⟨hhas, labels, rfl⟩ := undoLabels_cases h
    exact .inr (.inr (.inr ⟨_, _, _, labels, rfl, rfl, hhas, rfl⟩))
  cases h

/-! ### The rows an undo gives back -/

/-- The last entry of a log is of one write of its row: what the write found, and left. -/
theorem writes_of_last (h : s.Logged t (pre ++ [.data op before version])) :
    ∃ mid, Writes t { op := op.rowOp, before, version } mid (s.row op.entity) ∧
      mid.KeepsNone t := by
  obtain ⟨base, mid, row, hbase, hpre, hwrites, hpost⟩ := h.writes_of_data
  have hnil : row = s.row op.entity := (Wrote.nil_iff.mp hpost).symm
  rw [hnil] at hwrites
  exact ⟨mid, hwrites, hpre.keepsNone hbase⟩

/-- The undo of one write put its row back as `mid`. -/
structure Restores (s : Store Name Value) (entity : Entity) (mid : Row Name Value)
    (s' : Store Name Value) : Prop where
  puts : s.Puts entity mid s'.toTables
  sound : s'.Sound
  stamps : ∀ c group vector, (s'.stampsOf c group vector).Sublist (s.stampsOf c group vector)
  ends : s'.ends = s.ends
  counts : s'.counts = s.counts
  frame : s.SameFrame s'

section

variable (hs : s.Sound)
include hs

theorem removeRow_restores (entity : Entity) : s.Restores entity {} (s.removeRow entity) := by
  obtain ⟨hputs, hsound, hstamps⟩ := remove_spec hs entity
  rw [removeRow_eq]
  exact ⟨hputs, hsound, hstamps, by cases entity <;> rfl, rfl, .set ..⟩

theorem undoCreate_restores {event : Event Name Value}
    (hwrites : Writes t event mid (s.row entity)) (hcreate : event.op.isCreate = true) :
    ∃ s', s.undoCreate entity (.pending t) = .ok s' ∧ s.Restores entity mid s' := by
  obtain ⟨hop, -, -, hrow⟩ := hwrites
  cases hevent : event.op with
  | create labels values ends =>
    rw [hevent] at hop hrow
    have hcreated : (s.version entity).created = some (.pending t) := by
      rw [← version_row, hrow]
      rfl
    rw [show mid = {} from hop]
    exact ⟨_, if_pos hcreated, removeRow_restores hs entity⟩
  | _ => simp [hevent, RowOp.isCreate] at hcreate

theorem undoDelete_restores {event : Event Name Value}
    (hwrites : Writes t event mid (s.row entity)) (hdelete : event.op = .delete) :
    ∃ s', s.undoDelete entity (.pending t) = .ok s' ∧ s.Restores entity mid s' := by
  obtain ⟨hop, -, -, hrow⟩ := hwrites
  rw [hdelete] at hop hrow
  have hlive : mid.Live t := hop
  have hversion : s.version entity =
      { created := mid.version.created, deleted := some (.pending t) } := by
    rw [← version_row, hrow]
    rfl
  have hhas : s.has entity = true := by
    rw [has_eq, hversion]
    exact hlive.isSome_created
  obtain ⟨hputs, hsound, hstamps⟩ := setDeleted_spec hs hhas none
  have hmid : ({ s.row entity with version := { s.version entity with deleted := none } }
      : Row Name Value) = mid := by
    rw [hrow, hversion]
    obtain ⟨⟨created, deleted⟩, labels, values, ends⟩ := mid
    have hnone : deleted = none := hlive.1
    subst hnone
    rfl
  rw [hmid] at hputs
  refine ⟨_, if_pos (by rw [hversion]), hputs, hsound, fun c group vector => ?_, ?_, rfl, .set ..⟩
  · rw [hstamps]
  · simp [setDeleted]

theorem undoValue_restores {key : Name} {value : Option Value}
    (hwrites : Writes t { op := .value key value, before, version } mid (s.row entity))
    (hnil : mid.KeepsNone t) :
    ∃ s', s.undoValue entity key (mid.values key).value version (.pending t) = .ok s' ∧
      s.Restores entity mid s' := by
  obtain ⟨hop, -, hversion, hrow⟩ := hwrites
  have hexists : mid.version.created.isSome = true := Row.Live.isSome_created hop.1
  have hhas : s.has entity = true := by
    rw [has_row, hrow]
    exact hexists
  obtain ⟨after, hrestore, hputs, hsound, hstamps⟩ := restoreValue_spec hs hexists hrow
    fun hcreated => (hnil hcreated).2 key
  have hends : after.ends = s.ends := by
    obtain ⟨column, -, rfl⟩ := map_eq_some_iff.mp hrestore
    simp
  rw [show version = mid.cellVersion t (mid.values key) from hversion]
  simp only [undoValue, hhas, if_true, hrestore]
  refine ⟨_, rfl, ?_⟩
  rw [indexWritten_eq]
  exact ⟨hputs, hsound, hstamps, hends, rfl, .set ..⟩

theorem undoLabels_restores {id : Nat} {label : Name} {add : Bool}
    (hwrites : Writes t { op := .label label add, before, version } mid (s.row (.node id)))
    (hnil : mid.KeepsNone t) :
    ∃ s', s.undoLabels id mid.labels.value version (.pending t) = .ok s' ∧
      s.Restores (.node id) mid s' := by
  obtain ⟨hop, -, hversion, hrow⟩ := hwrites
  have hexists : mid.version.created.isSome = true := Row.Live.isSome_created hop.1
  have hhas : s.has (.node id) = true := by
    rw [has_row, hrow]
    exact hexists
  obtain ⟨after, hrestore, hputs, hsound, hstamps⟩ := restoreLabels_spec hs hexists hrow
    fun hcreated => (hnil hcreated).1
  have hends : after.ends = s.ends := by
    obtain ⟨column, -, rfl⟩ := map_eq_some_iff.mp hrestore
    rfl
  rw [show version = mid.cellVersion t mid.labels from hversion]
  simp only [undoLabels, hhas, if_true, hrestore]
  refine ⟨_, rfl, ?_⟩
  rw [indexLabels_eq]
  exact ⟨hputs, hsound, hstamps, hends, rfl, .set ..⟩

/-- **The undo of a write** succeeds and gives its row back as the write found it. -/
theorem undoOp_restores
    (hwrites : Writes t { op := op.rowOp, before, version } mid (s.row op.entity))
    (hnil : mid.KeepsNone t) :
    ∃ s', s.undoOp op before version (.pending t) = .ok s' ∧ s.Restores op.entity mid s' := by
  have hbefore := hwrites.before
  cases op with
  | createNode | createEdge =>
    obtain rfl : before = .absent := hbefore
    exact undoCreate_restores hs hwrites rfl
  | deleteNode id =>
    have hlive : mid.Live t := hwrites.accepts
    have hends : mid.ends = none := (hwrites.ends_eq hlive.isSome_created).symm
    obtain ⟨image, rfl⟩ : ∃ image, before = .node image :=
      ⟨_, hbefore.trans (by simp [DataOp.rowOp, Row.before, Row.image, hends]; rfl)⟩
    exact undoDelete_restores hs hwrites rfl
  | deleteEdge id =>
    have hlive : mid.Live t := hwrites.accepts
    have hsome := (hs.fits (.edge id)).ends hwrites.isSome_created
    rw [show (s.row (.edge id)).ends = mid.ends from hwrites.ends_eq hlive.isSome_created] at hsome
    obtain ⟨ends, hends⟩ := isSome_iff_exists.mp (hsome.trans (by rfl))
    obtain ⟨image, rfl⟩ : ∃ image, before = .edge image :=
      ⟨_, hbefore.trans (by simp [DataOp.rowOp, Row.before, Row.image, hends]; rfl)⟩
    exact undoDelete_restores hs hwrites rfl
  | setNodeProperty id key value | removeNodeProperty id key | setEdgeProperty id key value
  | removeEdgeProperty id key =>
    obtain rfl : before = .value (mid.values key).value := hbefore
    exact undoValue_restores hs hwrites hnil
  | addNodeLabel | removeNodeLabel =>
    obtain rfl : before = .labels mid.labels.value := hbefore
    exact undoLabels_restores hs hwrites hnil

/-- The undo of the last entry of a log, a write's. -/
theorem undo_data (h : s.Logged t (pre ++ [.data op before version])) :
    ∃ s', s.undoChange (.data op before version) (.pending t) = .ok s' ∧
      s.Undoes t pre [.data op before version] s' := by
  obtain ⟨mid, hwrites, hnil⟩ := writes_of_last h
  obtain ⟨s', hundo, hrestores⟩ := undoOp_restores hs hwrites hnil
  refine ⟨s', hundo, hrestores.sound, fun e base hbase hwrote => ?_, fun e hnames => ?_,
    hrestores.stamps, hrestores.ends, hrestores.counts, hrestores.frame⟩
  · rw [eventsOf_append] at hwrote
    obtain ⟨mid', hpre, hlast⟩ := Wrote.append_iff.mp hwrote
    have hevents : eventsOf e [Change.data op before version] =
        eventsIn e [{ op, before, version }] := by simp [eventsOf, Change.records]
    rw [hevents] at hlast
    by_cases he : e = op.entity
    · subst he
      have hone : eventsIn op.entity [({ op, before, version } : Record Name Value)] =
          [{ op := op.rowOp, before, version }] := by simp [eventsIn, Record.event]
      rw [hone, Wrote.singleton_iff] at hlast
      -- The undo is the same whichever row the write is said to have found.
      obtain ⟨s'', hundo', hrestores'⟩ := undoOp_restores hs hlast (hpre.keepsNone hbase)
      obtain rfl : s' = s'' := by simpa [hundo] using hundo'
      rw [hrestores'.puts op.entity, if_pos rfl]
      exact hpre
    · have hnil : eventsIn e [({ op, before, version } : Record Name Value)] = [] :=
        eventsIn_of_ne (Ne.symm he)
      rw [hnil, Wrote.nil_iff] at hlast
      rw [hrestores.puts e, if_neg he, hlast]
      exact hpre
  · rw [hrestores.puts e, if_neg]
    rintro rfl
    have := hnames _ (mem_singleton.mpr rfl)
    simp [Change.names] at this

end

/-! ### Bulk writes and whole logs -/

/-- The rows of a list that transaction stamp `pending` created are taken out. -/
theorem foldl_removeRow (hs : s.Sound) (table : Table) (pending : Stamp) (raws : List Nat) :
    let s' := raws.foldl (fun s raw =>
      let entity := entityOf table raw
      if (s.version entity).created = some pending then s.removeRow entity else s) s
    s'.Sound ∧ (∀ e : Entity, s'.row e =
        if e.table = table ∧ e.raw ∈ raws ∧ (s.version e).created = some pending then {}
        else s.row e) ∧
      (∀ c group vector, (s'.stampsOf c group vector).Sublist (s.stampsOf c group vector)) ∧
      s'.ends = s.ends ∧ s'.counts = s.counts ∧ s.SameFrame s' := by
  induction raws generalizing s with
  | nil =>
    refine ⟨hs, fun e => ?_, fun _ _ _ => .refl _, rfl, rfl, .set ..⟩
    simp
  | cons raw raws ih =>
    rw [foldl_cons]
    by_cases hcreated : (s.version (entityOf table raw)).created = some pending
    · simp only [hcreated, if_true]
      have hrestores := removeRow_restores hs (entityOf table raw)
      obtain ⟨hsound, hrows, hstamps, hends, hcounts, hframe⟩ := ih hrestores.sound
      refine ⟨hsound, fun e => ?_, fun c group vector =>
        (hstamps c group vector).trans (hrestores.stamps c group vector),
        hends.trans hrestores.ends, hcounts.trans hrestores.counts,
        hrestores.frame.trans hframe⟩
      rw [hrows e, ← version_row, hrestores.puts e]
      by_cases he : e = entityOf table raw
      · subst he
        simp [hcreated]
      have hne : ¬(e.table = table ∧ e.raw = raw) := by
        rintro ⟨rfl, rfl⟩
        exact he (entityOf_table_raw e).symm
      simp only [if_neg he, version_row, mem_cons]
      by_cases htable : e.table = table
      · have hraw : e.raw ≠ raw := fun h => hne ⟨htable, h⟩
        simp [htable, hraw]
      · simp [htable]
    · simp only [hcreated, if_false]
      obtain ⟨hsound, hrows, hstamps, hends, hcounts, hframe⟩ := ih hs
      refine ⟨hsound, fun e => ?_, hstamps, hends, hcounts, hframe⟩
      rw [hrows e]
      congr 1
      simp only [mem_cons, eq_iff_iff]
      constructor
      · rintro ⟨htable, hraw, hc⟩
        exact ⟨htable, .inr hraw, hc⟩
      · rintro ⟨rfl, rfl | hraw, hc⟩
        · rw [entityOf_table_raw] at hcreated
          exact absurd hc hcreated
        · exact ⟨rfl, hraw, hc⟩

/-- The undo of the last entry of a log, a bulk write's. -/
theorem undo_bulk (hs : s.Sound) {range : BulkRange} {rows : List (DataOp Name Value)}
    (h : s.Logged t (pre ++ [.bulk range rows])) :
    s.Undoes t pre [.bulk range rows] (s.undoBulk range (.pending t)) := by
  obtain ⟨hsound, hrows, hstamps, hends, hcounts, hframe⟩ := foldl_removeRow hs range.table
    (.pending t) (range' range.start (range.stop - range.start)).reverse
  have hwithin := h.ok.rows (.bulk range rows) (by simp)
  have hrow : ∀ e : Entity, (s.undoBulk range (.pending t)).row e =
      if range.contains e = true ∧ (s.version e).created = some (.pending t) then {}
      else s.row e := by
    intro e
    refine (hrows e).trans (if_congr ?_ rfl rfl)
    simp only [mem_reverse, mem_range'_1, BulkRange.contains, Bool.and_eq_true, decide_eq_true_eq]
    constructor
    · rintro ⟨htable, hraw, hcreated⟩
      exact ⟨⟨⟨htable, hraw.1⟩, by omega⟩, hcreated⟩
    · rintro ⟨⟨⟨htable, hle⟩, hlt⟩, hcreated⟩
      exact ⟨htable, by omega, hcreated⟩
  refine ⟨hsound, fun e base hbase hwrote => ?_, fun e hnames => ?_, hstamps, hends, hcounts,
    hframe⟩
  · rw [hrow e]
    rw [eventsOf_append] at hwrote
    by_cases he : range.contains e = true
    · -- The log holds nothing of the row before the range.
      rw [h.eventsOf_bulk he, nil_append] at hwrote
      rw [h.eventsOf_bulk he, Wrote.nil_iff]
      by_cases hcreated : (s.version e).created = some (.pending t)
      · rw [if_pos ⟨he, hcreated⟩]
        rw [← version_row] at hcreated
        obtain ⟨event, hevent, hcreate⟩ := (hwrote.created_iff hbase).mp hcreated
        obtain ⟨_, row₁, -, hwrites, -⟩ := hwrote.create_first hevent hcreate
        exact (hwrites.eq_empty hcreate).symm
      · rw [if_neg fun h => hcreated h.2]
        -- A row of the range that is not the transaction's was not written.
        have hnil : eventsOf e [Change.bulk range rows] = [] := by
          by_contra hne
          obtain ⟨event, hevent⟩ := exists_mem_of_ne_nil _ hne
          refine hcreated ?_
          rw [← version_row]
          refine (hwrote.created_iff hbase).mpr ⟨event, hevent, ?_⟩
          obtain ⟨change, hchange, record, hrecord, -, rfl⟩ := mem_eventsOf.mp hevent
          obtain rfl := mem_singleton.mp hchange
          obtain ⟨op, hop, rfl⟩ := mem_map.mp hrecord
          exact (isCreate_rowOp op).trans (h.bulk_rows hop).1
        rw [hnil] at hwrote
        exact Wrote.nil_iff.mp hwrote
    · have hnil : eventsOf e [Change.bulk range rows] = [] :=
        eventsOf_eq_nil (by simpa using hwithin) (by simpa [Change.names] using he)
      rw [hnil, append_nil] at hwrote
      rw [if_neg fun h => he h.1]
      exact hwrote
  · rw [hrow e, if_neg]
    rintro ⟨he, -⟩
    have := hnames _ (mem_singleton.mpr rfl)
    rw [show (Change.bulk range rows).names e = true from he] at this
    cases this

theorem undo_change (hs : s.Sound) (h : s.Logged t (pre ++ [change])) :
    ∃ s', s.undoChange change (.pending t) = .ok s' ∧ s.Undoes t pre [change] s' := by
  cases change with
  | data op before version => exact undo_data hs h
  | bulk range rows => exact ⟨_, rfl, undo_bulk hs h⟩

/-- After the undo of its last entries the tables bear what the rest of the log records. -/
theorem Undoes.logged (h : s.Undoes t pre undone s')
    (hlogged : s.Logged t (pre ++ undone)) : s'.Logged t pre where
  ok :=
    { rows change hchange := hlogged.ok.rows change (by simp [hchange])
      order := (pairwise_append.mp hlogged.ok.order).1 }
  wrote e hnames := by
    obtain ⟨change, hchange, hname⟩ := hnames
    obtain ⟨base, hbase, hwrote⟩ := hlogged.wrote e ⟨change, by simp [hchange], hname⟩
    exact ⟨base, hbase, h.back e base hbase hwrote⟩
  free e hnames := by
    by_cases hundone : ∃ change ∈ undone, change.names e = true
    · -- A row only the undone entries wrote is the committed one again.
      obtain ⟨change, hchange, hname⟩ := hundone
      obtain ⟨base, hbase, hwrote⟩ := hlogged.wrote e ⟨change, by simp [hchange], hname⟩
      have hback := h.back e base hbase hwrote
      have hnil : eventsOf e pre = [] :=
        eventsOf_eq_nil (fun c hc => hlogged.ok.rows c (by simp [hc])) hnames
      rw [hnil, Wrote.nil_iff] at hback
      rw [hback]
      exact hbase.free t
    · have hother : ∀ change ∈ undone, change.names e = false := by simpa using hundone
      rw [h.other e hother]
      exact hlogged.free e (forall_mem_append.mpr ⟨hnames, hother⟩)

/-- **A rollback succeeds**, of a whole log or of the entries after a savepoint, and leaves what
the entries before made. -/
theorem undoAll_spec (hs : s.Sound) (h : s.Logged t (pre ++ undone)) :
    ∃ s', s.undoAll (.pending t) undone.reverse = (s', .ok ()) ∧ s.Undoes t pre undone s' := by
  -- By induction on the entries, the last first.
  induction undone using reverseRecOn generalizing s with
  | nil =>
    refine ⟨s, rfl, hs, fun e base _ hwrote => ?_, fun _ _ => rfl,
      fun _ _ _ => .refl _, rfl, rfl, .set ..⟩
    rwa [append_nil] at hwrote
  | append_singleton undone change ih =>
    rw [← append_assoc] at h
    obtain ⟨s₁, hchange, hundoes⟩ := undo_change hs h
    obtain ⟨s', hall, hrest⟩ := ih hundoes.sound (hundoes.logged h)
    refine ⟨s', ?_, hrest.sound, fun e base hbase hwrote => ?_, fun e hnames => ?_,
      fun c group vector => (hrest.stamps c group vector).trans (hundoes.stamps c group vector),
      hrest.ends.trans hundoes.ends, hrest.counts.trans hundoes.counts,
      hundoes.frame.trans hrest.frame⟩
    · rw [reverse_concat, undoAll, hchange]
      exact hall
    · rw [← append_assoc] at hwrote
      exact hrest.back e base hbase (hundoes.back e base hbase hwrote)
    · rw [hrest.other e fun c hc => hnames c (by simp [hc]),
        hundoes.other e fun c hc => hnames c (by simp [mem_singleton.mp hc])]

end Store

end Grafeo.RowGroup
