import Grafeo.RowGroup.TableRows
import Grafeo.RowGroup.Log

/-!
# Grafeo.RowGroup.TableCommits

**A collect of the tables row by row**: each row of a vector a collect visits is left what
`Row.collect` leaves of it, with the vector's version info collapsed or not.

**A commit of the tables, entry by entry.** The commit of one entry stamps more than its own
row: a vector with one creator is stamped whole at the first entry that names a row of it,
and so is the undo node of a vector. `Committing` says what the tables are after some of the
entries; after all of them every row is the one before with the transaction's stamps replaced
by the epoch.
-/

namespace Grafeo.RowGroup

open List Versions

variable {Name Value : Type} {after : Tables Name Value} {row : Row Name Value}

/-- What a collect leaves of a row fits what the row is of. -/
theorem Row.Fits.collect {entity : Entity} (h : row.Fits entity)
    (horizon : Nat) (collapsed : Bool) : (row.collect horizon collapsed).Fits entity := by
  cases hcreated : row.version.created with
  | none =>
    rw [h.empty hcreated, Row.collect_empty]
    exact ⟨fun _ => rfl, nofun⟩
  | some stamp =>
    unfold Row.collect
    split
    · exact ⟨fun _ => rfl, nofun⟩
    next hnot =>
      have hexists : row.version.created.isSome = true := by rw [hcreated]; rfl
      refine ⟨fun hnone => ?_, fun _ => h.ends hexists⟩
      -- The row is not deleted if its vector collapses, so it still exists.
      cases collapsed with
      | false => exact absurd (hcreated.symm.trans hnone) (by simp)
      | true =>
        have hdeleted : row.version.deleted = none := by simpa using hnot
        simp [RowVersion.collapse, hexists, hdeleted, always] at hnone

namespace Tables

variable {tables : Tables Name Value} {table : Table}

@[simp] theorem table_entityOf (table : Table) (raw : Nat) : (entityOf table raw).table = table := by
  cases table <;> rfl

@[simp] theorem raw_entityOf (table : Table) (raw : Nat) : (entityOf table raw).raw = raw := by
  cases table <;> rfl

@[simp] theorem entityOf_table_raw (e : Entity) : entityOf e.table e.raw = e := by
  cases e <;> rfl

@[simp] theorem rows_setRows (table : Table) (rows : Rows Name Value) :
    (tables.setRows table rows).rows table = rows := by
  cases table <;> rfl

theorem rows_setRows_of_ne {table' : Table} (h : table' ≠ table) (rows : Rows Name Value) :
    (tables.setRows table rows).rows table' = tables.rows table' := by
  cases table <;> cases table' <;> first | rfl | exact absurd rfl h

/-- The row of an entity, by its parts. -/
theorem row_eq (tables : Tables Name Value) (e : Entity) : tables.row e =
      { version := (tables.rows e.table).versions.get e.raw
        labels := if e.table = .nodes then tables.labels.cell e.raw else { value := ∅ }
        values := (tables.rows e.table).cells e.raw
        ends := if e.table = .edges ∧ (tables.rows e.table).versions.has e.raw = true then
            tables.ends e.raw else none } := by
  cases e with
  | node | edge => simp [row, Entity.table, Entity.raw, rows]

/-- Tables that agree on the parts of a row agree on the row. -/
theorem row_congr {e : Entity}
    (hversion : (after.rows e.table).versions.get e.raw = (tables.rows e.table).versions.get e.raw)
    (hcells : (after.rows e.table).cells e.raw = (tables.rows e.table).cells e.raw)
    (hlabels : e.table = .nodes → after.labels.cell e.raw = tables.labels.cell e.raw)
    (hends : after.ends = tables.ends) : after.row e = tables.row e := by
  have hhas : (after.rows e.table).versions.has e.raw = (tables.rows e.table).versions.has e.raw := by
    rw [Versions.has, Versions.has, hversion]
  rw [row_eq, row_eq tables, hversion, hcells, hhas, hends]
  by_cases hnodes : e.table = .nodes
  · simp [hlabels hnodes]
  · simp [hnodes]

/-- A collapse takes out the rows that are deleted, and no other. -/
theorem created_collapse (version : RowVersion) (collapsed : Bool) :
    (if collapsed = true then version.collapse else version).created.isSome =
      if collapsed = true ∧ version.deleted.isSome = true then false
      else version.created.isSome := by
  cases collapsed with
  | false => simp
  | true =>
    unfold RowVersion.collapse
    cases hd : version.deleted with
    | none => cases hc : version.created <;> simp [always]
    | some stamp => simp

/-- Several rows of a table cleared, one after the other. -/
theorem foldl_clear_spec (hcolumns : ∀ table, (tables.rows table).WF) (hlabels : tables.labels.WF)
    (table : Table) (gone : List Nat) :
    let after := gone.foldl (fun tables raw => tables.clear (entityOf table raw)) tables
    (∀ table, (after.rows table).WF) ∧ after.labels.WF ∧
      (∀ table, (after.rows table).versions = (tables.rows table).versions ∧
        (after.rows table).keys = (tables.rows table).keys) ∧
      after.ends = tables.ends ∧
      (∀ table' r, (after.rows table').cells r =
        if table = table' ∧ r ∈ gone then fun _ => { value := none }
        else (tables.rows table').cells r) ∧
      (∀ r, after.labels.cell r =
        if table = .nodes ∧ r ∈ gone then { value := ∅ } else tables.labels.cell r) ∧
      ∀ c group vector, (after.stampsOf c group vector).Sublist
        (tables.stampsOf c group vector) := by
  induction gone generalizing tables with
  | nil => exact ⟨hcolumns, hlabels, by simp⟩
  | cons raw gone ih =>
    obtain ⟨hwf, hlwf, hversions, hends, hcells, hlcells, hstamps⟩ :=
      clear_spec hcolumns hlabels (entityOf table raw)
    obtain ⟨hwf', hlwf', hversions', hends', hcells', hlcells', hstamps'⟩ := ih hwf hlwf
    refine ⟨hwf', hlwf', fun t => ⟨(hversions' t).1.trans (hversions t), (hversions' t).2.trans ?_⟩,
      hends'.trans hends, fun t r => ?_, fun r => ?_,
      fun c g v => (hstamps' c g v).trans (hstamps c g v)⟩
    · cases table <;> cases t <;> rfl
    · rw [foldl_cons, hcells', hcells]
      simp only [table_entityOf, raw_entityOf, mem_cons]
      grind
    · rw [foldl_cons, hlcells', hlcells]
      simp only [table_entityOf, raw_entityOf, mem_cons]
      grind

/-- What dropping the undo nodes past of the vectors `visits` names, of one table, does. -/
structure ChainsCollected (tables : Tables Name Value) (table : Table) (visits : Nat → Bool)
    (horizon : Nat) (after : Tables Name Value) : Prop where
  columns : ∀ table, (after.rows table).WF
  labels : after.labels.WF
  versions : ∀ table, (after.rows table).versions = (tables.rows table).versions
  keys : ∀ table, (after.rows table).keys = (tables.rows table).keys
  ends : after.ends = tables.ends
  cells : ∀ table' r key, (after.rows table').cells r key =
    if table = table' ∧ visits (vectorOf r) = true then
      ((tables.rows table').cells r key).collect horizon
    else (tables.rows table').cells r key
  labelCells : ∀ r, after.labels.cell r =
    if table = .nodes ∧ visits (vectorOf r) = true then (tables.labels.cell r).collect horizon
    else tables.labels.cell r
  stamps : ∀ c group v, (after.stampsOf c group v).Sublist (tables.stampsOf c group v)

variable {visits : Nat → Bool} {horizon : Nat}

/-- The chains of a table are collected in every column of it, the labels with the nodes'. -/
theorem chainsCollected {collect : ∀ {T : Type}, Cells T → Cells T}
    (hcolumns : ∀ table, (tables.rows table).WF) (hlabels : tables.labels.WF)
    (hcollect : ∀ {T : Type} {c : Cells T}, c.WF → c.Collected visits horizon (collect c))
    (hafter : after = match table with
      | .nodes => { tables with
          nodes := { tables.nodes with columns := fun key => collect (tables.nodes.columns key) }
          labels := collect tables.labels }
      | .edges => { tables with
          edges := { tables.edges with columns := fun key => collect (tables.edges.columns key) } }) :
    tables.ChainsCollected table visits horizon after := by
  have hsame : ∀ {T : Type} {c : Cells T}, c.WF → c.Collected (fun _ => false) horizon c :=
    fun h => ⟨h, fun _ => rfl, fun _ _ => .refl _⟩
  have hcells : ∀ table' key, ((tables.rows table').columns key).Collected
      (fun v => decide (table = table') && visits v) horizon ((after.rows table').columns key) := by
    intro table' key
    cases table <;> cases table' <;> subst hafter
    · exact hcollect (hcolumns .nodes key)
    · exact hsame (hcolumns .edges key)
    · exact hsame (hcolumns .nodes key)
    · exact hcollect (hcolumns .edges key)
  have hlabel : tables.labels.Collected (fun v => decide (table = .nodes) && visits v) horizon
      after.labels := by
    cases table <;> subst hafter
    · exact hcollect hlabels
    · exact hsame hlabels
  exact
    { columns table' key := (hcells table' key).wf
      labels := hlabel.wf
      versions table' := by cases table <;> cases table' <;> subst hafter <;> rfl
      keys table' := by cases table <;> cases table' <;> subst hafter <;> rfl
      ends := by cases table <;> subst hafter <;> rfl
      cells table' r key := by simpa [Rows.cells] using (hcells table' key).cell r
      labelCells r := by simpa using hlabel.cell r
      stamps c group v := by
        cases c with
        | labels => exact hlabel.stamps group v
        | values table' key => exact (hcells table' key).stamps group v }

/-- What a collect leaves of a row of the vector it visits. -/
theorem row_collect {horizon : Nat} {collapsed : Bool} {gone : Prop}
    [Decidable gone] (hgone : gone ↔ collapsed = true ∧ row.version.deleted.isSome = true) :
    ({ version := if collapsed = true then row.version.collapse else row.version
       labels := (if gone then { value := ∅ } else row.labels).collect horizon
       values key := (if gone then { value := none } else row.values key).collect horizon
       ends := if gone then none else row.ends } : Row Name Value) =
      row.collect horizon collapsed := by
  unfold Row.collect
  by_cases h : gone
  · obtain ⟨hcollapsed, hdeleted⟩ := hgone.mp h
    have hversion : row.version.collapse = {} := by
      rw [RowVersion.collapse, if_neg]
      rintro ⟨-, hnone⟩
      rw [hnone] at hdeleted
      cases hdeleted
    simp [h, hcollapsed, hdeleted, hversion, Cell.collect]
  · rw [if_neg fun hc => h (hgone.mpr hc)]
    simp [h]

/-- Whether a collect at `horizon` collapses a vector of the table. -/
def collapses (tables : Tables Name Value) (table : Table) (horizon vector : Nat) : Bool :=
  ((tables.rows table).versions.vectors vector).collapses horizon

theorem settledBy_of_collapses {e : Entity}
    (h : tables.collapses e.table horizon (vectorOf e.raw) = true) :
    (tables.version e).SettledBy horizon :=
  VersionVector.settled_of_collapses h (place e.raw)

/-- What a collect of the vectors `visits` names of a table does: the rows of each are left what
`Row.collect` leaves of them, and `gone` are the rows that are gone. -/
structure Collecting (tables : Tables Name Value) (table : Table) (horizon : Nat)
    (visits : Nat → Bool) (gone : List Nat) (after : Tables Name Value) : Prop where
  sound : after.Sound
  ends : after.ends = tables.ends
  keys : ∀ table', (after.rows table').keys = (tables.rows table').keys
  vectors : ∀ table' v, (after.rows table').versions.vectors v =
    if table' = table ∧ visits v = true then
      (((tables.rows table').versions.vectors v).collapse horizon).1
    else (tables.rows table').versions.vectors v
  row : ∀ e : Entity, after.row e =
    if e.table = table ∧ visits (vectorOf e.raw) = true then
      (tables.row e).collect horizon (tables.collapses table horizon (vectorOf e.raw))
    else tables.row e
  gone : ∀ raw, raw ∈ gone ↔ visits (vectorOf raw) = true ∧
    tables.collapses table horizon (vectorOf raw) = true ∧
      (tables.version (entityOf table raw)).deleted.isSome = true
  stamps : ∀ c group v, (after.stampsOf c group v).Sublist (tables.stampsOf c group v)

/-- The tables once the vectors of a collect collapsed and the rows that are gone are cleared. -/
def cleared (tables : Tables Name Value) (table : Table) (versions : Versions) (gone : List Nat) :
    Tables Name Value :=
  gone.foldl (fun tables raw => tables.clear (entityOf table raw))
    (tables.setRows table ((tables.rows table).setVersions versions))

/-- The three parts of a collect: the vectors collapse, the rows that are gone are cleared, the
chains lose what is past. -/
theorem collecting_of_chains (h : tables.Sound) {versions : Versions} {gone : List Nat}
    (hcollapses : (tables.rows table).versions.Collapses visits horizon versions gone)
    (hchains : (∀ table', ((tables.cleared table versions gone).rows table').WF) →
      (tables.cleared table versions gone).labels.WF →
      (tables.cleared table versions gone).ChainsCollected table visits horizon after) :
    tables.Collecting table horizon visits gone after := by
  obtain ⟨hwf, hlwf, hversions, hends, hcells, hlcells, hstamps⟩ :=
    foldl_clear_spec (wf_setVersions h.columns table versions)
      (by rw [labels_setRows]; exact h.labels) table gone
  have hchains := hchains hwf hlwf
  have hends' : after.ends = tables.ends :=
    hchains.ends.trans (hends.trans (ends_setRows ..))
  have hversions' : ∀ table', (after.rows table').versions =
      if table' = table then versions else (tables.rows table').versions := fun table' => by
    rw [hchains.versions, cleared, (hversions table').1, rows_setVersions]
    rfl
  have hgone : ∀ raw, raw ∈ gone ↔ visits (vectorOf raw) = true ∧
      tables.collapses table horizon (vectorOf raw) = true ∧
        (tables.version (entityOf table raw)).deleted.isSome = true := fun raw => by
    rw [hcollapses.mem_gone, version, table_entityOf, raw_entityOf]
    rfl
  have hrows : ∀ e : Entity, after.row e =
      if e.table = table ∧ visits (vectorOf e.raw) = true then
        (tables.row e).collect horizon (tables.collapses table horizon (vectorOf e.raw))
      else tables.row e := by
    intro e
    by_cases hin : e.table = table ∧ visits (vectorOf e.raw) = true
    · obtain ⟨htable, hvisits⟩ := hin
      subst htable
      have hversion : (after.rows e.table).versions.get e.raw =
          if tables.collapses e.table horizon (vectorOf e.raw) = true then
            ((tables.rows e.table).versions.get e.raw).collapse
          else (tables.rows e.table).versions.get e.raw := by
        rw [hversions', if_pos rfl, hcollapses.get]
        simp only [hvisits, true_and]
        rfl
      have hiff : e.raw ∈ gone ↔ tables.collapses e.table horizon (vectorOf e.raw) = true ∧
          (tables.row e).version.deleted.isSome = true := by
        rw [hgone, version_row, entityOf_table_raw]
        simp [hvisits]
      have hcell : (after.rows e.table).cells e.raw = fun key =>
          (if e.raw ∈ gone then { value := none }
            else (tables.rows e.table).cells e.raw key).collect horizon := by
        funext key
        rw [hchains.cells, if_pos ⟨rfl, hvisits⟩, cleared, hcells]
        simp only [true_and, rows_setRows, Rows.cells_setVersions]
        split <;> rfl
      have hlabel : e.table = .nodes → after.labels.cell e.raw =
          (if e.raw ∈ gone then { value := ∅ } else tables.labels.cell e.raw).collect horizon := by
        intro hnodes
        rw [hchains.labelCells, if_pos ⟨hnodes, hvisits⟩, cleared, hlcells]
        simp [hnodes, labels_setRows]
      rw [if_pos ⟨rfl, hvisits⟩, ← row_collect hiff, row_eq, row_eq tables]
      simp only [Row.mk.injEq]
      refine ⟨hversion, ?_, ?_, ?_⟩
      · split
        next hnodes => rw [hlabel hnodes]
        next => split <;> rfl
      · rw [hcell]
      have hexists : (after.rows e.table).versions.has e.raw =
          if e.raw ∈ gone then false else (tables.rows e.table).versions.has e.raw := by
        rw [Versions.has, hversion, Versions.has]
        simp only [hiff, version_row]
        exact created_collapse ..
      grind
    · rw [if_neg hin]
      have hnot : ¬(table = e.table ∧ visits (vectorOf e.raw) = true) :=
        fun h => hin ⟨h.1.symm, h.2⟩
      -- The rows that are gone are rows of the vectors visited.
      have hstays : ¬(table = e.table ∧ e.raw ∈ gone) :=
        fun h => hnot ⟨h.1, ((hgone e.raw).mp h.2).1⟩
      refine row_congr ?_ ?_ ?_ hends'
      · rw [hversions']
        split
        next htable =>
          rw [htable, hcollapses.get, if_neg fun h => hin ⟨htable, h.1⟩]
        next => rfl
      · funext key
        rw [hchains.cells, if_neg hnot, cleared, hcells, if_neg hstays, rows_setVersions]
        rfl
      · intro hnodes
        rw [hnodes] at hnot hstays
        rw [hchains.labelCells, if_neg hnot, cleared, hlcells, if_neg hstays, labels_setRows]
  refine ⟨⟨hchains.columns, hchains.labels, fun e => ?_⟩, hends', fun table' => ?_,
    fun table' v => ?_, hrows, hgone, fun c group v => ?_⟩
  · rw [hrows]
    split
    · exact (h.fits e).collect horizon _
    · exact h.fits e
  · rw [hchains.keys, cleared, (hversions table').2, rows_setVersions]
    rfl
  · rw [hversions']
    by_cases htable : table' = table <;> simp [htable, hcollapses.vectors]
  · rw [stampsOf_setVersions] at hstamps
    exact (hchains.stamps c group v).trans (hstamps c group v)

/-- A collect of one vector. -/
theorem collectVector_collecting (h : tables.Sound) (table : Table) (vector horizon : Nat) :
    tables.Collecting table horizon (fun v => decide (v = vector))
      (tables.collectVector table vector horizon).2
      (tables.collectVector table vector horizon).1 := by
  refine collecting_of_chains h (collapseVector_collapses _ vector horizon)
    fun hwf hlwf => chainsCollected hwf hlwf (fun h => h.collectVector vector horizon) ?_
  cases table <;> rfl

/-- A collect of one row group whole. -/
theorem collectGroup_collecting (h : tables.Sound) (table : Table) (group horizon : Nat) :
    tables.Collecting table horizon (fun v => decide (v / vectors = group))
      (tables.collectGroup table group horizon).2
      (tables.collectGroup table group horizon).1 := by
  refine collecting_of_chains h (collapse_collapses _ group horizon)
    fun hwf hlwf => chainsCollected hwf hlwf (fun h => h.collect group horizon) ?_
  cases table <;> rfl

/-! ### Several collects of one table -/

/-- No vector visited. -/
theorem Collecting.refl (h : tables.Sound) (table : Table) (horizon : Nat) :
    tables.Collecting table horizon (fun _ => false) [] tables where
  sound := h
  ends := rfl
  keys _ := rfl
  vectors _ _ := by simp
  row _ := by simp
  gone _ := by simp
  stamps _ _ _ := .refl _

theorem Collecting.collapses {gone : List Nat}
    (h : tables.Collecting table horizon visits gone after) {v : Nat} (hv : visits v = false) :
    after.collapses table horizon v = tables.collapses table horizon v := by
  rw [Tables.collapses, h.vectors, if_neg fun h => by simp [hv] at h]
  rfl

/-- **The vectors are collected apart from each other**: a vector's turn leaves the others. -/
theorem Collecting.trans {visits' : Nat → Bool} {gone gone' : List Nat}
    {mid after : Tables Name Value} (h : tables.Collecting table horizon visits gone mid)
    (h' : mid.Collecting table horizon visits' gone' after)
    (hapart : ∀ v, visits' v = true → visits v = false) :
    tables.Collecting table horizon (fun v => visits v || visits' v) (gone ++ gone') after := by
  have hsame : ∀ e : Entity, e.table = table → visits' (vectorOf e.raw) = true →
      mid.row e = tables.row e := fun e htable hvisits => by
    rw [h.row, if_neg fun hin => by simp [hapart _ hvisits] at hin]
  refine ⟨h'.sound, h'.ends.trans h.ends, fun table' => (h'.keys table').trans (h.keys table'),
    fun table' v => ?_, fun e => ?_, fun raw => ?_,
    fun c group v => (h'.stamps c group v).trans (h.stamps c group v)⟩
  · rw [h'.vectors, h.vectors]
    cases hv' : visits' v with
    | true => simp [hapart v hv']
    | false => simp
  · rw [h'.row]
    cases hv' : visits' (vectorOf e.raw) with
    | true =>
      by_cases htable : e.table = table
      · rw [if_pos ⟨htable, rfl⟩, hsame e htable hv', h.collapses (hapart _ hv'),
          if_pos ⟨htable, Bool.or_true _⟩]
      · rw [if_neg fun h => htable h.1, h.row, if_neg fun h => htable h.1,
          if_neg fun h => htable h.1]
    | false => simp [h.row]
  · rw [mem_append, h.gone, h'.gone, Bool.or_eq_true]
    cases hv' : visits' (vectorOf raw) with
    | true =>
      have hversion : mid.version (entityOf table raw) = tables.version (entityOf table raw) := by
        rw [← version_row, hsame (entityOf table raw) (table_entityOf table raw)
          (by rwa [raw_entityOf]), version_row]
      rw [h.collapses (hapart _ hv'), hversion]
      simp [hapart _ hv']
    | false => simp

end Tables

variable {Name Value : Type} [DecidableEq Name] {e : Entity} {log : List (Change Name Value)}

omit [DecidableEq Name] in
theorem Row.Fits.restamp {row : Row Name Value} {entity : Entity} (h : row.Fits entity)
    (t epoch : Nat) : (row.restamp t epoch).Fits entity := by
  constructor
  · intro hnone
    rw [h.empty (by simpa [Row.restamp] using hnone)]
    exact Row.NoPending.empty.restamp_eq t epoch
  · intro hsome
    exact h.ends (by simpa [Row.restamp] using hsome)

/-- What the commit of a value or label write is to find: what the transaction keeps of the row,
stamped already or not, or that it created the row. -/
def Found (t epoch : Nat) (kept created : Option Stamp) : Prop :=
  kept = some (.pending t) ∨ kept = some (.epoch epoch) ∨ created = some (.pending t) ∨
    created = some (.epoch epoch)

/-- What the commit of a write of a row finds in its column, and what becomes of the column. -/
theorem Cells.StampedTo.stamp_found {T : Type} {base c : Cells T} {t epoch raw : Nat}
    {rows : List Nat} (h : StampedTo t epoch rows base c) {created : Option Stamp}
    (hmark : (base.cell raw).OwnsLast t ∨
      (created = some (.pending t) ∨ created = some (.epoch epoch)) ∧ (base.cell raw).kept = []) :
    ∃ c' kept rows', c.stamp raw (.pending t) epoch = (c', kept) ∧ Found t epoch kept created ∧
      StampedTo t epoch rows' base c' ∧ (∀ r ∈ rows, r ∈ rows') ∧
      ((base.cell raw).heldBy (.pending t) = true → raw ∈ rows') := by
  rcases hmark with howns | ⟨hcreated, hnil⟩
  · obtain ⟨c', before, hstamp, hbefore, hnext⟩ := h.stampRow howns
    refine ⟨c', some before, raw :: rows, hstamp, ?_, hnext, by simp +contextual, by simp⟩
    rcases hbefore with rfl | rfl
    · exact .inl rfl
    · exact .inr (.inl rfl)
  · refine ⟨c, none, rows, h.stampRow_of_nil hnil, .inr (.inr hcreated), h, by simp,
      fun hheld => ?_⟩
    obtain ⟨v, hv⟩ := Cell.heldBy_iff.mp hheld
    rw [hnil] at hv
    cases hv

namespace Tables

variable {t epoch : Nat} {base tables : Tables Name Value} {done : List (Change Name Value)}
  {change : Change Name Value}

/-- What the tables are once a commit of transaction `t` at `epoch` stamped the entries `done`,
the last of them first, of the tables `base`. -/
structure Committing (t epoch : Nat) (base : Tables Name Value) (done : List (Change Name Value))
    (tables : Tables Name Value) : Prop where
  ends : tables.ends = base.ends
  created : ∀ table, Versions.CommittedTo (.pending t) (.epoch epoch)
    (fun raw => ∃ change ∈ done, change.creates (entityOf table raw) = true)
    (base.rows table).versions (tables.rows table).versions
  deleted : ∀ e, (tables.version e).deleted =
    if done.any (Change.deletes e) = true then some (.epoch epoch) else (base.version e).deleted
  values : ∀ table key, ∃ rows,
    Cells.StampedTo t epoch rows ((base.rows table).columns key) ((tables.rows table).columns key) ∧
      ∀ raw, (∃ change ∈ done, change.writesValue (entityOf table raw) key = true) →
        (((base.rows table).columns key).cell raw).heldBy (.pending t) = true → raw ∈ rows
  labels : ∃ rows, Cells.StampedTo t epoch rows base.labels tables.labels ∧
    ∀ id, (∃ change ∈ done, change.writesLabels id = true) →
      (base.labels.cell id).heldBy (.pending t) = true → id ∈ rows

theorem Committing.refl (h : base.Sound) (t epoch : Nat) : Committing t epoch base [] base where
  ends := rfl
  created table := by
    simpa using CommittedTo.refl (.pending t) (.epoch epoch) (base.rows table).versions
  deleted e := by simp
  values table key := ⟨[], .refl (h.columns table key) t epoch, by simp⟩
  labels := ⟨[], .refl h.labels t epoch, by simp⟩

section

variable (h : Committing t epoch base done tables)
include h

/-- An entry that creates nothing names no more creates. -/
theorem Committing.created_cons (hcreates : ∀ e, change.creates e = false) (table : Table) :
    Versions.CommittedTo (.pending t) (.epoch epoch)
      (fun raw => ∃ c ∈ change :: done, c.creates (entityOf table raw) = true)
      (base.rows table).versions (tables.rows table).versions := by
  simpa [hcreates] using h.created table

theorem Committing.deleted_cons (hdeletes : ∀ e, change.deletes e = false) (e : Entity) :
    (tables.version e).deleted =
      if (change :: done).any (Change.deletes e) = true then some (.epoch epoch)
      else (base.version e).deleted := by
  simpa [hdeletes] using h.deleted e

theorem Committing.values_cons
    (hwrites : ∀ e key, change.writesValue e key = false) (table : Table) (key : Name) :
    ∃ rows, Cells.StampedTo t epoch rows ((base.rows table).columns key)
        ((tables.rows table).columns key) ∧
      ∀ raw, (∃ c ∈ change :: done, c.writesValue (entityOf table raw) key = true) →
        (((base.rows table).columns key).cell raw).heldBy (.pending t) = true → raw ∈ rows := by
  simpa [hwrites] using h.values table key

/-- The creator of a row the transaction created, during its commit. -/
theorem Committing.created_of_pending (hcreated : (base.version e).created = some (.pending t)) :
    (tables.version e).created = some (.pending t) ∨
      (tables.version e).created = some (.epoch epoch) := by
  rcases (h.created e.table).created e.raw with heq | ⟨-, heq⟩
  · exact .inl (heq.trans hcreated)
  · exact .inr heq

theorem Committing.has_eq (e : Entity) : tables.has e = base.has e :=
  (h.created e.table).has e.raw

/-- An entry of creates, of ids no entry before it created: its commit finds those the
transaction created. -/
theorem Committing.commitCreated {table : Table} {start stop : Nat}
    (hmarks : change.Marks change.creates (fun _ => false) (fun _ _ => false) fun _ => false)
    (hcreates : ∀ table' raw, change.creates (entityOf table' raw) = true ↔
      table' = table ∧ start ≤ raw ∧ raw < stop)
    (hfresh : ∀ e, (base.version e).created ≠ some (.epoch epoch))
    (hnew : ∀ raw, start ≤ raw → raw < stop → ∀ c ∈ done, c.creates (entityOf table raw) = false) :
    Committing t epoch base (change :: done)
        (tables.commitCreated table start stop (.pending t) epoch).1 ∧
      (∀ raw, raw ∈ (tables.commitCreated table start stop (.pending t) epoch).2 ↔
        (start ≤ raw ∧ raw < stop) ∧
          (base.version (entityOf table raw)).created = some (.pending t)) ∧
      (tables.commitCreated table start stop (.pending t) epoch).2.Nodup := by
  have hdone : ∀ raw, start ≤ raw → raw < stop →
      ¬∃ c ∈ done, c.creates (entityOf table raw) = true := by
    rintro raw hstart hstop ⟨c, hc, hcreated⟩
    rw [hnew raw hstart hstop c hc] at hcreated
    cases hcreated
  obtain ⟨hcommitted, hmem⟩ := (h.created table).commitCreated (by simp)
    (fun raw => by simpa [version] using hfresh (entityOf table raw)) hdone
  refine ⟨⟨?_, fun table' => ?_, fun e => ?_, fun table' key => ?_, ?_⟩, fun raw => ?_,
    nodup_commitCreated ..⟩
  · exact (ends_setRows ..).trans h.ends
  · rw [Tables.commitCreated, rows_setVersions, Rows.setVersions]
    by_cases htable : table' = table
    · subst htable
      rw [if_pos rfl]
      convert hcommitted using 2
      simp only [exists_mem_cons_iff, hcreates, true_and]
      exact or_comm
    · have hnot : ∀ raw, change.creates (entityOf table' raw) = false := fun raw => by
        rw [← Bool.not_eq_true, hcreates]
        exact fun hc => htable hc.1
      simpa [hnot, htable] using h.created table'
  · rw [← h.deleted_cons hmarks.deletes, version, version, Tables.commitCreated, rows_setVersions]
    by_cases htable : e.table = table
    · subst htable
      rw [if_pos rfl]
      exact deleted_commitCreated ..
    · rw [if_neg htable]
      rfl
  · rw [Tables.commitCreated, rows_setVersions]
    exact h.values_cons hmarks.writesValue table' key
  · rw [Tables.commitCreated, labels_setRows]
    simpa [hmarks.writesLabels] using h.labels
  · simp only [version, table_entityOf, raw_entityOf]
    exact hmem raw

/-- A delete, of a row no entry before it deleted: its commit finds the transaction's mark. -/
theorem Committing.setDeleted
    (hmarks : change.Marks (fun _ => false) (fun e' => decide (e' = e)) (fun _ _ => false)
      fun _ => false) (hrow : base.has e = true)
    (hdeleted : (base.version e).deleted = some (.pending t))
    (hnew : ∀ c ∈ done, c.deletes e = false) :
    (tables.version e).deleted = some (.pending t) ∧
      Committing t epoch base (change :: done) (tables.setDeleted e (some (.epoch epoch))) := by
  have hpending : (tables.version e).deleted = some (.pending t) := by
    rw [h.deleted, hdeleted, if_neg]
    simpa using hnew
  have hhas : (tables.rows e.table).versions.has e.raw = true := (h.has_eq e).trans hrow
  refine ⟨hpending, ?_, fun table => ?_, fun e' => ?_, fun table key => ?_, ?_⟩
  · exact (ends_setRows ..).trans h.ends
  · rw [Tables.setDeleted, rows_setVersions]
    by_cases htable : table = e.table
    · subst htable
      rw [if_pos rfl]
      exact (h.created_cons hmarks.creates e.table).setDeleted
        (by rw [show ((tables.rows e.table).versions.get e.raw).deleted = _ from hpending]; rfl) _
    · rw [if_neg htable]
      exact h.created_cons hmarks.creates table
  · rw [version_setDeleted hhas, any_cons, hmarks.deletes]
    by_cases he : e' = e
    · simp [he]
    · simpa [he] using h.deleted e'
  · rw [Tables.setDeleted, rows_setVersions]
    exact h.values_cons hmarks.writesValue table key
  · rw [Tables.setDeleted, labels_setRows]
    simpa [hmarks.writesLabels] using h.labels

/-- A value write: its commit finds what the transaction keeps of the row, or that it created
it. -/
theorem Committing.stampValue {key : Name} (hmarks : change.Marks (fun _ => false) (fun _ => false)
      (fun e' k => decide (e' = e) && decide (k = key)) fun _ => false)
    (hmark : ((base.row e).values key).OwnsLast t ∨
      (base.version e).created = some (.pending t) ∧ ((base.row e).values key).kept = []) :
    Committing t epoch base (change :: done) (tables.stampValue e key (.pending t) epoch).1 ∧
      Found t epoch (tables.stampValue e key (.pending t) epoch).2 (tables.version e).created := by
  obtain ⟨rows, hstamped, hall⟩ := h.values e.table key
  have hcell : (base.row e).values key = ((base.rows e.table).columns key).cell e.raw := by
    rw [values_row]
    rfl
  rw [hcell] at hmark
  obtain ⟨column, kept, rows', hstamp, hfound, hstamped', hrows, hraw⟩ :=
    hstamped.stamp_found (hmark.imp_right (And.imp_left h.created_of_pending))
  simp only [Tables.stampValue, hstamp]
  refine ⟨⟨?_, fun table => ?_, fun e' => ?_, fun table key' => ?_, ?_⟩, hfound⟩
  · exact (ends_setRows ..).trans h.ends
  · rw [versions_setColumn]
    exact h.created_cons hmarks.creates table
  · rw [version, versions_setColumn]
    exact h.deleted_cons hmarks.deletes e'
  · rw [columns_setColumn]
    by_cases hin : table = e.table ∧ key' = key
    · obtain ⟨rfl, rfl⟩ := hin
      refine ⟨rows', by simpa using hstamped', fun raw hraw' hheld => ?_⟩
      rw [exists_mem_cons_iff, hmarks.writesValue] at hraw'
      rcases hraw' with hself | hbefore
      · have : entityOf e.table raw = e := by simpa using hself
        have hreq : raw = e.raw := by rw [← this, raw_entityOf]
        rw [hreq] at hheld ⊢
        exact hraw hheld
      · exact hrows raw (hall raw hbefore hheld)
    · have hnot : ∀ raw, change.writesValue (entityOf table raw) key' = false := by
        intro raw
        rw [hmarks.writesValue, ← Bool.not_eq_true, Bool.and_eq_true, decide_eq_true_eq, decide_eq_true_eq]
        rintro ⟨heq, hkey⟩
        exact hin ⟨by rw [← heq, table_entityOf], hkey⟩
      simpa [hin, hnot] using h.values table key'
  · rw [labels_setRows]
    simpa [hmarks.writesLabels] using h.labels

/-- A label write, as a value write. -/
theorem Committing.stampLabels {id : Nat}
    (hmarks : change.Marks (fun _ => false) (fun _ => false) (fun _ _ => false)
      fun node => decide (node = id)) (hmark : (base.row (.node id)).labels.OwnsLast t ∨
      (base.version (.node id)).created = some (.pending t) ∧
        (base.row (.node id)).labels.kept = []) :
    Committing t epoch base (change :: done) (tables.stampLabels id (.pending t) epoch).1 ∧
      Found t epoch (tables.stampLabels id (.pending t) epoch).2
        (tables.version (.node id)).created := by
  obtain ⟨rows, hstamped, hall⟩ := h.labels
  obtain ⟨column, kept, rows', hstamp, hfound, hstamped', hrows, hraw⟩ :=
    hstamped.stamp_found (hmark.imp_right (And.imp_left h.created_of_pending))
  simp only [Tables.stampLabels, hstamp]
  refine ⟨⟨h.ends, h.created_cons hmarks.creates, h.deleted_cons hmarks.deletes,
    h.values_cons hmarks.writesValue, rows', hstamped', fun id' hid hheld => ?_⟩, hfound⟩
  rw [exists_mem_cons_iff, hmarks.writesLabels] at hid
  rcases hid with hself | hbefore
  · obtain rfl : id' = id := by simpa using hself
    exact hraw hheld
  · exact hrows id' (hall id' hbefore hheld)

end

/-- The marks of a transaction on the tables are those its entries name. -/
structure Marked (t : Nat) (log : List (Change Name Value)) (tables : Tables Name Value) : Prop where
  created : ∀ e, (tables.version e).created = some (.pending t) →
    ∃ change ∈ log, change.creates e = true
  deleted : ∀ e, (tables.version e).deleted = some (.pending t) ↔
    ∃ change ∈ log, change.deletes e = true
  values : ∀ e key, ((tables.row e).values key).heldBy (.pending t) = true →
    ∃ change ∈ log, change.writesValue e key = true
  labels : ∀ id, (tables.labels.cell id).heldBy (.pending t) = true →
    ∃ change ∈ log, change.writesLabels id = true

section

variable (h : Committing t epoch base log.reverse tables)
include h

theorem Committing.created_restamp (hmarked : Marked t log base) (e : Entity) :
    (tables.version e).created = (base.version e).created.map (Updates.restamp t epoch) := by
  obtain ⟨named, hnamed, hcreated⟩ := (h.created e.table).creator e.raw
  refine hcreated.trans ?_
  by_cases hpending : (base.version e).created = some (.pending t)
  · have hdone : ∃ change ∈ log.reverse, change.creates (entityOf e.table e.raw) = true := by
      simpa using hmarked.created e hpending
    rw [if_pos ⟨hpending, hnamed (by simp) hdone⟩, hpending]
    simp [Updates.restamp]
  · rw [if_neg fun hc => hpending hc.1, Row.map_restamp_of_ne hpending]
    rfl

theorem Committing.deleted_restamp (hmarked : Marked t log base) (e : Entity) :
    (tables.version e).deleted = (base.version e).deleted.map (Updates.restamp t epoch) := by
  have hany : log.reverse.any (Change.deletes e) = true ↔
      (base.version e).deleted = some (.pending t) := by
    rw [hmarked.deleted]
    simp
  rw [h.deleted]
  by_cases hpending : (base.version e).deleted = some (.pending t)
  · rw [if_pos (hany.mpr hpending), hpending]
    simp [Updates.restamp]
  rw [if_neg fun hc => hpending (hany.mp hc), Row.map_restamp_of_ne hpending]

/-- Once every entry is stamped, every row is the one before with the transaction's stamps
replaced by the epoch. -/
theorem Committing.restamped (hbase : base.Sound) (hmarked : Marked t log base) :
    tables.Sound ∧ (∀ e, tables.row e = (base.row e).restamp t epoch) ∧
      ∀ c group vector, tables.stampsOf c group vector =
        (base.stampsOf c group vector).map (Updates.restamp t epoch) := by
  have hvalues (table : Table) (key : Name) :=
    Cells.cells_of_stampedTo (h.values table key) (hbase.columns table key) fun raw hheld => by
      have hmark := hmarked.values (entityOf table raw) key
      simp only [values_row, table_entityOf, raw_entityOf] at hmark
      simpa using hmark hheld
  obtain ⟨hlwf, hlcells, hlstamps⟩ := Cells.cells_of_stampedTo h.labels hbase.labels
    fun id hheld => by simpa using hmarked.labels id hheld
  have hversion : ∀ e, tables.version e = ((base.row e).restamp t epoch).version := by
    intro e
    have hcreated := h.created_restamp hmarked e
    have hdeleted := h.deleted_restamp hmarked e
    rw [Row.restamp, version_row]
    exact RowVersion.ext hcreated hdeleted
  have hrows : ∀ e, tables.row e = (base.row e).restamp t epoch := by
    intro e
    refine Row.ext ?_ ?_ ?_ ?_
    · rw [version_row]
      exact hversion e
    · cases e with
      | node id => exact hlcells id
      | edge id => rfl
    · rw [values_row, Row.restamp, values_row]
      funext key
      exact (hvalues e.table key).2.1 e.raw
    cases e with
    | node id => rfl
    | edge id =>
      change (if tables.edges.versions.has id then tables.ends id else none) =
        if base.edges.versions.has id then base.ends id else none
      rw [h.ends, show tables.edges.versions.has id = _ from h.has_eq (.edge id)]
      rfl
  refine ⟨⟨fun table key => (hvalues table key).1, hlwf, fun e => ?_⟩, hrows,
    fun c group vector => ?_⟩
  · rw [hrows]
    exact (hbase.fits e).restamp t epoch
  · cases c with
    | labels => exact hlstamps group vector
    | values table key => exact (hvalues table key).2.2 group vector

end

end Tables

end Grafeo.RowGroup
