import Grafeo.RowGroup.Row

/-!
# Grafeo.RowGroup.TableRows

**The tables row by row**: what each operation of the tables makes of the row it names,
and that it leaves the other rows as they are.

The tables keep their rows spread over columns, chains and version vectors. Whatever is
proved about the store rests on the lemmas of this module, and none of it looks into the
columns again.
-/

namespace Grafeo.RowGroup

open Function Entity Versions

variable {Name Value : Type} {key : Name} {column : Cells (Option Value)}
  {after : Tables Name Value} {values : Name → Cell (Option Value)} {cell : Cell (Option Value)}
  {version : RowVersion}

/-- What does not change at `id` does not change. -/
theorem eq_ite_self {α : Type} (f : Nat → α) (id r : Nat) : f r = if r = id then f id else f r := by
  split
  next h => rw [h]
  next => rfl

/-- What a write of `cell` for `keep` keeps: what it replaces is `pushed` under the writer's
stamp, unless the writer holds a version already, which its search finds when it is `searched`. -/
structure Keeps {T : Type} (keep : Option (Stamp × Nat)) (cell : Cell T)
    (searched : Stamp → Nat → Prop) (pushed : Option Stamp) (version : PendingVersion) : Prop where
  asked : ∀ stamp ∈ pushed, ∃ snapshot, keep = some (stamp, snapshot)
  reported : version = .ofKept (keep.isNone || pushed.isSome)
  exact : ∀ stamp snapshot, keep = some (stamp, snapshot) → searched stamp snapshot →
    pushed = if cell.heldBy stamp then none else some stamp

/-- A chain's stamps after a write for `keep`, which may append its stamp. -/
def Appends (keep : Option (Stamp × Nat)) (before after : List Stamp) : Prop :=
  after = before ∨ ∃ stamp snapshot, keep = some (stamp, snapshot) ∧ after = before ++ [stamp]

namespace Cells

variable {T : Type} {c : Cells T} {raw : Nat}

/-- A value put in a column, what it replaces kept for `keep` first: it is pushed under the
writer's stamp, or the writer holds the row already. -/
theorem WF.keepFor (h : c.WF) (raw : Nat) (keep : Option (Stamp × Nat)) (value : T) :
    ∃ c' version pushed, c.keepFor raw keep = (c', version) ∧ (c'.set raw value).WF ∧
      (∀ r, (c'.set raw value).cell r =
        if r = raw then (c.cell raw).write pushed value else c.cell r) ∧
      Keeps keep (c.cell raw) c.SearchedBy pushed version ∧
      ∀ group vector,
        Appends keep (c.stampsOf group vector) ((c'.set raw value).stampsOf group vector) := by
  cases keep with
  | none =>
    refine ⟨c, .created, none, rfl, h.set raw value, fun r => ?_, ⟨by simp, rfl, by simp⟩,
      fun _ _ => .inl rfl⟩
    rw [cell_set]
    simp [Cell.write]
  | some keep =>
    obtain ⟨stamp, snapshot⟩ := keep
    obtain ⟨c', kept, hkeep, hwf, hvalues, hcells, -, hexact, hstamps⟩ := h.keep raw stamp snapshot
    refine ⟨c', .ofKept kept, if kept then some stamp else none, ?_, hwf.set raw value,
      fun r => ?_, ⟨fun s hs => ?_, ?_, fun s n hsn hsearched => ?_⟩, fun group vector => ?_⟩
    · simp [Cells.keepFor, hkeep]
    · rw [cell_set, hcells, hcells]
      by_cases hr : r = raw
      · cases kept <;> simp [hr, Cell.write, cell]
      · simp [hr]
    · cases kept with
      | false => simp at hs
      | true =>
        obtain rfl : stamp = s := by simpa using hs
        exact ⟨snapshot, rfl⟩
    · cases kept <;> rfl
    · cases hsn
      rw [hexact hsearched]
      cases (c.cell raw).heldBy stamp <;> rfl
    · rcases hstamps group vector with heq | heq
      · exact .inl heq
      · exact .inr ⟨stamp, snapshot, rfl, heq⟩

/-- A transaction's write of a cell is rolled back: the cell is the one it wrote. -/
theorem WF.restore (h : c.WF) {t : Nat} {row : Row Name Value} {cell : Cell T} {value : T}
    (hcell : c.cell raw = cell.write (row.pushes t cell) value)
    (hnil : row.version.created = some (.pending t) → cell.kept = []) :
    ∃ c', c.restore raw cell.value (row.cellVersion t cell) (.pending t) row.version.created =
        some c' ∧ c'.WF ∧
      (∀ r, c'.cell r = if r = raw then cell else c.cell r) ∧
      ∀ group vector, (c'.stampsOf group vector).Sublist (c.stampsOf group vector) := by
  have hkept := congrArg Cell.kept hcell
  cases hpushes : row.pushes t cell with
  | none =>
    -- The write pushed no version: its before-image is put back.
    have hsame : (c.cell raw).kept = cell.kept := by simpa [Cell.write, hpushes] using hkept
    refine ⟨c.set raw cell.value, ?_, h.set _ _, fun r => by simp only [cell_set, hsame],
      fun _ _ => .refl _⟩
    by_cases hcreated : row.version.created = some (.pending t)
    · have hundo := undo_eq_none (hsame.trans (hnil hcreated)) t
      simp [Cells.restore, Row.cellVersion, hundo, hcreated]
    · have hheld : cell.heldBy (.pending t) = true := by
        simpa [Row.pushes, hcreated] using hpushes
      simp [Cells.restore, Row.cellVersion, hcreated, hheld]
  | some stamp =>
    obtain ⟨⟨-, hheld⟩, rfl⟩ : (¬row.version.created = some (.pending t) ∧
        cell.heldBy (.pending t) = false) ∧ .pending t = stamp := by
      simpa [Row.pushes] using hpushes
    have hlast : (c.cell raw).kept = cell.kept ++ [(.pending t, cell.value)] := by
      simpa [Cell.write, hpushes] using hkept
    obtain ⟨c', hundo, hwf, hcells, hstamps⟩ := h.undo hlast
    refine ⟨c', ?_, hwf, hcells, hstamps⟩
    simp [Cells.restore, Row.cellVersion, hheld, hundo]

end Cells

namespace Rows

variable {rows : Rows Name Value} {raw r : Nat}

/-- What the columns hold of a row. -/
def cells (rows : Rows Name Value) (raw : Nat) : Name → Cell (Option Value) :=
  fun key => (rows.columns key).cell raw

/-- The chains of every column are in order. -/
def WF (rows : Rows Name Value) : Prop := ∀ key, (rows.columns key).WF

@[simp] theorem cells_setVersions (versions : Versions) :
    (rows.setVersions versions).cells = rows.cells := rfl

theorem WF.setVersions (h : rows.WF) (versions : Versions) : (rows.setVersions versions).WF := h

theorem clearRow_spec (h : rows.WF) (raw : Nat) : (rows.clearRow raw).WF ∧
      (∀ r, (rows.clearRow raw).cells r =
        if r = raw then fun _ => { value := none } else rows.cells r) ∧
      ∀ key group vector, (((rows.clearRow raw).columns key).stampsOf group vector).Sublist
        ((rows.columns key).stampsOf group vector) := by
  refine ⟨fun key => ((h key).clear raw none).1, fun r => ?_,
    fun key => ((h key).clear raw none).2.2⟩
  funext key
  have := ((h key).clear raw none).2.1 r
  by_cases hr : r = raw <;> simpa [cells, clearRow, hr] using this

variable [DecidableEq Name]

theorem WF.setColumn (h : rows.WF) (hcolumn : column.WF) : (rows.setColumn key column).WF := by
  intro k
  simp only [Rows.setColumn, update_apply]
  split
  · exact hcolumn
  · exact h k

/-- A column that differs from the one in place at one row. -/
theorem cells_setColumn
    (hcolumn : ∀ r, column.cell r = if r = raw then cell else (rows.columns key).cell r) :
    (rows.setColumn key column).cells r =
      if r = raw then update (rows.cells raw) key cell else rows.cells r := by
  funext k
  by_cases hk : k = key <;> by_cases hr : r = raw <;> simp [cells, setColumn, hcolumn, hk, hr]

/-- The values of a row just created, of which no chain keeps anything. -/
theorem setValues_spec (h : rows.WF) {values : Name → Option Value}
    (hraw : rows.cells raw = fun key => { value := values key })
    (properties : Properties Name Value) :
    (rows.setValues raw properties).WF ∧ (rows.setValues raw properties).versions = rows.versions ∧
      (∀ r, (rows.setValues raw properties).cells r =
        if r = raw then fun key => { value := putValues properties values key }
        else rows.cells r) ∧
      ∀ key, ((rows.setValues raw properties).columns key).updates =
        (rows.columns key).updates := by
  induction properties generalizing rows values with
  | nil =>
    refine ⟨h, rfl, fun r => ?_, fun _ => rfl⟩
    by_cases hr : r = raw <;> simp [setValues, putValues, hraw, hr]
  | cons property properties ih =>
    obtain ⟨key, value⟩ := property
    cases value with
    | none => exact ih h hraw
    | some value =>
      have hset : ∀ r, ((rows.columns key).set raw (some value)).cell r =
          if r = raw then { value := some value } else (rows.columns key).cell r := by
        intro r
        have hcell : (rows.columns key).cell raw = { value := values key } :=
          congrFun hraw key
        rw [Cells.cell_set, hcell]
      have hnext : (rows.setColumn key ((rows.columns key).set raw (some value))).cells raw =
          fun k => { value := update values key (some value) k } := by
        rw [cells_setColumn hset, if_pos rfl, hraw]
        funext k
        by_cases hk : k = key <;> simp [hk]
      obtain ⟨hwf, hversions, hcells, hupdates⟩ :=
        ih (h.setColumn ((h key).set raw (some value))) hnext
      refine ⟨hwf, hversions, fun r => (hcells r).trans ?_, fun k => (hupdates k).trans ?_⟩
      · by_cases hr : r = raw
        · simp [hr, putValues]
        · simp [if_neg hr, cells_setColumn hset]
      · by_cases hk : k = key <;> simp [Rows.setColumn, Cells.set, hk]

end Rows

/-! ### Rows of the tables -/

/-- What a row is of an entity: empty if it does not exist, and with ends if it is an edge's. -/
structure Row.Fits (row : Row Name Value) (entity : Entity) : Prop where
  empty : row.version.created = none → row = {}
  ends : row.version.created.isSome = true → row.ends.isSome = decide (entity.table = .edges)

/-- A column of the tables: the labels, or a key's in one of them. -/
inductive ColumnOf (Name : Type) where
  | labels
  | values (table : Table) (key : Name)

namespace Tables

variable {tables : Tables Name Value} {entity e : Entity}

/-- The row of a node or an edge. -/
def row (tables : Tables Name Value) : Entity → Row Name Value
  | .node id =>
      { version := tables.nodes.versions.get id, labels := tables.labels.cell id,
        values := tables.nodes.cells id }
  | .edge id =>
      { version := tables.edges.versions.get id, values := tables.edges.cells id,
        ends := if tables.edges.versions.has id then tables.ends id else none }

/-- The tables are in order: the chains of every column are, and every row fits its entity. -/
structure Sound (tables : Tables Name Value) : Prop where
  columns : ∀ table, (tables.rows table).WF
  labels : tables.labels.WF
  fits : ∀ entity, (tables.row entity).Fits entity

/-- The stamps of the nodes of a column's vector in a row group, oldest first. -/
def stampsOf (tables : Tables Name Value) : ColumnOf Name → Nat → Nat → List Stamp
  | .labels => tables.labels.stampsOf
  | .values table key => ((tables.rows table).columns key).stampsOf

/-- No commit the writer sees stands in a chain after one of its nodes. -/
def Searched (tables : Tables Name Value) (stamp : Stamp) (snapshot : Nat) : Prop :=
  ∀ column group vector, (tables.stampsOf column group vector).Pairwise fun a b =>
    a = stamp → b.committedBy snapshot = false

section

variable (tables) (entity)

@[simp] theorem version_row : (tables.row entity).version = tables.version entity := by
  cases entity <;> rfl

theorem has_eq : tables.has entity = (tables.version entity).created.isSome := rfl

theorem has_row : tables.has entity = (tables.row entity).version.created.isSome := by
  rw [version_row, has_eq]

@[simp] theorem values_row :
    (tables.row entity).values = (tables.rows entity.table).cells entity.raw := by
  cases entity <;> rfl

end

/-- `after` differs from `before` in the row of `entity` alone, which is `row` now. -/
def Puts (before : Tables Name Value) (entity : Entity) (row : Row Name Value)
    (after : Tables Name Value) : Prop :=
  ∀ e, after.row e = if e = entity then row else before.row e

/-- A change of a node's row. -/
theorem puts_node {id : Nat}
    {labels : Cell (Finset Name)} (hversions : ∀ r, after.nodes.versions.get r =
      if r = id then version else tables.nodes.versions.get r)
    (hlabels : ∀ r, after.labels.cell r = if r = id then labels else tables.labels.cell r)
    (hcells : ∀ r, after.nodes.cells r = if r = id then values else tables.nodes.cells r)
    (hedges : after.edges = tables.edges) (hends : after.ends = tables.ends) :
    tables.Puts (.node id) { version, labels, values } after := by
  intro e
  cases e with
  | edge raw => simp [row, hedges, hends]
  | node raw =>
    by_cases hraw : raw = id <;> simp [row, hversions, hlabels, hcells, hraw]

/-- A change of an edge's row that exists after it. -/
theorem puts_edge {id : Nat}
    {ends : Option (Ends Name)} (hversions : ∀ r, after.edges.versions.get r =
      if r = id then version else tables.edges.versions.get r)
    (hcells : ∀ r, after.edges.cells r = if r = id then values else tables.edges.cells r)
    (hends : ∀ r, r ≠ id → after.ends r = tables.ends r)
    (hid : (if version.created.isSome then after.ends id else none) = ends)
    (hnodes : after.nodes = tables.nodes) (hlabels : after.labels = tables.labels) :
    tables.Puts (.edge id) { version, values, ends } after := by
  intro e
  cases e with
  | node raw => simp [row, hnodes, hlabels]
  | edge raw =>
    by_cases hraw : raw = id
    · subst hraw
      have hend : (if after.edges.versions.has raw then after.ends raw else none) = ends := by
        simpa [Versions.has, hversions] using hid
      simp only [row, hversions, hcells, hend, if_true]
    have hversion : after.edges.versions.get raw = tables.edges.versions.get raw := by
      rw [hversions, if_neg hraw]
    have hcell : after.edges.cells raw = tables.edges.cells raw := by
      rw [hcells, if_neg hraw]
    have hhas : after.edges.versions.has raw = tables.edges.versions.has raw := by
      rw [Versions.has, Versions.has, hversion]
    have hne : edge raw ≠ .edge id := fun heq => hraw (edge.inj heq)
    simp only [row, hversion, hcell, hhas, hends raw hraw, if_neg hne]

/-! ### Creates and deletes -/

@[simp] theorem labels_setRows (table : Table) (rows : Rows Name Value) :
    (tables.setRows table rows).labels = tables.labels := by
  cases table <;> rfl

@[simp] theorem ends_setRows (table : Table) (rows : Rows Name Value) :
    (tables.setRows table rows).ends = tables.ends := by
  cases table <;> rfl

/-- Other versions change nothing of the columns. -/
theorem stampsOf_setVersions (table : Table) (versions : Versions) :
    (tables.setRows table ((tables.rows table).setVersions versions)).stampsOf =
      tables.stampsOf := by
  funext c
  cases table <;> cases c with
  | labels => rfl
  | values table key => cases table <;> rfl

theorem rows_setVersions (table table' : Table) (versions : Versions) :
    (tables.setRows table ((tables.rows table).setVersions versions)).rows table' =
      (tables.rows table').setVersions
        (if table' = table then versions else (tables.rows table').versions) := by
  cases table <;> cases table' <;> rfl

theorem version_setDeleted (hrow : tables.has entity = true) (stamp : Option Stamp) (e : Entity) :
    (tables.setDeleted entity stamp).version e =
      if e = entity then { tables.version entity with deleted := stamp } else tables.version e := by
  have hget := fun r => get_setDeleted (r := r) _ stamp hrow
  cases entity with
  | node id =>
    cases e with
    | edge raw => rfl
    | node raw =>
      simp only [node.injEq]
      exact hget raw
  | edge id =>
    cases e with
    | node raw => rfl
    | edge raw =>
      simp only [edge.injEq]
      exact hget raw

theorem wf_setVersions (h : ∀ table, (tables.rows table).WF) (table : Table) (versions : Versions) :
    ∀ table', ((tables.setRows table ((tables.rows table).setVersions versions)).rows table').WF := by
  intro table'
  rw [rows_setVersions]
  exact h table'

theorem rows_clear (entity : Entity) (table : Table) : (tables.clear entity).rows table =
      if entity.table = table then (tables.rows table).clearRow entity.raw
      else tables.rows table := by
  cases entity <;> cases table <;> rfl

/-- What a row that is gone held is taken out: nothing is left of its cells. -/
theorem clear_spec (hcolumns : ∀ table, (tables.rows table).WF) (hlabels : tables.labels.WF)
    (entity : Entity) :
    (∀ table, ((tables.clear entity).rows table).WF) ∧ (tables.clear entity).labels.WF ∧
      (∀ table, ((tables.clear entity).rows table).versions = (tables.rows table).versions) ∧
      (tables.clear entity).ends = tables.ends ∧
      (∀ table r, ((tables.clear entity).rows table).cells r =
        if entity.table = table ∧ r = entity.raw then fun _ => { value := none }
        else (tables.rows table).cells r) ∧
      (∀ r, (tables.clear entity).labels.cell r =
        if entity.table = .nodes ∧ r = entity.raw then { value := ∅ }
        else tables.labels.cell r) ∧
      ∀ c group vector, ((tables.clear entity).stampsOf c group vector).Sublist
        (tables.stampsOf c group vector) := by
  have hrow (table : Table) := Rows.clearRow_spec (hcolumns table) entity.raw
  refine ⟨fun table => ?_, ?_, fun table => ?_, by cases entity <;> rfl, fun table r => ?_,
    fun r => ?_, fun c group vector => ?_⟩
  · rw [rows_clear]
    split
    · exact (hrow table).1
    · exact hcolumns table
  · cases entity with
    | node id => exact (hlabels.clear id ∅).1
    | edge id => exact hlabels
  · rw [rows_clear]
    split <;> rfl
  · rw [rows_clear]
    split
    next htable => simp [htable, (hrow table).2.1 r]
    next htable => simp [htable]
  · cases entity with
    | node id =>
      simp only [table, raw, true_and]
      exact (hlabels.clear id ∅).2.1 r
    | edge id => simp [clear, table]
  · cases c with
    | labels =>
      cases entity with
      | node id => exact (hlabels.clear id ∅).2.2 group vector
      | edge id => exact .refl _
    | values table key =>
      simp only [stampsOf, rows_clear]
      split
      · exact (hrow table).2.2 key group vector
      · exact .refl _

section

variable [DecidableEq Name]

/-- A row just created in one of the tables. -/
theorem insert_spec {rows : Rows Name Value} {raw : Nat} (h : rows.WF)
    (hversion : rows.versions.get raw = {}) (hcells : rows.cells raw = fun _ => { value := none })
    (stamp : Stamp) (properties : Properties Name Value) :
    (rows.insert raw stamp properties).WF ∧
      (∀ r, (rows.insert raw stamp properties).versions.get r =
        if r = raw then { created := some stamp } else rows.versions.get r) ∧
      (∀ r, (rows.insert raw stamp properties).cells r =
        if r = raw then fun key => { value := valuesOf properties key } else rows.cells r) ∧
      ∀ key, ((rows.insert raw stamp properties).columns key).stampsOf =
        (rows.columns key).stampsOf := by
  obtain ⟨hwf, hversions, hcells', hupdates⟩ :=
    Rows.setValues_spec (h.setVersions (rows.versions.setCreated raw stamp)) hcells properties
  refine ⟨hwf, fun r => ?_, hcells', fun key => ?_⟩
  · rw [Rows.insert, hversions, Rows.setVersions, get_setCreated, hversion]
  · funext group vector
    rw [Cells.stampsOf, Rows.insert, hupdates key]
    rfl

/-! ### Value and label writes -/

/-- A column of a table put in place of one it differs from at the row of `entity`. -/
theorem setColumn_puts (hcells : ∀ r, column.cell r = if r = entity.raw then cell
      else ((tables.rows entity.table).columns key).cell r) :
    tables.Puts entity
      { tables.row entity with values := update (tables.row entity).values key cell }
      (tables.setRows entity.table ((tables.rows entity.table).setColumn key column)) := by
  cases entity with
  | node id =>
    exact puts_node (eq_ite_self tables.nodes.versions.get id)
      (eq_ite_self tables.labels.cell id) (fun r => Rows.cells_setColumn hcells) rfl rfl
  | edge id =>
    exact puts_edge (eq_ite_self tables.edges.versions.get id)
      (fun r => Rows.cells_setColumn hcells) (fun _ _ => rfl) rfl rfl rfl

theorem versions_setColumn (table table' : Table) (key : Name) (column : Cells (Option Value)) :
    ((tables.setRows table ((tables.rows table).setColumn key column)).rows table').versions =
      (tables.rows table').versions := by
  cases table <;> cases table' <;> rfl

theorem columns_setColumn (table table' : Table) (key key' : Name) (column : Cells (Option Value)) :
    ((tables.setRows table ((tables.rows table).setColumn key column)).rows table').columns key' =
      if table' = table ∧ key' = key then column else (tables.rows table').columns key' := by
  by_cases hkey : key' = key <;> cases table <;> cases table' <;>
    simp [setRows, rows, Rows.setColumn, hkey]

/-- What a change of one column of chains is of the tables' chains. -/
theorem stampsOf_setColumn {R : List Stamp → List Stamp → Prop} (hrefl : ∀ l, R l l)
    (h : ∀ group vector, R (((tables.rows entity.table).columns key).stampsOf group vector)
        (column.stampsOf group vector)) :
    ∀ c group vector, R (tables.stampsOf c group vector)
      ((tables.setRows entity.table
        ((tables.rows entity.table).setColumn key column)).stampsOf c group vector) := by
  intro c group vector
  cases c with
  | labels => cases entity <;> exact hrefl _
  | values table k =>
    by_cases hk : k = key
    · subst hk
      cases entity <;> cases table <;>
        first
        | exact hrefl _
        | simpa [stampsOf, rows, setRows, Rows.setColumn, table] using h group vector
    · cases entity <;> cases table <;>
        simp [stampsOf, rows, setRows, Rows.setColumn, table, hk, hrefl]

end

/-! ### What each operation makes of its row -/

variable (h : tables.Sound) {row : Row Name Value}
include h

/-- A change of one row to a row that fits its entity. -/
theorem Sound.puts {rest : Prop} (hputs : tables.Puts entity row after) (hfits : row.Fits entity)
    (hcolumns : ∀ table, (after.rows table).WF) (hlabels : after.labels.WF) (hrest : rest) :
    tables.Puts entity row after ∧ after.Sound ∧ rest := by
  refine ⟨hputs, ⟨hcolumns, hlabels, fun e => ?_⟩, hrest⟩
  rw [hputs e]
  split
  next heq => rwa [heq]
  next => exact h.fits e

theorem Sound.blank (hnew : tables.has entity = false) : tables.row entity = {} := by
  refine (h.fits entity).empty ?_
  simpa [has_eq] using hnew

/-- A row is taken out whole. -/
theorem remove_spec (entity : Entity) :
    tables.Puts entity {} (tables.remove entity) ∧ (tables.remove entity).Sound ∧
      ∀ c group vector, ((tables.remove entity).stampsOf c group vector).Sublist
        (tables.stampsOf c group vector) := by
  obtain ⟨hwf, hlwf, hversions, hends, hcells, hlcells, hstamps⟩ :=
    clear_spec (wf_setVersions h.columns entity.table
      ((tables.rows entity.table).versions.remove entity.raw))
      (by rw [labels_setRows]; exact h.labels) entity
  rw [stampsOf_setVersions] at hstamps
  refine h.puts ?_ ⟨fun _ => rfl, nofun⟩ hwf hlwf hstamps
  replace hcells := hcells entity.table
  cases entity with
  | node id =>
    simp only [table, raw, true_and] at hcells hlcells
    exact puts_node (fun r => get_remove _) hlcells hcells rfl rfl
  | edge id =>
    simp only [table, raw, true_and] at hcells
    exact puts_edge (fun r => get_remove _) hcells (fun r _ => rfl) rfl rfl rfl

variable [DecidableEq Name]

theorem insertNode_spec {id : Nat} (hnew : tables.has (.node id) = false)
    (stamp : Stamp) (labels : Finset Name) (properties : Properties Name Value) :
    tables.Puts (.node id)
        ((tables.row (.node id)).put stamp none (.create labels (valuesOf properties) none))
        (tables.insertNode id stamp labels properties) ∧
      (tables.insertNode id stamp labels properties).Sound ∧
      (tables.insertNode id stamp labels properties).stampsOf = tables.stampsOf := by
  have hblank : tables.row (.node id) = {} := h.blank hnew
  have hversion : tables.nodes.versions.get id = {} := congrArg Row.version hblank
  have hcells : tables.nodes.cells id = fun _ => { value := none } := congrArg Row.values hblank
  have hlabels : tables.labels.cell id = { value := ∅ } := congrArg Row.labels hblank
  obtain ⟨hwf, hversions, hcells', hstamps⟩ :=
    insert_spec (h.columns .nodes) hversion hcells stamp properties
  refine h.puts (puts_node hversions (fun r => ?_) hcells' rfl rfl) ⟨nofun, fun _ => rfl⟩
    (fun table => ?_) (h.labels.set _ _) ?_
  · rw [insertNode, Cells.cell_set, hlabels]
  · cases table with
    | nodes => exact hwf
    | edges => exact h.columns .edges
  funext column
  cases column with
  | labels => rfl
  | values table key =>
    cases table with
    | edges => rfl
    | nodes => exact hstamps key

theorem insertEdge_spec {id : Nat} (hnew : tables.has (.edge id) = false)
    (stamp : Stamp) (ends : Ends Name) (properties : Properties Name Value) :
    tables.Puts (.edge id)
        ((tables.row (.edge id)).put stamp none (.create ∅ (valuesOf properties) (some ends)))
        (tables.insertEdge id stamp ends properties) ∧
      (tables.insertEdge id stamp ends properties).Sound ∧
      (tables.insertEdge id stamp ends properties).stampsOf = tables.stampsOf := by
  have hblank : tables.row (.edge id) = {} := h.blank hnew
  have hversion : tables.edges.versions.get id = {} := congrArg Row.version hblank
  have hcells : tables.edges.cells id = fun _ => { value := none } := congrArg Row.values hblank
  obtain ⟨hwf, hversions, hcells', hstamps⟩ :=
    insert_spec (h.columns .edges) hversion hcells stamp properties
  refine h.puts (puts_edge hversions hcells' (fun r hr => ?_) ?_ rfl rfl) ⟨nofun, fun _ => rfl⟩
    (fun table => ?_) h.labels ?_
  · simp [insertEdge, hr]
  · simp [insertEdge]
  · cases table with
    | nodes => exact h.columns .nodes
    | edges => exact hwf
  funext column
  cases column with
  | labels => rfl
  | values table key =>
    cases table with
    | nodes => rfl
    | edges => exact hstamps key

theorem setColumn_wf (hcolumn : column.WF) (table : Table) :
    ((tables.setRows entity.table
      ((tables.rows entity.table).setColumn key column)).rows table).WF := by
  cases entity <;> cases table
  · exact (h.columns .nodes).setColumn hcolumn
  · exact h.columns .edges
  · exact h.columns .nodes
  · exact (h.columns .edges).setColumn hcolumn

section

variable (hrow : tables.has entity = true)
include hrow

/-- A row that exists, with its delete marked or unmarked. -/
theorem setDeleted_spec (stamp : Option Stamp) :
    tables.Puts entity
        { tables.row entity with version := { tables.version entity with deleted := stamp } }
        (tables.setDeleted entity stamp) ∧
      (tables.setDeleted entity stamp).Sound ∧
      (tables.setDeleted entity stamp).stampsOf = tables.stampsOf := by
  have hexists : (tables.version entity).created.isSome = true := hrow
  refine h.puts ?_ ⟨?_, ?_⟩ (wf_setVersions h.columns _ _) ?_ (stampsOf_setVersions ..)
  · cases entity with
    | node id =>
      exact puts_node (fun r => get_setDeleted _ _ hrow)
        (eq_ite_self tables.labels.cell id) (eq_ite_self tables.nodes.cells id) rfl rfl
    | edge id =>
      exact puts_edge (fun r => get_setDeleted _ _ hrow)
        (eq_ite_self tables.edges.cells id) (fun _ _ => rfl) rfl rfl rfl
  · intro hnone
    rw [hnone] at hexists
    cases hexists
  · intro _
    exact (h.fits entity).ends (by rwa [version_row])
  · rw [setDeleted, labels_setRows]
    exact h.labels

/-- A row that exists, after a change of its cells alone. -/
theorem Sound.puts_cells {rest : Prop} (hputs : tables.Puts entity row after)
    (hversion : row.version = tables.version entity) (hends : row.ends = (tables.row entity).ends)
    (hcolumns : ∀ table, (after.rows table).WF) (hlabels : after.labels.WF) (hrest : rest) :
    tables.Puts entity row after ∧ after.Sound ∧ rest := by
  have hexists : (tables.version entity).created.isSome = true := hrow
  refine h.puts hputs ⟨fun hnone => ?_, fun _ => ?_⟩ hcolumns hlabels hrest
  · rw [hversion] at hnone
    rw [hnone] at hexists
    cases hexists
  · rw [hends]
    exact (h.fits entity).ends (by rwa [version_row])

/-- A value put in place, what it replaces pushed under the writer's stamp or held by it
already. -/
theorem setValue_spec (key : Name) (value : Option Value) (keep : Option (Stamp × Nat)) :
    ∃ after version pushed, tables.setValue entity key value keep = (after, version) ∧
      (∀ stamp, tables.Puts entity ((tables.row entity).put stamp pushed (.value key value)) after) ∧
      after.Sound ∧ Keeps keep ((tables.row entity).values key) tables.Searched pushed version ∧
      ∀ c group vector,
        Appends keep (tables.stampsOf c group vector) (after.stampsOf c group vector) := by
  obtain ⟨column, version, pushed, hkeep, hwf, hcells, hkeeps, hstamps⟩ :=
    (h.columns entity.table key).keepFor entity.raw keep value
  have hputs : tables.Puts entity _ _ := setColumn_puts hcells
  refine ⟨_, version, pushed, by simp only [setValue, hkeep], fun _ => ?_,
    (h.puts_cells hrow hputs ?_ rfl (setColumn_wf h hwf) ?_ trivial).2.1,
    { hkeeps with exact := fun stamp snapshot hsome hsearched => ?_ },
    stampsOf_setColumn (fun _ => .inl rfl) hstamps⟩
  · rw [Row.put, values_row]
    rw [values_row] at hputs
    exact hputs
  · exact version_row tables entity
  · cases entity <;> exact h.labels
  · rw [values_row]
    exact hkeeps.exact stamp snapshot hsome (hsearched (.values entity.table key))

end

/-- A set of labels put in place, as a value is. -/
theorem setLabels_spec {id : Nat} (hrow : tables.has (.node id) = true)
    (labels : Finset Name) (keep : Option (Stamp × Nat)) :
    ∃ after version pushed, tables.setLabels id labels keep = (after, version) ∧
      tables.Puts (.node id)
        { tables.row (.node id) with labels := (tables.row (.node id)).labels.write pushed labels }
        after ∧
      after.Sound ∧ Keeps keep (tables.row (.node id)).labels tables.Searched pushed version ∧
      ∀ c group vector,
        Appends keep (tables.stampsOf c group vector) (after.stampsOf c group vector) := by
  obtain ⟨column, version, pushed, hkeep, hwf, hcells, hkeeps, hstamps⟩ :=
    h.labels.keepFor id keep labels
  refine ⟨{ tables with labels := column.set id labels }, version, pushed,
    by simp only [setLabels, hkeep], h.puts_cells hrow ?_ rfl rfl (fun table => ?_) hwf
      ⟨{ hkeeps with exact := fun _ _ hsome hsearched => ?_ }, fun c group vector => ?_⟩⟩
  · exact puts_node (eq_ite_self tables.nodes.versions.get id) hcells
      (eq_ite_self tables.nodes.cells id) rfl rfl
  · cases table with
    | nodes => exact h.columns .nodes
    | edges => exact h.columns .edges
  · exact hkeeps.exact _ _ hsome (hsearched .labels)
  · cases c with
    | labels => exact hstamps group vector
    | values table key => cases table <;> exact .inl rfl

/-- A transaction's value write is rolled back: the row is the one it wrote. -/
theorem restoreValue_spec {t : Nat} (hexists : row.version.created.isSome = true) {value : Option Value}
    (hrow : tables.row entity = row.putBy t (.value key value))
    (hnil : row.version.created = some (.pending t) → (row.values key).kept = []) :
    ∃ after, tables.restoreValue entity key (row.values key).value
          (row.cellVersion t (row.values key)) (.pending t) = some after ∧
      tables.Puts entity row after ∧ after.Sound ∧
      ∀ c group vector,
        (after.stampsOf c group vector).Sublist (tables.stampsOf c group vector) := by
  have hversion : tables.version entity = row.version := by rw [← version_row, hrow]; rfl
  have hcell : ((tables.rows entity.table).columns key).cell entity.raw =
      (row.values key).write (row.pushes t (row.values key)) value := by
    have := congrFun ((values_row tables entity).symm.trans (congrArg Row.values hrow)) key
    simpa [Row.putBy, Row.put, Row.pushedBy, Rows.cells] using this
  obtain ⟨column, hrestore, hwf, hcells, hstamps⟩ :=
    (h.columns entity.table key).restore hcell hnil
  have hputs : tables.Puts entity _ _ := setColumn_puts hcells
  have hback : ({ tables.row entity with
      values := update (tables.row entity).values key (row.values key) } : Row Name Value) =
        row := by
    rw [hrow]
    simp [Row.putBy, Row.put]
  rw [hback] at hputs
  refine ⟨_, ?_, h.puts_cells ?_ hputs hversion.symm ?_ (setColumn_wf h hwf) ?_ ?_⟩
  · simp [restoreValue, hversion, hrestore]
  · rw [has_eq, hversion]
    exact hexists
  · rw [hrow]
    rfl
  · cases entity <;> exact h.labels
  · intro c group vector
    exact stampsOf_setColumn (R := fun before after => after.Sublist before)
      (fun _ => .refl _) hstamps c group vector

/-- A transaction's label write is rolled back. -/
theorem restoreLabels_spec {t id : Nat} (hexists : row.version.created.isSome = true) {label : Name} {add : Bool}
    (hrow : tables.row (.node id) = row.putBy t (.label label add))
    (hnil : row.version.created = some (.pending t) → row.labels.kept = []) :
    ∃ after, tables.restoreLabels id row.labels.value (row.cellVersion t row.labels)
          (.pending t) = some after ∧
      tables.Puts (.node id) row after ∧ after.Sound ∧
      ∀ c group vector,
        (after.stampsOf c group vector).Sublist (tables.stampsOf c group vector) := by
  have hversion : tables.version (.node id) = row.version := by rw [← version_row, hrow]; rfl
  have hcell : tables.labels.cell id = row.labels.write (row.pushes t row.labels)
      (withLabel label add row.labels.value) := congrArg Row.labels hrow
  have hvalues : tables.nodes.cells id = row.values := congrArg Row.values hrow
  have hends : none = row.ends := congrArg Row.ends hrow
  obtain ⟨column, hrestore, hwf, hcells, hstamps⟩ := h.labels.restore hcell hnil
  have hputs : tables.Puts (.node id) row { tables with labels := column } := by
    have : tables.Puts (.node id) _ { tables with labels := column } :=
      puts_node (eq_ite_self tables.nodes.versions.get id) hcells
        (eq_ite_self tables.nodes.cells id) rfl rfl
    rw [hvalues, show tables.nodes.versions.get id = row.version from hversion] at this
    have heta : ({ version := row.version, labels := row.labels, values := row.values } :
        Row Name Value) = row := by
      cases row
      cases hends
      rfl
    rwa [heta] at this
  refine ⟨_, ?_, h.puts_cells ?_ hputs hversion.symm ?_ (fun table => ?_) hwf ?_⟩
  · simp [restoreLabels, hversion, hrestore]
  · rw [has_eq, hversion]
    exact hexists
  · exact hends.symm
  · cases table with
    | nodes => exact h.columns .nodes
    | edges => exact h.columns .edges
  · intro c group vector
    cases c with
    | labels => exact hstamps group vector
    | values table key => cases table <;> exact .refl _

end Tables

end Grafeo.RowGroup
