import Grafeo.RowGroup.Cells
import Grafeo.RowGroup.Change
import Grafeo.RowGroup.Versions

/-!
# Grafeo.RowGroup.Tables

**The node table and the edge table** (`NodeGroup`, `EdgeGroup` and `Columns` of
`graph/rowgroup`): of every row a version and a cell per property key, of a node row its
cell of labels, of an edge row its ends; and what each kind of write, commit, rollback
and collect does to them.

The store keeps its rows in row groups of 65,536. A row group that was never written is
one without rows here, and a column that was never written one without values.
-/

namespace Grafeo.RowGroup

/-- An edge's source, target and type. -/
structure Ends (Name : Type) where
  src : Nat
  dst : Nat
  edgeType : Name
deriving Repr, DecidableEq

/-- What the node table and the edge table both keep: the version of each row, and a column per
property key. -/
structure Rows (Name Value : Type) where
  versions : Versions := .empty
  /-- The keys with a column: those some write named. -/
  keys : List Name := []
  columns : Name → Cells (Option Value) := fun _ => { values := fun _ => none }

/-- The two tables. -/
structure Tables (Name Value : Type) where
  nodes : Rows Name Value := {}
  labels : Cells (Finset Name) := { values := fun _ => ∅ }
  edges : Rows Name Value := {}
  ends : Nat → Option (Ends Name) := fun _ => none

variable {Name Value : Type}

/-- A set of labels with `label` added or removed. -/
def withLabel [DecidableEq Name] (label : Name) (add : Bool) (labels : Finset Name) : Finset Name :=
  if add then insert label labels else labels.erase label

/-- What a writer that kept a value, or found it kept already, reports. -/
def PendingVersion.ofKept (kept : Bool) : PendingVersion := if kept then .created else .replaced

/-- Keeps what the column holds at `raw`, if `keep` names the stamp and the snapshot of who
writes it next. -/
def Cells.keepFor {T : Type} (column : Cells T) (raw : Nat) (keep : Option (Stamp × Nat)) :
    Cells T × PendingVersion :=
  match keep with
  | some (stamp, snapshot) =>
      let (column, kept) := column.keep raw stamp snapshot
      (column, .ofKept kept)
  | none => (column, .created)

/-- Rolls a write at `raw` of transaction stamp `pending` back: a replaced version gets its
before-image back and keeps its undo node; a created one gets what its node kept, and leaves
the node, or its before-image when the transaction `created` the row and kept nothing. `none`
when the transaction has no version of the row. -/
def Cells.restore {T : Type} (column : Cells T) (raw : Nat) (old : T) (version : PendingVersion)
    (pending : Stamp) (created : Option Stamp) : Option (Cells T) :=
  match version with
  | .replaced => some (column.set raw old)
  | .created =>
      match column.undo raw pending with
      | some column => some column
      | none => if created = some pending then some (column.set raw old) else none

namespace Rows

/-- The newest values of a row. -/
def image (rows : Rows Name Value) (raw : Nat) : Name → Option Value :=
  fun key => (rows.columns key).values raw

/-- The value of `key` at `raw` as `read` sees it. -/
def valueAt (rows : Rows Name Value) (raw : Nat) (key : Name) (read : Read) : Option Value :=
  (rows.columns key).getAt raw read

/-- Whether `read` sees the row. -/
def visible (rows : Rows Name Value) (raw : Nat) (read : Read) : Bool :=
  (rows.versions.get raw).visible read

/-- The rows with other versions. -/
def setVersions (rows : Rows Name Value) (versions : Versions) : Rows Name Value :=
  { rows with versions }

/-- Puts `column` in place of the column of `key`. -/
def setColumn [DecidableEq Name] (rows : Rows Name Value) (key : Name)
    (column : Cells (Option Value)) : Rows Name Value :=
  { rows with
    keys := rows.keys.insert key
    columns := Function.update rows.columns key column }

/-- Sets the values of a row just created; a null is no value. -/
def setValues [DecidableEq Name] (rows : Rows Name Value) (raw : Nat)
    (properties : Properties Name Value) : Rows Name Value :=
  properties.foldl
    (fun rows property =>
      match property.2 with
      | some value => rows.setColumn property.1 ((rows.columns property.1).set raw (some value))
      | none => rows)
    rows

/-- Creates a row. -/
def insert [DecidableEq Name] (rows : Rows Name Value) (raw : Nat) (stamp : Stamp)
    (properties : Properties Name Value) : Rows Name Value :=
  (rows.setVersions (rows.versions.setCreated raw stamp)).setValues raw properties

/-- Takes out the values of a row, with what any chain kept of them. -/
def clearRow (rows : Rows Name Value) (raw : Nat) : Rows Name Value :=
  { rows with columns := fun key => (rows.columns key).clear raw none }

/-- Drops what readers at `horizon` or later see past, in one vector of every column. -/
def collectColumns (rows : Rows Name Value) (vector horizon : Nat) : Rows Name Value :=
  { rows with columns := fun key => (rows.columns key).collectVector vector horizon }

/-- Drops what readers at `horizon` or later see past, in one row group of every column. -/
def collectGroupColumns (rows : Rows Name Value) (group horizon : Nat) : Rows Name Value :=
  { rows with columns := fun key => (rows.columns key).collect group horizon }

end Rows

namespace Tables

/-- The table's rows. -/
def rows (tables : Tables Name Value) : Table → Rows Name Value
  | .nodes => tables.nodes
  | .edges => tables.edges

/-- The tables with other rows in one. -/
def setRows (tables : Tables Name Value) (table : Table) (rows : Rows Name Value) :
    Tables Name Value :=
  match table with
  | .nodes => { tables with nodes := rows }
  | .edges => { tables with edges := rows }

/-- The version of a node or an edge. -/
def version (tables : Tables Name Value) (entity : Entity) : RowVersion :=
  (tables.rows entity.table).versions.get entity.raw

/-- Whether the tables have a row of the node or edge, deleted ones included. -/
def has (tables : Tables Name Value) (entity : Entity) : Bool :=
  (tables.rows entity.table).versions.has entity.raw

/-- The node's labels and values as they are now. -/
def nodeImage (tables : Tables Name Value) (id : Nat) : NodeImage Name Value where
  labels := tables.labels.values id
  properties := tables.nodes.image id

/-- The edge's ends, type and values as they are now. -/
def edgeImage (tables : Tables Name Value) (id : Nat) : Option (EdgeImage Name Value) :=
  (tables.ends id).map fun ends =>
    { src := ends.src, dst := ends.dst, edgeType := ends.edgeType,
      properties := tables.edges.image id }

/-! ### Writes -/

/-- Creates a node row. -/
def insertNode [DecidableEq Name] (tables : Tables Name Value) (id : Nat) (stamp : Stamp)
    (labels : Finset Name) (properties : Properties Name Value) : Tables Name Value :=
  { tables with
    nodes := tables.nodes.insert id stamp properties
    labels := tables.labels.set id labels }

/-- Creates an edge row. -/
def insertEdge [DecidableEq Name] (tables : Tables Name Value) (id : Nat) (stamp : Stamp)
    (ends : Ends Name) (properties : Properties Name Value) : Tables Name Value :=
  { tables with
    edges := tables.edges.insert id stamp properties
    ends := Function.update tables.ends id (some ends) }

/-- Marks a row deleted, or not. -/
def setDeleted (tables : Tables Name Value) (entity : Entity) (stamp : Option Stamp) :
    Tables Name Value :=
  let rows := tables.rows entity.table
  tables.setRows entity.table (rows.setVersions (rows.versions.setDeleted entity.raw stamp))

/-- Puts a value in place, keeping what it replaces when `keep` names who writes it. -/
def setValue [DecidableEq Name] (tables : Tables Name Value) (entity : Entity) (key : Name)
    (value : Option Value) (keep : Option (Stamp × Nat)) : Tables Name Value × PendingVersion :=
  let rows := tables.rows entity.table
  let (column, version) := (rows.columns key).keepFor entity.raw keep
  (tables.setRows entity.table (rows.setColumn key (column.set entity.raw value)), version)

/-- Puts a set of labels in place, keeping what it replaces when `keep` names who writes it. -/
def setLabels (tables : Tables Name Value) (id : Nat) (labels : Finset Name)
    (keep : Option (Stamp × Nat)) : Tables Name Value × PendingVersion :=
  let (column, version) := tables.labels.keepFor id keep
  ({ tables with labels := column.set id labels }, version)

/-! ### Commit and rollback -/

/-- Commits the creates of `pending` among the ids from `start` to before `stop`; returns the
ids. -/
def commitCreated (tables : Tables Name Value) (table : Table) (start stop : Nat)
    (pending : Stamp) (epoch : Nat) : Tables Name Value × List Nat :=
  let rows := tables.rows table
  let (versions, created) := rows.versions.commitCreated start stop pending (.epoch epoch)
  (tables.setRows table (rows.setVersions versions), created)

/-- Commits the value of `key` kept of a row by `pending`; returns the stamp it had. -/
def stampValue [DecidableEq Name] (tables : Tables Name Value) (entity : Entity) (key : Name)
    (pending : Stamp) (epoch : Nat) : Tables Name Value × Option Stamp :=
  let rows := tables.rows entity.table
  let (column, kept) := (rows.columns key).stamp entity.raw pending epoch
  (tables.setRows entity.table (rows.setColumn key column), kept)

/-- Commits the labels kept of a node by `pending`; returns the stamp they had. -/
def stampLabels (tables : Tables Name Value) (id : Nat) (pending : Stamp) (epoch : Nat) :
    Tables Name Value × Option Stamp :=
  let (labels, kept) := tables.labels.stamp id pending epoch
  ({ tables with labels }, kept)

/-- Rolls a value write back. -/
def restoreValue [DecidableEq Name] (tables : Tables Name Value) (entity : Entity) (key : Name)
    (old : Option Value) (version : PendingVersion) (pending : Stamp) :
    Option (Tables Name Value) :=
  let rows := tables.rows entity.table
  ((rows.columns key).restore entity.raw old version pending (tables.version entity).created).map
    fun column => tables.setRows entity.table (rows.setColumn key column)

/-- Rolls a label write back. -/
def restoreLabels (tables : Tables Name Value) (id : Nat) (old : Finset Name)
    (version : PendingVersion) (pending : Stamp) : Option (Tables Name Value) :=
  (tables.labels.restore id old version pending (tables.version (.node id)).created).map
    fun labels => { tables with labels }

/-- Takes out what a row that is gone held, and what the chains kept of it. -/
def clear (tables : Tables Name Value) (entity : Entity) : Tables Name Value :=
  match entity with
  | .node id =>
      { tables with nodes := tables.nodes.clearRow id, labels := tables.labels.clear id ∅ }
  | .edge id => { tables with edges := tables.edges.clearRow id }

/-- Takes a row out whole. -/
def remove (tables : Tables Name Value) (entity : Entity) : Tables Name Value :=
  let rows := tables.rows entity.table
  (tables.setRows entity.table (rows.setVersions (rows.versions.remove entity.raw))).clear entity

/-! ### Collect -/

/-- The row of a table's id. -/
def entityOf (table : Table) (raw : Nat) : Entity :=
  match table with
  | .nodes => .node raw
  | .edges => .edge raw

/-- Drops what readers at `horizon` or later see past, in one vector of a table. -/
def collectChains (tables : Tables Name Value) (table : Table) (vector horizon : Nat) :
    Tables Name Value :=
  match table with
  | .nodes =>
      { tables with
        nodes := tables.nodes.collectColumns vector horizon
        labels := tables.labels.collectVector vector horizon }
  | .edges => { tables with edges := tables.edges.collectColumns vector horizon }

/-- Collects one vector of a table: its version info collapses if it is settled, the rows that
are gone then are cleared, and its chains lose what is past; returns the ids of the rows that
are gone. -/
def collectVector (tables : Tables Name Value) (table : Table) (vector horizon : Nat) :
    Tables Name Value × List Nat :=
  let rows := tables.rows table
  let (versions, gone) := rows.versions.collapseVector vector horizon
  let tables := tables.setRows table (rows.setVersions versions)
  let tables := gone.foldl (fun tables raw => tables.clear (entityOf table raw)) tables
  (tables.collectChains table vector horizon, gone)

/-- Drops what readers at `horizon` or later see past, in one row group of a table. -/
def collectGroupChains (tables : Tables Name Value) (table : Table) (group horizon : Nat) :
    Tables Name Value :=
  match table with
  | .nodes =>
      { tables with
        nodes := tables.nodes.collectGroupColumns group horizon
        labels := tables.labels.collect group horizon }
  | .edges => { tables with edges := tables.edges.collectGroupColumns group horizon }

/-- Collects one row group of a table whole: the version info of its settled vectors collapses,
the rows that are gone then are cleared, and its chains lose what is past; returns the ids of
the rows that are gone. -/
def collectGroup (tables : Tables Name Value) (table : Table) (group horizon : Nat) :
    Tables Name Value × List Nat :=
  let rows := tables.rows table
  let (versions, gone) := rows.versions.collapse group horizon
  let tables := tables.setRows table (rows.setVersions versions)
  let tables := gone.foldl (fun tables raw => tables.clear (entityOf table raw)) tables
  (tables.collectGroupChains table group horizon, gone)

end Tables

namespace VersionVector

/-- Whether the vector holds version stamps. -/
def isStamped : VersionVector → Bool
  | flat _ => false
  | stamped _ => true

end VersionVector

namespace Tables

/-- Whether a vector of `table` holds versions: stamps, or a value or label chain. -/
def unsettled (tables : Tables Name Value) (table : Table) (vector : Nat) : Bool :=
  let rows := tables.rows table
  (rows.versions.vectors vector).isStamped ||
    rows.keys.any (fun key => (rows.columns key).hasChain vector) ||
    (decide (table = .nodes) && tables.labels.hasChain vector)

end Tables

end Grafeo.RowGroup
