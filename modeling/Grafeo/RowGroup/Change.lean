import Grafeo.RowGroup.Updates
import Mathlib.Data.Finset.Basic

/-!
# Grafeo.RowGroup.Change

**What a write is, and what is recorded of it** (`grafeo-common/src/change.rs`,
`graph/apply.rs`): the op with its after-image, what the write replaced, whether it
made the transaction's version of what it wrote or changed it, and the change set a
transaction keeps of its writes.

The change set is the one log of a transaction: its commit stamps the entries in
order, a rollback undoes them last to first, and the write-ahead log holds their ops.

Labels, property keys and edge types are names (the store gives each name an id once
and forgets none); a set of labels is a set, and `none` is the null among the values a
write names.
-/

namespace Grafeo.RowGroup

/-- The table of a graph. -/
inductive Table where
  | nodes
  | edges
deriving Repr, DecidableEq

/-- The node or edge a write is of. -/
inductive Entity where
  | node (id : Nat)
  | edge (id : Nat)
deriving Repr, DecidableEq

/-- The table the entity lives in. -/
def Entity.table : Entity → Table
  | .node _ => .nodes
  | .edge _ => .edges

/-- The row of the entity in its table. -/
def Entity.raw : Entity → Nat
  | .node id => id
  | .edge id => id

/-- How an error names an entity. -/
def describe : Entity → String
  | .node id => s!"node {id}"
  | .edge id => s!"edge {id}"

/-- The properties of a node or an edge, as a write names them (`none`: a null). -/
abbrev Properties (Name Value : Type) := List (Name × Option Value)

/-- What a write did, with its after-image. -/
inductive DataOp (Name Value : Type) where
  | createNode (id : Nat) (labels : List Name) (properties : Properties Name Value)
  | deleteNode (id : Nat)
  | createEdge (id src dst : Nat) (edgeType : Name) (properties : Properties Name Value)
  | deleteEdge (id : Nat)
  | setNodeProperty (id : Nat) (key : Name) (value : Option Value)
  | removeNodeProperty (id : Nat) (key : Name)
  | setEdgeProperty (id : Nat) (key : Name) (value : Option Value)
  | removeEdgeProperty (id : Nat) (key : Name)
  | addNodeLabel (id : Nat) (label : Name)
  | removeNodeLabel (id : Nat) (label : Name)
deriving Repr, DecidableEq

/-- A node as a delete found it. -/
structure NodeImage (Name Value : Type) where
  labels : Finset Name
  properties : Name → Option Value

/-- An edge as a delete found it. -/
structure EdgeImage (Name Value : Type) where
  src : Nat
  dst : Nat
  edgeType : Name
  properties : Name → Option Value

/-- What a write replaced. -/
inductive Before (Name Value : Type) where
  | absent
  | value (old : Option Value)
  | labels (labels : Finset Name)
  | node (image : NodeImage Name Value)
  | edge (image : EdgeImage Name Value)

/-- What a write did to the transaction's pending version of what it wrote: it created the
version, or changed one an earlier write of the transaction created. -/
inductive PendingVersion where
  | created
  | replaced
deriving Repr, DecidableEq

/-- The ids a bulk write reserved in one table, from `start` to before `stop`. -/
structure BulkRange where
  table : Table
  start : Nat
  stop : Nat
deriving Repr, DecidableEq

/-- One entry of a change set: a write with what it replaced, or the ids of a bulk write
with the rows kept of it. -/
inductive Change (Name Value : Type) where
  | data (op : DataOp Name Value) (before : Before Name Value) (version : PendingVersion)
  | bulk (range : BulkRange) (rows : List (DataOp Name Value))

/-- Who writes, and so what a write becomes: a transaction's pending version, or a commit
at once of replay (strict) or of an immediate call (lenient). -/
inductive Writer where
  | transaction (id snapshot : Nat)
  | replay (epoch : Nat)
  | immediate (epoch : Nat) (beforeImages : Bool)
deriving Repr, DecidableEq

/-- What `apply` did: nothing, a change to record, or a change committed without a
before-image. -/
inductive Applied (Name Value : Type) where
  | unchanged
  | changed (before : Before Name Value) (version : PendingVersion)
  | committed

/-- What an entry is of, as an error names it. -/
inductive Pending where
  | create
  | delete
  | label
  | value
deriving Repr, DecidableEq

/-- Why the store refuses a write or an entry. -/
inductive Refusal where
  | epochPast (epoch : Nat)
  | systemTransaction
  | transactionPast (id : Nat)
  | idsExhausted (table : Table) (count start : Nat)
  | largestId (entity : Entity)
  | notPending (entity : Entity) (what : Pending)
  | misfit (kind : Nat) (shape : String)
  | bulkRow (kind : Nat)
deriving Repr, DecidableEq

/-- Why `apply`, a commit or a rollback failed. -/
inductive ApplyError where
  | exists (entity : Entity)
  | missing (entity : Entity)
  | hasEdges (node : Nat)
  | refused (reason : Refusal)
deriving Repr, DecidableEq

def Table.text : Table → String
  | .nodes => "node"
  | .edges => "edge"

def Pending.text : Pending → String
  | .create => "create"
  | .delete => "delete"
  | .label => "label"
  | .value => "value"

/-- The text of a refusal. -/
def Refusal.text : Refusal → String
  | .epochPast epoch => s!"epoch {epoch} is past the epochs a row group can stamp"
  | .systemTransaction =>
      "a transaction's write needs the transaction's id, not the system one"
  | .transactionPast id => s!"transaction {id} is past the ids a row group can stamp"
  | .idsExhausted table count start =>
      s!"{count} {table.text} ids from {start}: the ids are exhausted"
  | .largestId entity => s!"{entity.table.text} id {entity.raw}: the largest id leaves no next one"
  | .notPending entity what => s!"{describe entity} has no pending {what.text} of this transaction"
  | .misfit kind shape =>
      s!"an entry of kind {kind} with a before-image that does not fit it: {shape}"
  | .bulkRow kind => s!"a bulk write's row is a create, not an op of kind {kind}"

/-- The text of an error. -/
def ApplyError.text : ApplyError → String
  | .exists entity => s!"{describe entity} already exists"
  | .missing entity => s!"{describe entity} does not exist, or the writer does not see it"
  | .hasEdges node => s!"node {node} still has edges: delete them first (DETACH DELETE)"
  | .refused reason => s!"the store refused the write: {reason.text}"

variable {Name Value : Type}

namespace DataOp

/-- The node or edge the op writes. -/
def entity : DataOp Name Value → Entity
  | createNode id _ _ | deleteNode id | setNodeProperty id _ _ | removeNodeProperty id _
  | addNodeLabel id _ | removeNodeLabel id _ => .node id
  | createEdge id _ _ _ _ | deleteEdge id | setEdgeProperty id _ _ | removeEdgeProperty id _ =>
      .edge id

/-- The kind of the op's log record. -/
def kind : DataOp Name Value → Nat
  | createNode .. => 16
  | deleteNode .. => 17
  | createEdge .. => 18
  | deleteEdge .. => 19
  | setNodeProperty .. => 20
  | removeNodeProperty .. => 21
  | setEdgeProperty .. => 22
  | removeEdgeProperty .. => 23
  | addNodeLabel .. => 24
  | removeNodeLabel .. => 25

/-- Whether the op creates what it names. -/
def isCreate : DataOp Name Value → Bool
  | createNode .. | createEdge .. => true
  | _ => false

/-- Whether the op changes a node's labels. -/
def isLabelWrite : DataOp Name Value → Bool
  | addNodeLabel .. | removeNodeLabel .. => true
  | _ => false

end DataOp

/-- The before-image's variant, for errors. -/
def Before.shape : Before Name Value → String
  | .absent => "Absent"
  | .value _ => "Value"
  | .labels _ => "Labels"
  | .node _ => "Node"
  | .edge _ => "Edge"

/-- Whether this is the before-image `op` has, of a write that changed something. -/
def Before.fits [DecidableEq Name] : Before Name Value → DataOp Name Value → Bool
  | .absent, .createNode .. | .absent, .createEdge .. => true
  | .value _, .setNodeProperty .. | .value _, .setEdgeProperty .. => true
  | .value old, .removeNodeProperty .. => old.isSome
  | .value old, .removeEdgeProperty .. => old.isSome
  | .labels old, .addNodeLabel _ label => decide (label ∉ old)
  | .labels old, .removeNodeLabel _ label => decide (label ∈ old)
  | .node _, .deleteNode .. => true
  | .edge _, .deleteEdge .. => true
  | _, _ => false

namespace Writer

/-- Whether `apply` builds the before-image. -/
def buildsImages : Writer → Bool
  | transaction .. => true
  | immediate _ beforeImages => beforeImages
  | replay _ => false

/-- What `apply` returns for a write that would change nothing: nothing to record for a
transaction, an error for replay. -/
def noOp (writer : Writer) (error : ApplyError) : Except ApplyError (Applied Name Value) :=
  match writer with
  | transaction .. | immediate .. => .ok .unchanged
  | replay _ => .error error

/-- What `apply` returns for an op whose entity the writer does not see. -/
def unseen (writer : Writer) (entity : Entity) : Except ApplyError (Applied Name Value) :=
  writer.noOp (.missing entity)

end Writer

/-! ### Change sets -/

namespace BulkRange

/-- Whether an entity is one of the range's. -/
def contains (range : BulkRange) (entity : Entity) : Bool :=
  decide (entity.table = range.table) && decide (range.start ≤ entity.raw) &&
    decide (entity.raw < range.stop)

theorem contains_iff {range : BulkRange} {entity : Entity} : range.contains entity = true ↔
      entity.table = range.table ∧ range.start ≤ entity.raw ∧ entity.raw < range.stop := by
  simp [contains, and_assoc]

/-- Whether `row` is a create in this range. -/
def holds (range : BulkRange) (row : DataOp Name Value) : Bool :=
  row.isCreate && range.contains row.entity

end BulkRange

namespace Change

/-- Whether the entry is of `entity`: its write, or a bulk write's reserved id. -/
def names (entity : Entity) : Change Name Value → Bool
  | data op _ _ => decide (op.entity = entity)
  | bulk range _ => range.contains entity

/-- The ops of the entry, for the log: its own, or the rows kept of a bulk write. -/
def ops : Change Name Value → List (DataOp Name Value)
  | data op _ _ => [op]
  | bulk _ rows => rows

end Change

/-- The changes of one transaction, in the order they were applied. -/
structure ChangeSet (Name Value : Type) where
  entries : List (Change Name Value) := []

namespace ChangeSet

/-- Records a write. -/
def push (changes : ChangeSet Name Value) (op : DataOp Name Value) (before : Before Name Value)
    (version : PendingVersion) : ChangeSet Name Value :=
  ⟨changes.entries ++ [.data op before version]⟩

/-- Records the ids a bulk write reserved. An empty range adds no entry. -/
def pushBulk (changes : ChangeSet Name Value) (range : BulkRange) : ChangeSet Name Value :=
  if range.start < range.stop then ⟨changes.entries ++ [.bulk range []]⟩ else changes

/-- Keeps `rows`, which a bulk write applied in the range it recorded last, with that range.
`none` when the last entry is no range, or a row is no create in it. -/
def pushBulkRows (changes : ChangeSet Name Value) (rows : List (DataOp Name Value)) :
    Option (ChangeSet Name Value) :=
  if rows.isEmpty then some changes
  else
    match changes.entries.getLast? with
    | some (.bulk range kept) =>
        if rows.all range.holds then
          some ⟨changes.entries.dropLast ++ [.bulk range (kept ++ rows)]⟩
        else none
    | _ => none

/-- The position after the last entry, for a savepoint. -/
def mark (changes : ChangeSet Name Value) : Nat := changes.entries.length

/-- Removes the entries recorded after `mark`; returns them too. -/
def splitOff (changes : ChangeSet Name Value) (mark : Nat) :
    ChangeSet Name Value × List (Change Name Value) :=
  (⟨changes.entries.take mark⟩, changes.entries.drop mark)

/-- The ops of the set's writes, in the order they were applied: what the log holds. -/
def logRecords (changes : ChangeSet Name Value) : List (DataOp Name Value) :=
  changes.entries.flatMap Change.ops

/-- Whether an entry is of `entity`. -/
def names (changes : ChangeSet Name Value) (entity : Entity) : Bool :=
  changes.entries.any (Change.names entity)

end ChangeSet

end Grafeo.RowGroup
