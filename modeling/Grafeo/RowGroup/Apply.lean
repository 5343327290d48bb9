import Grafeo.RowGroup.Store

/-!
# Grafeo.RowGroup.Apply

**The writes of the store** (`graph/rowgroup/apply.rs`): `apply` of one op for a
transaction, for replay or for an immediate call.

A transaction's create writes a row stamped with the transaction; its delete marks the
row the same way. A value or label write puts the newest state in place and first keeps
what it replaces in the transaction's undo node of the vector, unless the transaction
created the row itself or a node of the transaction holds it already. Replay and an
immediate write stamp as they apply, through the same functions: replay keeps nothing
unless the store keeps history, an immediate write keeps what it replaces under its
epoch. Every write that stamps a vector or may keep something lists its vector for the
collect. A property set to null removes the property.

**The commit and the rollbacks of the store** (`graph/rowgroup/apply.rs`).

A commit overwrites the transaction's marks with the commit epoch, entry by entry in the
order they were recorded, and moves the counts by what each entry says. A rollback undoes
the entries last to first: it drops the version an entry created and writes the
before-image back into one it replaced.

**Garbage collection over the vectors with versions** (`graph/rowgroup/collect.rs`).

Every vector of either table that gains a version stamp or an undo node is listed, and a
collect visits those vectors alone. It collapses the version info of each whose creates
and deletes are all committed at or before the horizon, takes the rows deleted by then
out with their values, labels, adjacency and index entries, and drops the undo nodes of
value and label writes committed by then. A vector that still holds versions stays
listed.
-/

namespace Grafeo.RowGroup

variable {Name Value : Type} [DecidableEq Name] [DecidableEq Value]

/-- The transaction id no transaction has. -/
def systemId : Nat := 1

/-- The stamp of transaction `id`'s pending versions. -/
def pendingStamp (id : Nat) : Except ApplyError Stamp :=
  if id = systemId then .error (.refused .systemTransaction)
  else if 2 ^ 63 - 1 ≤ id then .error (.refused (.transactionPast id))
  else .ok (.pending id)

/-- How a write is applied. -/
structure Mode where
  writer : Writer
  /-- What the writer sees. -/
  read : Read
  /-- The stamp of what it writes. -/
  stamp : Stamp
  /-- The epoch of a write stamped at once (replay, an immediate write). -/
  epoch : Option Nat
  /-- Whether it builds before-images. -/
  images : Bool
  /-- Whether the store keeps history: replay then keeps what it replaces. -/
  history : Bool

namespace Mode

/-- How `writer` writes, in a store that keeps history or not. -/
def of (writer : Writer) (history : Bool) : Except ApplyError Mode :=
  match writer with
  | .transaction id snapshot => do
      let stamp ← pendingStamp id
      return { writer, read := .transaction id snapshot, stamp, epoch := none, images := true,
               history }
  | .replay epoch | .immediate epoch _ =>
      if 2 ^ 63 ≤ epoch then .error (.refused (.epochPast epoch))
      else
        .ok { writer, read := .atEpoch epoch, stamp := .epoch epoch, epoch := some epoch,
              images := writer.buildsImages, history }

def stamped (mode : Mode) : Bool := mode.epoch.isSome

/-- Whether a value or label write of a row created by `created` keeps what it replaces, for the
readers that must not see it, and under which stamp and snapshot. -/
def keeps (mode : Mode) (created : Option Stamp) : Option (Stamp × Nat) :=
  if created = some mode.stamp then none
  else
    match mode.writer with
    | .transaction _ snapshot => some (mode.stamp, snapshot)
    | .immediate epoch _ => some (mode.stamp, epoch)
    | .replay epoch => if mode.history then some (mode.stamp, epoch) else none

/-- The row whose vector `op` makes versions in: a create's or a delete's, a value or label
write's but in replay without history. -/
def lists (mode : Mode) (op : DataOp Name Value) : Option (Table × Nat) :=
  let replay := match mode.writer with
    | .replay _ => !mode.history
    | _ => false
  match op with
  | .createNode id _ _ | .deleteNode id => some (.nodes, id)
  | .createEdge id _ _ _ _ | .deleteEdge id => some (.edges, id)
  | .setNodeProperty id _ _ | .removeNodeProperty id _ | .addNodeLabel id _
  | .removeNodeLabel id _ => if replay then none else some (.nodes, id)
  | .setEdgeProperty id _ _ | .removeEdgeProperty id _ =>
      if replay then none else some (.edges, id)

/-- What `apply` returns for a write that changed something. -/
def applied (mode : Mode) (before : Before Name Value) (version : PendingVersion) :
    Applied Name Value :=
  if mode.images then .changed before version else .committed

/-- The version a delete reports: `replaced` when the transaction deletes what it created
itself. -/
def versionOf (mode : Mode) (created : Option Stamp) : PendingVersion :=
  if !mode.stamped ∧ created = some mode.stamp then .replaced else .created

end Mode

namespace Store

/-- Adds an edge to one direction of a node's adjacency. -/
def link (s : Store Name Value) (node : Nat) (outgoing : Bool) (adjacent : Adjacent Name) :
    Store Name Value :=
  if outgoing then
    { s with outgoing := Function.update s.outgoing node (s.outgoing node ++ [adjacent]) }
  else { s with incoming := Function.update s.incoming node (s.incoming node ++ [adjacent]) }

/-- Takes an edge out of one direction of a node's adjacency. -/
def unlink (s : Store Name Value) (node : Nat) (outgoing : Bool) (edge : Nat) : Store Name Value :=
  let without := List.filter fun adjacent : Adjacent Name => decide (adjacent.edge ≠ edge)
  if outgoing then
    { s with outgoing := Function.update s.outgoing node (without (s.outgoing node)) }
  else { s with incoming := Function.update s.incoming node (without (s.incoming node)) }

/-- Adds an edge to the adjacency the store keeps for its ends. -/
def linkEdge (s : Store Name Value) (edge : Nat) (ends : Ends Name) : Store Name Value :=
  (s.keptEnds ends.src ends.dst).foldl
    (fun s kept => s.link kept.1 kept.2.2 { edgeType := ends.edgeType, other := kept.2.1, edge })
    s

/-- Takes an edge out of the adjacency the store keeps for its ends. -/
def unlinkEdge (s : Store Name Value) (edge : Nat) : Store Name Value :=
  match s.ends edge with
  | some ends =>
      (s.keptEnds ends.src ends.dst).foldl (fun s kept => s.unlink kept.1 kept.2.2 edge) s
  | none => s

/-- Moves the counts of the nodes by one. -/
def countNode (s : Store Name Value) (labels : Finset Name) (delta : Int) : Store Name Value :=
  { s with counts := s.counts.node labels delta }

/-- Moves the counts of the edges by one edge's type. -/
def countEdge (s : Store Name Value) (edge : Nat) (delta : Int) : Store Name Value :=
  match s.ends edge with
  | some ends => { s with counts := s.counts.edge ends.edgeType delta }
  | none => s

/-- Moves the count of a label. -/
def countLabel (s : Store Name Value) (label : Name) (delta : Int) : Store Name Value :=
  { s with counts := s.counts.label label delta }

/-! ### The ops -/

def createNode (s : Store Name Value) (id : Nat) (labels : List Name)
    (properties : Properties Name Value) (mode : Mode) :
    Except ApplyError (Store Name Value × Applied Name Value) :=
  if s.has (.node id) then .error (.exists (.node id))
  else
    let tables := s.insertNode id mode.stamp labels.toFinset properties
    let s := { s with toTables := tables }
    let s := if mode.stamped then s.countNode labels.toFinset 1 else s
    .ok (s.indexCreated id, mode.applied .absent .created)

def createEdge (s : Store Name Value) (id src dst : Nat) (edgeType : Name)
    (properties : Properties Name Value) (mode : Mode) :
    Except ApplyError (Store Name Value × Applied Name Value) :=
  if s.has (.edge id) then .error (.exists (.edge id))
  else if !s.nodeVisible src mode.read then .error (.missing (.node src))
  else if !s.nodeVisible dst mode.read then .error (.missing (.node dst))
  else
    let ends : Ends Name := { src, dst, edgeType }
    let tables := s.insertEdge id mode.stamp ends properties
    let s := { s with toTables := tables }.linkEdge id ends
    let s := if mode.stamped then s.countEdge id 1 else s
    .ok (s, mode.applied .absent .created)

def deleteNode (s : Store Name Value) (id : Nat) (mode : Mode) :
    Except ApplyError (Store Name Value × Applied Name Value) :=
  let version := s.version (.node id)
  if !version.visible mode.read then
    (mode.writer.unseen (.node id)).map fun applied => (s, applied)
  -- Another transaction deletes it: the claims never let two.
  else if version.deleted.isSome then .error (.missing (.node id))
  else if s.seesAnEdgeOf id mode.read then .error (.hasEdges id)
  else
    let image := s.nodeImage id
    let s := { s with toTables := s.setDeleted (.node id) (some mode.stamp) }
    let s := if mode.stamped then s.countNode image.labels (-1) else s
    .ok (s, mode.applied (.node image) (mode.versionOf version.created))

def deleteEdge (s : Store Name Value) (id : Nat) (mode : Mode) :
    Except ApplyError (Store Name Value × Applied Name Value) :=
  let version := s.version (.edge id)
  if !version.visible mode.read then
    (mode.writer.unseen (.edge id)).map fun applied => (s, applied)
  else if version.deleted.isSome then .error (.missing (.edge id))
  else
    match s.edgeImage id with
    | none => .error (.missing (.edge id))
    | some image =>
        let s := { s with toTables := s.setDeleted (.edge id) (some mode.stamp) }
        let s := if mode.stamped then s.countEdge id (-1) else s
        .ok (s, mode.applied (.edge image) (mode.versionOf version.created))

/-- What a write that removes a value the entity lacks returns. In replay a property set always
applies. -/
def absentValue (entity : Entity) (isSet : Bool) (writer : Writer) :
    Except ApplyError (Applied Name Value) :=
  match writer with
  | .replay _ => if isSet then .ok .committed else writer.noOp (.missing entity)
  | _ => writer.noOp (.missing entity)

/-- Brings a node's indexes in line with a write of a value that replaced `old`; an edge has
none. -/
def indexWritten (s : Store Name Value) (entity : Entity) (key : Name) (old : Option Value) :
    Store Name Value :=
  match entity with
  | .node id => s.indexValue id key old
  | .edge _ => s

/-- Sets or removes a value of a node or an edge (`isSet`: the op is a set). A set to null
removes the value; one of a value the entity lacks changes nothing. -/
def writeValue (s : Store Name Value) (entity : Entity) (key : Name) (value : Option Value)
    (isSet : Bool) (mode : Mode) : Except ApplyError (Store Name Value × Applied Name Value) :=
  let version := s.version entity
  if !version.visible mode.read then
    (mode.writer.unseen entity).map fun applied => (s, applied)
  else
    let old := ((s.rows entity.table).columns key).values entity.raw
    if value.isNone && old.isNone then
      (absentValue entity isSet mode.writer).map fun applied => (s, applied)
    else
      let (tables, written) := s.setValue entity key value (mode.keeps version.created)
      let s := { s with toTables := tables }
      .ok (s.indexWritten entity key old, mode.applied (.value old) written)

/-- Adds or removes a node's label. -/
def writeLabel (s : Store Name Value) (id : Nat) (label : Name) (add : Bool) (mode : Mode) :
    Except ApplyError (Store Name Value × Applied Name Value) :=
  let version := s.version (.node id)
  if !version.visible mode.read then
    (mode.writer.unseen (.node id)).map fun applied => (s, applied)
  else
    let before := s.labels.values id
    if decide (label ∈ before) = add then
      (mode.writer.noOp (if add then .exists (.node id) else .missing (.node id))).map
        fun applied => (s, applied)
    else
      let (tables, written) :=
        s.setLabels id (withLabel label add before) (mode.keeps version.created)
      let s := { s with toTables := tables }
      let s := if mode.stamped then s.countLabel label (if add then 1 else -1) else s
      .ok (s.indexLabels id (some label), mode.applied (.labels before) written)

/-- Applies `op` as `mode` writes. -/
def applyOp (s : Store Name Value) (op : DataOp Name Value) (mode : Mode) :
    Except ApplyError (Store Name Value × Applied Name Value) :=
  match op with
  | .createNode id labels properties => s.createNode id labels properties mode
  | .createEdge id src dst edgeType properties => s.createEdge id src dst edgeType properties mode
  | .deleteNode id => s.deleteNode id mode
  | .deleteEdge id => s.deleteEdge id mode
  | .setNodeProperty id key value => s.writeValue (.node id) key value true mode
  | .removeNodeProperty id key => s.writeValue (.node id) key none false mode
  | .setEdgeProperty id key value => s.writeValue (.edge id) key value true mode
  | .removeEdgeProperty id key => s.writeValue (.edge id) key none false mode
  | .addNodeLabel id label => s.writeLabel id label true mode
  | .removeNodeLabel id label => s.writeLabel id label false mode

/-! ### Apply -/

/-- Whether the row group of row `raw` of `table` was made: it has a row, or one of its vectors
is listed still. -/
def hasGroup (s : Store Name Value) (table : Table) (raw : Nat) : Bool :=
  (s.rows table).versions.has raw || s.listed.any (fun listed =>
      decide (listed.1 = table) && decide (listed.2 / vectors = groupOf raw)) ||
    (List.range' (groupOf raw * rowsPerGroup) rowsPerGroup).any (s.rows table).versions.has

/-- Lists the vector of row `raw` of `table`, if its row group exists. -/
def list (s : Store Name Value) (table : Table) (raw : Nat) : Store Name Value :=
  if (table, vectorOf raw) ∈ s.listed ∨ !s.hasGroup table raw then s
  else { s with listed := s.listed ++ [(table, vectorOf raw)] }

/-- Lists the vector `op` makes versions in. -/
def listOp (s : Store Name Value) (mode : Mode) (op : DataOp Name Value) : Store Name Value :=
  match mode.lists op with
  | some (table, raw) => s.list table raw
  | none => s

/-- The store's epoch is at least `epoch`. -/
def syncEpoch (s : Store Name Value) (epoch : Nat) : Store Name Value :=
  { s with epoch := max s.epoch epoch }

/-- The next ids are past the one `op` creates. -/
def passId (s : Store Name Value) (op : DataOp Name Value) : Store Name Value :=
  match op with
  | .createNode id _ _ => { s with nextNodeId := max s.nextNodeId (id + 1) }
  | .createEdge id _ _ _ _ => { s with nextEdgeId := max s.nextEdgeId (id + 1) }
  | _ => s

/-- Applies `op` for `writer`. An op that failed leaves the store as it was, but for the vector
it lists. -/
def apply (s : Store Name Value) (op : DataOp Name Value) (writer : Writer) :
    Store Name Value × Except ApplyError (Applied Name Value) :=
  match Mode.of writer s.history with
  | .error error => (s, .error error)
  | .ok mode =>
      -- The next id is one past the largest: the last id has none.
      if op.isCreate ∧ op.entity.raw = 2 ^ 64 - 1 then
        (s, .error (.refused (.largestId op.entity)))
      else
        match s.applyOp op mode with
        | .error error => (s.listOp mode op, .error error)
        | .ok (s, applied) =>
            let s := match applied with
              | .unchanged => s
              | _ => s.listOp mode op
            let s := match mode.epoch with
              | some epoch => s.syncEpoch epoch
              | none => s
            (s.passId op, .ok applied)

/-- Reserves `count` ids of a table, all below the largest id. -/
def reserve (s : Store Name Value) (table : Table) (count : Nat) :
    Except ApplyError (Store Name Value × BulkRange) :=
  let start := match table with
    | .nodes => s.nextNodeId
    | .edges => s.nextEdgeId
  if start + count < 2 ^ 64 - 1 then
    let s := match table with
      | .nodes => { s with nextNodeId := start + count }
      | .edges => { s with nextEdgeId := start + count }
    .ok (s, { table, start, stop := start + count })
  else .error (.refused (.idsExhausted table count start))

end Store

/-- The error of an entry the store has no pending version for. -/
def notPending (entity : Entity) (what : Pending) : ApplyError :=
  .refused (.notPending entity what)

/-- The error of an entry whose before-image does not fit its op. -/
def misfit (op : DataOp Name Value) (before : Before Name Value) : ApplyError :=
  .refused (.misfit op.kind before.shape)

/-- Checks what the stamping of a value or label write of transaction stamp `pending` found: the
newest undo node of the row is the transaction's (or was stamped at `epoch` by an earlier entry
of the commit), or the transaction created the row and kept nothing. -/
def checkKept (entity : Entity) (kept created : Option Stamp) (pending : Stamp) (epoch : Nat)
    (what : Pending) : Except ApplyError Unit :=
  if kept = some pending ∨ kept = some (.epoch epoch) ∨ created = some pending ∨
      created = some (.epoch epoch) then .ok ()
  else .error (notPending entity what)

namespace Store

/-! ### Commit -/

/-- Commits the kept value of `key` of a node or an edge that transaction stamp `pending` wrote:
its undo node gets `epoch`. -/
def stampValueOf (s : Store Name Value) (entity : Entity) (key : Name) (pending : Stamp)
    (epoch : Nat) : Store Name Value × Except ApplyError Unit :=
  if s.has entity then
    let (tables, kept) := s.stampValue entity key pending epoch
    ({ s with toTables := tables },
      checkKept entity kept (s.version entity).created pending epoch .value)
  else (s, .error (notPending entity .value))

/-- Commits a label write. The stamped node stays stamped when the check of it fails. -/
def stampLabelOf (s : Store Name Value) (id : Nat) (label : Name) (delta : Int) (pending : Stamp)
    (epoch : Nat) : Store Name Value × Except ApplyError Unit :=
  if s.has (.node id) then
    let (tables, kept) := s.stampLabels id pending epoch
    let stamped := { s with toTables := tables }
    match checkKept (.node id) kept (s.version (.node id)).created pending epoch .label with
    | .ok () => (stamped.countLabel label delta, .ok ())
    | .error error => (stamped, .error error)
  else (s, .error (notPending (.node id) .label))

/-- Commits one entry of transaction stamp `pending` at `epoch`. -/
def stampOp (s : Store Name Value) (op : DataOp Name Value) (before : Before Name Value)
    (pending : Stamp) (epoch : Nat) : Store Name Value × Except ApplyError Unit :=
  match op with
  | .createNode id labels _ =>
      let (tables, created) := s.commitCreated .nodes id (id + 1) pending epoch
      if created.isEmpty then (s, .error (notPending (.node id) .create))
      else ({ s with toTables := tables }.countNode labels.toFinset 1, .ok ())
  | .deleteNode id =>
      match before with
      | .node image =>
          if (s.version (.node id)).deleted = some pending then
            let tables := s.setDeleted (.node id) (some (.epoch epoch))
            ({ s with toTables := tables }.countNode image.labels (-1), .ok ())
          else (s, .error (notPending (.node id) .delete))
      | _ => (s, .error (misfit op before))
  | .createEdge id _ _ _ _ =>
      let (tables, created) := s.commitCreated .edges id (id + 1) pending epoch
      if created.isEmpty then (s, .error (notPending (.edge id) .create))
      else ({ s with toTables := tables }.countEdge id 1, .ok ())
  | .deleteEdge id =>
      if (s.version (.edge id)).deleted = some pending then
        let tables := s.setDeleted (.edge id) (some (.epoch epoch))
        ({ s with toTables := tables }.countEdge id (-1), .ok ())
      else (s, .error (notPending (.edge id) .delete))
  | .addNodeLabel id label => s.stampLabelOf id label 1 pending epoch
  | .removeNodeLabel id label => s.stampLabelOf id label (-1) pending epoch
  | .setNodeProperty id key _ | .removeNodeProperty id key =>
      s.stampValueOf (.node id) key pending epoch
  | .setEdgeProperty id key _ | .removeEdgeProperty id key =>
      s.stampValueOf (.edge id) key pending epoch

/-- Commits the rows transaction stamp `pending` created in a bulk range: each is counted with
the labels or the type it has now. -/
def stampBulk (s : Store Name Value) (range : BulkRange) (pending : Stamp) (epoch : Nat) :
    Store Name Value :=
  let (tables, created) := s.commitCreated range.table range.start range.stop pending epoch
  let s := { s with toTables := tables }
  match range.table with
  | .nodes => created.foldl (fun s id => s.countNode (s.labels.values id) 1) s
  | .edges => created.foldl (fun s id => s.countEdge id 1) s

/-- Commits one entry. -/
def stampChange (s : Store Name Value) (change : Change Name Value) (pending : Stamp)
    (epoch : Nat) : Store Name Value × Except ApplyError Unit :=
  match change with
  | .data op before _ => s.stampOp op before pending epoch
  | .bulk range _ => (s.stampBulk range pending epoch, .ok ())

/-- Commits the entries in order, up to the first that fails. -/
def stampAll (s : Store Name Value) (pending : Stamp) (epoch : Nat) :
    List (Change Name Value) → Store Name Value × Except ApplyError Unit
  | [] => (s, .ok ())
  | change :: changes =>
      match s.stampChange change pending epoch with
      | (s, .ok ()) => s.stampAll pending epoch changes
      | (s, .error error) => (s, .error error)

/-- Stamps the pending versions of transaction `id` that the entries name with `epoch`. -/
def commit (s : Store Name Value) (id : Nat) (entries : List (Change Name Value)) (epoch : Nat) :
    Store Name Value × Except ApplyError Unit :=
  match pendingStamp id with
  | .error error => (s, .error error)
  | .ok pending =>
      match s.stampAll pending epoch entries with
      | (s, .ok ()) => (s.syncEpoch epoch, .ok ())
      | (s, .error error) => (s, .error error)

/-! ### Rollback -/

/-- Takes the adjacency of a node out whole. -/
def unlinkNode (s : Store Name Value) (id : Nat) : Store Name Value :=
  { s with
    outgoing := Function.update s.outgoing id []
    incoming := Function.update s.incoming id [] }

/-- Takes a row out whole: a node's with its adjacency, and first out of every index; an edge's
with its adjacency entries. -/
def removeRow (s : Store Name Value) (entity : Entity) : Store Name Value :=
  match entity with
  | .node id =>
      let s := s.unindex id
      { s with toTables := s.remove (.node id) }.unlinkNode id
  | .edge id => { s with toTables := s.remove (.edge id) }.unlinkEdge id

/-- Undoes a create of transaction stamp `pending`. -/
def undoCreate (s : Store Name Value) (entity : Entity) (pending : Stamp) :
    Except ApplyError (Store Name Value) :=
  if (s.version entity).created = some pending then .ok (s.removeRow entity)
  else .error (notPending entity .create)

/-- Undoes a delete of transaction stamp `pending`. -/
def undoDelete (s : Store Name Value) (entity : Entity) (pending : Stamp) :
    Except ApplyError (Store Name Value) :=
  if (s.version entity).deleted = some pending then
    .ok { s with toTables := s.setDeleted entity none }
  else .error (notPending entity .delete)

/-- Undoes a value write of transaction stamp `pending`. -/
def undoValue (s : Store Name Value) (entity : Entity) (key : Name) (old : Option Value)
    (version : PendingVersion) (pending : Stamp) : Except ApplyError (Store Name Value) :=
  if s.has entity then
    let undone := ((s.rows entity.table).columns key).values entity.raw
    match s.restoreValue entity key old version pending with
    | some tables => .ok ({ s with toTables := tables }.indexWritten entity key undone)
    | none => .error (notPending entity .value)
  else .error (.missing entity)

/-- Undoes a label write of transaction stamp `pending`. -/
def undoLabels (s : Store Name Value) (id : Nat) (old : Finset Name) (version : PendingVersion)
    (pending : Stamp) : Except ApplyError (Store Name Value) :=
  if s.has (.node id) then
    match s.restoreLabels id old version pending with
    | some tables => .ok ({ s with toTables := tables }.indexLabels id none)
    | none => .error (notPending (.node id) .label)
  else .error (.missing (.node id))

/-- Undoes one entry of transaction stamp `pending`. -/
def undoOp (s : Store Name Value) (op : DataOp Name Value) (before : Before Name Value)
    (version : PendingVersion) (pending : Stamp) : Except ApplyError (Store Name Value) :=
  match op, before with
  | .createNode id _ _, .absent => s.undoCreate (.node id) pending
  | .createEdge id _ _ _ _, .absent => s.undoCreate (.edge id) pending
  | .deleteNode id, .node _ => s.undoDelete (.node id) pending
  | .deleteEdge id, .edge _ => s.undoDelete (.edge id) pending
  | .setNodeProperty id key _, .value old | .removeNodeProperty id key, .value old =>
      s.undoValue (.node id) key old version pending
  | .setEdgeProperty id key _, .value old | .removeEdgeProperty id key, .value old =>
      s.undoValue (.edge id) key old version pending
  | .addNodeLabel id _, .labels old | .removeNodeLabel id _, .labels old =>
      s.undoLabels id old version pending
  | op, before => .error (misfit op before)

/-- Takes out the rows transaction stamp `pending` created in a bulk range, last first. -/
def undoBulk (s : Store Name Value) (range : BulkRange) (pending : Stamp) : Store Name Value :=
  (List.range' range.start (range.stop - range.start)).reverse.foldl
    (fun s raw =>
      let entity := Tables.entityOf range.table raw
      if (s.version entity).created = some pending then s.removeRow entity else s)
    s

/-- Undoes one entry. -/
def undoChange (s : Store Name Value) (change : Change Name Value) (pending : Stamp) :
    Except ApplyError (Store Name Value) :=
  match change with
  | .data op before version => s.undoOp op before version pending
  | .bulk range _ => .ok (s.undoBulk range pending)

/-- Undoes the entries in the order given, up to the first that fails. -/
def undoAll (s : Store Name Value) (pending : Stamp) :
    List (Change Name Value) → Store Name Value × Except ApplyError Unit
  | [] => (s, .ok ())
  | change :: changes =>
      match s.undoChange change pending with
      | .ok s => s.undoAll pending changes
      | .error error => (s, .error error)

/-- Undoes transaction `id`'s entries, last to first: what a rollback does, and of the entries
since a savepoint what a rollback to it does. -/
def undo (s : Store Name Value) (id : Nat) (entries : List (Change Name Value)) :
    Store Name Value × Except ApplyError Unit :=
  match pendingStamp id with
  | .error error => (s, .error error)
  | .ok pending => s.undoAll pending entries.reverse

/-- The vectors of a table that are listed. -/
def listedVectors (s : Store Name Value) (table : Table) : List Nat :=
  (s.listed.filter fun listed => decide (listed.1 = table)).map Prod.snd

/-- The ids of the rows of `groups`. -/
def rowsOf (groups : List Nat) : List Nat :=
  groups.flatMap fun group => List.range' (group * rowsPerGroup) rowsPerGroup

/-- The ids of the rows of the node row groups with a listed vector. -/
def listedNodes (s : Store Name Value) : List Nat :=
  rowsOf ((s.listedVectors .nodes).map (· / vectors)).dedup

/-- Takes out of the indexes what no reader at `horizon` or later finds any more of nodes `raws`,
before the collect drops it from the rows. -/
def unindexNodes (s : Store Name Value) (horizon : Nat) (raws : List Nat) : Store Name Value :=
  if s.indexes.property.isEmpty && s.indexes.onLabel.isEmpty then s
  else raws.foldl (fun s raw => s.unindexCollected horizon raw) s

/-- How a collect takes a vector, or a row group, of one table: the tables after, and the ids of
the rows that are gone. -/
abbrev Collector (Name Value : Type) :=
  Tables Name Value → Nat → Tables Name Value × List Nat

/-- Collects `items` of the edge table, in turn; returns the edges that are gone. -/
def collectEdges (s : Store Name Value) (collect : Collector Name Value) (items : List Nat) :
    Store Name Value × List Nat :=
  items.foldl
    (fun (s, gone) item =>
      let (tables, more) := collect s.toTables item
      ({ s with toTables := tables }, gone ++ more))
    (s, [])

/-- Collects `items` of the node table, in turn. -/
def collectNodes (s : Store Name Value) (collect : Collector Name Value) (items : List Nat) :
    Store Name Value :=
  items.foldl
    (fun s item =>
      let (tables, gone) := collect s.toTables item
      gone.foldl unlinkNode { s with toTables := tables })
    s

/-- The phases of a collect: the index entries of nodes `raws` that go, while the rows still hold
what they were made from; then `edges` of the edge table, the edges that are gone leaving the
adjacency of their ends; then `nodes` of the node table. -/
def collectTables (s : Store Name Value) (horizon : Nat) (collect : Table → Collector Name Value)
    (raws edges nodes : List Nat) : Store Name Value :=
  let s := s.unindexNodes horizon raws
  let (s, gone) := s.collectEdges (collect .edges) edges
  let s := gone.foldl unlinkEdge s
  s.collectNodes (collect .nodes) nodes

/-- Collects the listed vectors at `horizon`, and keeps listed the ones that still hold
versions. -/
def collectListed (s : Store Name Value) (horizon : Nat) : Store Name Value :=
  let s := s.collectTables horizon
    (fun table tables vector => tables.collectVector table vector horizon)
    s.listedNodes (s.listedVectors .edges) (s.listedVectors .nodes)
  { s with listed := s.listed.filter fun listed => s.unsettled listed.1 listed.2 }

/-- The row groups of a table, up to that of the last id handed out. One that was never made has
no row and no chain. -/
def groups (s : Store Name Value) (table : Table) : List Nat :=
  match table with
  | .nodes => List.range (groupOf s.nextNodeId + 1)
  | .edges => List.range (groupOf s.nextEdgeId + 1)

/-- Lists exactly the vectors that hold versions. -/
def relist (s : Store Name Value) : Store Name Value :=
  { s with
    listed := [Table.nodes, Table.edges].flatMap fun table =>
      ((s.groups table).flatMap fun group =>
        (List.range' (group * vectors) vectors).filter (s.unsettled table)).map (table, ·) }

/-- Collects every vector at `horizon`, row group by row group, and lists the vectors anew. -/
def collectAll (s : Store Name Value) (horizon : Nat) : Store Name Value :=
  let s := s.collectTables horizon
    (fun table tables group => tables.collectGroup table group horizon)
    (rowsOf (s.groups .nodes)) (s.groups .edges) (s.groups .nodes)
  s.relist

/-- Collects what no reader at `horizon` or later can see any more, in the vectors the store
lists; the oldest epoch the store answers reads at moves to the horizon. With nothing listed
it does nothing. -/
def collect (s : Store Name Value) (horizon : Nat) : Store Name Value :=
  if s.listed.isEmpty then s
  else
    let s := s.collectListed horizon
    { s with floor := max s.floor horizon }

end Store

end Grafeo.RowGroup
