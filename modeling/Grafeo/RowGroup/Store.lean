import Grafeo.RowGroup.Adjacency
import Grafeo.RowGroup.Tables

/-!
# Grafeo.RowGroup.Store

**The row-group store** (`graph/rowgroup/mod.rs`, `read.rs`): the node table and the edge
table, the nodes' adjacency, the committed counts, the property indexes, and the vectors a
collect is to visit; and what a reader reads of it.

**The property indexes of the store** (`graph/rowgroup/index`), on a key, and on a key of
one label.

An index holds an entry for each value of its key that some version of a node holds, the
newest or one kept; an index on a label only while some version of the node's labels has
the label. The writes keep them so, at undo too, and a collect takes out what it drops. A
lookup reads each candidate's value again as the reader sees it.
-/

namespace Grafeo.RowGroup

/-- The committed counts: nodes, edges, nodes per label, edges per type. They move when a write
is stamped, never at a transaction's write. -/
structure Counts (Name : Type) where
  nodes : Int := 0
  edges : Int := 0
  labels : Name → Int := fun _ => 0
  edgeTypes : Name → Int := fun _ => 0

/-- The nodes that hold each value of an indexed key, as entries of a value and a node. -/
abbrev PropertyIndex (Value : Type) := List (Value × Nat)

/-- The property index on one label of a key. -/
structure LabelIndex (Name Value : Type) where
  label : Name
  key : Name
  index : PropertyIndex Value

/-- A store's property indexes: on every label, by key, and on one label of a key. -/
structure Indexes (Name Value : Type) where
  property : List (Name × PropertyIndex Value) := []
  onLabel : List (LabelIndex Name Value) := []

/-- One graph's store of row groups. -/
structure Store (Name Value : Type) extends Tables Name Value where
  outgoing : Nat → List (Adjacent Name) := fun _ => []
  incoming : Nat → List (Adjacent Name) := fun _ => []
  counts : Counts Name := {}
  indexes : Indexes Name Value := {}
  /-- The vectors that may hold versions, which a collect visits. -/
  listed : List (Table × Nat) := []
  /-- Whether the nodes' incoming edges are kept. -/
  keepsIncoming : Bool := true
  /-- Whether replay keeps what it replaces. -/
  history : Bool := false
  nextNodeId : Nat := 0
  nextEdgeId : Nat := 0
  /-- The latest epoch a write was stamped at. -/
  epoch : Nat := 0
  /-- The oldest epoch the store answers reads at. -/
  floor : Nat := 0

variable {Name Value : Type}

namespace Counts

/-- Moves the count of a label. -/
def label [DecidableEq Name] (counts : Counts Name) (label : Name) (delta : Int) : Counts Name :=
  { counts with
    labels := fun l => if l = label then counts.labels l + delta else counts.labels l }

/-- Moves the count of the nodes, and of each of `labels`. -/
def node [DecidableEq Name] (counts : Counts Name) (labels : Finset Name) (delta : Int) :
    Counts Name :=
  { counts with
    nodes := counts.nodes + delta
    labels := fun l => if l ∈ labels then counts.labels l + delta else counts.labels l }

/-- Moves the count of the edges, and of their type. -/
def edge [DecidableEq Name] (counts : Counts Name) (edgeType : Name) (delta : Int) : Counts Name :=
  { counts with
    edges := counts.edges + delta
    edgeTypes := fun t =>
      if t = edgeType then counts.edgeTypes t + delta else counts.edgeTypes t }

end Counts

namespace Store

/-! ### Reads -/

def nodeVisible (s : Store Name Value) (id : Nat) (read : Read) : Bool := s.nodes.visible id read

def edgeVisible (s : Store Name Value) (id : Nat) (read : Read) : Bool := s.edges.visible id read

/-- The node as `read` sees it: its labels and values. -/
def readNode (s : Store Name Value) (id : Nat) (read : Read) : Option (NodeImage Name Value) :=
  if s.nodeVisible id read then
    some { labels := s.labels.getAt id read, properties := fun key => s.nodes.valueAt id key read }
  else none

/-- The edge as `read` sees it: its ends, type and values. -/
def readEdge (s : Store Name Value) (id : Nat) (read : Read) : Option (EdgeImage Name Value) :=
  if s.edgeVisible id read then
    (s.ends id).map fun ends =>
      { src := ends.src, dst := ends.dst, edgeType := ends.edgeType,
        properties := fun key => s.edges.valueAt id key read }
  else none

/-- Node `node`'s incoming edges as the edge table holds them, by edge id: every edge row with
that target, deleted ones included. -/
def incomingByScan (s : Store Name Value) (node : Nat) : List (Adjacent Name) :=
  (List.range s.nextEdgeId).filterMap fun edge =>
    match s.ends edge with
    | some ends =>
        if ends.dst = node ∧ s.edges.versions.has edge then
          some { edgeType := ends.edgeType, other := ends.src, edge }
        else none
    | none => none

/-- One direction of a node's adjacency, deleted edges included. -/
def adjacency (s : Store Name Value) (node : Nat) (outgoing : Bool) : List (Adjacent Name) :=
  if outgoing then s.outgoing node
  else if s.keepsIncoming then s.incoming node
  else s.incomingByScan node

/-- Whether `read` sees an edge of node `id`, either way. -/
def seesAnEdgeOf (s : Store Name Value) (id : Nat) (read : Read) : Bool :=
  s.nodes.versions.has id &&
    ((s.adjacency id true).any (fun adjacent => s.edgeVisible adjacent.edge read) ||
      (s.adjacency id false).any fun adjacent => s.edgeVisible adjacent.edge read)

/-- The edges of `node` in a direction that `read` sees; none for a node `read` does not see. -/
def edgesSeen (s : Store Name Value) (node : Nat) (outgoing : Bool) (read : Read) :
    List (Adjacent Name) :=
  if s.nodeVisible node read then
    (s.adjacency node outgoing).filter fun adjacent => s.edgeVisible adjacent.edge read
  else []

/-- The directions of adjacency the store keeps for an edge's two ends, as the node, the other
node and whether the direction is outgoing. -/
def keptEnds (s : Store Name Value) (src dst : Nat) : List (Nat × Nat × Bool) :=
  [(src, dst, true), (dst, src, false)].filter fun kept => kept.2.2 || s.keepsIncoming

/-- The nodes `read` sees, by a scan of the ids handed out. -/
def nodesSeen (s : Store Name Value) (read : Read) : List Nat :=
  (List.range s.nextNodeId).filter fun id => s.nodeVisible id read

/-- The edges `read` sees, by a scan of the ids handed out. -/
def edgesSeenBy (s : Store Name Value) (read : Read) : List Nat :=
  (List.range s.nextEdgeId).filter fun id => s.edgeVisible id read

/-- The nodes `read` sees with a label. -/
def nodesWithLabel [DecidableEq Name] (s : Store Name Value) (label : Name) (read : Read) :
    List Nat :=
  (s.nodesSeen read).filter fun id => decide (label ∈ s.labels.getAt id read)

/-- The edges `read` sees of a type. -/
def edgesOfType [DecidableEq Name] (s : Store Name Value) (edgeType : Name) (read : Read) :
    List Nat :=
  (s.edgesSeenBy read).filter fun id => decide ((s.ends id).map Ends.edgeType = some edgeType)

/-- Whether the counts answer for `read`: a committed reader at or after the store's epoch. -/
def countsAnswer (s : Store Name Value) : Read → Bool
  | .transaction .. => false
  | .atEpoch epoch => decide (s.epoch ≤ epoch)

/-- How many nodes `read` sees: from the counts when they answer, by a scan otherwise. -/
def nodeCount (s : Store Name Value) (read : Read) : Nat :=
  if s.countsAnswer read then s.counts.nodes.toNat else (s.nodesSeen read).length

/-- How many edges `read` sees. -/
def edgeCount (s : Store Name Value) (read : Read) : Nat :=
  if s.countsAnswer read then s.counts.edges.toNat else (s.edgesSeenBy read).length

/-- How many nodes with `label` `read` sees. -/
def nodesByLabelCount [DecidableEq Name] (s : Store Name Value) (label : Name) (read : Read) :
    Nat :=
  if s.countsAnswer read then (s.counts.labels label).toNat
  else (s.nodesWithLabel label read).length

end Store

variable {Name Value : Type} [DecidableEq Name] [DecidableEq Value]

namespace PropertyIndex

/-- Adds `node` under `value`. -/
def insert (index : PropertyIndex Value) (value : Value) (node : Nat) : PropertyIndex Value :=
  if (value, node) ∈ index then index else (value, node) :: index

/-- Removes `node` from `value`. -/
def remove (index : PropertyIndex Value) (value : Value) (node : Nat) : PropertyIndex Value :=
  index.filter fun entry => decide (entry ≠ (value, node))

/-- Adds `node` under each of `values`. -/
def insertAll (index : PropertyIndex Value) (values : List Value) (node : Nat) :
    PropertyIndex Value :=
  values.foldl (fun index value => insert index value node) index

/-- Removes `node` from each of `values`. -/
def removeAll (index : PropertyIndex Value) (values : List Value) (node : Nat) :
    PropertyIndex Value :=
  values.foldl (fun index value => remove index value node) index

/-- The nodes under a value `finds` finds. -/
def candidates (index : PropertyIndex Value) (finds : Value → Bool) : List Nat :=
  (index.filter fun entry => finds entry.1).map Prod.snd

end PropertyIndex

open PropertyIndex

namespace Store

/-- Whether a version of the node's value of `key`, the newest or one a chain keeps, holds
`value`. -/
def holds (s : Store Name Value) (raw : Nat) (key : Name) (value : Value) : Bool :=
  let cell := (s.nodes.columns key).cell raw
  decide (cell.value = some value) || cell.kept.any fun entry => decide (entry.2 = some value)

/-- The values of `key` the node holds, the newest and every one a chain keeps. -/
def everyValue (s : Store Name Value) (raw : Nat) (key : Name) : List Value :=
  let cell := (s.nodes.columns key).cell raw
  cell.value.toList ++ cell.kept.filterMap Prod.snd

/-- Whether the node's newest labels have `label`. -/
def hasNewestLabel (s : Store Name Value) (raw : Nat) (label : Name) : Bool :=
  decide (label ∈ s.labels.values raw)

/-- Whether a version a chain keeps of the node's labels has `label`, among those `past` lets
through by the stamp of who wrote over them. -/
def hadLabel (s : Store Name Value) (raw : Nat) (label : Name) (past : Stamp → Bool) : Bool :=
  (s.labels.cell raw).kept.any fun entry => past entry.1 && decide (label ∈ entry.2)

/-- The store with each index changed: that of a key by `onKey`, that of a label and key by
`onLabel`. -/
def mapIndexes (s : Store Name Value)
    (onKey : Name → PropertyIndex Value → PropertyIndex Value)
    (onLabel : Name → Name → PropertyIndex Value → PropertyIndex Value) : Store Name Value :=
  { s with
    indexes :=
      { property := s.indexes.property.map fun entry => (entry.1, onKey entry.1 entry.2)
        onLabel := s.indexes.onLabel.map fun entry =>
          { entry with index := onLabel entry.label entry.key entry.index } } }

/-- An index once the node's value of its key was written over `replaced`: it gets the newest
value, and loses the one replaced when no version holds it any more. -/
def reindexed (s : Store Name Value) (raw : Nat) (key : Name) (replaced : Option Value)
    (index : PropertyIndex Value) : PropertyIndex Value :=
  let index := insertAll index ((s.nodes.columns key).values raw).toList raw
  match replaced with
  | some value => if s.holds raw key value then index else remove index value raw
  | none => index

/-- Brings the indexes in line with a write of node `raw`'s value of `key`, also an undo, which
replaced `replaced`. -/
def indexValue (s : Store Name Value) (raw : Nat) (key : Name) (replaced : Option Value) :
    Store Name Value :=
  if s.nodes.versions.has raw then
    s.mapIndexes
      (fun name index => if name = key then s.reindexed raw key replaced index else index)
      (fun label name index =>
        -- No version with the label: no reader sees the two together.
        if name = key ∧ (s.hasNewestLabel raw label || s.hadLabel raw label fun _ => true) then
          s.reindexed raw key replaced index
        else index)
  else s

/-- Brings the indexes in line with a change of node `raw`'s labels, of `label` (`none`: any). A
node with the label enters with every version's value, and one no version has the label of
leaves; one a chain keeps the label of stays. -/
def indexLabels (s : Store Name Value) (raw : Nat) (label : Option Name) : Store Name Value :=
  if s.nodes.versions.has raw then
    s.mapIndexes (fun _ index => index) fun l key index =>
      if label.all (fun written => decide (written = l)) then
        if s.hasNewestLabel raw l then insertAll index (s.everyValue raw key) raw
        else if s.hadLabel raw l fun _ => true then index
        else removeAll index (s.everyValue raw key) raw
      else index
  else s

/-- Indexes node `raw`, which a write just created, with its values and labels. -/
def indexCreated (s : Store Name Value) (raw : Nat) : Store Name Value :=
  if s.nodes.versions.has raw then
    s.mapIndexes (fun key index => insertAll index ((s.nodes.columns key).values raw).toList raw)
      fun label key index =>
        if s.hasNewestLabel raw label then
          insertAll index ((s.nodes.columns key).values raw).toList raw
        else index
  else s

/-- Takes node `raw` out of every index: each value it holds or a chain kept of it. -/
def unindex (s : Store Name Value) (raw : Nat) : Store Name Value :=
  if s.nodes.versions.has raw then
    s.mapIndexes (fun key index => removeAll index (s.everyValue raw key) raw)
      fun _ key index => removeAll index (s.everyValue raw key) raw
  else s

/-- The values of `key` of node `raw` that a collect at `horizon` drops and no version left
holds. -/
def droppedValues (s : Store Name Value) (raw : Nat) (key : Name) (horizon : Nat) : List Value :=
  let cell := (s.nodes.columns key).cell raw
  let stays := cell.kept.filter fun entry => !entry.1.committedBy horizon
  ((cell.kept.filter fun entry => entry.1.committedBy horizon).filterMap Prod.snd).filter
    fun value => decide (cell.value ≠ some value) &&
      !stays.any fun entry => decide (entry.2 = some value)

/-- Takes out of the indexes what no reader at `horizon` or later finds any more of node `raw`:
every entry of a node a delete committed by then took out of every such view, the entries of
values only versions committed by then held, and on a label the entries of a node whose label
only such versions held. -/
def unindexCollected (s : Store Name Value) (horizon raw : Nat) : Store Name Value :=
  if (s.nodes.versions.get raw).deleted.any (Stamp.committedBy horizon) then s.unindex raw
  else
    s.mapIndexes (fun key index => removeAll index (s.droppedValues raw key horizon) raw)
      fun label key index =>
        let index := removeAll index (s.droppedValues raw key horizon) raw
        if (s.labels.cell raw).kept.isEmpty || s.hasNewestLabel raw label ||
            s.hadLabel raw label fun stamp => !stamp.committedBy horizon then index
        else removeAll index (s.everyValue raw key) raw

/-- The index a lookup of `key` reads whose results all have each of `labels`: the first of them
with an index on the key, else the key's own. -/
def serving (s : Store Name Value) (labels : List Name) (key : Name) :
    Option (PropertyIndex Value) :=
  match labels.findSome? fun label =>
      (s.indexes.onLabel.find? fun entry =>
        decide (entry.key = key) && decide (entry.label = label)).map LabelIndex.index with
  | some index => some index
  | none => s.indexes.property.lookup key

/-- The nodes `read` sees whose value of `key` `finds` finds, through the index that serves
`labels`: its candidates, each read again as `read` sees it. -/
def candidatesAt (s : Store Name Value) (labels : List Name) (key : Name) (finds : Value → Bool)
    (read : Read) : Option (List Nat) :=
  (s.serving labels key).map fun index =>
    ((candidates index finds).dedup.filter fun id =>
      s.nodeVisible id read && (s.nodes.valueAt id key read).any finds).mergeSort

/-! ### Making and dropping indexes -/

/-- The ids of the node rows the store has, deleted ones included. -/
def nodeRows (s : Store Name Value) : List Nat :=
  (List.range s.nextNodeId).filter s.nodes.versions.has

/-- An index of the values of `key` of `rows`, in any version. -/
def indexRows (s : Store Name Value) (key : Name) (rows : List Nat) : PropertyIndex Value :=
  rows.foldl (fun index raw => insertAll index (s.everyValue raw key) raw) []

/-- Creates an index on a node property: it holds every value of the key any node has in any
version. An index on the property already is kept. -/
def createPropertyIndex (s : Store Name Value) (property : Name) : Store Name Value :=
  if s.indexes.property.any fun entry => decide (entry.1 = property) then s
  else
    { s with
      indexes := { s.indexes with
        property := s.indexes.property ++ [(property, s.indexRows property s.nodeRows)] } }

/-- Creates an index on a node property of a label: it holds the nodes some version of which has
the label. An index on them already is kept. -/
def createLabelIndex (s : Store Name Value) (label property : Name) : Store Name Value :=
  if s.indexes.onLabel.any fun entry =>
      decide (entry.key = property) && decide (entry.label = label) then s
  else
    let rows := s.nodeRows.filter fun raw =>
      s.hasNewestLabel raw label || s.hadLabel raw label fun _ => true
    { s with
      indexes := { s.indexes with
        onLabel := s.indexes.onLabel ++
          [{ label, key := property, index := s.indexRows property rows }] } }

/-- Drops the index on a node property that covers every label. -/
def dropPropertyIndex (s : Store Name Value) (property : Name) : Store Name Value :=
  { s with
    indexes := { s.indexes with
      property := s.indexes.property.filter fun entry => decide (entry.1 ≠ property) } }

/-- Drops the index on a node property of a label. -/
def dropLabelIndex (s : Store Name Value) (label property : Name) : Store Name Value :=
  { s with
    indexes := { s.indexes with
      onLabel := s.indexes.onLabel.filter fun entry =>
        decide (¬(entry.key = property ∧ entry.label = label)) } }

end Store

end Grafeo.RowGroup
