import Grafeo.RowGroup.Bitset
import Grafeo.RowGroup.Versions

/-!
# Grafeo.RowGroup.VersionBits

**The versions of a row group's rows in the shapes they are kept in**
(`graph/rowgroup/versions.rs`).

A vector of 2,048 rows is a bitset while every reader sees its rows alike. Stamped, it holds
its rows as a bitset, who created them (one stamp for all, or one per row with a bitset of
the rows written), and from its first delete on who deleted them: a bit per row with a
delete, and the stamps in a list by row while they are few, one per row after that.

A `u64` stamp is an `Option Stamp`, `none` for `ABSENT`; an array of a vector is a function of
the row, and an array of its words a bitset with all of them. The operations are those of
`Grafeo.RowGroup.Versions`, a word at a time where the source reads words.
-/

namespace Grafeo.RowGroup.Bits

open Lib (takeBits search Ascending)

/-- The 64-row words of a vector. -/
def words : Nat := vectorRows / 64

/-- How many rows of a vector keep their delete stamps in a short list. -/
def fewDeletes : Nat := 32

/-- A bit per row of a vector, all unset. -/
def noRows : Bitset := ⟨List.replicate words 0⟩

/-! ### Deletes -/

/-- The delete stamps of a vector's rows: of a few rows, by row ascending, or one per row. -/
inductive DeleteStamps where
  | few (list : List (Nat × Stamp))
  | perRow (stamps : Nat → Option Stamp)

namespace DeleteStamps

/-- The stamp kept for `row`. -/
def get : DeleteStamps → Nat → Option Stamp
  | few list, row =>
      match search list row with
      | .ok place => list[place]?.map Prod.snd
      | .error _ => none
  | perRow stamps, row => stamps row

/-- Keeps `stamp` for `row`. A row more than the list takes gives every row a stamp. -/
def set : DeleteStamps → Nat → Option Stamp → DeleteStamps
  | perRow stamps, row, stamp => perRow (Function.update stamps row stamp)
  | few list, row, stamp =>
      match search list row, stamp with
      | .ok place, none => .few (list.eraseIdx place)
      | .ok place, some stamp => .few (list.modify place fun entry => (entry.1, stamp))
      | .error _, none => .few list
      | .error place, some stamp =>
          if list.length < fewDeletes then .few (list.insertIdx place (row, stamp))
          else
            .perRow (Function.update
              (list.foldl (fun stamps entry => Function.update stamps entry.1 (some entry.2))
                fun _ => none)
              row (some stamp))

end DeleteStamps

/-- Who deleted a vector's rows, from its first delete on: a bit per row with a delete stamp,
and the stamps. -/
structure Deletes where
  rows : Bitset := noRows
  stamps : DeleteStamps := .few []

namespace Deletes

/-- Who deleted `row` (`none`: no one). -/
def get (d : Deletes) (row : Nat) : Option Stamp :=
  if d.rows.get row then d.stamps.get row else none

/-- Sets who deleted `row` (`none`: no one). -/
def set (d : Deletes) (row : Nat) (stamp : Option Stamp) : Deletes where
  rows := if stamp = none then d.rows.clear row else d.rows.set row
  stamps := d.stamps.set row stamp

/-- The rows of `present` with a delete stamp, ascending, each with it. -/
def of (d : Deletes) (present : Bitset) : List (Nat × Option Stamp) :=
  (d.rows.words.zipIdx.flatMap fun entry =>
    (takeBits 64 (entry.1 &&& present.word entry.2)).map (entry.2 * 64 + ·)).map fun row =>
      (row, d.get row)

end Deletes

/-! ### Creates -/

/-- Who created a stamped vector's rows: one stamp for every row that exists, or a stamp per
row with the rows that had one when the vector took them or got one since. -/
inductive Inserts where
  | constant (stamp : Stamp)
  | perRow (stamps : Nat → Option Stamp) (written : Bitset)

/-- The stamps per row of a vector whose rows `present` all have `constant`: every one of them
is written. -/
def perRowOf (present : Bitset) (constant : Stamp) : (Nat → Option Stamp) × Bitset :=
  (present.rows.foldl (fun stamps row => Function.update stamps row (some constant)) fun _ => none,
    ⟨(List.range words).map present.word⟩)

/-- The stamps of a vector's rows. -/
structure Stamped where
  present : Bitset
  created : Inserts
  deleted : Option Deletes := none

namespace Stamped

/-- The stamps of the rows of a flat vector, every reader's. -/
def fromFlat (present : Bitset) : Stamped where
  present := present
  created := .constant (.epoch 0)

/-- Who created `row`, a row that exists. -/
def creator (s : Stamped) (row : Nat) : Option Stamp :=
  match s.created with
  | .constant stamp => some stamp
  | .perRow stamps _ => stamps row

/-- Who deleted `row` (`none`: no one). -/
def deleter (s : Stamped) (row : Nat) : Option Stamp :=
  match s.deleted with
  | some deletes => deletes.get row
  | none => none

/-- The version of `row`: no version for a row that does not exist. -/
def get (s : Stamped) (row : Nat) : RowVersion :=
  if s.present.get row then { created := s.creator row, deleted := s.deleter row } else {}

/-- The one version every row that exists has, when the vector's rows share it. -/
def uniform (s : Stamped) : Option RowVersion :=
  match s.created, s.deleted with
  | .constant created, none => some { created := some created }
  | _, _ => none

/-- Whether every row that exists, `row` aside, was created by `stamp`. -/
def othersCreatedBy (s : Stamped) (row : Nat) (stamp : Stamp) : Bool :=
  match s.created with
  | .constant constant => decide (constant = stamp) || s.present.rows.all fun other => other == row
  | .perRow _ _ => false

/-- The creators once `stamp` created `row`. -/
def insertsWith (s : Stamped) (row : Nat) (stamp : Stamp) : Inserts :=
  match s.created with
  | .perRow stamps written => .perRow (Function.update stamps row (some stamp)) (written.set row)
  | .constant constant =>
      if s.othersCreatedBy row stamp then .constant stamp
      else
        -- Rows of two creators: a stamp per row from now on.
        let (stamps, written) := perRowOf s.present constant
        .perRow (Function.update stamps row (some stamp)) (written.set row)

/-- Sets who created `row`. -/
def setCreated (s : Stamped) (row : Nat) (stamp : Stamp) : Stamped where
  present := s.present.set row
  created := s.insertsWith row stamp
  deleted := s.deleted

/-- Sets who deleted `row` (`none`: no one). -/
def setDeleted (s : Stamped) (row : Nat) (stamp : Option Stamp) : Stamped :=
  match s.deleted, stamp with
  | some deletes, _ => { s with deleted := some (deletes.set row stamp) }
  | none, none => s
  | none, some _ => { s with deleted := some (({} : Deletes).set row stamp) }

/-- Takes `row` out. -/
def remove (s : Stamped) (row : Nat) : Stamped where
  present := s.present.clear row
  created :=
    match s.created with
    | .perRow stamps written => .perRow (Function.update stamps row none) written
    | .constant constant => .constant constant
  deleted := s.deleted.map fun deletes => deletes.set row none

/-- One turn of the loop of `commitCreated` over the rows of its range, in a vector with a
stamp per row. -/
def commitRow (source target : Stamp) :
    (Nat → Option Stamp) × Bitset × List Nat → Nat → (Nat → Option Stamp) × Bitset × List Nat
  | (stamps, written, committed), row =>
      if stamps row = some source then
        (Function.update stamps row (some target), written.set row, committed ++ [row])
      else (stamps, written, committed)

/-- Commits `source`'s creates among the rows from `start` to before `stop` at `target`; returns
the rows of them `source` created, ascending. A constant `source` takes `target` for the
whole vector; its rows a later call names are then found at `target`. -/
def commitCreated (s : Stamped) (start stop : Nat) (source target : Stamp) : Stamped × List Nat :=
  match s.created with
  | .constant constant =>
      if constant = source ∨ constant = target then
        ({ s with created := .constant target },
          s.present.rows.filter fun row => decide (start ≤ row ∧ row < stop))
      else (s, [])
  | .perRow stamps written =>
      let (stamps, written, committed) :=
        (List.range' start (stop - start)).foldl (commitRow source target) (stamps, written, [])
      ({ s with created := .perRow stamps written }, committed)

/-- Whether a stamp of a row that exists, if it has one, is a commit at or before `horizon`. -/
def settled (horizon : Nat) (stamp : Option Stamp) : Bool :=
  match stamp with
  | some stamp => stamp.committedBy horizon
  | none => false

/-- Whether every delete stamp of a row that exists is a commit at or before `horizon`. -/
def deletesSettled (s : Stamped) (horizon : Nat) : Bool :=
  match s.deleted with
  | none => true
  | some deletes =>
      (deletes.of s.present).all fun (_, stamp) => stamp.isNone || settled horizon stamp

/-- Whether every stamp of a row that exists is a commit at or before `horizon`, reading the
rows a create stamped since the vector took a stamp per row and the rows with a delete stamp
alone. -/
def settledByWritten (s : Stamped) (horizon : Nat) : Bool :=
  (match s.created with
    | .constant stamp => s.present.isEmpty || settled horizon (some stamp)
    | .perRow stamps written =>
        written.words.zipIdx.all fun entry =>
          (takeBits 64 (entry.1 &&& s.present.word entry.2)).all fun bit =>
            settled horizon (stamps (entry.2 * 64 + bit))) &&
    s.deletesSettled horizon

/-- Whether every stamp of a row that exists is a commit at or before `horizon`, every row
read. -/
def settledBy (s : Stamped) (horizon : Nat) : Bool :=
  (match s.created with
    | .constant stamp => s.present.isEmpty || settled horizon (some stamp)
    | .perRow stamps _ => s.present.rows.all fun row => settled horizon (stamps row)) &&
    s.deletesSettled horizon

end Stamped

/-! ### Vectors -/

/-- The versions of one vector of rows: a bit per row every reader sees, or stamps. -/
inductive VersionVector where
  | flat (present : Bitset)
  | stamped (stamps : Stamped)

namespace VersionVector

/-- The version of `row`. -/
def get : VersionVector → Nat → RowVersion
  | flat present, row => if present.get row then always else {}
  | stamped stamps, row => stamps.get row

/-- The stamps of the vector, stamping it if it is flat. -/
def stampedOf : VersionVector → Stamped
  | flat present => .fromFlat present
  | stamped stamps => stamps

/-- Whether `read` sees `row`. -/
def visible (v : VersionVector) (row : Nat) (read : Read) : Bool :=
  match v with
  | flat present => present.get row
  | stamped stamps => (stamps.get row).visible read

/-- Of the rows in word `index` that `asked` names, those `read` sees: the word itself where
the vector's rows are seen alike, a row at a time in the others. -/
def visibleWord (v : VersionVector) (index : Nat) (asked : BitVec 64) (read : Read) : BitVec 64 :=
  match v with
  | flat present => asked &&& present.word index
  | stamped stamps =>
      match stamps.uniform with
      | some version =>
          if version.visible read then asked &&& stamps.present.word index else 0
      | none =>
          (takeBits 64 (asked &&& stamps.present.word index)).foldl
            (fun seen bit =>
              if (stamps.get (index * 64 + bit)).visible read then seen ||| 1#64 <<< bit else seen)
            0

/-- Makes `row` a row every reader sees: a flat vector stays flat. -/
def setAlways : VersionVector → Nat → VersionVector
  | flat present, row => flat (present.set row)
  | stamped stamps, row => stamped ((stamps.setCreated row (.epoch 0)).setDeleted row none)

/-- Takes `row` out: a flat vector stays flat. -/
def remove : VersionVector → Nat → VersionVector
  | flat present, row => flat (present.clear row)
  | stamped stamps, row => stamped (stamps.remove row)

/-- `commitCreated` of a vector that holds stamps. -/
def commitCreated (v : VersionVector) (start stop : Nat) (source target : Stamp) :
    VersionVector × List Nat :=
  match v with
  | flat present => (flat present, [])
  | stamped stamps =>
      let (stamps, committed) := stamps.commitCreated start stop source target
      (stamped stamps, committed)

/-- The rows of word `index` that `word` names and someone deleted. -/
def deletedIn (deletes : Deletes) (index : Nat) (word : BitVec 64) : List Nat :=
  (takeBits 64 word).filter fun bit => (deletes.get (index * 64 + bit)).isSome

/-- What a collapse keeps of word `index` of the rows that exist, and the rows that are gone. -/
def collapseWord (deleted : Option Deletes) (index : Nat) (word : BitVec 64) :
    BitVec 64 × List Nat :=
  match deleted with
  | none => (word, [])
  | some deletes =>
      let bits := deletedIn deletes index (word &&& deletes.rows.word index)
      (bits.foldl (fun kept bit => kept &&& ~~~(1#64 <<< bit)) word, bits.map (index * 64 + ·))

/-- One turn of the rebuild of a vector's bits: the word's rows that stay, and the rows gone. -/
def collapseStep (deleted : Option Deletes) (built : Bitset × List Nat) (entry : BitVec 64 × Nat) :
    Bitset × List Nat :=
  (built.1.setWord entry.2 (collapseWord deleted entry.2 entry.1).1,
    built.2 ++ (collapseWord deleted entry.2 entry.1).2)

/-- Collapses the vector if its stamps are all committed at or before `horizon`, its bits built
anew a word at a time; returns the rows that are gone. -/
def collapseInto (v : VersionVector) (horizon : Nat) : VersionVector × List Nat :=
  match v with
  | flat present => (flat present, [])
  | stamped stamps =>
      if stamps.settledBy horizon then
        let (present, gone) :=
          stamps.present.words.zipIdx.foldl (collapseStep stamps.deleted) ({}, [])
        (flat present, gone)
      else (stamped stamps, [])

/-- The rows that exist and are deleted, a word of deletes at a time. -/
def goneRows (stamps : Stamped) : List Nat :=
  match stamps.deleted with
  | none => []
  | some deletes =>
      deletes.rows.words.zipIdx.flatMap fun entry =>
        (deletedIn deletes entry.2 (entry.1 &&& stamps.present.word entry.2)).map (entry.2 * 64 + ·)

/-- `collapseInto` in what the vector's writes cost: whether it is settled reads the rows its
creates and deletes stamped, and the vector keeps its bits and clears the rows deleted. -/
def collapseVector (v : VersionVector) (horizon : Nat) : VersionVector × List Nat :=
  match v with
  | flat present => (flat present, [])
  | stamped stamps =>
      if stamps.settledByWritten horizon then
        -- As the rebuild leaves it: no word past the last row.
        (flat ((goneRows stamps).foldl Bitset.clear stamps.present).trim, goneRows stamps)
      else (stamped stamps, [])

end VersionVector

/-! ### The versions of a row group -/

/-- The versions of a row group's rows. -/
structure Versions where
  vectors : List VersionVector := []

namespace Versions

/-- The version of `row`: no version for a row that does not exist. -/
def get (vs : Versions) (row : Nat) : RowVersion :=
  match vs.vectors[row / vectorRows]? with
  | none => {}
  | some vector => vector.get (row % vectorRows)

/-- Whether `read` sees `row`. -/
def visible (vs : Versions) (row : Nat) (read : Read) : Bool :=
  match vs.vectors[row / vectorRows]? with
  | none => false
  | some vector => vector.visible (row % vectorRows) read

/-- Of the rows in the 64-row word `index` that `asked` names, those `read` sees. -/
def visibleWord (vs : Versions) (index : Nat) (asked : BitVec 64) (read : Read) : BitVec 64 :=
  if asked = 0 then 0
  else
    match vs.vectors[index / words]? with
    | none => 0
    | some vector => vector.visibleWord (index % words) asked read

/-- The rows of `rows` that `read` sees, ascending, a word of rows at a time. -/
def forEachVisible (vs : Versions) (rows : Bitset) (read : Read) : List Nat :=
  rows.words.zipIdx.flatMap fun entry =>
    (takeBits 64 (vs.visibleWord entry.2 entry.1 read)).map (entry.2 * 64 + ·)

/-- Every row `read` sees, ascending, a word of rows at a time. -/
def forEachVisibleRow (vs : Versions) (read : Read) : List Nat :=
  (List.range (vs.vectors.length * words)).flatMap fun index =>
    (takeBits 64 (vs.visibleWord index (BitVec.allOnes 64) read)).map (index * 64 + ·)

/-- How many rows `read` sees. -/
def countVisible (vs : Versions) (read : Read) : Nat :=
  ((List.range (vs.vectors.length * words)).map fun index =>
    (vs.visibleWord index (BitVec.allOnes 64) read).cpop.toNat).sum

/-- The vectors, flat ones without rows put behind them up to vector `index`. -/
def grown (vs : Versions) (index : Nat) : List VersionVector :=
  vs.vectors ++ List.replicate (index + 1 - vs.vectors.length) (.flat {})

/-- Sets who created `row`: its vector holds stamps from then on. -/
def setCreated (vs : Versions) (row : Nat) (stamp : Stamp) : Versions :=
  ⟨(vs.grown (row / vectorRows)).modify (row / vectorRows) fun vector =>
    .stamped (vector.stampedOf.setCreated (row % vectorRows) stamp)⟩

/-- Sets who deleted `row` (`none`: no one). -/
def setDeleted (vs : Versions) (row : Nat) (stamp : Option Stamp) : Versions :=
  ⟨(vs.grown (row / vectorRows)).modify (row / vectorRows) fun vector =>
    .stamped (vector.stampedOf.setDeleted (row % vectorRows) stamp)⟩

/-- Makes `row` a row every reader sees. -/
def setAlways (vs : Versions) (row : Nat) : Versions :=
  ⟨(vs.grown (row / vectorRows)).modify (row / vectorRows) fun vector =>
    vector.setAlways (row % vectorRows)⟩

/-- Takes `row` out: it no longer exists for any reader. -/
def remove (vs : Versions) (row : Nat) : Versions :=
  ⟨vs.vectors.modify (row / vectorRows) fun vector => vector.remove (row % vectorRows)⟩

/-- A row put behind `runs`: the last run grows by it, or it starts a run. -/
def pushRow (runs : List (Nat × Nat)) (row : Nat) : List (Nat × Nat) :=
  match runs.getLast? with
  | some run =>
      if run.2 = row then runs.dropLast ++ [(run.1, run.2 + 1)] else runs ++ [(row, row + 1)]
  | none => runs ++ [(row, row + 1)]

/-- At most `fuel` turns of the loop of `commitCreated`, a vector a turn. -/
def commitLoop (stop : Nat) (source target : Stamp) :
    Nat → Nat → Versions → List (Nat × Nat) → Versions × List (Nat × Nat)
  | 0, _, vs, committed => (vs, committed)
  | fuel + 1, start, vs, committed =>
      if start < stop then
        let index := start / vectorRows
        let base := index * vectorRows
        let last := min stop (base + vectorRows)
        match vs.vectors[index]? with
        | none => commitLoop stop source target fuel last vs committed
        | some vector =>
            let (vector, rows) := vector.commitCreated (start - base) (last - base) source target
            commitLoop stop source target fuel last ⟨vs.vectors.set index vector⟩
              ((rows.map (base + ·)).foldl pushRow committed)
      else (vs, committed)

/-- Commits `source`'s creates among the rows from `start` to before `stop` at `target`; returns
the rows of them `source` created, as runs, ascending. -/
def commitCreated (vs : Versions) (start stop : Nat) (source target : Stamp) :
    Versions × List (Nat × Nat) :=
  commitLoop stop source target (stop - start) start vs []

/-- Puts what `collapsed` makes of vector `index` in its place, if there is one; returns the
rows that are gone. -/
def collapseAt (collapsed : VersionVector → VersionVector × List Nat) (vs : Versions)
    (index : Nat) : Versions × List Nat :=
  match vs.vectors[index]? with
  | none => (vs, [])
  | some vector =>
      (⟨vs.vectors.set index (collapsed vector).1⟩,
        (collapsed vector).2.map (index * vectorRows + ·))

/-- Collapses vector `index` if its stamps are all committed at or before `horizon`. -/
def collapseInto (vs : Versions) (index horizon : Nat) : Versions × List Nat :=
  vs.collapseAt (·.collapseInto horizon) index

/-- `collapseInto`, in what the vector's writes cost. -/
def collapseVector (vs : Versions) (index horizon : Nat) : Versions × List Nat :=
  vs.collapseAt (·.collapseVector horizon) index

/-- One vector after the other, the rows that are gone put behind one another. -/
def collapseEach (one : Versions → Nat → Versions × List Nat) (vs : Versions) :
    Versions × List Nat :=
  (List.range vs.vectors.length).foldl
    (fun (vs, gone) index => ((one vs index).1, gone ++ (one vs index).2)) (vs, [])

/-- Collapses every vector whose stamps are all committed at or before `horizon`; returns the
rows that are gone, ascending. -/
def collapse (vs : Versions) (horizon : Nat) : Versions × List Nat :=
  vs.collapseEach fun vs index => vs.collapseInto index horizon

end Versions

end Grafeo.RowGroup.Bits
