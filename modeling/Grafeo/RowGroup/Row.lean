import Grafeo.RowGroup.Tables

/-!
# Grafeo.RowGroup.Row

**One row of the store, and what a transaction does to it.**

A row is all the store holds of one node or edge: its version, its cell of labels, its
cell of each property key, and an edge's ends. Every write of the store is a write of
one row, and every row is written by at most one open transaction. So what a
transaction did to the store is described row by row: its writes lead, one after the
other, from the row it found (`Wrote`), which holds nothing pending, to the row as it
is. From that alone follow what a rollback is to restore, what a commit leaves, and
what the readers see meanwhile.
-/

namespace Grafeo.RowGroup

open List Function Cell

variable {Name Value : Type} {horizon : Nat} {collapsed : Bool} {pushed : Option Stamp}

/-- What the store holds of one node or edge. -/
@[ext] structure Row (Name Value : Type) where
  version : RowVersion := {}
  labels : Cell (Finset Name) := { value := ∅ }
  values : Name → Cell (Option Value) := fun _ => { value := none }
  ends : Option (Ends Name) := none

/-! ### Cells a transaction writes -/

namespace Cell

variable {T : Type} {base cell : Cell T} {t : Nat}

/-- Puts a value in the cell; what it replaces is kept when `pushed` names under which stamp. -/
def write (cell : Cell T) (pushed : Option Stamp) (value : T) : Cell T where
  value := value
  kept := cell.kept ++ (pushed.map fun stamp => (stamp, cell.value)).toList

theorem forall_kept_write {value : T} {P : Stamp × T → Prop} :
    (∀ entry ∈ (cell.write pushed value).kept, P entry) ↔
      (∀ entry ∈ cell.kept, P entry) ∧ ∀ stamp ∈ pushed, P (stamp, cell.value) := by
  rw [write, forall_mem_append]
  cases pushed <;> simp

/-- Nothing of the cell is kept under a pending stamp. -/
def NoPending (cell : Cell T) : Prop := ∀ entry ∈ cell.kept, entry.1.isPending = false

/-- What a transaction made of a cell: nothing, or it keeps the value it found. -/
def Changed (t : Nat) (base cell : Cell T) : Prop :=
  cell = base ∨ cell.kept = base.kept ++ [(.pending t, base.value)]

/-- The cell without what an open transaction wrote. -/
def strip (cell : Cell T) : Cell T :=
  match cell.kept.getLast? with
  | some (.pending _, value) => { value, kept := cell.kept.dropLast }
  | _ => cell

theorem NoPending.heldBy (h : cell.NoPending) (t : Nat) : cell.heldBy (.pending t) = false := by
  by_contra hheld
  obtain ⟨v, hv⟩ := heldBy_iff.mp (by simpa using hheld)
  cases h _ hv

theorem NoPending.strip_eq (h : cell.NoPending) : cell.strip = cell := by
  unfold strip
  cases hlast : cell.kept.getLast? with
  | none => rfl
  | some entry =>
    obtain ⟨stamp, v⟩ := entry
    cases stamp with
    | epoch e => rfl
    | pending t =>
      cases h _ (mem_of_getLast? hlast)

theorem Changed.strip_eq (h : base.Changed t cell) (hbase : base.NoPending) :
    cell.strip = base := by
  rcases h with rfl | hkept
  · exact hbase.strip_eq
  · simp [strip, hkept]

theorem restamp_of_not_held (h : cell.heldBy (.pending t) = false) (epoch : Nat) : cell.restamp t epoch = cell := by
  have hkept : cell.kept.map (fun entry => (Updates.restamp t epoch entry.1, entry.2)) =
      cell.kept := by
    conv_rhs => rw [← map_id cell.kept]
    refine map_congr_left fun entry hentry => ?_
    have hne : entry.1 ≠ .pending t := fun heq => by
      have hheld : cell.heldBy (.pending t) = true :=
        heldBy_iff.mpr ⟨entry.2, by rw [← heq]; exact hentry⟩
      rw [h] at hheld
      cases hheld
    simp [Updates.restamp, hne]
  simp [restamp, hkept]

theorem NoPending.restamp_eq (h : cell.NoPending) (t epoch : Nat) : cell.restamp t epoch = cell :=
  restamp_of_not_held (h.heldBy t) epoch

theorem Changed.restamp_noPending (h : base.Changed t cell) (hbase : base.NoPending)
    (epoch : Nat) : (cell.restamp t epoch).NoPending := by
  rcases h with rfl | hkept
  · rwa [hbase.restamp_eq]
  have heq : (cell.restamp t epoch).kept =
      (base.restamp t epoch).kept ++ [(.epoch epoch, base.value)] := by
    simp [restamp, hkept, Updates.restamp]
  rw [NoPending, heq, hbase.restamp_eq]
  exact Lib.forall_mem_concat.mpr ⟨hbase, rfl⟩

theorem heldBy_collect (cell : Cell T) (t horizon : Nat) :
    (cell.collect horizon).heldBy (.pending t) = cell.heldBy (.pending t) := by
  rw [Bool.eq_iff_iff, heldBy_iff, heldBy_iff]
  simp [collect, Stamp.committedBy]

end Cell

/-! ### Rows without anything pending -/

namespace Row

variable {t : Nat} {base row : Row Name Value}

/-- Nothing of the row is pending: no open transaction wrote it. -/
structure NoPending (row : Row Name Value) : Prop where
  created : ∀ stamp ∈ row.version.created, stamp.isPending = false
  deleted : ∀ stamp ∈ row.version.deleted, stamp.isPending = false
  labels : row.labels.NoPending
  values : ∀ key, (row.values key).NoPending

theorem NoPending.empty : ({} : Row Name Value).NoPending where
  created := by simp
  deleted := by simp
  labels := by simp [Cell.NoPending]
  values := by simp [Cell.NoPending]

/-- What the writes of a transaction make of a row: it is as they found it, or they created it,
or they changed it. -/
inductive Shape (t : Nat) (base row : Row Name Value) : Prop
  | same : row = base → Shape t base row
  | created : base = {} → row.version.created = some (.pending t) →
      (row.version.deleted = none ∨ row.version.deleted = some (.pending t)) →
      row.labels.kept = [] → (∀ key, (row.values key).kept = []) → Shape t base row
  | changed : (∃ e, base.version.created = some (.epoch e)) → base.version.deleted = none →
      row.version.created = base.version.created →
      (row.version.deleted = none ∨ row.version.deleted = some (.pending t)) →
      base.labels.Changed t row.labels → (∀ key, (base.values key).Changed t (row.values key)) →
      row.ends = base.ends → Shape t base row

/-- The committed row: the row without what an open transaction did to it. -/
def strip (row : Row Name Value) : Row Name Value :=
  match row.version.created with
  | some (.pending _) => {}
  | created =>
      { version := { created, deleted := row.version.deleted.filter fun stamp => !stamp.isPending }
        labels := row.labels.strip
        values := fun key => (row.values key).strip
        ends := row.ends }

/-- The row once transaction `t` committed at `epoch`. -/
def restamp (row : Row Name Value) (t epoch : Nat) : Row Name Value :=
  { version := { created := row.version.created.map (Updates.restamp t epoch)
                 deleted := row.version.deleted.map (Updates.restamp t epoch) }
    labels := row.labels.restamp t epoch
    values := fun key => (row.values key).restamp t epoch
    ends := row.ends }

theorem NoPending.strip_eq (h : row.NoPending) : row.strip = row := by
  have hdeleted : row.version.deleted.filter (fun stamp => !stamp.isPending) =
      row.version.deleted := by
    cases hd : row.version.deleted with
    | none => rfl
    | some stamp => simp [h.deleted stamp hd]
  have hcells : (fun key => (row.values key).strip) = row.values :=
    funext fun key => (h.values key).strip_eq
  unfold strip
  cases hc : row.version.created with
  | none => simp [hdeleted, h.labels.strip_eq, hcells, ← hc]
  | some stamp =>
    cases stamp with
    | pending t =>
      cases h.created _ hc
    | epoch e => simp [hdeleted, h.labels.strip_eq, hcells, ← hc]

/-- The committed row is the one the transaction found. -/
theorem Shape.strip_eq (h : Shape t base row) (hbase : base.NoPending) : row.strip = base := by
  cases h with
  | same heq => rw [heq, hbase.strip_eq]
  | created hempty hcreated => simp [strip, hcreated, hempty]
  | changed he hdeleted hcreated hrow hlabels hvalues hends =>
    obtain ⟨e, he⟩ := he
    have hfilter : row.version.deleted.filter (fun stamp => !stamp.isPending) =
        base.version.deleted := by
      rcases hrow with hrow | hrow
      · simp [hrow, hdeleted]
      · simp [hrow, hdeleted, Stamp.isPending]
    have hcells : (fun key => (row.values key).strip) = base.values :=
      funext fun key => (hvalues key).strip_eq (hbase.values key)
    unfold strip
    rw [hcreated, he]
    simp [hfilter, hlabels.strip_eq hbase.labels, hcells, hends, ← he]

/-- The row bears no mark of transaction `t`. -/
structure Free (t : Nat) (row : Row Name Value) : Prop where
  created : row.version.created ≠ some (.pending t)
  deleted : row.version.deleted ≠ some (.pending t)
  labels : row.labels.heldBy (.pending t) = false
  values : ∀ key, (row.values key).heldBy (.pending t) = false

theorem NoPending.free (h : row.NoPending) (t : Nat) : row.Free t where
  created hcreated := by
    cases h.created _ hcreated
  deleted hdeleted := by
    cases h.deleted _ hdeleted
  labels := h.labels.heldBy t
  values key := (h.values key).heldBy t

theorem map_restamp_of_ne {stamp : Option Stamp} (h : stamp ≠ some (.pending t)) (epoch : Nat) :
    stamp.map (Updates.restamp t epoch) = stamp := by
  cases stamp with
  | none => rfl
  | some s =>
    have hs : s ≠ .pending t := fun heq => h (by rw [heq])
    simp [Updates.restamp, hs]

/-- A commit changes nothing of a row its transaction has nothing in. -/
theorem Free.restamp_eq (h : row.Free t) (epoch : Nat) : row.restamp t epoch = row := by
  have hcells : (fun key => (row.values key).restamp t epoch) = row.values :=
    funext fun key => restamp_of_not_held (h.values key) epoch
  simp [restamp, map_restamp_of_ne h.created, map_restamp_of_ne h.deleted,
    restamp_of_not_held h.labels, hcells]

theorem NoPending.restamp_eq (h : row.NoPending) (t epoch : Nat) : row.restamp t epoch = row :=
  (h.free t).restamp_eq epoch

/-- The commit of a transaction leaves nothing pending in the rows it wrote. -/
theorem Shape.restamp_noPending (h : Shape t base row) (hbase : base.NoPending) (epoch : Nat) :
    (row.restamp t epoch).NoPending := by
  cases h with
  | same heq => rwa [heq, hbase.restamp_eq]
  | created hempty hcreated hdeleted hlabels hvalues =>
    refine ⟨?_, ?_, ?_, fun key => ?_⟩
    · simp [restamp, hcreated, Updates.restamp, Stamp.isPending]
    · rcases hdeleted with hd | hd <;> simp [restamp, hd, Updates.restamp, Stamp.isPending]
    · simp [restamp, Cell.restamp, hlabels, Cell.NoPending]
    · simp [restamp, Cell.restamp, hvalues key, Cell.NoPending]
  | changed he hdeleted hcreated hrow hlabels hvalues hends =>
    obtain ⟨e, he⟩ := he
    refine ⟨?_, ?_, hlabels.restamp_noPending hbase.labels epoch,
      fun key => (hvalues key).restamp_noPending (hbase.values key) epoch⟩
    · simp [restamp, hcreated, he, Updates.restamp, Stamp.isPending]
    · rcases hrow with hd | hd <;> simp [restamp, hd, Updates.restamp, Stamp.isPending]

/-- The row after a collect at `horizon`, with its vector collapsed or not. -/
def collect (row : Row Name Value) (horizon : Nat) (collapsed : Bool) : Row Name Value :=
  if collapsed = true ∧ row.version.deleted.isSome = true then {}
  else
    { version := if collapsed then row.version.collapse else row.version
      labels := row.labels.collect horizon
      values := fun key => (row.values key).collect horizon
      ends := row.ends }

theorem collect_empty (horizon : Nat) (collapsed : Bool) :
    ({} : Row Name Value).collect horizon collapsed = {} := by
  cases collapsed <;> simp [collect, Cell.collect, RowVersion.collapse]

/-- A row a collect leaves was there. -/
theorem isSome_of_collect (h : (row.collect horizon collapsed).version.created.isSome = true) :
    row.version.created.isSome = true := by
  unfold collect at h
  split at h
  · cases h
  cases collapsed with
  | false => exact h
  | true =>
    simp only [if_true, RowVersion.collapse] at h
    split at h
    · exact And.left ‹_›
    · cases h

/-- A row that is not deleted stays, with what its cells are left. -/
theorem collect_of_live (hdeleted : collapsed = true → row.version.deleted = none) (horizon : Nat) :
    row.collect horizon collapsed =
      { version := if collapsed then row.version.collapse else row.version
        labels := row.labels.collect horizon
        values key := (row.values key).collect horizon
        ends := row.ends } := by
  refine if_neg fun ⟨hcollapsed, hsome⟩ => ?_
  rw [hdeleted hcollapsed] at hsome
  cases hsome

/-- A collect leaves nothing pending in a row that had nothing. -/
theorem NoPending.collect (h : row.NoPending) (horizon : Nat) (collapsed : Bool) :
    (row.collect horizon collapsed).NoPending := by
  have hcell : ∀ {T : Type} (cell : Cell T), cell.NoPending → (cell.collect horizon).NoPending :=
    fun cell hcell entry hentry => hcell entry (mem_of_mem_filter hentry)
  unfold Row.collect
  split
  · exact .empty
  refine ⟨?_, ?_, hcell _ h.labels, fun key => hcell _ (h.values key)⟩
  · cases collapsed with
    | false => exact h.created
    | true =>
      simp only [if_true, RowVersion.collapse]
      split <;> simp [always, Stamp.isPending]
  · cases collapsed with
    | false => exact h.deleted
    | true =>
      simp only [if_true, RowVersion.collapse]
      split <;> simp [always]

end Row

/-! ### The writes of a row -/

/-- What a write does to the row it is of. -/
inductive RowOp (Name Value : Type) where
  | create (labels : Finset Name) (values : Name → Option Value) (ends : Option (Ends Name))
  | delete
  | label (label : Name) (add : Bool)
  | value (key : Name) (value : Option Value)

namespace Row

/-- Under which stamp a transaction's write of a cell keeps what it replaces: none when the
transaction created the row, or keeps a value of the cell already. -/
def pushes {T : Type} (row : Row Name Value) (t : Nat) (cell : Cell T) : Option Stamp :=
  if row.version.created ≠ some (.pending t) ∧ cell.heldBy (.pending t) = false then
    some (.pending t)
  else none

/-- Under which stamp transaction `t`'s `op` keeps what it replaces. -/
def pushedBy (row : Row Name Value) (t : Nat) : RowOp Name Value → Option Stamp
  | .label .. => row.pushes t row.labels
  | .value key _ => row.pushes t (row.values key)
  | _ => none

/-- The row as a delete finds it. -/
def image (row : Row Name Value) : Before Name Value :=
  match row.ends with
  | none => .node { labels := row.labels.value, properties := fun key => (row.values key).value }
  | some ends =>
      .edge { src := ends.src, dst := ends.dst, edgeType := ends.edgeType,
              properties := fun key => (row.values key).value }

/-- What `op` replaces in the row. -/
def before (row : Row Name Value) : RowOp Name Value → Before Name Value
  | .create .. => .absent
  | .delete => row.image
  | .label .. => .labels row.labels.value
  | .value key _ => .value (row.values key).value

/-- What a transaction's write of a cell does to its version of the cell. -/
def cellVersion {T : Type} (row : Row Name Value) (t : Nat) (cell : Cell T) : PendingVersion :=
  if row.version.created ≠ some (.pending t) ∧ cell.heldBy (.pending t) = true then .replaced
  else .created

/-- What `op` of transaction `t` does to the transaction's version of what it writes. -/
def versionOf (row : Row Name Value) (t : Nat) : RowOp Name Value → PendingVersion
  | .create .. => .created
  | .delete => if row.version.created = some (.pending t) then .replaced else .created
  | .label .. => row.cellVersion t row.labels
  | .value key _ => row.cellVersion t (row.values key)

/-- Transaction `t` may write the row: it exists and is not deleted, created by a commit or by
the transaction. -/
def Live (row : Row Name Value) (t : Nat) : Prop :=
  row.version.deleted = none ∧
    (row.version.created = some (.pending t) ∨ ∃ e, row.version.created = some (.epoch e))

/-- The row is one transaction `t` may do `op` to, and `op` changes it. -/
def Accepts (row : Row Name Value) (t : Nat) : RowOp Name Value → Prop
  | .create .. => row = {}
  | .delete => row.Live t
  | .label label add => row.Live t ∧ (label ∈ row.labels.value ↔ add = false)
  | .value key value => row.Live t ∧ (value.isSome ∨ (row.values key).value.isSome)

/-- The op changes the row: it creates one where there is none, or writes other labels or a
value to put or to take out. -/
def Changes (row : Row Name Value) : RowOp Name Value → Prop
  | .create .. => row = {}
  | .delete => True
  | .label label add => label ∈ row.labels.value ↔ add = false
  | .value key value => value.isSome ∨ (row.values key).value.isSome

variable [DecidableEq Name] {op : RowOp Name Value}

/-- The row once `stamp` did `op`, keeping what a value or label write replaces under
`pushed`. -/
def put (row : Row Name Value) (stamp : Stamp) (pushed : Option Stamp) :
    RowOp Name Value → Row Name Value
  | .create labels values ends =>
      { version := { created := some stamp }, labels := { value := labels },
        values := fun key => { value := values key }, ends }
  | .delete => { row with version := { row.version with deleted := some stamp } }
  | .label label add =>
      { row with labels := row.labels.write pushed (withLabel label add row.labels.value) }
  | .value key value =>
      { row with
        values := Function.update row.values key ((row.values key).write pushed value) }

/-- A write stamped at once leaves nothing pending. -/
theorem NoPending.put {row : Row Name Value} (h : row.NoPending) {stamp : Stamp}
    (hstamp : stamp.isPending = false)
    (hpushed : ∀ stamp ∈ pushed, stamp.isPending = false) (op : RowOp Name Value) :
    (row.put stamp pushed op).NoPending := by
  have hcell : ∀ {T : Type} {cell : Cell T} (value : T), cell.NoPending →
      (cell.write pushed value).NoPending :=
    fun value hcell => forall_kept_write.mpr ⟨hcell, hpushed⟩
  cases op with
  | create labels values ends =>
    exact ⟨by simpa [Row.put] using hstamp, by simp [Row.put], by simp [Row.put, Cell.NoPending],
      by simp [Row.put, Cell.NoPending]⟩
  | delete => exact ⟨h.created, by simpa [Row.put] using hstamp, h.labels, h.values⟩
  | label label add => exact ⟨h.created, h.deleted, hcell _ h.labels, h.values⟩
  | value key value =>
    refine ⟨h.created, h.deleted, h.labels, fun key' => ?_⟩
    simp only [Row.put, update_apply]
    split
    · exact hcell value (h.values key)
    · exact h.values key'

/-- The row once transaction `t` did `op`. -/
def putBy (row : Row Name Value) (t : Nat) (op : RowOp Name Value) : Row Name Value :=
  row.put (.pending t) (row.pushedBy t op) op

end Row

/-- The values of a row with those of `properties` put over them; a null is no value. -/
def putValues [DecidableEq Name] (properties : Properties Name Value)
    (values : Name → Option Value) : Name → Option Value :=
  properties.foldl
    (fun values property =>
      match property.2 with
      | some value => Function.update values property.1 (some value)
      | none => values)
    values

/-- The values of a row created with `properties`. -/
def valuesOf [DecidableEq Name] (properties : Properties Name Value) : Name → Option Value :=
  putValues properties fun _ => none

/-- What the op does to its row. -/
def DataOp.rowOp [DecidableEq Name] : DataOp Name Value → RowOp Name Value
  | createNode _ labels properties => .create labels.toFinset (valuesOf properties) none
  | createEdge _ src dst edgeType properties =>
      .create ∅ (valuesOf properties) (some { src, dst, edgeType })
  | deleteNode _ | deleteEdge _ => .delete
  | setNodeProperty _ key value | setEdgeProperty _ key value => .value key value
  | removeNodeProperty _ key | removeEdgeProperty _ key => .value key none
  | addNodeLabel _ label => .label label true
  | removeNodeLabel _ label => .label label false

/-- A write of a row as a change set records it. -/
structure Event (Name Value : Type) where
  op : RowOp Name Value
  before : Before Name Value
  version : PendingVersion

variable [DecidableEq Name]

/-- Transaction `t` wrote `row` as `event` records it, which made it `row'`. -/
structure Writes (t : Nat) (event : Event Name Value) (row row' : Row Name Value) : Prop where
  accepts : row.Accepts t event.op
  before : event.before = row.before event.op
  version : event.version = row.versionOf t event.op
  row : row' = row.putBy t event.op

/-- The writes `events` of transaction `t` led from `base` to `row`. -/
inductive Wrote (t : Nat) (base : Row Name Value) : List (Event Name Value) → Row Name Value → Prop
  | nil : Wrote t base [] base
  | snoc {events : List (Event Name Value)} {event : Event Name Value} {row row' : Row Name Value} :
      Wrote t base events row → Writes t event row row' → Wrote t base (events ++ [event]) row'

variable {t : Nat} {base mid row row' : Row Name Value}
  {events first second : List (Event Name Value)} {event : Event Name Value}

theorem Wrote.nil_iff : Wrote t base [] row ↔ row = base := by
  constructor
  · intro h
    generalize hevents : ([] : List (Event Name Value)) = events at h
    cases h with
    | nil => rfl
    | snoc => simp at hevents
  · rintro rfl
    exact .nil

theorem Wrote.snoc_iff : Wrote t base (events ++ [event]) row ↔
      ∃ mid, Wrote t base events mid ∧ Writes t event mid row := by
  constructor
  · intro h
    generalize hevents : events ++ [event] = all at h
    cases h with
    | nil => simp at hevents
    | snoc hwrote hwrites =>
      obtain ⟨rfl, hlast⟩ := append_inj' hevents rfl
      cases hlast
      exact ⟨_, hwrote, hwrites⟩
  · rintro ⟨mid, hwrote, hwrites⟩
    exact hwrote.snoc hwrites

theorem Wrote.singleton_iff : Wrote t base [event] row ↔ Writes t event base row := by
  rw [← nil_append [event], Wrote.snoc_iff]
  simp [Wrote.nil_iff]

/-- Writes are taken apart where their list is. -/
theorem Wrote.append_iff : Wrote t base (first ++ second) row ↔
      ∃ mid, Wrote t base first mid ∧ Wrote t mid second row := by
  induction second using reverseRecOn generalizing row with
  | nil => simp [Wrote.nil_iff]
  | append_singleton second event ih =>
    rw [← append_assoc, Wrote.snoc_iff]
    constructor
    · rintro ⟨m, hm, hwrites⟩
      obtain ⟨mid, hfirst, hsecond⟩ := ih.mp hm
      exact ⟨mid, hfirst, hsecond.snoc hwrites⟩
    · rintro ⟨mid, hfirst, hsecond⟩
      obtain ⟨m, hm, hwrites⟩ := Wrote.snoc_iff.mp hsecond
      exact ⟨m, ih.mpr ⟨mid, hfirst, hm⟩, hwrites⟩

/-- What writes make of a row is one row. -/
theorem Wrote.unique (h : Wrote t base events row) (h' : Wrote t base events row') : row' = row := by
  induction events using reverseRecOn generalizing row row' with
  | nil => rw [Wrote.nil_iff.mp h, Wrote.nil_iff.mp h']
  | append_singleton events event ih =>
    obtain ⟨mid, hmid, hwrites⟩ := Wrote.snoc_iff.mp h
    obtain ⟨mid', hmid', hwrites'⟩ := Wrote.snoc_iff.mp h'
    rw [hwrites.row, hwrites'.row, ih hmid hmid']

/-- The cells of `row` keep what those of `base` do, and it may be more. -/
structure Row.KeepsOf (base row : Row Name Value) : Prop where
  labels : base.labels.kept <+: row.labels.kept
  values : ∀ key, (base.values key).kept <+: (row.values key).kept

/-- A transaction's writes take nothing out of what is kept. -/
theorem Wrote.keepsOf (h : Wrote t base events row) : base.KeepsOf row := by
  induction h with
  | nil => exact ⟨prefix_refl _, fun _ => prefix_refl _⟩
  | @snoc events event row row' _ hwrites ih =>
    obtain ⟨haccepts, -, -, rfl⟩ := hwrites
    cases hop : event.op with
    | create labels values ends =>
      rw [hop] at haccepts
      have hempty : row = {} := haccepts
      subst hempty
      exact ⟨ih.labels.trans ( nil_prefix ..), fun key =>
        (ih.values key).trans ( nil_prefix ..)⟩
    | delete => exact ⟨ih.labels, ih.values⟩
    | label label add => exact ⟨ih.labels.trans (prefix_append ..), ih.values⟩
    | value key value =>
      refine ⟨ih.labels, fun key' => (ih.values key').trans ?_⟩
      simp only [Row.putBy, Row.put, update_apply]
      split <;> simp [write, *]

/-! ### The shape of what was written -/

namespace Row

theorem Changes.accepts (h : row.Changes op)
    (hlive : (∃ labels values ends, op = .create labels values ends) ∨ row.Live t) :
    row.Accepts t op := by
  cases op with
  | create labels values ends => exact h
  | delete => exact hlive.resolve_left (by simp)
  | label | value => exact ⟨hlive.resolve_left (by simp), h⟩

/-- An op that creates nothing is of a row the transaction may write. -/
theorem Accepts.cases (h : row.Accepts t op) :
    (∃ labels values ends, op = .create labels values ends) ∧ row = {} ∨ row.Live t := by
  cases op with
  | create labels values ends => exact .inl ⟨⟨labels, values, ends, rfl⟩, h⟩
  | delete => exact .inr h
  | label | value => exact .inr h.1

/-- A write of a cell of a row a commit created keeps the transaction's shape of it. -/
theorem changed_write {T : Type} {base cell : Cell T} (hbase : base.NoPending)
    (h : base.Changed t cell) {e : Nat} (he : row.version.created = some (.epoch e)) (value : T) :
    base.Changed t (cell.write (row.pushes t cell) value) := by
  rcases h with rfl | hkept
  · have hheld := hbase.heldBy t
    exact .inr (by simp [write, pushes, he, hheld])
  · have hheld : cell.heldBy (.pending t) = true :=
      heldBy_iff.mpr ⟨base.value, by simp [hkept]⟩
    exact .inr (by simp [write, pushes, hheld, hkept])

/-- A write of a row a commit created. -/
theorem Shape.put_changed (hbase : base.NoPending) {e : Nat}
    (he : base.version.created = some (.epoch e)) (hdeleted : base.version.deleted = none)
    (hcreated : row.version.created = base.version.created) (hrow : row.version.deleted = none)
    (hlabels : base.labels.Changed t row.labels)
    (hvalues : ∀ key, (base.values key).Changed t (row.values key)) (hends : row.ends = base.ends)
    (hop : row.Accepts t op) : Shape t base (row.putBy t op) := by
  have he' := hcreated.trans he
  cases op with
  | create labels values ends =>
    rw [show row = {} from hop] at he'
    cases he'
  | delete => exact .changed ⟨e, he⟩ hdeleted hcreated (.inr rfl) hlabels hvalues hends
  | label label add =>
    refine .changed ⟨e, he⟩ hdeleted hcreated (.inl hrow) ?_ hvalues hends
    exact changed_write hbase.labels hlabels he' _
  | value key value =>
    refine .changed ⟨e, he⟩ hdeleted hcreated (.inl hrow) hlabels (fun k => ?_) hends
    simp only [putBy, put, update_apply]
    split
    · exact ‹k = key› ▸ changed_write (hbase.values key) (hvalues key) he' _
    · exact hvalues k

/-- A write of a row the transaction created. -/
theorem Shape.put_created (hempty : base = {}) (hcreated : row.version.created = some (.pending t))
    (hdeleted : row.version.deleted = none) (hlabels : row.labels.kept = [])
    (hvalues : ∀ key, (row.values key).kept = [])
    (hop : row.Accepts t op) : Shape t base (row.putBy t op) := by
  have hpushes : ∀ {T : Type} (cell : Cell T), row.pushes t cell = none := fun cell => by
    simp [pushes, hcreated]
  cases op with
  | create labels values ends =>
    rw [show row = {} from hop] at hcreated
    cases hcreated
  | delete => exact .created hempty hcreated (.inr rfl) hlabels hvalues
  | label label add =>
    refine .created hempty hcreated (.inl hdeleted) ?_ hvalues
    simpa [putBy, put, pushedBy, hpushes, write] using hlabels
  | value key value =>
    refine .created hempty hcreated (.inl hdeleted) hlabels fun k => ?_
    simp only [putBy, put, pushedBy, hpushes, write, update_apply]
    split <;> simp [hvalues]

theorem Shape.writes (h : Shape t base row) (hbase : base.NoPending)
    (hwrites : Writes t event row row') : Shape t base row' := by
  obtain ⟨hop, -, -, rfl⟩ := hwrites
  rcases hop.cases with ⟨⟨labels, values, ends, hcreate⟩, hempty⟩ | hlive
  · -- Nothing is created but in place of an empty row, the one the transaction found.
    rw [hcreate]
    cases h with
    | same heq => exact .created (heq ▸ hempty) rfl (.inl rfl) rfl fun _ => rfl
    | created _ hcreated =>
      rw [hempty] at hcreated
      cases hcreated
    | changed he _ hcreated =>
      obtain ⟨e, he⟩ := he
      rw [hempty, he] at hcreated
      cases hcreated
  · cases h with
    | same heq =>
      subst heq
      obtain ⟨e, he⟩ := hlive.2.resolve_left fun h => nomatch hbase.created _ h
      exact .put_changed hbase he hlive.1 rfl hlive.1 (.inl rfl) (fun _ => .inl rfl) rfl hop
    | created hempty hcreated _ hlabels hvalues =>
      exact .put_created hempty hcreated hlive.1 hlabels hvalues hop
    | changed he hdeleted hcreated _ hlabels hvalues hends =>
      obtain ⟨e, he⟩ := he
      exact .put_changed hbase he hdeleted hcreated hlive.1 hlabels hvalues hends hop

end Row

/-- What a transaction's writes make of a row without anything pending. -/
theorem Wrote.shape (h : Wrote t base events row) (hbase : base.NoPending) :
    Row.Shape t base row := by
  induction h with
  | nil => exact .same rfl
  | snoc _ hwrites ih => exact ih.writes hbase hwrites

/-! ### Collects among the writes -/

namespace Row

section

omit [DecidableEq Name]

/-- A collect and a write of a transaction commute: what it keeps is under its pending stamp. -/
theorem collect_write_pushes {T : Type} (cell : Cell T) (value : T) :
    (cell.write (row.pushes t cell) value).collect horizon =
      (cell.collect horizon).write (row.pushes t cell) value := by
  unfold pushes
  split <;> simp [Cell.write, Cell.collect, Stamp.committedBy]

variable (hlive : row.Live t) (hsettled : collapsed = true → row.version.SettledBy horizon)
include hlive hsettled

theorem created_collect :
    ((row.collect horizon collapsed).version.created = some (.pending t) ↔
      row.version.created = some (.pending t)) ∧ (row.collect horizon collapsed).Live t := by
  obtain ⟨hdeleted, hcreated⟩ := hlive
  rw [collect_of_live fun _ => hdeleted]
  cases collapsed with
  | false => exact ⟨.rfl, hdeleted, hcreated⟩
  | true =>
    have hsettled := (hsettled rfl).1
    rcases hcreated with hc | ⟨e, hc⟩
    · rw [hc] at hsettled
      cases hsettled
    · simp [Live, RowVersion.collapse, hc, hdeleted, always]

theorem pushes_collect {T : Type} (cell : Cell T) :
    (row.collect horizon collapsed).pushes t (cell.collect horizon) = row.pushes t cell := by
  have hcreated := (created_collect hlive hsettled).1
  simp [pushes, hcreated, heldBy_collect]

theorem cellVersion_collect {T : Type} (cell : Cell T) :
    (row.collect horizon collapsed).cellVersion t (cell.collect horizon) =
      row.cellVersion t cell := by
  have hcreated := (created_collect hlive hsettled).1
  simp [cellVersion, hcreated, heldBy_collect]

end

/-- A row whose vector a collect settles after an op had it settled before: the op stamped
nothing. -/
theorem settledBy_of_putBy
    (h : (row.putBy t op).version.SettledBy horizon) : row.version.SettledBy horizon := by
  cases op with
  | create labels values ends =>
    cases h.1
  | delete =>
    cases h.2
  | label | value => exact h

/-- A collect and a transaction's write of a row commute. -/
theorem collect_putBy (hop : row.Accepts t op)
    (hsettled : collapsed = true → (row.putBy t op).version.SettledBy horizon) :
    (row.putBy t op).collect horizon collapsed = (row.collect horizon collapsed).putBy t op := by
  cases op with
  | create labels values ends =>
    cases collapsed with
    | true =>
      cases (hsettled rfl).1
    | false => simp [putBy, put, collect, Cell.collect]
  | delete =>
    cases collapsed with
    | true =>
      cases (hsettled rfl).2
    | false => simp [putBy, put, collect]
  | label label add =>
    have hlive : row.Live t := hop.1
    have hput : (row.putBy t (.label label add)).version.deleted = none := hlive.1
    have hpushes := pushes_collect hlive hsettled row.labels
    rw [collect_of_live fun _ => hlive.1] at hpushes ⊢
    rw [collect_of_live fun _ => hput]
    simp only [putBy, put, pushedBy, hpushes, collect_write_pushes]
    rfl
  | value key value =>
    have hlive : row.Live t := hop.1
    have hput : (row.putBy t (.value key value)).version.deleted = none := hlive.1
    have hpushes := pushes_collect hlive hsettled (row.values key)
    rw [collect_of_live fun _ => hlive.1] at hpushes ⊢
    rw [collect_of_live fun _ => hput]
    simp only [putBy, put, pushedBy, hpushes, Row.mk.injEq, true_and, and_true]
    funext k
    simp only [update_apply]
    split <;> simp [collect_write_pushes]

end Row

/-- What a write is of a row is what it is of the row a collect left. -/
theorem Writes.collect (h : Writes t event row row')
    (hsettled : collapsed = true → row'.version.SettledBy horizon) :
    Writes t event (row.collect horizon collapsed) (row'.collect horizon collapsed) := by
  obtain ⟨op, before, version⟩ := event
  obtain ⟨hop, hbefore, hversion, rfl⟩ := h
  have hrow := fun hc => Row.settledBy_of_putBy (hsettled hc)
  have hput := Row.collect_putBy hop hsettled
  cases op with
  | create labels values ends =>
    have hempty : row = {} := hop
    subst hempty
    exact ⟨Row.collect_empty horizon collapsed, hbefore, hversion, hput⟩
  | delete =>
    have hlive : row.Live t := hop
    obtain ⟨hcreated, hlive'⟩ := Row.created_collect hlive hrow
    refine ⟨hlive', ?_, ?_, hput⟩
    · rw [Row.collect_of_live fun _ => hlive.1]
      exact hbefore
    · simp only [Row.versionOf, hcreated]
      exact hversion
  | label label add =>
    have hlive : row.Live t := hop.1
    have hcell := Row.cellVersion_collect hlive hrow row.labels
    refine ⟨⟨(Row.created_collect hlive hrow).2, ?_⟩, ?_, ?_, hput⟩
    all_goals rw [Row.collect_of_live fun _ => hlive.1] at *
    · exact hop.2
    · exact hbefore
    · exact hversion.trans hcell.symm
  | value key value =>
    have hlive : row.Live t := hop.1
    have hcell := Row.cellVersion_collect hlive hrow (row.values key)
    refine ⟨⟨(Row.created_collect hlive hrow).2, ?_⟩, ?_, ?_, hput⟩
    all_goals rw [Row.collect_of_live fun _ => hlive.1] at *
    · exact hop.2
    · exact hbefore
    · exact hversion.trans hcell.symm

/-- What a transaction's writes are of a row is what they are of the row a collect left. -/
theorem Wrote.collect (h : Wrote t base events row)
    (hsettled : collapsed = true → row.version.SettledBy horizon) :
    Wrote t (base.collect horizon collapsed) events (row.collect horizon collapsed) := by
  induction h with
  | nil => exact .nil
  | snoc _ hwrites ih =>
    refine .snoc (ih fun hc => ?_) (hwrites.collect hsettled)
    rw [hwrites.row] at hsettled
    exact Row.settledBy_of_putBy (hsettled hc)

end Grafeo.RowGroup
