import Grafeo.RowGroup.Kept

/-!
# Grafeo.RowGroup.Cells

**A column over its row groups** (`graph/rowgroup/column.rs`): the newest value of each
row, and per row group of 65,536 rows the update chains with what the rows held before.
A node table's labels are such a column too.

What a column holds of one row is a **cell**: the newest value, and the values kept for
the readers that must not see it, oldest first, each with the stamp of the write over
it. Each operation of the column is described by what it does to the cell it names.
-/

namespace Grafeo.RowGroup

open Updates List Nat

variable {T : Type} {kept : List (Stamp × T)} {updates : Updates T}

/-- The row group of a row. -/
def groupOf (raw : Nat) : Nat := raw / rowsPerGroup

/-- The place of a row in its row group. -/
def rowOf (raw : Nat) : Nat := raw % rowsPerGroup

theorem rowOf_lt (raw : Nat) : rowOf raw < rowsPerGroup := mod_lt _ (by decide)

theorem eq_iff_rowOf {raw r : Nat} : r = raw ↔ groupOf r = groupOf raw ∧ rowOf r = rowOf raw := by
  unfold groupOf rowOf rowsPerGroup
  omega

/-- The vector of a row among all vectors of the table. -/
theorem vectorOf_rowOf (raw : Nat) : vectorOf raw = groupOf raw * vectors + vectorOf (rowOf raw) := by
  unfold vectorOf groupOf rowOf vectors rowsPerGroup vectorRows
  omega

/-! ### Cells -/

/-- What a column holds of one row: the newest value, and the values kept, oldest first,
each with the stamp of the write over it. -/
structure Cell (T : Type) where
  value : T
  kept : List (Stamp × T) := []
deriving Repr, DecidableEq

namespace Cell

/-- The value `read` sees. -/
def readAt (cell : Cell T) (read : Read) : T :=
  (rowScan read cell.kept.reverse none).getD cell.value

/-- Whether a value is kept under the writer's stamp. -/
def heldBy (cell : Cell T) (stamp : Stamp) : Bool := cell.kept.any fun entry => entry.1 = stamp

/-- Keeps the value under the writer's stamp, unless one is kept under it already. -/
def keep (cell : Cell T) (stamp : Stamp) : Cell T :=
  if cell.heldBy stamp then cell else { cell with kept := cell.kept ++ [(stamp, cell.value)] }

/-- The cell once transaction `t` committed at `epoch`. -/
def restamp (cell : Cell T) (t epoch : Nat) : Cell T :=
  { cell with kept := cell.kept.map fun entry => (Updates.restamp t epoch entry.1, entry.2) }

/-- The cell without what readers at `horizon` or later see past. -/
def collect (cell : Cell T) (horizon : Nat) : Cell T :=
  { cell with kept := cell.kept.filter fun entry => !entry.1.committedBy horizon }

/-- The newest value kept is transaction `t`'s, and no other is. -/
def OwnsLast (cell : Cell T) (t : Nat) : Prop :=
  ∃ kept value, cell.kept = kept ++ [(.pending t, value)] ∧ ∀ w, (.pending t, w) ∉ kept

theorem heldBy_iff {cell : Cell T} {stamp : Stamp} :
    cell.heldBy stamp = true ↔ ∃ v, (stamp, v) ∈ cell.kept := by
  simp only [heldBy, any_eq_true, decide_eq_true_eq]
  constructor
  · rintro ⟨⟨s, v⟩, hmem, rfl⟩
    exact ⟨v, hmem⟩
  · rintro ⟨v, hmem⟩
    exact ⟨(stamp, v), hmem, rfl⟩

end Cell

/-! ### Columns -/

/-- The newest value of each row, and the update chains of each row group. -/
structure Cells (T : Type) where
  values : Nat → T
  updates : Nat → Updates T := fun _ => .empty

namespace Cells

variable {raw r : Nat} {writer : Stamp} {c : Cells T}

/-- The update chains of a row's group. -/
def updatesOf (c : Cells T) (raw : Nat) : Updates T := c.updates (groupOf raw)

/-- Puts `updates` in place of the chains of a row's group. -/
def putUpdates (c : Cells T) (raw : Nat) (updates : Updates T) : Cells T :=
  { c with updates := Function.update c.updates (groupOf raw) updates }

/-- What the column holds of a row. -/
def cell (c : Cells T) (raw : Nat) : Cell T :=
  { value := c.values raw, kept := (c.updatesOf raw).keptStamped (rowOf raw) }

/-- The value at `raw` as `read` sees it: the newest, unless a write `read` does not see
replaced what it reads. -/
def getAt (c : Cells T) (raw : Nat) (read : Read) : T :=
  if (c.updatesOf raw).isEmpty then c.values raw
  else ((c.updatesOf raw).saved (rowOf raw) read).getD (c.values raw)

/-- Sets the value at `raw`. -/
def set (c : Cells T) (raw : Nat) (value : T) : Cells T :=
  { c with values := Function.update c.values raw value }

/-- Keeps the value at `raw` for the readers that must not see what writer `stamp`, who reads
at `snapshot`, writes next. Returns whether it kept it. -/
def keep (c : Cells T) (raw : Nat) (stamp : Stamp) (snapshot : Nat) : Cells T × Bool :=
  let (updates, kept) := (c.updatesOf raw).keep (rowOf raw) stamp snapshot (c.values raw)
  (c.putUpdates raw updates, kept)

/-- Commits the newest value kept at `raw` at `epoch`, if writer `pending` kept it; returns its
stamp before. -/
def stamp (c : Cells T) (raw : Nat) (pending : Stamp) (epoch : Nat) : Cells T × Option Stamp :=
  let (updates, before) := (c.updatesOf raw).stamp (rowOf raw) pending epoch
  (c.putUpdates raw updates, before)

/-- Rolls the first write of transaction stamp `pending` at `raw` back: writes back what its
undo node kept. `none` when no node of the transaction holds the row. -/
def undo (c : Cells T) (raw : Nat) (pending : Stamp) : Option (Cells T) := do
  let (kept, updates) ← (c.updatesOf raw).undo (rowOf raw) pending
  return (c.putUpdates raw updates).set raw kept

/-- Drops what readers at `horizon` or later see past, in one vector of the table. -/
def collectVector (c : Cells T) (vector horizon : Nat) : Cells T :=
  let group := vector / vectors
  { c with
    updates := Function.update c.updates group
      ((c.updates group).collectVector (vector % vectors) horizon).1 }

/-- Drops every node committed at or before `horizon` in the chains of row group `group`. -/
def collect (c : Cells T) (group horizon : Nat) : Cells T :=
  { c with updates := Function.update c.updates group ((c.updates group).collect horizon).1 }

/-- Whether vector `vector` of the table has a chain. -/
def hasChain (c : Cells T) (vector : Nat) : Bool :=
  (c.updates (vector / vectors)).hasChain (vector % vectors)

/-- Takes everything at `raw` out, with what any chain kept of it. -/
def clear (c : Cells T) (raw : Nat) (default : T) : Cells T :=
  let cleared := c.set raw default
  if (c.updatesOf raw).isEmpty then cleared
  else cleared.putUpdates raw ((c.updatesOf raw).removeRow (rowOf raw))

/-- The chains of every row group are in order. -/
def WF (c : Cells T) : Prop := ∀ group, (c.updates group).WF

/-- The stamps of the nodes of a vector of a row group, oldest first. -/
def stampsOf (c : Cells T) (group vector : Nat) : List Stamp := (c.updates group).stampsOf vector

/-- No commit a writer sees stands in the chains after one of its nodes, so that the search of
its own node does not stop before it. -/
def SearchedBy (c : Cells T) (stamp : Stamp) (snapshot : Nat) : Prop :=
  ∀ group vector, (c.stampsOf group vector).Pairwise fun a b =>
    a = stamp → b.committedBy snapshot = false

theorem updatesOf_putUpdates (c : Cells T) (updates : Updates T) :
    (c.putUpdates raw updates).updatesOf r =
      if groupOf r = groupOf raw then updates else c.updatesOf r := by
  unfold putUpdates updatesOf
  by_cases h : groupOf r = groupOf raw <;> simp [h]

/-- A change of the chains of a row's group that changes what they keep of that row alone. -/
theorem cell_putUpdates (h : ∀ row, updates.keptStamped row =
      if row = rowOf raw then kept else (c.updatesOf raw).keptStamped row) :
    (c.putUpdates raw updates).cell r =
      if r = raw then { c.cell raw with kept := kept } else c.cell r := by
  unfold cell
  rw [updatesOf_putUpdates]
  by_cases hr : r = raw
  · subst hr
    simp [putUpdates, h]
  rw [if_neg hr]
  by_cases hg : groupOf r = groupOf raw
  · have hrow : rowOf r ≠ rowOf raw := fun hrow => hr (eq_iff_rowOf.mpr ⟨hg, hrow⟩)
    rw [if_pos hg, h, if_neg hrow, updatesOf, updatesOf, hg]
    rfl
  · rw [if_neg hg]
    rfl

theorem cell_set (c : Cells T) (value : T) : (c.set raw value).cell r =
      if r = raw then { c.cell raw with value := value } else c.cell r := by
  by_cases h : r = raw <;> simp [cell, set, updatesOf, h]

/-- A column without chains keeps nothing. -/
theorem cell_of_values (values : Nat → T) :
    ({ values } : Cells T).cell raw = { value := values raw } := by
  have hempty : (Updates.empty : Updates T).isEmpty = true := rfl
  simp [cell, updatesOf, keptStamped_of_isEmpty hempty]

theorem WF.of_values (values : Nat → T) : ({ values } : Cells T).WF := fun _ => WF.empty

theorem WF.set (h : c.WF) (raw : Nat) (value : T) : (c.set raw value).WF := h

theorem WF.putUpdates (h : c.WF) (hwf : updates.WF) : (c.putUpdates raw updates).WF := by
  intro group
  unfold Cells.putUpdates
  by_cases hg : group = groupOf raw
  · simpa [hg] using hwf
  · simpa [hg] using h group

theorem WF.getAt_eq (h : c.WF) (raw : Nat) (read : Read) :
    c.getAt raw read = (c.cell raw).readAt read := by
  unfold Cells.getAt Cell.readAt cell
  split
  next hempty => simp [keptStamped_of_isEmpty hempty, rowScan]
  next =>
    have hwf : (c.updatesOf raw).WF := h (groupOf raw)
    rw [hwf.saved_eq]

theorem stampsOf_putUpdates (c : Cells T) (updates : Updates T) (group vector : Nat) :
    (c.putUpdates raw updates).stampsOf group vector =
      if group = groupOf raw then updates.stampsOf vector else c.stampsOf group vector := by
  unfold stampsOf putUpdates
  by_cases hg : group = groupOf raw <;> simp [hg]

/-- What a writer keeps before it writes a row: the row's value, under its stamp, unless its
search finds one kept under it already. -/
theorem WF.keep (h : c.WF) (raw : Nat) (writer : Stamp) (snapshot : Nat) :
    ∃ c' kept, c.keep raw writer snapshot = (c', kept) ∧ c'.WF ∧ c'.values = c.values ∧
      (∀ r, c'.cell r = if r = raw ∧ kept = true then
        { c.cell raw with kept := (c.cell raw).kept ++ [(writer, c.values raw)] } else c.cell r) ∧
      (kept = false → (c.cell raw).heldBy writer = true) ∧
      (c.SearchedBy writer snapshot → kept = !(c.cell raw).heldBy writer) ∧
      ∀ group vector, c'.stampsOf group vector = c.stampsOf group vector ∨
        c'.stampsOf group vector = c.stampsOf group vector ++ [writer] := by
  have hwf : (c.updatesOf raw).WF := h (groupOf raw)
  cases hheld : (c.updatesOf raw).held (rowOf raw) writer snapshot with
  | true =>
    have hsame : c.putUpdates raw (c.updatesOf raw) = c := by
      simp [Cells.putUpdates, updatesOf]
    have hcell : (c.cell raw).heldBy writer = true :=
      Cell.heldBy_iff.mpr (Updates.mem_of_held hheld)
    refine ⟨c, false, ?_, h, rfl, by simp, fun _ => hcell, by simp [hcell], fun _ _ => .inl rfl⟩
    unfold Cells.keep
    rw [keep_of_held _ hheld]
    simp [hsame]
  | false =>
    obtain ⟨updates, hkeep, hwf', hkept, hstamps⟩ :=
      hwf.keep_kept (rowOf_lt raw) (c.values raw) hheld
    refine ⟨c.putUpdates raw updates, true, ?_, h.putUpdates hwf', rfl, fun r => ?_, by simp,
      fun hsearched => ?_, fun group vector => ?_⟩
    · unfold Cells.keep
      rw [hkeep]
    · rw [cell_putUpdates hkept]
      simp only [and_true]
      rfl
    · by_contra hne
      have hmem : (c.cell raw).heldBy writer = true := by simpa using hne
      obtain ⟨v, hv⟩ := Cell.heldBy_iff.mp hmem
      rw [held_of_mem hv (hsearched (groupOf raw) (vectorOf (rowOf raw)))] at hheld
      cases hheld
    · rw [stampsOf_putUpdates]
      split
      next hg => rw [hg]; exact hstamps vector
      next => exact .inl rfl

/-- A transaction's first write of a row is rolled back. -/
theorem WF.undo (h : c.WF) {t : Nat} {value : T}
    (hkept : (c.cell raw).kept = kept ++ [(.pending t, value)]) :
    ∃ c', c.undo raw (.pending t) = some c' ∧ c'.WF ∧
      (∀ r, c'.cell r = if r = raw then { value, kept } else c.cell r) ∧
      ∀ group vector, (c'.stampsOf group vector).Sublist (c.stampsOf group vector) := by
  have hwf : (c.updatesOf raw).WF := h (groupOf raw)
  obtain ⟨updates, hundo, hwf', hrows, hstamps⟩ := hwf.undo_kept (rowOf_lt raw) hkept
  refine ⟨(c.putUpdates raw updates).set raw value, ?_, h.putUpdates hwf', fun r => ?_,
    fun group vector => ?_⟩
  · simp [Cells.undo, hundo]
  · rw [cell_set, cell_putUpdates hrows, cell_putUpdates hrows]
    split <;> simp_all
  · change ((c.putUpdates raw updates).stampsOf group vector).Sublist _
    rw [stampsOf_putUpdates]
    split
    next hg => rw [hg]; exact hstamps vector
    next => exact .refl _

/-- Nothing is kept of the row: there is nothing to undo. -/
theorem undo_eq_none (hkept : (c.cell raw).kept = []) (t : Nat) :
    c.undo raw (.pending t) = none := by
  have hnil : (c.updatesOf raw).keptStamped (rowOf raw) = [] := hkept
  rw [keptStamped_eq, keptIn_eq_nil] at hnil
  simp [Cells.undo, undo_of_get hnil]

theorem WF.clear (h : c.WF) (raw : Nat) (default : T) : (c.clear raw default).WF ∧
      (∀ r, (c.clear raw default).cell r = if r = raw then { value := default } else c.cell r) ∧
      ∀ group vector,
        ((c.clear raw default).stampsOf group vector).Sublist (c.stampsOf group vector) := by
  have hwf : (c.updatesOf raw).WF := h (groupOf raw)
  unfold Cells.clear
  cases hempty : (c.updatesOf raw).isEmpty with
  | true =>
    refine ⟨h, fun r => ?_, fun _ _ => .refl _⟩
    simp only [if_true]
    rw [cell_set]
    simp [cell, keptStamped_of_isEmpty hempty]
  | false =>
    obtain ⟨hwf', hrows, hstamps⟩ := hwf.removeRow_kept (rowOf_lt raw)
    refine ⟨WF.putUpdates (c := c.set raw default) h hwf', fun r => ?_, fun group vector => ?_⟩
    · simp only [Bool.false_eq_true, if_false]
      rw [cell_putUpdates (c := c.set raw default) hrows, cell_set, cell_set]
      split <;> simp_all
    · simp only [Bool.false_eq_true, if_false]
      rw [stampsOf_putUpdates]
      split
      next hg => rw [hg]; exact hstamps vector
      next => exact .refl _

theorem vectorOf_eq_iff {vector : Nat} :
    vectorOf r = vector ↔ groupOf r = vector / vectors ∧ vectorOf (rowOf r) = vector % vectors := by
  have hlt := vectorOf_lt (rowOf_lt r)
  rw [vectorOf_rowOf]
  unfold vectors at *
  omega

/-- What dropping the nodes past of the chains of the vectors `visits` names leaves. -/
structure Collected (c : Cells T) (visits : Nat → Bool) (horizon : Nat) (c' : Cells T) : Prop where
  wf : c'.WF
  cell : ∀ r, c'.cell r =
    if visits (vectorOf r) = true then (c.cell r).collect horizon else c.cell r
  stamps : ∀ group v, (c'.stampsOf group v).Sublist (c.stampsOf group v)

theorem WF.collectVector (h : c.WF) (vector horizon : Nat) :
    c.Collected (fun v => decide (v = vector)) horizon (c.collectVector vector horizon) := by
  obtain ⟨hwf, hrows, hstamps⟩ := (h (vector / vectors)).collectVector_kept
    (mod_lt vector (show 0 < vectors by decide)) horizon
  refine ⟨fun group => ?_, fun r => ?_, fun group v => ?_⟩
  · by_cases hg : group = vector / vectors
    · simpa [Cells.collectVector, hg] using hwf
    · simpa [Cells.collectVector, hg] using h group
  · simp only [decide_eq_true_eq, vectorOf_eq_iff (r := r)]
    by_cases hg : groupOf r = vector / vectors
    · have hrow := hrows (rowOf r)
      by_cases hv : vectorOf (rowOf r) = vector % vectors
      · rw [if_pos hv] at hrow
        simp [cell, updatesOf, Cells.collectVector, hg, hv, hrow, Cell.collect]
      · rw [if_neg hv] at hrow
        simp [cell, updatesOf, Cells.collectVector, hg, hv, hrow]
    · simp [cell, updatesOf, Cells.collectVector, hg]
  · by_cases hg : group = vector / vectors
    · simpa [stampsOf, Cells.collectVector, hg] using hstamps v
    · simp [stampsOf, Cells.collectVector, hg]

theorem WF.collect (h : c.WF) (group horizon : Nat) :
    c.Collected (fun v => decide (v / vectors = group)) horizon (c.collect group horizon) := by
  obtain ⟨hwf, hrows, hstamps⟩ := (h group).collect_kept horizon
  refine ⟨fun g => ?_, fun r => ?_, fun g v => ?_⟩
  · by_cases hg : g = group
    · simpa [Cells.collect, hg] using hwf
    · simpa [Cells.collect, hg] using h g
  · have hgroup : vectorOf r / vectors = groupOf r := by
      unfold vectorOf groupOf vectors vectorRows rowsPerGroup
      omega
    simp only [decide_eq_true_eq, hgroup]
    by_cases hg : groupOf r = group
    · simp [cell, updatesOf, Cells.collect, hg, hrows (rowOf r), Cell.collect]
    · simp [cell, updatesOf, Cells.collect, hg]
  · by_cases hg : g = group
    · simpa [stampsOf, Cells.collect, hg] using hstamps v
    · simp [stampsOf, Cells.collect, hg]

/-- Nothing is kept of the rows of a vector without a chain. -/
theorem kept_of_hasChain (h : c.hasChain (vectorOf r) = false) : (c.cell r).kept = [] := by
  obtain ⟨hg, hv⟩ := vectorOf_eq_iff.mp (rfl : vectorOf r = vectorOf r)
  have hget : (c.updatesOf r).get? (vectorOf (rowOf r)) = none := by
    unfold Cells.hasChain Updates.hasChain at h
    rw [← hg, ← hv] at h
    have hzero : (c.updatesOf r).places.getD (vectorOf (rowOf r)) 0 = 0 := by
      simpa [updatesOf] using h
    simp only [Lib.Packed.get?, Lib.Packed.find, hzero]
  simp [cell, keptStamped, chain, hget]

/-! ### The commit of a column -/

/-- The rows of a row group among `done`. -/
def rowsIn (group : Nat) (done : List Nat) : List Nat :=
  (done.filter fun raw => decide (groupOf raw = group)).map rowOf

/-- What became of the column once a commit of transaction `t` at `epoch` stamped the rows
`done`. -/
structure StampedTo (t epoch : Nat) (done : List Nat) (base c : Cells T) : Prop where
  values : c.values = base.values
  updates : ∀ group, Updates.StampedTo t epoch (rowsIn group done) (base.updates group)
    (c.updates group)

variable {base c : Cells T} {t epoch : Nat} {done : List Nat}

theorem StampedTo.refl (h : base.WF) (t epoch : Nat) : StampedTo t epoch [] base base :=
  ⟨rfl, fun group => Updates.StampedTo.refl (h group) t epoch⟩

theorem StampedTo.stampRow (h : StampedTo t epoch done base c) (howns : (base.cell raw).OwnsLast t) :
    ∃ c' before, c.stamp raw (.pending t) epoch = (c', some before) ∧
      (before = .pending t ∨ before = .epoch epoch) ∧
      StampedTo t epoch (raw :: done) base c' := by
  obtain ⟨updates, before, hstamp, hbefore, hnext⟩ :=
    (h.updates (groupOf raw)).stampRow (rowOf_lt raw) howns
  refine ⟨c.putUpdates raw updates, before, ?_, hbefore, h.values, fun group => ?_⟩
  · simp [Cells.stamp, updatesOf, hstamp]
  · by_cases hg : group = groupOf raw
    · subst hg
      simpa [putUpdates, rowsIn] using hnext
    · have hne : groupOf raw ≠ group := fun h => hg h.symm
      simpa [putUpdates, rowsIn, hg, hne] using h.updates group

/-- A row nothing is kept of is stamped nowhere. -/
theorem StampedTo.stampRow_of_nil (h : StampedTo t epoch done base c)
    (hkept : (base.cell raw).kept = []) : c.stamp raw (.pending t) epoch = (c, none) := by
  have hnil : (base.updates (groupOf raw)).keptStamped (rowOf raw) = [] := hkept
  have hnone := (h.updates (groupOf raw)).stampRow_of_nil hnil
  simp [Cells.stamp, updatesOf, hnone, putUpdates]

/-- What the chains of a group keep of one of its rows, the row's cell holds. -/
theorem WF.heldBy_of_kept (h : c.WF) {group row : Nat} {stamp : Stamp} {v : T}
    (hmem : (stamp, v) ∈ (c.updates group).keptStamped row) :
    groupOf (group * rowsPerGroup + row) = group ∧ rowOf (group * rowsPerGroup + row) = row ∧
      (c.cell (group * rowsPerGroup + row)).heldBy stamp = true := by
  have hlt : row < rowsPerGroup := (h group).lt_of_mem_kept hmem
  have hraw : groupOf (group * rowsPerGroup + row) = group ∧
      rowOf (group * rowsPerGroup + row) = row := by
    unfold groupOf rowOf rowsPerGroup at *
    omega
  refine ⟨hraw.1, hraw.2, Cell.heldBy_iff.mpr ⟨v, ?_⟩⟩
  simp only [cell, updatesOf, hraw.1, hraw.2]
  exact hmem

/-- Every stamp of a chain is one of a row's in the chain's vector. -/
theorem WF.exists_held (h : c.WF) {group vector : Nat} {stamp : Stamp}
    (hs : stamp ∈ c.stampsOf group vector) :
    ∃ raw, vectorOf raw = group * vectors + vector ∧ (c.cell raw).heldBy stamp = true := by
  obtain ⟨node, hnode, rfl⟩ := mem_map.mp hs
  obtain ⟨row, v, hvector, -, hmem⟩ := (h group).exists_kept hnode
  obtain ⟨hgroup, hrow, hheld⟩ := h.heldBy_of_kept hmem
  exact ⟨_, by rw [vectorOf_rowOf, hgroup, hrow, hvector], hheld⟩

/-- A vector has a chain when something is kept of one of its rows. -/
theorem WF.hasChain_iff (h : c.WF) {vector : Nat} :
    c.hasChain vector = true ↔ ∃ raw, vectorOf raw = vector ∧ (c.cell raw).kept ≠ [] := by
  constructor
  · intro hchain
    obtain ⟨node, hnode⟩ := exists_mem_of_ne_nil _ ((h _).nodesOf_ne_nil hchain)
    obtain ⟨raw, hraw, hheld⟩ := h.exists_held (mem_map_of_mem (f := UndoNode.stamp) hnode)
    refine ⟨raw, by rw [hraw, div_add_mod' vector vectors], fun hnil => ?_⟩
    rw [Cell.heldBy, hnil] at hheld
    cases hheld
  · rintro ⟨raw, rfl, hkept⟩
    by_contra hchain
    exact hkept (kept_of_hasChain (Bool.not_eq_true _ ▸ hchain))

/-- Every row of the transaction is stamped. -/
theorem cells_of_stampedTo {named : Nat → Prop} (h : ∃ done, StampedTo t epoch done base c ∧
      ∀ raw, named raw → (base.cell raw).heldBy (.pending t) = true → raw ∈ done)
    (hbase : base.WF) (hall : ∀ raw, (base.cell raw).heldBy (.pending t) = true → named raw) :
    c.WF ∧ (∀ r, c.cell r = (base.cell r).restamp t epoch) ∧
      ∀ group vector, c.stampsOf group vector =
        (base.stampsOf group vector).map (Updates.restamp t epoch) := by
  obtain ⟨done, h, hdone⟩ := h
  have hrows : ∀ group, _ := fun group =>
    (h.updates group).kept (hbase group) fun row v hmem => by
      obtain ⟨hgroup, hrow, hheld⟩ := hbase.heldBy_of_kept hmem
      have hmem := hdone _ (hall _ hheld) hheld
      exact mem_map.mpr ⟨_, mem_filter.mpr ⟨hmem, by simp [hgroup]⟩, hrow⟩
  refine ⟨fun group => (h.updates group).wf, fun r => ?_, fun group vector => (hrows group).2 vector⟩
  unfold cell Cell.restamp
  rw [h.values, updatesOf, updatesOf, (hrows _).1]

end Cells

end Grafeo.RowGroup
