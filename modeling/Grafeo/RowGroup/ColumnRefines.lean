import Grafeo.RowGroup.Versioned

/-!
# Grafeo.RowGroup.ColumnRefines

**The column with its update chains refines the versioned model**: along every run
the writers' rule allows, every step of the column goes through, and every admissible
read of it is the versioned model's; once every transaction ended, a collect at the
newest epoch leaves no chain.

Each operation is one step lemma (`Refines.write`, `Refines.commit`, …), said of the
column's step and the versioned model's together.
-/

namespace Grafeo.RowGroup

open Lib Updates List Option Stamp

variable {T : Type} {c c' : Column T} {m m' : Versioned T} {row : Nat} {t snapshot : Nat}
  {writes : List (Nat × T)} {kept : List (Stamp × T)} {read : Read}

/-! ### The steps -/

/-- A transaction begins: nothing in the chains is its. -/
theorem Refines.begin (h : Refines c m) (hnone : m.writers[t]? = none)
    (hsnapshot : snapshot ≤ m.published) :
    Refines { c with logs := c.logs.insert t { snapshot } }
      (m.setWriter t (.active snapshot [])) := by
  have hc : m.Changed _ t (.active snapshot []) := setWriter_changed (by simp [hnone])
  refine ⟨⟨h.writers.change hc (fun row hr => by cases hr) fun s writes heq => ?_, h.wf,
    fun row => ?_, fun vector => ?_⟩, hc.logs h.logs fun t' => lookup_insert t t' _⟩
  · cases heq
    exact hsnapshot
  · obtain ⟨kept, base, hshape⟩ := h.rows row
    refine ⟨kept, base, hshape.congr (hc.onward row) rfl rfl rfl fun t' => ?_⟩
    rw [hc.own]
    split
    next ht =>
      rw [ht, ownWrite_eq, hnone]
      rfl
    · rfl
  · refine (h.stamps vector).imp_of_mem fun ha _ hab t' s writes ht hp => ?_
    rw [hc.lookup] at ht
    split at ht
    · -- A node of the transaction would hold a row that it wrote.
      rename_i heq
      obtain ⟨node, hnode, rfl⟩ := mem_map.mp ha
      obtain ⟨row, v, -, -, hmem⟩ := h.wf.exists_kept hnode
      rw [hp] at hmem
      obtain ⟨value, hown⟩ := h.own_of_mem hmem
      rw [heq, ownWrite_eq, hnone] at hown
      cases hown
    · exact hab t' s writes ht hp

/-- A row no other writer holds was written by no other transaction. -/
theorem ownWrite_of_freeFor {t t' : Nat} (hfree : m.freeFor t row = true) (ht : t' ≠ t) :
    m.ownWrite t' row = none := by
  refine eq_none_iff_forall_ne_some.mpr fun value hown => ?_
  obtain ⟨a, ha, hrow⟩ := mem_rows_of_ownWrite hown
  exact (freeFor_iff.mp hfree t' a ha).elim ht fun hnot => hnot hrow

/-- A writer's change at one row: the other rows keep their shape. -/
theorem Agrees.change_row {k : Nat} {w : RowWriter T} (h : Agrees c m) (hc : m.Changed m' k w)
    (hok : WritersOk m') (row : Nat) (hhistory : ∀ r, r ≠ row → m'.history r = m.history r)
    (hown : ∀ r, r ≠ row → w.own r = m.ownWrite k r) (c' : Column T) (hwf : c'.updates.WF)
    (hvalues : ∀ r, r ≠ row → c'.values r = c.values r)
    (hkept : ∀ r, r ≠ row → c'.updates.keptStamped r = c.updates.keptStamped r)
    (hrow : ∀ kept base, RowShape c m row kept base → ∃ kept' base', RowShape c' m' row kept' base')
    (hstamps : ∀ vector, (c'.updates.stampsOf vector).Pairwise (NewerUnseen m')) :
    Agrees c' m' := by
  refine ⟨hok, hwf, fun r => ?_, hstamps⟩
  obtain ⟨kept, base, hshape⟩ := h.rows r
  by_cases hr : r = row
  · subst hr
    exact hrow kept base hshape
  refine ⟨kept, base, hshape.congr (hc.onward r) (hkept r hr) (hvalues r hr) (hhistory r hr)
    fun t => ?_⟩
  rw [hc.own]
  split
  next heq => rw [hown r hr, heq]
  · rfl

/-- A transaction's write, in the versioned model. -/
def Versioned.wrote (m : Versioned T) (t snapshot : Nat) (writes : List (Nat × T)) (row : Nat)
    (value : T) : Versioned T :=
  m.setWriter t (.active snapshot (writes ++ [(row, value)]))

/-- An open transaction may write on. -/
theorem changed_of_active (hw : m.writers[t]? = some (.active snapshot writes)) (w : RowWriter T) :
    m.Changed (m.setWriter t w) t w :=
  setWriter_changed (by simp [hw])

/-- The column after a write agrees with the versioned model after it, where of the
row what it held is kept under the transaction. -/
theorem Agrees.wrote {value : T} (h : Agrees c m)
    (hw : m.writers[t]? = some (.active snapshot writes)) (hrow : row < rowsPerGroup)
    (hfree : m.freeFor t row = true) (hwf : c'.updates.WF)
    (hvalues : ∀ r, c'.values r = if r = row then value else c.values r)
    (hother : ∀ r, r ≠ row → c'.updates.keptStamped r = c.updates.keptStamped r)
    (hkept : ∀ kept base, RowShape c m row kept base →
      c'.updates.keptStamped row = kept ++ [(.pending t, base)])
    (hpush : ∀ vector, c'.updates.stampsOf vector = c.updates.stampsOf vector ∨
      c'.updates.stampsOf vector = c.updates.stampsOf vector ++ [.pending t]) :
    Agrees c' (m.wrote t snapshot writes row value) := by
  have hc := changed_of_active hw (.active snapshot (writes ++ [(row, value)]))
  refine h.change_row hc (h.writers.change hc (fun r hr => ?_) fun s ws heq => ?_) row
    (fun _ _ => rfl) (fun r hr => ?_) c' hwf (fun r hr => by rw [hvalues, if_neg hr]) hother
    (fun kept base hshape => ?_) (h.stamps_push (hc.active ?_) hpush fun _ _ _ _ => rfl)
  · rw [RowWriter.rows, map_append, mem_append] at hr
    rcases hr with hr | hr
    · exact .inl ⟨_, hw, hr⟩
    · rw [mem_singleton.mp hr]
      exact .inr ⟨hrow, hfree⟩
  · cases heq
    exact h.writers.snapshots hw
  · rw [RowWriter.own, lastWrite_concat, if_neg hr, ownWrite_active hw]
  · refine ⟨kept, base, hshape.owned_by (hc.onward row) (hkept kept base hshape)
      (by rw [hvalues, if_pos rfl]) rfl fun t' => ?_⟩
    rw [hc.own, RowWriter.own, lastWrite_concat, if_pos rfl]
    by_cases ht : t' = t
    · simp [ht]
    · simp [ht, ownWrite_of_freeFor hfree ht]
  · intro s ws heq
    cases heq
    exact ⟨writes, hw⟩

/-- The versioned model after an immediate write by a writer that holds `rows`. -/
def Versioned.wroteAt (m : Versioned T) (writer epoch row : Nat) (value : T) (rows : List Nat) :
    Versioned T :=
  { m with
    history := fun r => if r = row then (m.history r).push epoch value else m.history r
    writers := m.writers.insert writer (.committed epoch (row :: rows))
    epoch := max m.epoch epoch }

section Immediate

variable {writer epoch : Nat} {rows : List Nat}
  (hwriter : m.writers[writer]? = none ∧ rows = [] ∨
    m.writers[writer]? = some (.committed epoch rows))
include hwriter

theorem changed_wroteAt (row : Nat) (value : T) : m.Changed (m.wroteAt writer epoch row value rows) writer
    (.committed epoch (row :: rows)) := by
  refine ⟨fun t => lookup_insert writer t _, fun e rows' hc => ?_, rfl, rfl, le_max_left ..⟩
  obtain ⟨hnone, -⟩ | hcommitted := hwriter
  · rw [hnone] at hc
    cases hc
  · rw [hcommitted] at hc
    cases hc
    exact ⟨_, rfl, fun r hr => mem_cons_of_mem _ hr⟩

/-- An immediate writer has no log, and wrote no row as a transaction. -/
theorem ownWrite_immediate (r : Nat) : m.ownWrite writer r = none := by
  rw [ownWrite_eq]
  obtain ⟨hw, -⟩ | hw := hwriter <;> rw [hw] <;> rfl

theorem logOf_immediate : logOf m.writers[writer]? = none := by
  obtain ⟨hw, -⟩ | hw := hwriter <;> rw [hw] <;> rfl

/-- Only this writer holds the row, and it commits at one epoch. -/
theorem epoch_of_held (hfree : m.freeFor writer row = true) {e : Nat} (h : m.Held e row) :
    e = epoch := by
  obtain ⟨w, rows', hw, hrow'⟩ := h
  rcases freeFor_iff.mp hfree w _ hw with heq | hnot
  · obtain ⟨hnone, -⟩ | hcommitted := hwriter
    · rw [heq, hnone] at hw
      cases hw
    · rw [heq, hcommitted] at hw
      cases hw
      rfl
  · exact absurd hrow' hnot

/-- An immediate write: a commit at once, whose rows are held like any commit's. -/
theorem Refines.immediate [Inhabited T] (h : Refines c m) (hrow : row < rowsPerGroup)
    (hpublished : m.published < epoch) (hfree : m.freeFor writer row = true) (value : T) :
    ∃ c', c.step (.immediate writer epoch row value) = some c' ∧
      Refines c' (m.wroteAt writer epoch row value rows) := by
  have hc := changed_wroteAt hwriter row value
  have hactive := hc.active (fun s ws heq => by cases heq)
  have hfreeRow : ∀ t, m.ownWrite t row = none := by
    intro t
    by_cases ht : t = writer
    · rw [ht, ownWrite_immediate hwriter]
    · exact ownWrite_of_freeFor hfree ht
  have hown : ∀ t, (m.wroteAt writer epoch row value rows).ownWrite t row = none := by
    intro t
    rw [hc.own]
    split
    · rfl
    · exact hfreeRow t
  have hwriters : WritersOk (m.wroteAt writer epoch row value rows) := by
    refine h.writers.change hc (fun r hr => ?_) fun s ws heq => by cases heq
    rcases mem_cons.mp hr with heq | hr
    · rw [heq]
      exact .inr ⟨hrow, hfree⟩
    · obtain ⟨-, hnil⟩ | hcommitted := hwriter
      · rw [hnil] at hr
        cases hr
      · exact .inl ⟨_, hcommitted, hr⟩
  have hlogs : ∀ t : Nat, c.logs[t]? = logOf _ := hc.logs h.logs fun t => by
    split
    next ht =>
      rw [h.logs, ht]
      exact logOf_immediate hwriter
    · rfl
  have hhistory : (m.wroteAt writer epoch row value rows).history row =
      (m.history row).push epoch value := if_pos rfl
  have hsame := h.change_row hc hwriters row (fun r hr => if_neg hr)
    (fun r _ => (ownWrite_immediate hwriter r).symm)
  cases hheldRow : c.updates.held row (.epoch epoch) epoch with
  | true =>
    obtain ⟨before, hmem⟩ := mem_of_held hheldRow
    refine ⟨c.set row value, ?_, hsame _ h.wf (fun r hr => by simp [Column.set, hr])
      (fun _ _ => rfl) (fun kept base hshape => ?_)
      (h.stamps_of_sub hactive fun _ => .refl _), hlogs⟩
    · simp [Column.step, Column.write, keep_of_held _ hheldRow]
    · obtain ⟨hkept, -⟩ := hshape.free hfreeRow
      rw [hkept] at hmem
      have hle := hshape.committedBy_of_free hpublished fun _ => epoch_of_held hwriter hfree
      exact ⟨kept, value, hshape.recommit (hc.onward row) hle (by simp [Column.set]) hhistory hown
        hmem hkept⟩
  | false =>
    obtain ⟨updates', hkeep, hwf, hkept', hstamps⟩ := h.wf.keep_kept hrow (c.values row) hheldRow
    refine ⟨{ c with updates := updates' }.set row value, ?_, hsame _ hwf
      (fun r hr => by simp [Column.set, hr]) (fun r hr => (hkept' r).trans (if_neg hr))
      (fun kept base hshape => ?_) (h.stamps_push hactive hstamps fun t s ws ht => ?_), hlogs⟩
    · simp [Column.step, Column.write, hkeep]
    · obtain ⟨hkept, hvalue⟩ := hshape.free hfreeRow
      have hle := hshape.committedBy_of_free hpublished fun _ => epoch_of_held hwriter hfree
      refine ⟨_, value, hshape.commit (hc.onward row) hle (by simp [Column.set]) hhistory hown ?_
        (le_max_right ..)
        ⟨writer, row :: rows, by rw [hc.lookup, if_pos rfl], mem_cons_self⟩⟩
      exact (hkept' row).trans (by rw [if_pos rfl, hkept, hvalue])
    · obtain ⟨ws', hw⟩ := hactive t s ws ht
      have := h.writers.snapshots hw
      simp only [committedBy, decide_eq_false_iff_not]
      omega

end Immediate

/-- What other writers keep of a row, a commit leaves. -/
theorem map_restamp {t epoch : Nat} (h : ∀ v, (.pending t, v) ∉ kept) :
    (kept.map fun entry => (restamp t epoch entry.1, entry.2)) = kept := by
  refine (map_congr_left fun entry hentry => ?_).trans (map_id _)
  obtain ⟨s, v⟩ := entry
  have hs : s ≠ .pending t := fun hs => h v (hs ▸ hentry)
  simp [restamp, hs]

/-- The versioned model after a commit. -/
def Versioned.committedAt (m : Versioned T) (t epoch : Nat) (writes : List (Nat × T)) :
    Versioned T :=
  { m with
    history := m.committed epoch writes
    writers := m.writers.insert t (.committed epoch (writes.map Prod.fst))
    epoch := max m.epoch epoch }

/-- The values kept of a row are no open transaction's. -/
theorem RowShape.not_pending {base : T} (h : RowShape c m row kept base)
    (t : Nat) (v : T) : (Stamp.pending t, v) ∉ kept := by
  intro hin
  obtain ⟨e, he, -⟩ := h.committed _ hin
  cases he

/-! ### Undo -/

theorem setWriter_setWriter (m : Versioned T) (k : Nat) (a b : RowWriter T) :
    (m.setWriter k a).setWriter k b = m.setWriter k b := by
  have hwriters : (m.writers.insert k a).insert k b = m.writers.insert k b := by grind
  simp [Versioned.setWriter, hwriters]

/-- An undo of a transaction's last write: of its first write of the row from the undo
node, of a later one from what the entry holds. -/
theorem Agrees.undo_last (h : Agrees c m) {value : T}
    (hw : m.writers[t]? = some (.active snapshot (writes ++ [(row, value)]))) :
    ∃ c', c.undoEntry t (entryAfter writes row) = some c' ∧ c'.logs = c.logs ∧
      Agrees c' (m.setWriter t (.active snapshot writes)) := by
  have hc := changed_of_active hw (.active snapshot writes)
  have howns : m.ownWrite t row = some value := by
    rw [ownWrite_active hw, lastWrite_concat, if_pos rfl]
  have hwriters : WritersOk (m.setWriter t (.active snapshot writes)) := by
    refine h.writers.change hc (fun r hr => .inl ⟨_, hw, ?_⟩) fun s ws heq => ?_
    · rw [RowWriter.rows, map_append]
      exact mem_append_left _ hr
    · cases heq
      exact h.writers.snapshots hw
  have hactive := hc.active fun s ws heq => by
    cases heq
    exact ⟨_, hw⟩
  have hown : ∀ t', (m.setWriter t (.active snapshot writes)).ownWrite t' row =
      if t' = t then lastWrite writes row else none := by
    intro t'
    rw [hc.own]
    split
    · rfl
    next hne => exact h.writers.ownWrite_other howns hne
  have hsame := h.change_row hc hwriters row (fun _ _ => rfl) fun r hr => by
    rw [ownWrite_active hw, lastWrite_concat, if_neg hr]
    rfl
  cases hlast : lastWrite writes row with
  | none =>
    obtain ⟨kept, base, hshape⟩ := h.rows row
    obtain ⟨updates', hundo, hwf, hkept', hstamps⟩ :=
      h.wf.undo_kept (h.writers.small hw (by simp [RowWriter.rows])) (hshape.own t value howns).1
    refine ⟨{ c with updates := updates' }.set row base, ?_, rfl, hsame _ hwf
      (fun r hr => by simp [Column.set, hr]) (fun r hr => (hkept' r).trans (if_neg hr))
      (fun _ _ _ => ⟨kept, base, hshape.keeps (hc.onward row) rfl (fun t' v ht' => ?_) fun _ =>
        ⟨(hkept' row).trans (if_pos rfl), by simp [Column.set]⟩⟩)
      (h.stamps_of_sub hactive hstamps)⟩
    · simp [entryAfter, hlast, Column.undoEntry, hundo]
    · rw [hown, hlast, ite_self] at ht'
      cases ht'
  | some before =>
    refine ⟨c.set row before, ?_, rfl, hsame _ h.wf (fun r hr => by simp [Column.set, hr])
      (fun _ _ => rfl) (fun kept base hshape => ?_)
      (h.stamps_of_sub hactive fun _ => .refl _)⟩
    · simp [entryAfter, hlast, Column.undoEntry]
    · refine ⟨kept, base, hshape.owned_by (hc.onward row) (hshape.own t value howns).1
        (show (c.set row before).values row = before by simp [Column.set]) rfl fun t' => ?_⟩
      rw [hown, hlast]

/-- An undo of a transaction's last writes, the newest first. -/
theorem Agrees.undo_entries (writes rest : List (Nat × T)) (h : Agrees c m)
    (hw : m.writers[t]? = some (.active snapshot (writes ++ rest))) :
    ∃ c', c.undoEntries t (logAfter writes rest).reverse = some c' ∧ c'.logs = c.logs ∧
      Agrees c' (m.setWriter t (.active snapshot writes)) := by
  induction rest using reverseRecOn generalizing c m with
  | nil =>
    rw [append_nil] at hw
    refine ⟨c, rfl, rfl, ?_⟩
    have hsame : m.setWriter t (.active snapshot writes) = m := by
      have hwriters : m.writers.insert t (.active snapshot writes) = m.writers := by grind
      simp [Versioned.setWriter, hwriters]
    rw [hsame]
    exact h
  | append_singleton rest write ih =>
    rw [← append_assoc] at hw
    obtain ⟨c₁, hundo, hlogs, hagrees⟩ := h.undo_last hw
    obtain ⟨c₂, hundo', hlogs', hagrees'⟩ := ih hagrees (by rw [writers_setWriter, if_pos rfl])
    rw [setWriter_setWriter] at hagrees'
    refine ⟨c₂, ?_, hlogs'.trans hlogs, hagrees'⟩
    rw [logAfter_append, reverse_append]
    simp [logAfter, Column.undoEntries, hundo, hundo']

/-- The versioned model after a transaction rolled back. -/
def Versioned.ended (m : Versioned T) (t : Nat) : Versioned T :=
  { m with writers := m.writers.erase t }

theorem writers_ended {t : Nat} (t' : Nat) :
    (m.ended t).writers[t']? = if t' = t then none else m.writers[t']? :=
  lookup_erase t t'

/-! ### Publication, collection and rows that go -/

/-- The versioned model after epoch `epoch` is published. -/
def Versioned.publishedAt (m : Versioned T) (epoch : Nat) : Versioned T :=
  { m with
    published := epoch
    writers := m.writers.filter fun _ writer =>
      match writer with
      | .active _ _ => true
      | .committed e _ => decide (epoch < e) }

theorem writers_publishedAt {epoch : Nat} (t : Nat) :
    (m.publishedAt epoch).writers[t]? = m.writers[t]?.filter fun writer =>
      match writer with
      | .active _ _ => true
      | .committed e _ => decide (epoch < e) :=
  Std.ExtTreeMap.getElem?_filter'

/-- A row after a collect. -/
theorem RowShape.collect {base : T} {horizon : Nat} (h : RowShape c m row kept base)
    (hkept : c'.updates.keptStamped row =
      (c.updates.keptStamped row).filter fun entry => !entry.1.committedBy horizon)
    (hvalue : c'.values row = c.values row) :
    RowShape c' { m with floor := max m.floor horizon } row
      (kept.filter fun entry => !entry.1.committedBy horizon) base where
  committed entry hentry := h.committed entry (mem_of_mem_filter hentry)
  sorted := h.sorted.sublist filter_sublist
  reads x hx := by
    simp only [Nat.max_le] at hx
    rw [scanAt_filter _ _ hx.2]
    exact h.reads x hx.1
  own t value ht := by
    obtain ⟨hk, hv⟩ := h.own t value ht
    rw [hkept, hvalue, hk, filter_append]
    exact ⟨by simp [committedBy], hv⟩
  free hfree := by
    obtain ⟨hk, hv⟩ := h.free hfree
    rw [hkept, hvalue, hk]
    exact ⟨rfl, hv⟩

/-- The versioned model without a row. -/
def Versioned.without [Inhabited T] (m : Versioned T) (row : Nat) : Versioned T :=
  { m with history := fun r => if r = row then { initial := default } else m.history r }

section

variable (h : Refines c m)
include h

theorem Refines.publish {epoch : Nat} (hle : m.published ≤ epoch) :
    Refines c (m.publishedAt epoch) where
  writers := by
    refine h.writers.of_sub (fun t a ha => ?_) hle
    rw [writers_publishedAt] at ha
    exact (filter_eq_some_iff.mp ha).1
  wf := h.wf
  rows row := by
    obtain ⟨kept, base, hshape⟩ := h.rows row
    refine ⟨kept, base, hshape.congr ⟨le_rfl, le_rfl, fun e he => ?_⟩ rfl rfl rfl fun t => ?_⟩
    rotate_left
    · rw [ownWrite_eq, ownWrite_eq, writers_publishedAt]
      cases m.writers[t]? with
      | none => rfl
      | some writer =>
        cases writer with
        | active s ws => rfl
        | committed e rows => by_cases he : epoch < e <;> simp [he, RowWriter.own]
    · rcases he with he | ⟨w, rows, hw, hrow⟩
      · exact .inl (he.trans hle)
      · by_cases hlt : epoch < e
        · refine .inr ⟨w, rows, ?_, hrow⟩
          rw [writers_publishedAt, hw]
          simp [hlt]
        · exact .inl (le_of_not_gt hlt)
  stamps := by
    refine h.stamps_of_sub (fun t s ws ht => ⟨ws, ?_⟩) fun _ => .refl _
    rw [writers_publishedAt] at ht
    exact (filter_eq_some_iff.mp ht).1
  logs t := by
    rw [writers_publishedAt, h.logs]
    cases m.writers[t]? with
    | none => rfl
    | some writer =>
      cases writer with
      | active s ws => rfl
      | committed e rows => by_cases he : epoch < e <;> simp [he, logOf]

theorem Refines.collect (horizon : Nat) :
    Refines { c with updates := (c.updates.collect horizon).1 }
      { m with floor := max m.floor horizon } := by
  obtain ⟨hwf, hkept, hstamps⟩ := h.wf.collect_kept horizon
  refine ⟨⟨⟨h.writers.exclusive, h.writers.small, h.writers.snapshots⟩, hwf, fun row => ?_,
    h.stamps_of_sub (fun _ _ ws ht => ⟨ws, ht⟩) hstamps⟩, h.logs⟩
  obtain ⟨kept, base, hshape⟩ := h.rows row
  exact ⟨_, base, hshape.collect (hkept row) rfl⟩

theorem Refines.collectVector {vector : Nat} (hv : vector < vectors) (horizon : Nat) :
    Refines { c with updates := (c.updates.collectVector vector horizon).1 }
      { m with floor := max m.floor horizon } := by
  obtain ⟨hwf, hkept, hstamps⟩ := h.wf.collectVector_kept hv horizon
  refine ⟨⟨⟨h.writers.exclusive, h.writers.small, h.writers.snapshots⟩, hwf, fun row => ?_,
    h.stamps_of_sub (fun _ _ ws ht => ⟨ws, ht⟩) hstamps⟩, h.logs⟩
  obtain ⟨kept, base, hshape⟩ := h.rows row
  by_cases hrow : vectorOf row = vector
  · exact ⟨_, base, hshape.collect ((hkept row).trans (if_pos hrow)) rfl⟩
  · exact ⟨kept, base, hshape.congr ⟨le_max_left .., le_rfl, fun _ he => he⟩
      ((hkept row).trans (if_neg hrow)) rfl rfl fun _ => rfl⟩

variable [Inhabited T]

/-- A row is gone: nothing of it is kept, and no reader has a value of it. -/
theorem Refines.removeRow (hrow : row < rowsPerGroup) (hfree : m.free row = true) :
    ∃ c', c.step (.removeRow row) = some c' ∧ Refines c' (m.without row) := by
  have hown : ∀ t, m.ownWrite t row = none := by
    intro t
    refine eq_none_iff_forall_ne_some.mpr fun value hw => ?_
    obtain ⟨a, ha, hra⟩ := mem_rows_of_ownWrite hw
    exact free_iff.mp hfree t a ha hra
  have hrefines : ∀ updates' : Updates T, updates'.WF →
      (∀ r, updates'.keptStamped r = if r = row then [] else c.updates.keptStamped r) →
      (∀ v, (updates'.stampsOf v).Sublist (c.updates.stampsOf v)) →
      Refines { c.set row default with updates := updates' } (m.without row) := by
    intro updates' hwf hkept hstamps
    refine ⟨⟨⟨h.writers.exclusive, h.writers.small, h.writers.snapshots⟩, hwf, fun r => ?_,
      h.stamps_of_sub (fun _ _ ws ht => ⟨ws, ht⟩) hstamps⟩, h.logs⟩
    by_cases hr : r = row
    · subst hr
      refine ⟨[], default, nofun, .nil, fun x _ => ?_,
        fun t v ht => ?_, fun _ => ⟨(hkept r).trans (if_pos rfl), by simp [Column.set]⟩⟩
      · simp [scanAt, Versioned.without, RowHistory.valueAt]
      · cases (hown t).symm.trans ht
    · obtain ⟨kept, base, hshape⟩ := h.rows r
      exact ⟨kept, base, hshape.congr ⟨le_rfl, le_rfl, fun _ he => he⟩
        ((hkept r).trans (if_neg hr)) (by simp [Column.set, hr]) (if_neg hr) fun _ => rfl⟩
  by_cases hempty : c.updates.isEmpty = true
  · refine ⟨c.set row default, by simp [Column.step, hempty], ?_⟩
    refine hrefines c.updates h.wf (fun r => ?_) fun _ => .refl _
    rw [keptStamped_of_isEmpty hempty]
    split <;> rfl
  · obtain ⟨hwf, hkept, hstamps⟩ := h.wf.removeRow_kept hrow
    exact ⟨{ c.set row default with updates := c.updates.removeRow row }, by
      simp [Column.step, hempty], hrefines _ hwf hkept hstamps⟩

/-! ### The writes of an open transaction -/

variable (hw : m.writers[t]? = some (.active snapshot writes))
include hw

theorem Refines.log : c.logs[t]? = some ⟨snapshot, logAfter [] writes⟩ := by
  rw [h.logs, hw]
  rfl

/-- A transaction writes a row: it keeps what the row held the first time, and
replaces its own version after that. -/
theorem Refines.write (hrow : row < rowsPerGroup) (hfree : m.freeFor t row = true) (value : T) :
    ∃ c', c.step (.write t row value) = some c' ∧
      Refines c' (m.wrote t snapshot writes row value) := by
  have hlog := h.log hw
  let log : ColumnLog T := ⟨snapshot, logAfter [] writes ++ [entryAfter writes row]⟩
  have hlogs : ∀ t' : Nat,
      (c.logs.insert t log)[t']? = logOf (m.wrote t snapshot writes row value).writers[t']? := by
    refine (changed_of_active hw _).logs h.logs fun t' => ?_
    rw [lookup_insert, logOf, logAfter_append, nil_append]
    rfl
  obtain ⟨kept₀, base₀, hshape₀⟩ := h.rows row
  cases hlast : lastWrite writes row with
  | some before =>
    have hown : m.ownWrite t row = some before := by rw [ownWrite_active hw, hlast]
    have hkeep := keep_of_held (c.values row) (show c.updates.held row (.pending t) snapshot = true by
      rw [h.held_iff hw, hlast, isSome_some])
    have hentry : entryAfter writes row = .replaced row (c.values row) := by
      rw [(hshape₀.own t before hown).2, entryAfter, hlast]
    refine ⟨{ c.set row value with logs := c.logs.insert t log }, ?_, ?_, hlogs⟩
    · simp only [Column.step, hlog, Column.write, bind_eq_bind, bind_some, hkeep, log, hentry]
      rfl
    · exact h.wrote hw hrow hfree h.wf (fun r => rfl) (fun _ _ => rfl)
        (fun kept base hshape => (hshape.own t before hown).1) fun _ => .inl rfl
  | none =>
    have hfreeRow : ∀ t', m.ownWrite t' row = none := by
      intro t'
      by_cases ht : t' = t
      · rw [ht, ownWrite_active hw, hlast]
      · exact ownWrite_of_freeFor hfree ht
    obtain ⟨updates', hkeep, hwf, hkept', hstamps⟩ := h.wf.keep_kept hrow (c.values row) (by
      rw [h.held_iff hw, hlast, isSome_none])
    have hentry : entryAfter writes row = .created row := by rw [entryAfter, hlast]
    refine ⟨{ { c with updates := updates' }.set row value with logs := c.logs.insert t log },
      ?_, ?_, hlogs⟩
    · simp only [Column.step, hlog, Column.write, bind_eq_bind, bind_some, hkeep, log, hentry]
      rfl
    refine h.wrote hw hrow hfree hwf (fun r => rfl) (fun r hr => ?_) (fun kept base hshape => ?_)
      hstamps
    · exact (hkept' r).trans (if_neg hr)
    · obtain ⟨hkept, hvalue⟩ := hshape.free hfreeRow
      refine (hkept' row).trans ?_
      rw [if_pos rfl, hkept, hvalue]

/-- A commit: every value the transaction kept is now kept for the readers before it. -/
theorem Refines.commit {epoch : Nat} (hpublished : m.published < epoch) :
    ∃ c', c.step (.commit t epoch) = some c' ∧ Refines c' (m.committedAt t epoch writes) := by
  have hlog := h.log hw
  have hc : m.Changed (m.committedAt t epoch writes) t (.committed epoch (writes.map Prod.fst)) := by
    refine ⟨fun t' => lookup_insert t t' _, fun e rows hc => ?_, rfl, rfl, le_max_left ..⟩
    rw [hw] at hc
    cases hc
  -- The rows of the log are those with a value the transaction kept.
  obtain ⟨updates', hstamp, hwf, hkept, hstamps⟩ :=
    h.wf.stampRows_kept t epoch (writes.map Prod.fst)
      (fun row hrow => h.writers.small hw hrow)
      (by
        intro row hrow
        obtain ⟨value, hlast⟩ := lastWrite_of_mem hrow
        obtain ⟨kept, base, hshape⟩ := h.rows row
        exact ⟨kept, base, (hshape.own t value (by rw [ownWrite_active hw, hlast])).1,
          hshape.not_pending t⟩)
      (by
        intro row v hmem
        obtain ⟨value, hv⟩ := h.own_of_mem hmem
        rw [ownWrite_active hw] at hv
        exact mem_of_lastWrite hv)
  refine ⟨{ c with updates := updates', logs := c.logs.erase t }, ?_,
    ⟨h.writers.change hc (fun r hr => .inl ⟨_, hw, hr⟩) (fun s ws heq => by cases heq), hwf,
      fun r => ?_, fun vector => ?_⟩, hc.logs h.logs fun t' => lookup_erase t t'⟩
  · simp only [Column.step, hlog, bind_eq_bind, bind_some, rows_logAfter, hstamp]
    rfl
  · obtain ⟨kept, base, hshape⟩ := h.rows r
    cases hlast : lastWrite writes r with
    | some value =>
      have howns : m.ownWrite t r = some value := by rw [ownWrite_active hw, hlast]
      obtain ⟨hk, hv⟩ := hshape.own t value howns
      -- No commit holds the row: its open writer does.
      have hsame : ∀ e, m.Held e r → e = epoch := by
        intro e hh
        obtain ⟨w, rows, hwc, hr⟩ := hh
        have heq := h.writers.exclusive hwc hw hr (mem_of_lastWrite hlast)
        rw [heq, hw] at hwc
        cases hwc
      refine ⟨_, value, hshape.commit (hc.onward r) (hshape.committedBy_of_free hpublished hsame)
        hv ?_ (fun t' => ?_) ?_ (le_max_right ..)
        ⟨t, _, by rw [hc.lookup, if_pos rfl], mem_of_lastWrite hlast⟩⟩
      · simp [Versioned.committedAt, Versioned.committed, hlast]
      · rw [hc.own]
        split
        · rfl
        next hne => exact h.writers.ownWrite_other howns hne
      · refine (hkept r).trans ?_
        rw [hk, map_append, map_restamp (hshape.not_pending t)]
        simp [restamp]
    | none =>
      refine ⟨kept, base, hshape.congr (hc.onward r) ?_ rfl ?_ fun t' => ?_⟩
      · refine (hkept r).trans (map_restamp fun v hin => ?_)
        obtain ⟨value, hv⟩ := h.own_of_mem hin
        rw [ownWrite_active hw, hlast] at hv
        cases hv
      · simp [Versioned.committedAt, Versioned.committed, hlast]
      rw [hc.own]
      split
      next heq =>
        rw [heq, ownWrite_active hw, hlast]
        rfl
      · rfl
  · rw [hstamps, pairwise_map]
    refine (h.stamps vector).imp fun {a b} hab t' s ws ht' ha => ?_
    rw [hc.lookup] at ht'
    split at ht'
    · cases ht'
    have ha' : a = .pending t' := by
      unfold restamp at ha
      split at ha
      · cases ha
      · exact ha
    unfold restamp
    split
    · have := h.writers.snapshots ht'
      simp only [committedBy, decide_eq_false_iff_not]
      omega
    · exact hab t' s ws ht' ha'

theorem Refines.undoTo (mark : Nat) :
    ∃ c', c.step (.undoTo t mark) = some c' ∧
      Refines c' (m.setWriter t (.active snapshot (writes.take mark))) := by
  have hlog := h.log hw
  obtain ⟨undone, hundo, hlogs, hagrees⟩ :=
    h.toAgrees.undo_entries (writes.take mark) (writes.drop mark) (by rw [take_append_drop, hw])
  refine ⟨{ undone with
    logs := undone.logs.insert t ⟨snapshot, logAfter [] (writes.take mark)⟩ }, ?_,
    ⟨hagrees.writers, hagrees.wf, fun r => ?_, hagrees.stamps⟩, fun t' => ?_⟩
  · simp only [Column.step, hlog, bind_eq_bind, bind_some, drop_logAfter,
      nil_append, hundo, take_logAfter]
    rfl
  · obtain ⟨kept, base, hshape⟩ := hagrees.rows r
    exact ⟨kept, base, hshape.congr ⟨le_rfl, le_rfl, fun _ he => he⟩ rfl rfl rfl fun _ => rfl⟩
  · rw [lookup_insert, writers_setWriter, hlogs]
    split
    · rfl
    · exact h.logs t'

theorem Refines.rollback : ∃ c', c.step (.rollback t) = some c' ∧ Refines c' (m.ended t) := by
  have hlog := h.log hw
  obtain ⟨undone, hundo, hlogs, hagrees⟩ :=
    h.toAgrees.undo_entries [] writes (by rw [nil_append, hw])
  have hsub : ∀ (t' : Nat) (a : RowWriter T), (m.ended t).writers[t']? = some a →
      (m.setWriter t (.active snapshot [])).writers[t']? = some a := by
    intro t' a ha
    rw [writers_ended] at ha
    split at ha
    · cases ha
    next hne => rw [writers_setWriter, if_neg hne, ha]
  refine ⟨{ undone with logs := undone.logs.erase t }, ?_,
    ⟨hagrees.writers.of_sub hsub le_rfl, hagrees.wf, fun r => ?_, ?_⟩, fun t' => ?_⟩
  · simp only [Column.step, hlog, bind_eq_bind, bind_some, hundo]
    rfl
  · obtain ⟨kept, base, hshape⟩ := hagrees.rows r
    refine ⟨kept, base, hshape.congr ⟨le_rfl, le_rfl,
      fun e he => he.imp id fun ⟨w, rows, hwc, hrow⟩ => ⟨w, rows, ?_, hrow⟩⟩ rfl rfl rfl
      fun t' => ?_⟩
    · rw [(changed_of_active hw _).own, ownWrite_eq, ownWrite_eq, writers_ended]
      split <;> rfl
    rw [writers_setWriter] at hwc
    rw [writers_ended]
    split at hwc
    · cases hwc
    next hne => rw [if_neg hne, hwc]
  · exact hagrees.stamps_of_sub (fun t' s ws ht' => ⟨ws, hsub t' _ ht'⟩) fun _ => .refl _
  · rw [lookup_erase, writers_ended, hlogs]
    split
    · rfl
    · exact h.logs t'

end

/-! ### Every step, every run -/

variable [Inhabited T]

/-- A step the versioned model takes, the column takes, and they agree after it. -/
theorem Refines.step (h : Refines c m) {op : ColumnOp T} (hstep : m.step op = some m') :
    ∃ c', c.step op = some c' ∧ Refines c' m' := by
  cases op <;> simp only [Versioned.step] at hstep
  case begin t snapshot =>
    split at hstep <;> cases hstep
    rename_i hguard
    exact ⟨_, rfl, h.begin (isNone_iff_eq_none.mp hguard.1) hguard.2⟩
  case write t row value =>
    split at hstep
    next snapshot writes hw =>
      split at hstep <;> cases hstep
      rename_i hguard
      exact h.write hw hguard.1 hguard.2 value
    · cases hstep
  case immediate writer epoch row value =>
    split at hstep
    next rows hheld =>
      split at hstep <;> cases hstep
      rename_i hguard
      refine h.immediate ?_ hguard.1 hguard.2.1 hguard.2.2 value
      split at hheld
      next hnone => exact .inl ⟨hnone, (some.inj hheld).symm⟩
      next e rows' hcommitted =>
        split at hheld <;> cases hheld
        rename_i heq
        exact .inr (heq ▸ hcommitted)
      · cases hheld
    · cases hstep
  case commit t epoch =>
    split at hstep
    next snapshot writes hw =>
      split at hstep <;> cases hstep
      rename_i hguard
      exact h.commit hw hguard
    · cases hstep
  case undoTo t mark =>
    split at hstep <;> cases hstep
    rename_i snapshot writes hw
    exact h.undoTo hw mark
  case rollback t =>
    split at hstep <;> cases hstep
    rename_i snapshot writes hw
    exact h.rollback hw
  case publish epoch =>
    split at hstep <;> cases hstep
    rename_i hguard
    exact ⟨c, rfl, h.publish hguard⟩
  case collect horizon =>
    cases hstep
    exact ⟨_, rfl, h.collect horizon⟩
  case collectVector vector horizon =>
    split at hstep <;> cases hstep
    rename_i hguard
    exact ⟨_, rfl, h.collectVector hguard horizon⟩
  case removeRow row =>
    split at hstep <;> cases hstep
    rename_i hguard
    exact h.removeRow hguard.1 hguard.2

theorem Refines.start (values : Nat → T) : Refines (Column.start values) (Versioned.start values) where
  writers := by
    refine ⟨?_, ?_, ?_⟩ <;> simp [Versioned.start]
  wf := WF.empty
  rows row := by
    have hkept : (Updates.empty : Updates T).keptStamped row = [] := keptStamped_of_isEmpty rfl row
    refine ⟨[], values row, nofun, .nil, fun _ _ => rfl,
      fun t value ht => ?_, fun _ => ⟨hkept, rfl⟩⟩
    simp [Versioned.ownWrite, Versioned.start] at ht
  stamps vector := by
    have hnone : (Updates.empty : Updates T).get? vector = none := get?_of_isEmpty rfl vector
    simp [Column.start, stampsOf, nodesOf, hnone, nodesIn]
  logs := by simp [Column.start, Versioned.start, logOf]

/-- A run of the versioned model is one of the column. -/
theorem Refines.run (h : Refines c m) {ops : List (ColumnOp T)}
    (hrun : run Versioned.step m ops = some m') :
    ∃ c', Lib.run Column.step c ops = some c' ∧ Refines c' m' := by
  induction ops generalizing c m with
  | nil =>
    cases hrun
    exact ⟨c, rfl, h⟩
  | cons op ops ih =>
    obtain ⟨m₁, hstep, hrest⟩ := run_cons_eq_some.mp hrun
    obtain ⟨c₁, hc, h₁⟩ := h.step hstep
    obtain ⟨c₂, hc₂, h₂⟩ := ih h₁ hrest
    exact ⟨c₂, run_cons_eq_some.mpr ⟨c₁, hc, hc₂⟩, h₂⟩

/-! ### Reads -/

/-- The scan of values kept in epoch order takes the first the reader does not see. -/
theorem rowScan_committed (hcommitted : ∀ entry ∈ kept, ∃ e, entry.1 = .epoch e)
    (hsorted : kept.Pairwise fun a b =>
      ∀ x, b.1.committedBy x = true → a.1.committedBy x = true) (saved : Option T) (base : T) :
    (rowScan read kept.reverse saved).getD base = scanAt kept (saved.getD base) read.epochOf := by
  induction kept using reverseRecOn generalizing saved with
  | nil => rfl
  | append_singleton kept entry ih =>
    obtain ⟨s, v⟩ := entry
    obtain ⟨e, he⟩ := hcommitted (s, v) (by simp)
    cases he
    obtain ⟨hpair, -, hlast⟩ := pairwise_append.mp hsorted
    rw [reverse_concat, rowScan, scanAt_concat]
    by_cases hx : e ≤ read.epochOf
    · have hsees : read.sees (.epoch e) = true := Read.sees_epoch.mpr hx
      have hc : (epoch e).committedBy read.epochOf = true := by simp [committedBy, hx]
      rw [hsees, hc, scanAt_of_committed _ fun entry hentry =>
        hlast entry hentry _ mem_cons_self _ hc]
      simp [isPending]
    · have hsees : read.sees (.epoch e) = false := by simp [Read.sees, hx]
      have hc : (epoch e).committedBy read.epochOf = false := by simp [committedBy, hx]
      rw [hsees, hc]
      exact ih (fun entry hentry => hcommitted entry (mem_append_left _ hentry)) hpair (some v)

theorem Column.getAt_eq (h : c.updates.WF) (row : Nat) (read : Read) : c.getAt row read =
      (rowScan read (c.updates.keptStamped row).reverse none).getD (c.values row) := by
  unfold Column.getAt
  by_cases hempty : c.updates.isEmpty = true
  · rw [if_pos hempty, keptStamped_of_isEmpty hempty]
    rfl
  · rw [if_neg hempty, h.saved_eq]

/-- A reader that did not write the row is to read the newest value committed by its
epoch. -/
theorem Versioned.readBy_of_not_own
    (h : ∀ t, read.isTransaction t = true → m.ownWrite t row = none) :
    m.readBy row read = (m.history row).valueAt read.epochOf := by
  cases read with
  | transaction id snapshot =>
    have hnone := h id (by simp [Read.isTransaction])
    simp [Versioned.readBy, hnone, Read.epochOf]
  | atEpoch epoch => rfl

theorem Versioned.Admissible.floor_le (h : m.Admissible row read)
    (hown : ∀ t, read.isTransaction t = true → m.ownWrite t row = none) :
    m.floor ≤ read.epochOf := by
  rcases h with h | h
  · exact h
  · cases read with
    | transaction id snapshot => exact absurd (hown id (by simp [Read.isTransaction])) h
    | atEpoch epoch => exact absurd h id

/-- Every admissible read of the column is the versioned model's. -/
theorem Agrees.reads (h : Agrees c m) (hread : m.Admissible row read) :
    c.getAt row read = m.readBy row read := by
  obtain ⟨kept, base, hshape⟩ := h.rows row
  have hcommitted : ∀ entry ∈ kept, ∃ e, entry.1 = .epoch e := fun entry hentry =>
    let ⟨e, he, _⟩ := hshape.committed entry hentry
    ⟨e, he⟩
  rw [Column.getAt_eq h.wf]
  by_cases hsome : ∃ t value, m.ownWrite t row = some value
  · obtain ⟨t, value, hown⟩ := hsome
    obtain ⟨hkept, hvalue⟩ := hshape.own t value hown
    rw [hkept, hvalue, reverse_concat, rowScan]
    cases hsees : read.sees (.pending t) with
    | true =>
      -- The reader is the row's open writer.
      cases read with
      | transaction id snapshot =>
        have hid : id = t := by simpa [Read.sees, Read.isTransaction] using hsees
        simp [isPending, Versioned.readBy, hid, hown]
      | atEpoch epoch => cases hsees
    | false =>
      have hnot : ∀ t', read.isTransaction t' = true → m.ownWrite t' row = none := by
        intro t' ht'
        refine h.writers.ownWrite_other hown fun heq => ?_
        rw [Read.sees, ← heq, ht'] at hsees
        cases hsees
      rw [Versioned.readBy_of_not_own hnot, ← hshape.reads _ (hread.floor_le hnot)]
      exact rowScan_committed hcommitted hshape.sorted (some base) value
  · have hnone : ∀ t, m.ownWrite t row = none := fun t =>
      eq_none_iff_forall_ne_some.mpr fun value hw => hsome ⟨t, value, hw⟩
    obtain ⟨hkept, hvalue⟩ := hshape.free hnone
    rw [hkept, hvalue, Versioned.readBy_of_not_own fun t _ => hnone t,
      ← hshape.reads _ (hread.floor_le fun t _ => hnone t)]
    exact rowScan_committed hcommitted hshape.sorted none base

/-- With every transaction ended, a collect at the newest epoch or later leaves no chain. -/
theorem Agrees.collect_isEmpty (h : Agrees c m) (hended : m.AllEnded) {horizon : Nat}
    (hhorizon : m.epoch ≤ horizon) : (c.updates.collect horizon).1.isEmpty = true := by
  obtain ⟨hwf, hkept, -⟩ := h.wf.collect_kept horizon
  refine hwf.isEmpty_of_kept fun row => ?_
  have hnone : ∀ t, m.ownWrite t row = none := fun t => by
    refine eq_none_iff_forall_ne_some.mpr fun value hw => ?_
    obtain ⟨snapshot, writes, hactive, -⟩ := ownWrite_eq_some hw
    exact hended t snapshot writes hactive
  obtain ⟨kept, base, hshape⟩ := h.rows row
  rw [hkept, (hshape.free hnone).1, filter_eq_nil_iff]
  intro entry hentry
  obtain ⟨e, he, hle, -⟩ := hshape.committed entry hentry
  simp [he, committedBy, hle.trans hhorizon]

/-- **The update chains beside a column are the versioned model.** In every run of
transactions and immediate writers in which a row has one writer at a time (first writes
after a newer commit, repeated writes, undo to a savepoint, rollbacks, publication,
collects and rows that go, in any order), the column takes every step; every read by a
reader at or above each horizon collected, and every read of a row by its open writer, is
what the versioned model gives that reader; and once every transaction ended, a collect at
the newest epoch leaves no chain. -/
theorem column_reads_are_versioned {values : Nat → T} {ops : List (ColumnOp T)}
    {m : Versioned T} (hrun : run Versioned.step (Versioned.start values) ops = some m) :
    ∃ c, run Column.step (Column.start values) ops = some c ∧
      (∀ row read, m.Admissible row read → c.getAt row read = m.readBy row read) ∧
      (m.AllEnded → ∀ horizon, m.epoch ≤ horizon →
        (c.updates.collect horizon).1.isEmpty = true) := by
  obtain ⟨c, hc, hrefines⟩ := (Refines.start values).run hrun
  exact ⟨c, hc, fun row read hread => hrefines.reads hread,
    fun hended horizon hhorizon => hrefines.collect_isEmpty hended hhorizon⟩

/-- Transaction 2 writes row 5 after a newer commit of it, twice, and undoes the second
write; an immediate write and a collect come between. -/
def writeAfterNewerCommit : List (ColumnOp Nat) :=
  [.begin 1 0, .begin 2 0, .write 1 5 10, .commit 1 1, .publish 1, .write 2 5 20, .write 2 5 21,
    .immediate 9 2 2100 33, .publish 2, .undoTo 2 1, .collect 1]

theorem column_reads_are_versioned_writeAfterNewerCommit :
    ∃ c, run Column.step (Column.start fun _ => 0) writeAfterNewerCommit = some c ∧
      c.getAt 5 (.transaction 2 0) = 20 ∧ c.getAt 5 (.atEpoch 1) = 10 ∧
      c.getAt 2100 (.atEpoch 1) = 0 ∧ c.getAt 2100 (.atEpoch 2) = 33 := by
  have heval : (run Versioned.step (Versioned.start fun _ => 0) writeAfterNewerCommit).map
      (fun m => (m.floor, m.ownWrite 2 5, m.readBy 5 (.transaction 2 0), m.readBy 5 (.atEpoch 1),
        m.readBy 2100 (.atEpoch 1), m.readBy 2100 (.atEpoch 2))) =
      some (1, some 20, 20, 10, 0, 33) := by decide +kernel
  obtain ⟨m, hrun, hm⟩ := map_eq_some_iff.mp heval
  simp only [Prod.mk.injEq] at hm
  obtain ⟨hfloor, hwrote, hown, hold, hbefore, hafter⟩ := hm
  obtain ⟨c, hc, hreads, -⟩ := column_reads_are_versioned hrun
  refine ⟨c, hc, ?_, ?_, ?_, ?_⟩
  · exact (hreads 5 _ (.inr (by simp [hwrote]))).trans hown
  · exact (hreads 5 _ (.inl (by rw [hfloor]; exact le_refl 1))).trans hold
  · exact (hreads 2100 _ (.inl (by rw [hfloor]; exact le_refl 1))).trans hbefore
  · exact (hreads 2100 _ (.inl (by rw [hfloor]; exact Nat.le_succ 1))).trans hafter

end Grafeo.RowGroup
