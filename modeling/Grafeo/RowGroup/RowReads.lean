import Grafeo.RowGroup.StoreCommits

/-!
# Grafeo.RowGroup.RowReads

**The commits a row bears the stamps of**: all at or below an epoch (`Row.StampsBelow`). A
transaction's writes bring no commit's stamp, and its rollback none; a commit and a write
stamped at once bring their own epoch; a collect brings none.

**What a reader sees of a row** (`Row.seen`). A reader other than the transaction that wrote a
row sees the row the transaction found. A collect changes nothing for the readers at or after
its horizon, because the values kept of a cell stand in the order of their commits
(`Cell.Sorted`).
-/

namespace Grafeo.RowGroup

variable {Name Value : Type}

/-- A commit's stamp is at or below `bound`. -/
def Stamp.AtMost (bound : Nat) : Stamp → Prop
  | .epoch e => e ≤ bound
  | .pending _ => True

theorem Stamp.AtMost.mono {bound bound' : Nat} {stamp : Stamp} (h : stamp.AtMost bound)
    (hle : bound ≤ bound') : stamp.AtMost bound' := by
  cases stamp with
  | pending t => exact trivial
  | epoch e => exact h.trans hle

/-- Every stamp of the cell is at or below `bound`. -/
def Cell.StampsBelow {T : Type} (cell : Cell T) (bound : Nat) : Prop :=
  ∀ entry ∈ cell.kept, entry.1.AtMost bound

/-- Every commit's stamp in the row is at or below `bound`. -/
structure Row.StampsBelow (row : Row Name Value) (bound : Nat) : Prop where
  created : ∀ stamp ∈ row.version.created, stamp.AtMost bound
  deleted : ∀ stamp ∈ row.version.deleted, stamp.AtMost bound
  labels : row.labels.StampsBelow bound
  values : ∀ key, (row.values key).StampsBelow bound

section Cells

variable {T : Type} {base cell : Cell T} {bound bound' t : Nat}

theorem Cell.StampsBelow.mono (h : cell.StampsBelow bound) (hle : bound ≤ bound') :
    cell.StampsBelow bound' := fun entry hentry => (h entry hentry).mono hle

theorem Cell.StampsBelow.write (h : cell.StampsBelow bound) {pushed : Option Stamp}
    (hpushed : ∀ stamp ∈ pushed, stamp.AtMost bound) (value : T) :
    (cell.write pushed value).StampsBelow bound := by
  exact Cell.forall_kept_write.mpr ⟨h, hpushed⟩

theorem Cell.Changed.stampsBelow_iff (h : base.Changed t cell) :
    cell.StampsBelow bound ↔ base.StampsBelow bound := by
  rcases h with rfl | hkept
  · rfl
  · have hown : (Stamp.pending t).AtMost bound := trivial
    rw [Cell.StampsBelow, hkept]
    simp only [List.forall_mem_append, List.forall_mem_singleton, hown, and_true]
    rfl

theorem Cell.StampsBelow.restamp (h : cell.StampsBelow bound) {epoch : Nat} (hle : epoch ≤ bound) :
    (cell.restamp t epoch).StampsBelow bound := by
  intro entry hentry
  obtain ⟨old, hold, rfl⟩ := List.mem_map.mp hentry
  simp only [Updates.restamp]
  split
  · exact hle
  · exact h old hold

theorem Cell.StampsBelow.collect (h : cell.StampsBelow bound) (horizon : Nat) :
    (cell.collect horizon).StampsBelow bound :=
  fun entry hentry => h entry (List.mem_of_mem_filter hentry)

end Cells

namespace Row

variable {base row : Row Name Value} {bound bound' t : Nat}

theorem StampsBelow.empty (bound : Nat) : ({} : Row Name Value).StampsBelow bound where
  created := by simp
  deleted := by simp
  labels := by simp [Cell.StampsBelow]
  values := by simp [Cell.StampsBelow]

theorem StampsBelow.mono (h : row.StampsBelow bound) (hle : bound ≤ bound') :
    row.StampsBelow bound' where
  created stamp hstamp := (h.created stamp hstamp).mono hle
  deleted stamp hstamp := (h.deleted stamp hstamp).mono hle
  labels := h.labels.mono hle
  values key := (h.values key).mono hle

/-- A transaction's writes bring no commit's stamp. -/
theorem Shape.stampsBelow_iff (h : Shape t base row) :
    row.StampsBelow bound ↔ base.StampsBelow bound := by
  cases h with
  | same heq => rw [heq]
  | created hempty hcreated hdeleted hlabels hvalues =>
    subst hempty
    refine ⟨fun _ => .empty bound, fun _ => ⟨?_, ?_, ?_, ?_⟩⟩
    · simp [hcreated, Stamp.AtMost]
    · rcases hdeleted with hd | hd <;> simp [hd, Stamp.AtMost]
    · simp [Cell.StampsBelow, hlabels]
    · simp [Cell.StampsBelow, hvalues]
  | changed he hdeleted hcreated hrow hlabels hvalues hends =>
    have hrowDeleted : ∀ stamp ∈ row.version.deleted, stamp.AtMost bound := by
      rcases hrow with hd | hd <;> simp [hd, Stamp.AtMost]
    constructor
    · exact fun h => ⟨hcreated ▸ h.created, by simp [hdeleted], hlabels.stampsBelow_iff.mp h.labels,
        fun key => (hvalues key).stampsBelow_iff.mp (h.values key)⟩
    · exact fun h => ⟨hcreated ▸ h.created, hrowDeleted, hlabels.stampsBelow_iff.mpr h.labels,
        fun key => (hvalues key).stampsBelow_iff.mpr (h.values key)⟩

theorem StampsBelow.put [DecidableEq Name] (h : row.StampsBelow bound) {stamp : Stamp}
    {pushed : Option Stamp} (hstamp : stamp.AtMost bound)
    (hpushed : ∀ stamp ∈ pushed, stamp.AtMost bound) (op : RowOp Name Value) :
    (row.put stamp pushed op).StampsBelow bound := by
  cases op with
  | create labels values ends =>
    exact ⟨by simpa [Row.put] using hstamp, by simp [Row.put], by simp [Row.put, Cell.StampsBelow],
      by simp [Row.put, Cell.StampsBelow]⟩
  | delete => exact ⟨h.created, by simpa [Row.put] using hstamp, h.labels, h.values⟩
  | label label add => exact ⟨h.created, h.deleted, h.labels.write hpushed _, h.values⟩
  | value key value =>
    refine ⟨h.created, h.deleted, h.labels, fun key' => ?_⟩
    simp only [Row.put, Function.update_apply]
    split
    · exact (h.values key).write hpushed value
    · exact h.values key'

theorem StampsBelow.restamp (h : row.StampsBelow bound) {epoch : Nat} (hle : epoch ≤ bound) :
    (row.restamp t epoch).StampsBelow bound := by
  have hstamp : ∀ stamp : Option Stamp, (∀ s ∈ stamp, s.AtMost bound) →
      ∀ s ∈ stamp.map (Updates.restamp t epoch), s.AtMost bound := by
    intro stamp hs s hmem
    obtain ⟨old, hold, rfl⟩ := Option.mem_map.mp hmem
    unfold Updates.restamp
    split
    · exact hle
    · exact hs old hold
  exact ⟨hstamp _ h.created, hstamp _ h.deleted, h.labels.restamp hle,
    fun key => (h.values key).restamp hle⟩

theorem StampsBelow.collect (h : row.StampsBelow bound) (horizon : Nat) (collapsed : Bool) :
    (row.collect horizon collapsed).StampsBelow bound := by
  unfold Row.collect
  split
  · exact .empty bound
  refine ⟨?_, ?_, h.labels.collect horizon, fun key => (h.values key).collect horizon⟩
  · cases collapsed with
    | false => exact h.created
    | true =>
      simp only [if_true, RowVersion.collapse]
      split <;> simp [always, Stamp.AtMost]
  · cases collapsed with
    | false => exact h.deleted
    | true =>
      simp only [if_true, RowVersion.collapse]
      split <;> simp [always, Stamp.AtMost]

end Row

open List Option Bool RowVersion

variable {Name Value : Type} {pushed : Option Stamp}

/-! ### Cells -/

namespace Cell

variable {T : Type} {base cell : Cell T} {read : Read} {t : Nat} {kept : List (Stamp × T)}

/-- The values are kept in the order of the commits over them, a pending one last. -/
def Sorted (cell : Cell T) : Prop :=
  cell.kept.Pairwise fun a b => ∀ x, b.1.committedBy x = true → a.1.committedBy x = true

/-- A write over every commit of the cell, or of an open transaction, comes last. -/
theorem Sorted.write (h : cell.Sorted)
    (hpushed : ∀ stamp ∈ pushed, ∀ entry ∈ cell.kept, ∀ x, stamp.committedBy x = true →
      entry.1.committedBy x = true) (value : T) : (cell.write pushed value).Sorted := by
  cases pushed with
  | none => simpa [Sorted, Cell.write] using h
  | some stamp =>
    exact Lib.pairwise_concat.mpr ⟨h, hpushed stamp rfl⟩

theorem Sorted.collect (h : cell.Sorted) (horizon : Nat) : (cell.collect horizon).Sorted :=
  h.sublist (filter_sublist ..)

/-- A commit later than every other of the cell keeps the order. -/
theorem Changed.sorted_restamp (h : base.Changed t cell) (hbase : base.NoPending)
    {bound epoch : Nat} (hbelow : base.StampsBelow bound) (hle : bound ≤ epoch)
    (hsorted : cell.Sorted) : (cell.restamp t epoch).Sorted := by
  have hrestamp : (base.restamp t epoch).kept = base.kept := by rw [hbase.restamp_eq]
  rcases h with rfl | hkept
  · rwa [hbase.restamp_eq]
  have hcell : (cell.restamp t epoch).kept = base.kept ++ [(.epoch epoch, base.value)] := by
    simp only [Cell.restamp] at hrestamp ⊢
    rw [hkept, map_append, hrestamp]
    simp [Updates.restamp]
  rw [Sorted, hkept, Lib.pairwise_concat] at hsorted
  rw [Sorted, hcell, Lib.pairwise_concat]
  refine ⟨hsorted.1, fun a ha x hx => ?_⟩
  have hpending := hbase a ha
  have hstamp := hbelow a ha
  have hx : epoch ≤ x := by simpa [Stamp.committedBy] using hx
  cases hs : a.1 with
  | pending u =>
    rw [hs] at hpending
    cases hpending
  | epoch e =>
    rw [hs] at hstamp
    have : e ≤ bound := hstamp
    simp only [Stamp.committedBy, decide_eq_true_eq]
    omega

/-- A reader that sees every write of the cell reads the newest value. -/
theorem readAt_of_sees (h : ∀ entry ∈ cell.kept, read.sees entry.1 = true) :
    cell.readAt read = cell.value := by
  rw [readAt, Updates.rowScan_of_sees]
  · rfl
  · exact fun entry hentry => h entry (mem_reverse.mp hentry)

/-- What a reader reads is the newest value or one kept. -/
theorem readAt_cases (cell : Cell T) (read : Read) :
    cell.readAt read = cell.value ∨ ∃ entry ∈ cell.kept, entry.2 = cell.readAt read := by
  have hscan : ∀ (kept : List (Stamp × T)) (saved : Option T) (v : T),
      Updates.rowScan read kept saved = some v → saved = some v ∨ ∃ entry ∈ kept, entry.2 = v := by
    intro kept
    induction kept with
    | nil => exact fun saved v h => .inl h
    | cons entry kept ih =>
      intro saved v h
      simp only [Updates.rowScan] at h
      split at h
      · rcases ih _ _ h with hsaved | ⟨older, holder, hv⟩
        · exact .inr ⟨_, mem_cons_self, some.inj hsaved⟩
        · exact .inr ⟨older, mem_cons_of_mem _ holder, hv⟩
      · split at h
        · cases h
        · exact .inl h
  unfold readAt
  cases h : Updates.rowScan read cell.kept.reverse none with
  | none => exact .inl rfl
  | some v =>
    rcases hscan _ _ _ h with hnone | ⟨entry, hentry, hv⟩
    · cases hnone
    · exact .inr ⟨entry, mem_reverse.mp hentry, hv⟩

/-- What a scan has saved is what it reads unless it finds an older value to read. -/
theorem rowScan_saved (h : ∀ entry ∈ kept, entry.1.isPending = false) (saved value : T) :
    (Updates.rowScan read kept (some saved)).getD value =
      (Updates.rowScan read kept none).getD saved := by
  induction kept generalizing saved value with
  | nil => rfl
  | cons entry kept ih =>
    obtain ⟨stamp, v⟩ := entry
    have hstamp : stamp.isPending = false := h (stamp, v) mem_cons_self
    have hrest : ∀ entry ∈ kept, entry.1.isPending = false := fun entry hentry =>
      h entry (mem_cons_of_mem _ hentry)
    simp only [Updates.rowScan, hstamp]
    cases hsees : read.sees stamp with
    | false =>
      simp only [Bool.not_false, if_true]
      rw [ih hrest, ih hrest]
    | true => simp

/-- A reader that does not see the writer reads the cell the writer found. -/
theorem Changed.readAt_eq (h : base.Changed t cell) (hbase : base.NoPending)
    (hread : read.sees (.pending t) = false) : cell.readAt read = base.readAt read := by
  rcases h with rfl | hkept
  · rfl
  · rw [readAt, readAt, hkept, reverse_concat]
    simp only [Updates.rowScan, hread, Bool.not_false, if_true]
    exact rowScan_saved (fun entry hentry => hbase entry (mem_reverse.mp hentry)) ..

/-- A collect takes out nothing that a reader at or after the horizon reads. -/
theorem readAt_collect {horizon : Nat} (hread : horizon ≤ read.epochOf) (hsorted : cell.Sorted) :
    (cell.collect horizon).readAt read = cell.readAt read := by
  obtain ⟨value, kept⟩ := cell
  suffices h : ∀ saved, Updates.rowScan read
      (kept.filter fun entry => !entry.1.committedBy horizon).reverse saved =
        Updates.rowScan read kept.reverse saved by
    simp [readAt, collect, h]
  unfold Sorted at hsorted
  intro saved
  induction kept using reverseRecOn generalizing saved with
  | nil => rfl
  | append_singleton kept entry ih =>
    obtain ⟨stamp, v⟩ := entry
    obtain ⟨hpair, -, hlast⟩ := pairwise_append.mp hsorted
    rw [filter_append, reverse_append, reverse_append]
    cases hc : stamp.committedBy horizon with
    | true =>
      -- Everything older is committed by the horizon too, and the scan stops here.
      have hold : kept.filter (fun entry => !entry.1.committedBy horizon) = [] := by
        simp only [filter_eq_nil_iff, not_eq_true', not_eq_false]
        exact fun entry hentry => hlast entry hentry _ (mem_singleton.mpr rfl) horizon hc
      have hstamp : stamp.isPending = false := by
        cases stamp with
        | pending t => cases hc
        | epoch e => rfl
      simp [hold, hc, Updates.rowScan, Read.sees_of_committedBy hc hread, hstamp]
    | false =>
      simp only [hc, filter_cons, Bool.not_false, if_true, filter_nil,
        reverse_singleton, singleton_append, Updates.rowScan]
      cases read.sees stamp with
      | false => simpa using ih hpair (some v)
      | true => simp

end Cell

/-! ### Rows -/

/-- What a reader sees of a row. -/
structure RowImage (Name Value : Type) where
  labels : Finset Name
  values : Name → Option Value
  ends : Option (Ends Name)

namespace Row

variable {base row : Row Name Value} {read : Read} {t horizon : Nat}

/-- The row as `read` sees it. -/
def seen (row : Row Name Value) (read : Read) : Option (RowImage Name Value) :=
  if row.version.visible read then
    some { labels := row.labels.readAt read, values := fun key => (row.values key).readAt read,
           ends := row.ends }
  else none

/-- The cells of the row are kept in the order of the commits. -/
structure Sorted (row : Row Name Value) : Prop where
  labels : row.labels.Sorted
  values : ∀ key, (row.values key).Sorted

theorem Sorted.empty : ({} : Row Name Value).Sorted :=
  ⟨.nil, fun _ => .nil⟩

theorem Sorted.collect (h : row.Sorted) (horizon : Nat) (collapsed : Bool) :
    (row.collect horizon collapsed).Sorted := by
  unfold Row.collect
  split
  · exact .empty
  · exact ⟨h.labels.collect horizon, fun key => (h.values key).collect horizon⟩

/-- A write over every commit of the row, or of an open transaction, comes last. -/
theorem Sorted.put [DecidableEq Name] (h : row.Sorted) {stamp : Stamp}
    (hlabels : ∀ stamp ∈ pushed, ∀ entry ∈ row.labels.kept, ∀ x, stamp.committedBy x = true →
      entry.1.committedBy x = true)
    (hvalues : ∀ key, ∀ stamp ∈ pushed, ∀ entry ∈ (row.values key).kept, ∀ x,
      stamp.committedBy x = true → entry.1.committedBy x = true) (op : RowOp Name Value) :
    (row.put stamp pushed op).Sorted := by
  cases op with
  | create labels values ends => exact ⟨.nil, fun _ => .nil⟩
  | delete => exact ⟨h.labels, h.values⟩
  | label label add => exact ⟨h.labels.write hlabels _, h.values⟩
  | value key value =>
    refine ⟨h.labels, fun key' => ?_⟩
    simp only [Row.put, Function.update_apply]
    split
    · exact (h.values key).write (hvalues key) value
    · exact h.values key'

/-- A commit later than every other of the row keeps the order. -/
theorem Shape.sorted_restamp (h : Shape t base row) (hbase : base.NoPending) {bound epoch : Nat}
    (hbelow : row.StampsBelow bound) (hle : bound ≤ epoch) (hsorted : row.Sorted) :
    (row.restamp t epoch).Sorted := by
  have hbelow := h.stampsBelow_iff.mp hbelow
  cases h with
  | same heq => rwa [heq, hbase.restamp_eq, ← heq]
  | created _ _ _ hlabels hvalues =>
    exact ⟨by simp [Cell.Sorted, Row.restamp, Cell.restamp, hlabels], fun key => by
      simp [Cell.Sorted, Row.restamp, Cell.restamp, hvalues key]⟩
  | changed _ _ _ _ hlabels hvalues =>
    exact ⟨hlabels.sorted_restamp hbase.labels hbelow.labels hle hsorted.labels, fun key =>
      (hvalues key).sorted_restamp (hbase.values key) (hbelow.values key) hle
        (hsorted.values key)⟩

/-- A reader that does not see the writer sees the row the writer found. -/
theorem Shape.seen_eq (h : Shape t base row) (hbase : base.NoPending)
    (hread : read.sees (.pending t) = false) : row.seen read = base.seen read := by
  cases h with
  | same heq => rw [heq]
  | created hempty hcreated =>
    simp [seen, hempty, visible, hcreated, Read.seesSome, hread]
  | changed he hdeleted hcreated hrow hlabels hvalues hends =>
    have hvisible : row.version.visible read = base.version.visible read := by
      rcases hrow with hd | hd <;>
        simp [visible, hcreated, hdeleted, hd, Read.seesSome, hread]
    have hcells : (fun key => (row.values key).readAt read) =
        fun key => (base.values key).readAt read :=
      funext fun key => (hvalues key).readAt_eq (hbase.values key) hread
    simp [seen, hvisible, hlabels.readAt_eq hbase.labels hread, hcells, hends]

/-- **A collect changes nothing of a row** for the readers at or after its horizon. -/
theorem seen_collect {collapsed : Bool} (hread : horizon ≤ read.epochOf) (hsorted : row.Sorted)
    (hsettled : collapsed = true → row.version.SettledBy horizon) :
    (row.collect horizon collapsed).seen read = row.seen read := by
  have hcells : (fun key => ((row.values key).collect horizon).readAt read) =
      fun key => (row.values key).readAt read :=
    funext fun key => Cell.readAt_collect hread (hsorted.values key)
  by_cases hgone : collapsed = true ∧ row.version.deleted.isSome = true
  · have hvisible := visible_collapse (hsettled hgone.1) hread
    have hnone : row.version.collapse = {} := by
      obtain ⟨d, hd⟩ := isSome_iff_exists.mp hgone.2
      simp [collapse, hd]
    have hunseen : row.version.visible read = false := by
      rw [← hvisible, hnone]
      rfl
    have hempty : visible {} read = false := rfl
    rw [collect, if_pos hgone]
    simp [seen, hunseen, hempty]
  · rw [collect, if_neg hgone]
    have hvisible : (if collapsed = true then row.version.collapse else row.version).visible read =
        row.version.visible read := by
      cases collapsed with
      | false => rfl
      | true => exact visible_collapse (hsettled rfl) hread
    simp [seen, hvisible, hcells, Cell.readAt_collect hread hsorted.labels]

/-- A committed reader at or after every commit of a row sees its newest state, if nothing is
pending in it. -/
theorem seen_of_below {epoch : Nat} (hpending : row.NoPending) (hbelow : row.StampsBelow epoch) :
    row.seen (.atEpoch epoch) =
      if row.version.created.isSome = true ∧ row.version.deleted = none then
        some { labels := row.labels.value, values := fun key => (row.values key).value,
               ends := row.ends }
      else none := by
  have hsees : ∀ stamp : Stamp, stamp.isPending = false → stamp.AtMost epoch →
      Read.sees (.atEpoch epoch) stamp = true := fun stamp hstamp hle => by
    cases stamp with
    | pending t => cases hstamp
    | epoch e => exact Read.sees_epoch.mpr hle
  have hcell : ∀ {T : Type} (cell : Cell T), cell.NoPending → cell.StampsBelow epoch →
      cell.readAt (.atEpoch epoch) = cell.value := fun cell hpending hbelow =>
    Cell.readAt_of_sees fun entry hentry => hsees _ (hpending entry hentry) (hbelow entry hentry)
  have hvisible : row.version.visible (.atEpoch epoch) = true ↔
      row.version.created.isSome = true ∧ row.version.deleted = none := by
    have hsome : ∀ stamp : Option Stamp, (∀ s ∈ stamp, s.isPending = false) →
        (∀ s ∈ stamp, s.AtMost epoch) →
        Read.seesSome (.atEpoch epoch) stamp = stamp.isSome := fun stamp hs hle => by
      cases stamp with
      | none => rfl
      | some s => exact hsees s (hs s rfl) (hle s rfl)
    rw [visible, hsome _ hpending.created hbelow.created,
      hsome _ hpending.deleted hbelow.deleted]
    cases row.version.deleted <;> simp
  have hcells : (fun key => (row.values key).readAt (.atEpoch epoch)) =
      fun key => (row.values key).value :=
    funext fun key => hcell _ (hpending.values key) (hbelow.values key)
  simp [seen, hvisible, hcell _ hpending.labels hbelow.labels, hcells]

end Row

end Grafeo.RowGroup
