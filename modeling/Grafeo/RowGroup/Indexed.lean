import Grafeo.RowGroup.IndexEntries
import Grafeo.RowGroup.Listed

/-!
# Grafeo.RowGroup.Indexed

**The property indexes follow the rows** in every state of a run (`Reachable.indexed`),
whatever indexes were made or dropped and whenever: the node of every reader that sees a value
is under it, and no entry is of a value no version holds.

**The answers of the store to a reader**, and when two stores answer alike: the reads of a
node or an edge, the scans, the counts and the adjacency are all read of the rows as the
reader sees them (`Row.seen`); an index lookup finds what a scan of them finds
(`lookup_spec`), so long as the store still answers the reader.
-/

namespace Grafeo.RowGroup

open List Option Function Lib Row Tables

variable {Name Value : Type} {row : Row Name Value} {entity : Entity}
  {pre undone : List (Change Name Value)} {label : Option Name}

/-! ### Writes -/

namespace Row

variable {row : Row Name Value} {key : Name} {value : Option Value} {pushed : Option Stamp}
  {stamp : Stamp}

/-- What a write of a value puts in its cell: the value, and what it replaced if that is kept. -/
theorem holds_write {v : Value} {cell : Cell (Option Value)} :
    ((cell.write pushed value).value = some v ∨
      ∃ entry ∈ (cell.write pushed value).kept, entry.2 = some v) ↔
    value = some v ∨ (∃ entry ∈ cell.kept, entry.2 = some v) ∨
      pushed.isSome = true ∧ cell.value = some v := by
  cases pushed <;> simp [Cell.write, or_and_right, exists_or]

variable [DecidableEq Name]

theorem rewrites_put (row : Row Name Value) (stamp : Stamp) (pushed : Option Stamp) (key : Name)
    (value : Option Value) :
    row.Rewrites (row.put stamp pushed (.value key value)) key (row.values key).value where
  version := rfl
  labels := rfl
  other k hk := by simp [put, hk]
  new v hholds := by
    simp only [Holds, put, update_self, holds_write] at hholds ⊢
    rcases hholds with hnew | hkept | ⟨-, hold⟩
    · exact .inr hnew
    · exact .inl (.inr hkept)
    · exact .inl (.inl hold)
  old v hholds := by
    simp only [Holds, put, update_self, holds_write] at hholds ⊢
    rcases hholds with hold | hkept
    · exact .inr hold
    · exact .inl (.inr (.inl hkept))

/-- The undo of a value write rewrites it back. -/
theorem Rewrites.back {row' : Row Name Value} (h : row.Rewrites row' key (row.values key).value) :
    row'.Rewrites row key (row'.values key).value :=
  ⟨h.version.symm, h.labels.symm, fun k hk => (h.other k hk).symm, h.old, h.new⟩

/-- What a write of the labels leaves some version with. -/
theorem covered_write {l : Name} {cell : Cell (Finset Name)} {labels : Finset Name} :
    (∃ entry ∈ (cell.write pushed labels).kept, l ∈ entry.2) ↔
      (∃ entry ∈ cell.kept, l ∈ entry.2) ∨ pushed.isSome = true ∧ l ∈ cell.value := by
  cases pushed <;> simp [Cell.write, or_and_right, exists_or]

theorem mem_withLabel_of_ne {l label : Name} (h : label ≠ l) (add : Bool) (labels : Finset Name) :
    l ∈ withLabel label add labels ↔ l ∈ labels := by
  cases add <;> simp [withLabel, h.symm]

theorem relabels_put (row : Row Name Value) (stamp : Stamp) (pushed : Option Stamp) (label : Name)
    (add : Bool) : row.Relabels (row.put stamp pushed (.label label add)) (some label) where
  version := rfl
  values := rfl
  other l hl := by
    obtain ⟨written, hwritten, hne⟩ := hl
    cases hwritten
    simp only [Covered, put, mem_some_iff, forall_eq', covered_write]
    rw [show (row.labels.write pushed (withLabel label add row.labels.value)).value =
      withLabel label add row.labels.value from rfl, mem_withLabel_of_ne hne]
    constructor
    · rintro (hnewest | hkept | ⟨-, hnewest⟩)
      · exact .inl hnewest
      · exact .inr hkept
      · exact .inl hnewest
    · exact fun hcov => hcov.imp_right .inl
  kept l hkept := by
    simp only [put, covered_write] at hkept
    rintro l' hl'
    cases hl'
    rcases hkept with hkept | ⟨-, hold⟩
    · exact .inr hkept
    · exact .inl hold

end Row

namespace Store

variable [DecidableEq Name] [DecidableEq Value] {s s' s₁ : Store Name Value} {mode : Mode}
  {op : DataOp Name Value} {applied : Applied Name Value} {pushed : Option Stamp}
  {version : PendingVersion}

/-- A row with a delete exists. -/
theorem has_of_deleted {e : Entity} (h : (s.version e).deleted.isSome = true) : s.has e = true := by
  by_contra hnot
  have hget : s.version e = {} := Versions.has_eq_false.mp (Bool.eq_false_of_not_eq_true hnot)
  rw [hget] at h
  cases h

/-- A row of a vector that is not listed has no delete, and nothing of it is kept. -/
theorem Listed.settled (h : s.Listed) {e : Entity} (hnot : (e.table, vectorOf e.raw) ∉ s.listed) :
    (s.row e).version.deleted = none ∧ (s.row e).labels.kept = [] ∧
      ∀ key, ((s.row e).values key).kept = [] := by
  refine ⟨?_, ?_, fun key => ?_⟩
  · cases hd : (s.row e).version.deleted with
    | none => rfl
    | some stamp =>
      rw [version_row] at hd
      exact absurd (h.stamped _ _ (stamped_of_deleted hd)) hnot
  · by_contra hne
    exact hnot (h.labels e hne)
  · by_contra hne
    exact hnot (h.values e key hne).1

/-- A collect takes no entry out of a vector that is not listed. -/
theorem Listed.drops_eq_false (h : s.Listed) {raw : Nat}
    (hnot : (Table.nodes, vectorOf raw) ∉ s.listed) (horizon : Nat) (label : Option Name)
    (key : Name) (value : Value) : s.drops horizon label key raw value = false := by
  obtain ⟨hdeleted, hlabels, hvalues⟩ := h.settled (e := .node raw) hnot
  have hd : (s.nodes.versions.get raw).deleted = none := hdeleted
  have hl : (s.labels.cell raw).kept = [] := hlabels
  have hv : ((s.nodes.columns key).cell raw).kept = [] := hvalues key
  cases label <;> simp [drops, droppedValues, hd, hl, hv]

/-- What a collect leaves in the indexes. -/
theorem unindexNodes_eq_filter (s : Store Name Value) (horizon : Nat) (raws : List Nat) :
    s.unindexNodes horizon raws = s.mapIndexes (s.collectedIndex horizon raws none)
        fun label => s.collectedIndex horizon raws (some label) := by
  unfold unindexNodes
  split
  next hempty =>
    simp only [Bool.and_eq_true, List.isEmpty_iff] at hempty
    obtain ⟨⟨property, onLabel⟩, hindexes⟩ : ∃ indexes, s.indexes = indexes := ⟨_, rfl⟩
    rw [hindexes] at hempty
    obtain ⟨rfl, rfl⟩ := hempty
    simp only [mapIndexes, hindexes, map_nil]
    rw [← hindexes]
  · exact foldl_unindexCollected (fun raw => has_of_deleted) raws

/-- The rows of a listed vector are among those of the listed row groups. -/
theorem mem_listedNodes {raw : Nat} (h : (Table.nodes, vectorOf raw) ∈ s.listed) :
    raw ∈ s.listedNodes := by
  simp only [listedNodes, rowsOf, mem_flatMap, mem_dedup, List.mem_map,
    mem_listedVectors, mem_range'_1]
  refine ⟨_, ⟨_, h, rfl⟩, ?_⟩
  unfold vectorOf vectorRows vectors rowsPerGroup
  omega

theorem mem_indexRows {key : Name} {rows : List Nat} {value : Value} {id : Nat} :
    (value, id) ∈ s.indexRows key rows ↔ id ∈ rows ∧ (s.row (.node id)).Holds key value := by
  have hfold : ∀ (index : PropertyIndex Value), (value, id) ∈ rows.foldl
      (fun index raw => PropertyIndex.insertAll index (s.everyValue raw key) raw) index ↔
      (value, id) ∈ index ∨ id ∈ rows ∧ (s.row (.node id)).Holds key value := by
    induction rows with
    | nil => simp
    | cons raw rows ih =>
      intro index
      rw [foldl_cons, ih, PropertyIndex.mem_insertAll, mem_everyValue, mem_cons]
      constructor
      · rintro ((⟨rfl, hholds⟩ | hold) | ⟨hid, hholds⟩)
        · exact .inr ⟨.inl rfl, hholds⟩
        · exact .inl hold
        · exact .inr ⟨.inr hid, hholds⟩
      · rintro (hold | ⟨rfl | hid, hholds⟩)
        · exact .inl (.inr hold)
        · exact .inl (.inl ⟨rfl, hholds⟩)
        · exact .inr ⟨hid, hholds⟩
  rw [indexRows, hfold]
  simp

/-- The ids of the nodes were handed out. -/
def NodesHanded (s : Store Name Value) : Prop :=
  ∀ id, s.has (.node id) = true → id < s.nextNodeId

/-- An index over the rows that are covered holds what they do. -/
theorem entriesOk_indexRows (hhanded : s.NodesHanded) {rows : List Nat}
    (hrows : ∀ id, id ∈ rows ↔ id ∈ s.nodeRows ∧ (s.row (.node id)).Covered label) (key : Name)
    (floor id : Nat) :
    EntriesOk floor (s.row (.node id)) label key fun value => (value, id) ∈ s.indexRows key rows := by
  have hnode : id ∈ s.nodeRows ↔ (s.row (.node id)).version.created.isSome = true := by
    simp only [nodeRows, mem_filter, mem_range]
    exact ⟨And.right, fun hsome => ⟨hhanded id hsome, hsome⟩⟩
  refine ⟨fun value hmem => ?_, fun value henters _ => ?_⟩
  · obtain ⟨hid, hholds⟩ := mem_indexRows.mp hmem
    obtain ⟨hin, hcovered⟩ := (hrows id).mp hid
    exact ⟨hnode.mp hin, hcovered, hholds⟩
  · exact mem_indexRows.mpr
      ⟨(hrows id).mpr ⟨hnode.mpr henters.created, henters.covered⟩, henters.holds⟩

variable (h : s.Indexed)
include h

section

variable (hindexes : s'.indexes = s.indexes) (hfloor : s'.floor = s.floor)
include hindexes hfloor

/-- A step that leaves the nodes' rows and the indexes. -/
theorem Indexed.of_nodes (hrow : ∀ id, s'.row (.node id) = s.row (.node id)) : s'.Indexed := by
  refine h.of_rows hindexes fun id label key => ?_
  rw [hrow id, hfloor]
  exact ⟨fun _ => .rfl, fun hgone => hgone⟩

/-- A step that writes the row of an edge. -/
theorem Indexed.of_edge {id : Nat} (hputs : s.Puts (.edge id) row s'.toTables) : s'.Indexed := by
  refine h.of_nodes hindexes hfloor fun node => ?_
  rw [hputs (.node node), if_neg (by simp)]

/-- A step that marks a node deleted, or not, of which no reader had lost sight. -/
theorem Indexed.of_deleted (hputs : s.Puts entity row s'.toTables)
    (hrow : row = { s.row entity with version := { s.version entity with deleted := row.version.deleted } })
    (hgone : ¬(s.row entity).Gone s.floor) : s'.Indexed := by
  refine h.of_rows hindexes fun id label key => ?_
  by_cases hid : Entity.node id = entity
  · subst hid
    rw [hputs (.node id), if_pos rfl, hrow]
    exact ⟨fun value => ⟨fun h => ⟨h.created, h.covered, h.holds⟩,
      fun h => ⟨h.created, h.covered, h.holds⟩⟩, fun hold => absurd hold hgone⟩
  · rw [hputs (.node id), if_neg hid, hfloor]
    exact ⟨fun _ => .rfl, fun hgone => hgone⟩

end

/-- A write of a value over `old`, or its undo, and what it does to the indexes. -/
theorem Indexed.indexWritten {tables : Tables Name Value}
    {key : Name} {old : Option Value} (hputs : s.Puts entity row tables)
    (hrow : (s.row entity).Rewrites row key old) (hhas : tables.has entity = true) :
    ({ s with toTables := tables : Store Name Value }.indexWritten entity key old).Indexed := by
  cases entity with
  | edge id => exact h.of_edge rfl rfl hputs
  | node id =>
    refine Indexed.indexValue (s := { s with toTables := tables }) h
      ⟨rfl, rfl, hhas, fun other hne => ?_⟩ ?_
    · exact (hputs (.node other)).trans (if_neg (by simpa using hne))
    · have hafter := hputs (.node id)
      rw [if_pos rfl] at hafter
      rw [← hafter] at hrow
      exact hrow

/-- A write of a node's labels, or its undo, and what it does to the indexes. -/
theorem Indexed.indexRelabelled {after : Store Name Value} {id : Nat}
    (hindexes : after.indexes = s.indexes)
    (hfloor : after.floor = s.floor) (hputs : s.Puts (.node id) row after.toTables)
    (hrow : (s.row (.node id)).Relabels row label) (hhas : after.has (.node id) = true) :
    (after.indexLabels id label).Indexed := by
  refine h.indexLabels ⟨hindexes, hfloor, hhas, fun other hne => ?_⟩ ?_
  · exact (hputs (.node other)).trans (if_neg (by simpa using hne))
  · rw [hputs (.node id), if_pos rfl]
    exact hrow

section

variable (hs : s.Sound)
include hs

/-- **A write keeps the indexes in line.** -/
theorem Indexed.written (happly : s.applyOp op mode = .ok (s₁, applied))
    (hwritten : s.Written op mode pushed version s₁) : s₁.Indexed := by
  have hputs := hwritten.puts
  have hhas := hwritten.has
  -- A value write: of a node through its indexes, of an edge through none.
  have hvalue : ∀ {entity key value isSet}, op.entity = entity → op.rowOp = .value key value →
      s.writeValue entity key value isSet mode = .ok (s₁, applied) → s₁.Indexed := by
    intro entity key value isSet hentity hop hwrite
    rcases writeValue_cases hwrite with ⟨rfl, -⟩ | ⟨-, -, -, rfl⟩
    · exact h
    · rw [indexWritten_eq, hentity] at hhas
      rw [indexWritten_eq, hentity, hop] at hputs
      exact h.indexWritten hputs (rewrites_put ..) hhas
  have hlabel : ∀ {id label add}, op.entity = .node id → op.rowOp = .label label add →
      s.writeLabel id label add mode = .ok (s₁, applied) → s₁.Indexed := by
    intro id label add hentity hop hwrite
    rcases writeLabel_cases hwrite with ⟨rfl, -⟩ | ⟨-, -, -, rfl⟩
    · exact h
    · rw [indexLabels_eq, hentity] at hhas
      rw [indexLabels_eq, hentity, hop] at hputs
      exact h.indexRelabelled rfl rfl hputs (relabels_put ..) hhas
  cases op with
  | createNode id labels properties =>
    obtain ⟨hnew, -, rfl⟩ := createNode_cases happly
    rw [indexCreated_eq] at hputs hhas
    have hrow := (hputs (.node id)).trans (if_pos rfl)
    refine h.indexCreated ⟨rfl, rfl, hhas, fun other hne => ?_⟩ ?_ ?_ fun key => ?_
    · exact (hputs (.node other)).trans (if_neg fun heq => hne (Entity.node.inj heq))
    · rw [hs.blank hnew]
    · exact congrArg (fun row => row.labels.kept) hrow
    · exact congrArg (fun row => (row.values key).kept) hrow
  | createEdge id src dst edgeType properties =>
    obtain ⟨-, -, -, -, rfl⟩ := createEdge_cases happly
    rw [linkEdge_eq] at hputs ⊢
    exact h.of_edge rfl rfl hputs
  | deleteNode id =>
    have hdeleted := hwritten.undeleted rfl
    rcases deleteNode_cases happly with ⟨rfl, -⟩ | ⟨-, -, -, -, rfl⟩
    · exact h
    · refine h.of_deleted rfl rfl hputs (by rw [← version_row]; rfl) fun hgone => ?_
      have hsome := hgone.isSome
      rw [version_row] at hsome
      rw [hdeleted] at hsome
      cases hsome
  | deleteEdge id =>
    rcases deleteEdge_cases happly with ⟨rfl, -⟩ | ⟨ends, -, -, -, -, rfl⟩
    · exact h
    · exact h.of_edge rfl rfl hputs
  | setNodeProperty | removeNodeProperty | setEdgeProperty | removeEdgeProperty =>
    exact hvalue rfl rfl happly
  | addNodeLabel | removeNodeLabel => exact hlabel rfl rfl happly

/-! ### Rollbacks -/

/-- A row taken out whole. -/
theorem Indexed.removeRow (hhas : s.has entity = true) : (s.removeRow entity).Indexed := by
  have hrestores := removeRow_restores hs entity
  have hfloor := hrestores.frame.floor
  cases entity with
  | edge id =>
    refine h.of_edge ?_ hfloor hrestores.puts
    simp only [Store.removeRow]
    rw [unlinkEdge_eq]
  | node id =>
    have hindexes : (s.removeRow (.node id)).indexes = (s.unindex id).indexes := rfl
    refine h.unindex hhas hindexes hfloor (fun other hne => ?_) ?_
    · rw [hrestores.puts (.node other), if_neg (by simpa using hne)]
    · rw [hrestores.puts (.node id), if_pos rfl]

/-- The undo of one write. -/
theorem Indexed.undoOp {t : Nat} {mid : Row Name Value} {before : Before Name Value}
    (hwrites : Writes t { op := op.rowOp, before, version } mid (s.row op.entity))
    (hundo : s.undoOp op before version (.pending t) = .ok s')
    (hrestores : s.Restores op.entity mid s') : s'.Indexed := by
  have hputs := hrestores.puts
  have hrow : s.row op.entity = mid.putBy t op.rowOp := hwrites.row
  have hhas' : mid.version.created.isSome = true → s'.has op.entity = true := fun hsome => by
    rw [has_row, hputs op.entity, if_pos rfl]
    exact hsome
  rcases undoOp_cases hundo with ⟨-, hcreated, rfl⟩ | ⟨hdelete, hdeleted, rfl⟩ |
    ⟨key, value, column, hop, hhas, rfl⟩ | ⟨id, label, add, labels, hop, hentity, hhas, rfl⟩
  · exact h.removeRow hs (by rw [has_eq, hcreated]; rfl)
  · have hop : op.rowOp = .delete := by cases op <;> first | rfl | cases hdelete
    refine h.of_deleted rfl rfl hputs ?_ fun hgone => ?_
    · rw [← version_row, hrow, hop]
      rfl
    · rw [Gone, version_row, hdeleted] at hgone
      cases hgone
  · have haccepts := hwrites.accepts
    simp only [hop] at haccepts
    rw [indexWritten_eq] at hputs hhas'
    refine h.indexWritten hputs ?_ (hhas' (Live.isSome_created haccepts.1))
    rw [hrow, hop]
    exact (rewrites_put ..).back
  · have haccepts := hwrites.accepts
    simp only [hop] at haccepts
    rw [indexLabels_eq, hentity] at hputs hhas'
    refine h.indexRelabelled rfl rfl hputs ?_ (hhas' (Live.isSome_created haccepts.1))
    rw [← hentity, hrow, hop]
    -- The undo relabels the write back.
    refine ⟨rfl, rfl, fun l hl => ?_, fun l hkept l' hl' => ?_⟩
    · obtain ⟨written, hwritten, -⟩ := hl
      cases hwritten
    · cases hl'
      exact .inr (covered_write.mpr (.inl hkept))

/-- The rows of a bulk range a transaction created are taken out. -/
theorem Indexed.undoBulk (range : BulkRange) (pending : Stamp) :
    (s.undoBulk range pending).Indexed := by
  unfold Store.undoBulk
  generalize (range' range.start (range.stop - range.start)).reverse = raws
  induction raws generalizing s with
  | nil => exact h
  | cons raw raws ih =>
    rw [foldl_cons]
    dsimp only
    split
    next hcreated =>
      refine ih (h.removeRow hs ?_) (removeRow_restores hs _).sound
      rw [has_eq, hcreated]
      rfl
    · exact ih h hs

/-- **A rollback keeps the indexes in line**, entry by entry. -/
theorem Indexed.undoAll {t : Nat} (hlogged : s.Logged t (pre ++ undone)) :
    (s.undoAll (.pending t) undone.reverse).1.Indexed := by
  -- By induction on the entries, the last first.
  induction undone using reverseRecOn generalizing s with
  | nil => exact h
  | append_singleton undone change ih =>
    rw [← append_assoc] at hlogged
    obtain ⟨s₁, hchange, hundoes⟩ := undo_change hs hlogged
    have hindexed : s₁.Indexed := by
      cases change with
      | data op before version =>
        obtain ⟨mid, hwrites, hnil⟩ := writes_of_last hlogged
        obtain ⟨s₂, hundo, hrestores⟩ := undoOp_restores hs hwrites hnil
        obtain rfl : s₂ = s₁ := Except.ok.inj (hundo.symm.trans hchange)
        exact h.undoOp hs hwrites hundo hrestores
      | bulk range rows =>
        cases hchange
        exact h.undoBulk hs range (.pending t)
    rw [reverse_concat, Store.undoAll, hchange]
    exact ih hindexed hundoes.sound (hundoes.logged hlogged)

end

/-! ### Commits and collects -/

/-- **A commit keeps the indexes in line**: it changes stamps alone. -/
theorem Indexed.committed {t epoch : Nat} {log : List (Change Name Value)}
    (hcommits : s.Commits t epoch log s') : s'.Indexed := by
  refine h.of_rows hcommits.indexes fun id label key => ?_
  rw [hcommits.row, hcommits.floor]
  have hkept : ∀ {T : Type} (cell : Cell T) (P : T → Prop),
      (∃ entry ∈ (cell.restamp t epoch).kept, P entry.2) ↔ ∃ entry ∈ cell.kept, P entry.2 := by
    intro T cell P
    simp only [Cell.restamp, List.mem_map]
    constructor
    · rintro ⟨_, ⟨entry, hentry, rfl⟩, hP⟩
      exact ⟨entry, hentry, hP⟩
    · rintro ⟨entry, hentry, hP⟩
      exact ⟨_, ⟨entry, hentry, rfl⟩, hP⟩
  have hcreated : ((s.row (.node id)).restamp t epoch).version.created.isSome =
      (s.row (.node id)).version.created.isSome := by simp [restamp]
  have hcovered : ((s.row (.node id)).restamp t epoch).Covered label ↔
      (s.row (.node id)).Covered label :=
    forall₂_congr fun l _ => or_congr .rfl (hkept _ fun labels => l ∈ labels)
  have hholds : ∀ value, ((s.row (.node id)).restamp t epoch).Holds key value ↔
      (s.row (.node id)).Holds key value :=
    fun value => or_congr .rfl (hkept _ fun v => v = some value)
  refine ⟨fun value => ⟨fun h => ?_, fun h => ?_⟩, fun hgone => ?_⟩
  · exact ⟨hcreated ▸ h.created, hcovered.mp h.covered, (hholds value).mp h.holds⟩
  · exact ⟨hcreated ▸ h.created, hcovered.mpr h.covered, (hholds value).mpr h.holds⟩
  -- A delete that is committed already keeps its stamp.
  unfold Gone at hgone ⊢
  simp only [restamp]
  cases hd : (s.row (.node id)).version.deleted with
  | none =>
    rw [hd] at hgone
    cases hgone
  | some stamp =>
    rw [hd] at hgone
    cases stamp with
    | pending u => cases hgone
    | epoch e => simpa [Updates.restamp] using hgone

/-- **A collect keeps the indexes in line.** -/
theorem Indexed.collected (hlisted : s.Listed) {horizon : Nat} {collapsed : Table → Nat → Bool}
    (hcollects : s.Collects horizon collapsed (s.collect horizon)) :
    (s.collect horizon).Indexed := by
  cases hempty : s.listed.isEmpty with
  | true => simpa [Store.collect, hempty] using h
  | false =>
    have hfloor : (s.collect horizon).floor = max s.floor horizon := by
      rw [hcollects.floor, hempty]
      rfl
    have hindexes : (s.collect horizon).indexes =
        (s.unindexNodes horizon s.listedNodes).indexes := by
      rw [hcollects.indexes, hempty]
      rfl
    intro label key index hhas id
    have hmap : (s.mapIndexes (s.collectedIndex horizon s.listedNodes none)
        fun label => s.collectedIndex horizon s.listedNodes (some label)).HasIndex label key
          index := by
      rw [← unindexNodes_eq_filter]
      cases label <;> simpa [HasIndex, hindexes] using hhas
    obtain ⟨old, hold, hindex⟩ := hasIndex_mapIndexes.mp hmap
    have hindex : index = s.collectedIndex horizon s.listedNodes label key old := by
      cases label <;> exact hindex
    subst hindex
    have hok := h label key old hold id
    rw [hcollects.row, hfloor]
    by_cases hin : (Table.nodes, vectorOf id) ∈ s.listed
    · have hsettled : collapsed .nodes (vectorOf id) = true →
          (s.row (.node id)).version.SettledBy horizon := fun hc => by
        exact hcollects.settled (.node id) hin hc
      have hcollected := hok.collected hsettled (le_max_right s.floor horizon)
        (le_max_left s.floor horizon)
      rw [if_pos (by exact hin)]
      simp only [mem_collectedIndex, mem_listedNodes hin, true_and, Bool.not_eq_true]
      exact hcollected
    · rw [if_neg (by exact hin)]
      simp only [mem_collectedIndex, hlisted.drops_eq_false hin, Bool.false_eq_true, and_false,
        not_false_eq_true, and_true]
      exact hok.of_iff (fun _ => .rfl) fun hgone => hgone.mono (le_max_left ..)

/-! ### Indexes made and dropped -/

theorem Indexed.createPropertyIndex (hhanded : s.NodesHanded) (property : Name) :
    (s.createPropertyIndex property).Indexed := by
  unfold Store.createPropertyIndex
  split
  · exact h
  intro label key index hhas id
  cases label with
  | some label => exact h (some label) key index hhas id
  | none =>
    rcases mem_append.mp hhas with hold | hnew
    · exact h none key index hold id
    · cases mem_singleton.mp hnew
      exact entriesOk_indexRows hhanded (fun _ => (and_iff_left (covered_none _)).symm) _ _ id

theorem Indexed.createLabelIndex (hhanded : s.NodesHanded) (label property : Name) :
    (s.createLabelIndex label property).Indexed := by
  unfold Store.createLabelIndex
  split
  · exact h
  intro l key index hhas id
  cases l with
  | none => exact h none key index hhas id
  | some l =>
    rcases mem_append.mp hhas with hold | hnew
    · exact h (some l) key index hold id
    · cases mem_singleton.mp hnew
      refine entriesOk_indexRows hhanded (fun id => ?_) _ _ id
      rw [mem_filter, covered_iff]

theorem Indexed.dropPropertyIndex (property : Name) : (s.dropPropertyIndex property).Indexed := by
  intro label key index hhas id
  cases label with
  | some label => exact h (some label) key index hhas id
  | none => exact h none key index (mem_of_mem_filter hhas) id

theorem Indexed.dropLabelIndex (label property : Name) :
    (s.dropLabelIndex label property).Indexed := by
  intro l key index hhas id
  cases l with
  | none => exact h none key index hhas id
  | some l => exact h (some l) key index (mem_of_mem_filter hhas) id

end Store

/-! ### Readers -/

namespace Row

variable {row : Row Name Value} {read : Read} {label : Option Name} {key : Name} {value : Value}

/-- What a reader sees of a row is in some version of it. -/
theorem enters_of_read (hvisible : row.version.visible read = true)
    (hlabel : ∀ l ∈ label, l ∈ row.labels.readAt read)
    (hvalue : (row.values key).readAt read = some value) : row.Enters label key value := by
  refine ⟨Store.isSome_of_visible hvisible, fun l hl => ?_, ?_⟩
  · rcases row.labels.readAt_cases read with hnewest | ⟨entry, hentry, heq⟩
    · exact .inl (hnewest ▸ hlabel l hl)
    · exact .inr ⟨entry, hentry, heq ▸ hlabel l hl⟩
  · rcases (row.values key).readAt_cases read with hnewest | ⟨entry, hentry, heq⟩
    · exact .inl (hnewest ▸ hvalue)
    · exact .inr ⟨entry, hentry, heq.trans hvalue⟩

end Row

/-! ### Runs -/

namespace Store

variable {s : Store Name Value} {read : Read} {label : Option Name} {key : Name} {value : Value}

/-- An index holds the value a reader sees, if the store still answers the reader. -/
theorem Indexed.mem_of_seen (h : s.Indexed) (hs : s.Sound) (hfloor : s.floor ≤ read.epochOf)
    {index : PropertyIndex Value} (hindex : s.HasIndex label key index) {id : Nat}
    (hvisible : s.nodeVisible id read = true) (hvalue : s.nodes.valueAt id key read = some value)
    (hlabel : ∀ l ∈ label, l ∈ s.labels.getAt id read) : (value, id) ∈ index := by
  have hseen : (s.row (.node id)).version.visible read = true := hvisible
  have hcell : ((s.row (.node id)).values key).readAt read = some value := by
    rw [← hvalue]
    exact ((hs.columns .nodes key).getAt_eq id read).symm
  have hlabels : ∀ l ∈ label, l ∈ (s.row (.node id)).labels.readAt read :=
    fun l hl => hs.labels.getAt_eq id read ▸ hlabel l hl
  refine (h label key index hindex id).complete value (enters_of_read hseen hlabels hcell)
    fun hgone => ?_
  rw [RowVersion.visible_of_deleted hgone hfloor] at hseen
  cases hseen

end Store

namespace Workload

variable [DecidableEq Name] [DecidableEq Value] {w w' : Workload Name Value}
  {tx : OpenTransaction Name Value} {action : Action Name Value} {store : Store Name Value}

theorem Ok.indexed_undo (h : w.Ok) (htx : tx ∈ w.transactions)
    (hentries : tx.changes.entries = pre ++ undone)
    (hundo : w.store.undo tx.id undone = (store, .ok ())) (hindexed : w.store.Indexed) :
    store.Indexed := by
  simp only [Store.undo, h.stamps tx htx] at hundo
  have hall := hindexed.undoAll h.sound (hentries ▸ h.owned.logged htx)
  rwa [hundo] at hall

/-- **Each step keeps the indexes in line with the rows.** -/
theorem Moves.keepsIndexed (hmoves : w.Moves action w') (h : w.Ok) (hlisted : w.store.Listed)
    (hindexed : w.store.Indexed) : w'.store.Indexed := by
  have hidles : ∀ store : Store Name Value, w.store.Idles store → store.Indexed :=
    fun store hidles => hindexed.of_nodes hidles.indexes hidles.floor fun id => by rw [hidles.row]
  -- What a write's call does after the write leaves the rows and the indexes.
  have hsettles : ∀ {s₁ store : Store Name Value} {op : DataOp Name Value} {mode : Mode},
      s₁.Settles op mode true store → s₁.Indexed → store.Indexed :=
    fun hsettles hindexed => hindexed.of_nodes hsettles.indexes hsettles.floor fun id => by
      rw [hsettles.toTables]
  have hhanded : w.store.NodesHanded := fun id hhas => h.handed (.node id) hhas
  cases hmoves with
  | opened => exact hindexed
  | idled idles | bulked mem idles => exact hidles _ idles
  | wrote mem transaction applied written settles
  | stamped mode_eq published later unowned applied written settles =>
    exact hsettles settles (hindexed.written h.sound applied written)
  | committed mem published later commit commits => exact hindexed.committed commits
  | rolledBack mem undo undoes => exact h.indexed_undo mem (nil_append _).symm undo hindexed
  | rolledBackTo mem undo undoes =>
    exact h.indexed_undo mem (take_append_drop ..).symm undo hindexed
  | published => exact hindexed
  | collected published snapshots collects => exact hindexed.collected hlisted collects
  | indexed created how =>
    rcases how with ⟨key, rfl⟩ | ⟨key, rfl⟩ | ⟨label, key, rfl⟩ | ⟨label, key, rfl⟩
    · exact hindexed.createPropertyIndex hhanded key
    · exact hindexed.dropPropertyIndex key
    · exact hindexed.createLabelIndex hhanded label key
    · exact hindexed.dropLabelIndex label key

theorem Reachable.indexed (h : w.Reachable) : w.store.Indexed := by
  have hboth : w.store.Listed ∧ w.store.Indexed := by
    refine h.invariant (fun w => w.store.Listed ∧ w.store.Indexed) (fun keepsIncoming history => ?_)
      fun w action w' hok hmoves ⟨hlisted, hindexed⟩ =>
        ⟨hmoves.listed hok hlisted, hmoves.keepsIndexed hok hlisted hindexed⟩
    refine ⟨Reachable.listed ⟨keepsIncoming, history, [], rfl⟩, fun label key index hhas => ?_⟩
    cases label <;> cases hhas
  exact hboth.2

/-- An index on a label made before its node, which loses the label while a reader still sees it
there. -/
def labelLost : List (Action Nat Nat) :=
  [.createLabelIndex 7 5, .begin 2 0, .write 2 (.createNode 0 [7] [(5, some 9)]), .commit 2 1,
    .publish 1, .begin 3 1, .begin 4 1, .write 3 (.removeNodeLabel 0 7), .commit 3 2, .publish 2]

end Workload

variable {Name Value : Type} {labels : List Name} {key : Name}

theorem Row.isSome_seen (row : Row Name Value) (read : Read) :
    (row.seen read).isSome = row.version.visible read := by
  unfold seen
  cases row.version.visible read <;> rfl

namespace Store

variable {s s' : Store Name Value} {read : Read}

/-! ### Reads of rows -/

theorem nodeVisible_eq_seen (s : Store Name Value) (id : Nat) (read : Read) :
    s.nodeVisible id read = ((s.row (.node id)).seen read).isSome :=
  (isSome_seen (s.row (.node id)) read).symm

theorem edgeVisible_eq_seen (s : Store Name Value) (id : Nat) (read : Read) :
    s.edgeVisible id read = ((s.row (.edge id)).seen read).isSome :=
  (isSome_seen (s.row (.edge id)) read).symm

theorem readNode_eq_seen (hs : s.Sound) (id : Nat) (read : Read) :
    s.readNode id read = ((s.row (.node id)).seen read).map fun image =>
      { labels := image.labels, properties := image.values } := by
  have hvisible : s.nodeVisible id read = (s.row (.node id)).version.visible read := rfl
  have hvalues : (fun key => s.nodes.valueAt id key read) =
      fun key => ((s.row (.node id)).values key).readAt read :=
    funext fun key => (hs.columns .nodes key).getAt_eq id read
  have hlabels : s.labels.getAt id read = (s.row (.node id)).labels.readAt read :=
    hs.labels.getAt_eq id read
  rw [readNode, hvisible, seen, hvalues, hlabels]
  split <;> rfl

theorem readEdge_eq_seen (hs : s.Sound) (id : Nat) (read : Read) :
    s.readEdge id read = ((s.row (.edge id)).seen read).bind fun image =>
      image.ends.map fun ends =>
        { src := ends.src, dst := ends.dst, edgeType := ends.edgeType,
          properties := image.values } := by
  have hvisible : s.edgeVisible id read = (s.row (.edge id)).version.visible read := rfl
  have hvalues : (fun key => s.edges.valueAt id key read) =
      fun key => ((s.row (.edge id)).values key).readAt read :=
    funext fun key => (hs.columns .edges key).getAt_eq id read
  rw [readEdge, hvisible, seen, hvalues]
  split
  next hseen =>
    have hhas : s.edges.versions.has id = true := isSome_of_visible hseen
    have hends : (s.row (.edge id)).ends = s.ends id := if_pos hhas
    rw [bind_some, hends]
  · rfl

/-- Two stores answer the reads of `read` alike: those of a node and of an edge, the scans, the
counts, and a node's edges. -/
structure ReadsAlike [DecidableEq Name] (s s' : Store Name Value) (read : Read) : Prop where
  node : ∀ id, s'.readNode id read = s.readNode id read
  edge : ∀ id, s'.readEdge id read = s.readEdge id read
  adjacency : ∀ node outgoing, s'.edgesSeen node outgoing read = s.edgesSeen node outgoing read
  nodes : s'.nodesSeen read = s.nodesSeen read
  edges : s'.edgesSeenBy read = s.edgesSeenBy read
  labels : ∀ label, s'.nodesWithLabel label read = s.nodesWithLabel label read
  types : ∀ edgeType, s'.edgesOfType edgeType read = s.edgesOfType edgeType read
  nodeCount : s'.nodeCount read = s.nodeCount read
  edgeCount : s'.edgeCount read = s.edgeCount read
  labelCount : ∀ label, s'.nodesByLabelCount label read = s.nodesByLabelCount label read

/-- **Stores whose rows a reader sees alike** answer it alike, if they agree on the adjacency of
the nodes it sees. -/
theorem ReadsAlike.of_seen [DecidableEq Name] (hs : s.Sound) (hs' : s'.Sound)
    (hseen : ∀ e, (s'.row e).seen read = (s.row e).seen read) (hends : s'.ends = s.ends)
    (hcounts : s'.counts = s.counts) (hepoch : s'.epoch = s.epoch)
    (hnodes : s'.nextNodeId = s.nextNodeId) (hedges : s'.nextEdgeId = s.nextEdgeId)
    (hadjacency : ∀ node outgoing, s.nodeVisible node read = true →
      (s'.adjacency node outgoing).filter (fun adjacent => s.edgeVisible adjacent.edge read) =
        (s.adjacency node outgoing).filter fun adjacent => s.edgeVisible adjacent.edge read) :
    s.ReadsAlike s' read := by
  have hnode : ∀ id, s'.readNode id read = s.readNode id read := fun id => by
    rw [readNode_eq_seen hs', readNode_eq_seen hs, hseen]
  have hnodeVisible : ∀ id, s'.nodeVisible id read = s.nodeVisible id read := fun id => by
    rw [nodeVisible_eq_seen, nodeVisible_eq_seen, hseen]
  have hedgeVisible : ∀ id, s'.edgeVisible id read = s.edgeVisible id read := fun id => by
    rw [edgeVisible_eq_seen, edgeVisible_eq_seen, hseen]
  have hnodesSeen : s'.nodesSeen read = s.nodesSeen read := by
    simp [nodesSeen, hnodes, hnodeVisible]
  have hedgesSeen : s'.edgesSeenBy read = s.edgesSeenBy read := by
    simp [edgesSeenBy, hedges, hedgeVisible]
  have hlabels : ∀ label, s'.nodesWithLabel label read = s.nodesWithLabel label read := by
    intro label
    unfold nodesWithLabel
    rw [hnodesSeen]
    refine filter_congr fun id hid => ?_
    -- The labels of a node the reader sees are those it reads.
    have hvisible : s.nodeVisible id read = true := (mem_filter.mp hid).2
    have hread := hnode id
    rw [readNode, readNode, hnodeVisible, if_pos hvisible, if_pos hvisible, some.injEq,
      NodeImage.mk.injEq] at hread
    rw [hread.1]
  have hanswer : s'.countsAnswer read = s.countsAnswer read := by
    cases read <;> simp [countsAnswer, hepoch]
  exact
    { node := hnode
      edge id := by rw [readEdge_eq_seen hs', readEdge_eq_seen hs, hseen]
      adjacency node outgoing := by
        simp only [edgesSeen, hnodeVisible, hedgeVisible]
        split
        next hvisible => exact hadjacency node outgoing hvisible
        · rfl
      nodes := hnodesSeen
      edges := hedgesSeen
      labels := hlabels
      types edgeType := by simp [edgesOfType, hedgesSeen, hends]
      nodeCount := by simp [Store.nodeCount, hanswer, hcounts, hnodesSeen]
      edgeCount := by simp [Store.edgeCount, hanswer, hcounts, hedgesSeen]
      labelCount label := by simp only [nodesByLabelCount, hanswer, hcounts, hlabels] }

/-! ### Lookups -/

variable [DecidableEq Name]

/-- The nodes `read` sees with every label of `labels` and a value of `key` that `finds` finds,
through the index that serves them; `none` without one. -/
def lookup (s : Store Name Value) (labels : List Name) (key : Name) (finds : Value → Bool)
    (read : Read) : Option (List Nat) :=
  (s.candidatesAt labels key finds read).map fun found =>
    found.filter fun id => labels.all fun label => decide (label ∈ s.labels.getAt id read)

/-- The index that serves a lookup is one of the store, on a label every result is to have. -/
theorem hasIndex_of_serving {index : PropertyIndex Value} (h : s.serving labels key = some index) :
    ∃ label, s.HasIndex label key index ∧ ∀ l ∈ label, l ∈ labels := by
  unfold serving at h
  split at h
  next found hfound =>
    cases h
    obtain ⟨label, hlabel, hentry⟩ := exists_of_findSome?_eq_some hfound
    obtain ⟨entry, hfind, hindex⟩ := map_eq_some_iff.mp hentry
    have hmem := mem_of_find?_eq_some hfind
    have hkey := find?_some hfind
    simp only [Bool.and_eq_true, decide_eq_true_eq] at hkey
    obtain ⟨label', key', index'⟩ := entry
    obtain ⟨rfl, rfl⟩ := hkey
    cases hindex
    refine ⟨some label', hmem, ?_⟩
    rintro l ⟨⟩
    exact hlabel
  · exact ⟨none, mem_of_lookup h, by simp⟩

/-- **A lookup finds what a scan finds**, ascending, for a reader the store still answers. -/
theorem lookup_spec (hs : s.Sound) (hindexed : s.Indexed) (hfloor : s.floor ≤ read.epochOf)
    {finds : Value → Bool} {found : List Nat} (h : s.lookup labels key finds read = some found) :
    found.Pairwise (· < ·) ∧ ∀ id, id ∈ found ↔ ∃ image ∈ s.readNode id read,
      (image.properties key).any finds = true ∧ ∀ label ∈ labels, label ∈ image.labels := by
  unfold lookup candidatesAt at h
  cases hserving : s.serving labels key with
  | none =>
    rw [hserving] at h
    cases h
  | some index =>
    rw [hserving] at h
    cases h
    refine ⟨Pairwise.filter _ (pairwise_lt_mergeSort ((nodup_dedup _).filter _)),
      fun id => ?_⟩
    have hread : (∃ image ∈ s.readNode id read, (image.properties key).any finds = true ∧
        ∀ label ∈ labels, label ∈ image.labels) ↔ s.nodeVisible id read = true ∧
          (s.nodes.valueAt id key read).any finds = true ∧
          ∀ label ∈ labels, label ∈ s.labels.getAt id read := by
      simp [readNode, and_assoc]
    simp only [hread, mem_filter, mem_mergeSort, mem_dedup, Bool.and_eq_true,
      List.all_eq_true, decide_eq_true_eq, and_assoc]
    refine and_iff_right_of_imp fun ⟨hvisible, hvalue, hlabels⟩ => ?_
    obtain ⟨label, hindex, hserves⟩ := hasIndex_of_serving hserving
    obtain ⟨value, hread, hvalue⟩ := (Option.any_eq_true ..).mp hvalue
    have hentry := hindexed.mem_of_seen hs hfloor hindex hvisible hread
      fun l hl => hlabels l (hserves l hl)
    exact List.mem_map.mpr ⟨(value, id), mem_filter.mpr ⟨hentry, hvalue⟩, rfl⟩

/-- **Stores a reader reads alike** find alike, if the same indexes serve. -/
theorem ReadsAlike.lookup_eq (halike : s.ReadsAlike s' read) (hs : s.Sound) (hs' : s'.Sound)
    (hindexed : s.Indexed) (hindexed' : s'.Indexed) (hfloor : s.floor ≤ read.epochOf)
    (hfloor' : s'.floor ≤ read.epochOf)
    (hserves : (s'.serving labels key).isSome = (s.serving labels key).isSome)
    (finds : Value → Bool) : s'.lookup labels key finds read = s.lookup labels key finds read := by
  have hsome : ∀ t : Store Name Value, (t.lookup labels key finds read).isSome =
      (t.serving labels key).isSome := fun t => by simp [lookup, candidatesAt]
  cases hfound : s.lookup labels key finds read with
  | none =>
    rw [← isNone_iff_eq_none, ← not_isSome, hsome, hserves, ← hsome, hfound]
    rfl
  | some found =>
    obtain ⟨found', hfound'⟩ := isSome_iff_exists.mp
      ((hsome s').trans (hserves.trans ((hsome s).symm.trans (by rw [hfound]; rfl))))
    rw [hfound', some.injEq]
    obtain ⟨hsorted, hmem⟩ := lookup_spec hs hindexed hfloor hfound
    obtain ⟨hsorted', hmem'⟩ := lookup_spec hs' hindexed' hfloor' hfound'
    refine hsorted'.eq_of_mem_iff hsorted fun id => ?_
    rw [hmem', hmem, halike.node id]

end Store

end Grafeo.RowGroup
