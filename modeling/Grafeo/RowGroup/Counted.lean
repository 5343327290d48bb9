import Grafeo.RowGroup.WorkloadOk

/-!
# Grafeo.RowGroup.Counted

**A commit moves a counter by what the transaction's rows weigh more**, if every node it
created in bulk has the labels it was created with. A bulk write's rows are counted with the
labels they have when the range is stamped; the entries of label writes that follow add or
take the label once more.

**The committed counts are what a scan counts**, between any two calls, as long as no
transaction writes a label of a node it created in bulk. A counter is the sum of what the
committed rows weigh (`Store.weighs`): a transaction's write leaves the committed rows, its
commit moves the counter by what its rows weigh more, a rollback leaves the committed rows,
and a collect takes out rows that weigh nothing.

A label write of a node that the same transaction created in bulk breaks it: the commit counts
the node with its newest labels when it stamps the range, and moves the label's count once
more when it stamps the label write.
-/

namespace Grafeo.RowGroup

open List Bool Lib Change Row

variable {Name Value : Type} [DecidableEq Name]

/-- Every node of the log's bulk writes has the labels it was created with. -/
def keepsBulkLabels (tables : Tables Name Value) (log : List (Change Name Value)) : Bool :=
  log.all fun change =>
    match change with
    | .bulk _ rows =>
        rows.all fun op =>
          match op with
          | .createNode id labels _ => decide (tables.labels.values id = labels.toFinset)
          | _ => true
    | .data .. => true

variable {t : Nat} {base row : Row Name Value} {events : List (Event Name Value)}

/-- A row is created once. -/
theorem Wrote.countP_create_le_one (h : Wrote t base events row) :
    events.countP (fun event => event.op.isCreate) ≤ 1 := by
  induction h with
  | nil => simp
  | snoc hwrote hwrites ih =>
    rename_i events event row row'
    by_cases hcreate : event.op.isCreate = true
    · rw [hwrote.eq_nil_of_create hwrites hcreate]
      simp [hcreate]
    · simpa [hcreate] using ih

section

variable {tables : Tables Name Value} {log pre post : List (Change Name Value)}
  {range : BulkRange} {rows : List (DataOp Name Value)}

section

variable (h : tables.Logged t (pre ++ .bulk range rows :: post))
include h

theorem Tables.Logged.nodup_rows : (rows.map DataOp.entity).Nodup := by
  rw [nodup_iff_count_le_one]
  intro e
  by_cases hmem : e ∈ rows.map DataOp.entity
  · obtain ⟨op, hop, rfl⟩ := mem_map.mp hmem
    obtain ⟨base, -, hwrote⟩ :=
      h.wrote op.entity ⟨.bulk range rows, by simp, (h.bulk_rows hop).2⟩
    have hone := hwrote.countP_create_le_one
    rw [eventsOf_append, eventsOf_cons, countP_append, countP_append] at hone
    have hcount : (eventsIn op.entity (bulk range rows).records).countP
        (fun event => event.op.isCreate) = (rows.map DataOp.entity).count op.entity := by
      simp only [eventsIn, records, countP_map, countP_filter, count]
      refine countP_congr fun row hrow => ?_
      simp [Record.event, isCreate_rowOp, (h.bulk_rows hrow).1]
    omega
  · rw [count_eq_zero_of_not_mem hmem]
    omega

/-- The rows of a bulk range that the transaction created are those kept with it. -/
theorem Tables.Logged.created_bulk {e : Entity} (he : range.contains e = true) :
    (tables.version e).created = some (.pending t) ↔ ∃ op ∈ rows, op.entity = e := by
  obtain ⟨base, hbase, hwrote⟩ := h.wrote e ⟨.bulk range rows, by simp, he⟩
  have hcreated := hwrote.created_iff hbase
  rw [Tables.version_row] at hcreated
  rw [hcreated]
  constructor
  · rintro ⟨event, hevent, hcreate⟩
    rw [eventsOf_append, h.eventsOf_bulk he, nil_append, eventsOf_cons, mem_append] at hevent
    rcases hevent with hevent | hevent
    · obtain ⟨record, hrecord, rfl⟩ := mem_map.mp hevent
      obtain ⟨hrecord, hentity⟩ := mem_filter.mp hrecord
      obtain ⟨op, hop, rfl⟩ := mem_map.mp hrecord
      exact ⟨op, hop, by simpa using hentity⟩
    -- No entry after the range creates one of its ids.
    obtain ⟨change, hchange, record, hrecord, rfl, rfl⟩ := mem_eventsOf.mp hevent
    have horder := (pairwise_cons.mp (pairwise_append.mp h.ok.order).2.1).1 change hchange
    cases change with
    | data op before version =>
      obtain rfl := mem_singleton.mp hrecord
      have hnot := horder ((isCreate_rowOp op).symm.trans hcreate)
      rw [he] at hnot
      cases hnot
    | bulk range' rows' =>
      have hnames := names_of_mem_records
        (h.ok.rows (.bulk range' rows') (by simp [hchange])) hrecord
      have hnot := horder record.op.entity hnames
      rw [show (bulk range rows).names record.op.entity = true from he] at hnot
      cases hnot
  · rintro ⟨op, hop, rfl⟩
    exact ⟨_, mem_eventsOf.mpr ⟨.bulk range rows, by simp, _, mem_map.mpr ⟨op, hop, rfl⟩, rfl, rfl⟩,
      (isCreate_rowOp op).trans (h.bulk_rows hop).1⟩

/-- A bulk write's rows are counted as its creates would be. -/
theorem Tables.Logged.moved_bulk
    (hkeeps : keepsBulkLabels tables (pre ++ .bulk range rows :: post) = true)
    (counter : Counter Name) :
    (Change.bulk range rows).moved t tables counter =
      ((Change.bulk range rows).records.map fun record =>
        record.delta counter (tables.row record.op.entity).ends).sum := by
  have hentity : ∀ op ∈ rows, Tables.entityOf range.table op.entity.raw = op.entity := fun op hop => by
    have := (h.bulk_rows hop).2
    simp only [BulkRange.contains, and_eq_true, decide_eq_true_eq] at this
    rw [← this.1.1]
    exact Tables.entityOf_table_raw op.entity
  -- The rows the commit finds are those kept with the range.
  have hperm : ((range' range.start (range.stop - range.start)).filter fun raw =>
      decide ((tables.version (Tables.entityOf range.table raw)).created = some (.pending t))).Perm
      (rows.map fun op => op.entity.raw) := by
    refine (perm_ext_iff_of_nodup (Nodup.filter _ nodup_range') ?_).mpr
      fun raw => ?_
    · have hinj : ∀ x ∈ rows.map DataOp.entity, ∀ y ∈ rows.map DataOp.entity,
          x.raw = y.raw → x = y := by
        intro x hx y hy hraw
        obtain ⟨op, hop, rfl⟩ := mem_map.mp hx
        obtain ⟨op', hop', rfl⟩ := mem_map.mp hy
        rw [← hentity op hop, ← hentity op' hop', hraw]
      have := Nodup.map_on hinj h.nodup_rows
      rwa [map_map] at this
    · rw [mem_filter, mem_range'_1, decide_eq_true_eq, mem_map]
      constructor
      · rintro ⟨hrange, hcreated⟩
        have hcontains : range.contains (Tables.entityOf range.table raw) = true := by
          simp [BulkRange.contains]
          omega
        obtain ⟨op, hop, heq⟩ := (h.created_bulk hcontains).mp hcreated
        exact ⟨op, hop, by rw [heq, Tables.raw_entityOf]⟩
      · rintro ⟨op, hop, rfl⟩
        have hcontains := (h.bulk_rows hop).2
        refine ⟨?_, ?_⟩
        · simp only [BulkRange.contains, and_eq_true, decide_eq_true_eq] at hcontains
          omega
        · rw [hentity op hop]
          exact (h.created_bulk hcontains).mpr ⟨op, hop, rfl⟩
  rw [moved, (hperm.map _).sum_eq, map_map, records, map_map]
  congr 1
  refine map_congr_left fun op hop => ?_
  simp only [Function.comp_apply, hentity op hop]
  cases op with
  | createNode id labels properties =>
    have hlabels : (tables.row (.node id)).labels.value = labels.toFinset := by
      simp only [keepsBulkLabels, all_append, all_cons, and_eq_true, all_eq_true] at hkeeps
      change tables.labels.values id = labels.toFinset
      simpa using hkeeps.2.1 _ hop
    simp only [DataOp.entity, hlabels, Record.delta]
    cases counter <;> rfl
  | createEdge id src dst edgeType properties =>
    exact counter.weight_edge id id _ ∅ _
  | _ => cases (h.bulk_rows hop).1

end

/-- **What the entries of a commit add to a counter**, write by write. -/
theorem Tables.Logged.sum_moved (h : tables.Logged t log)
    (hkeeps : keepsBulkLabels tables log = true) (counter : Counter Name) :
    (log.map (Change.moved t tables counter)).sum = ((log.flatMap Change.records).map fun record =>
        record.delta counter (tables.row record.op.entity).ends).sum := by
  have hmoved : ∀ change ∈ log, change.moved t tables counter = (change.records.map fun record =>
        record.delta counter (tables.row record.op.entity).ends).sum := by
    intro change hchange
    cases change with
    | data op before version => simp [moved, records]
    | bulk range rows =>
      obtain ⟨pre, post, rfl⟩ := append_of_mem hchange
      exact h.moved_bulk hkeeps counter
  rw [map_congr_left hmoved, map_flatMap, flatMap_def, sum_flatten, map_map]
  rfl

end

open Option

variable {Name Value : Type} [DecidableEq Name] {epoch : Nat}

/-! ### Scans -/

/-- What a reader sees of a row adds to the counter. -/
def RowImage.weight (image : Option (RowImage Name Value)) (counter : Counter Name)
    (entity : Entity) : Int :=
  match image with
  | some image => counter.weight entity image.labels image.ends
  | none => 0

namespace Store

variable {s s' : Store Name Value}

/-- The rows of a counter that `read` sees. -/
def scan (s : Store Name Value) (counter : Counter Name) (read : Read) : List Nat :=
  match counter with
  | .nodes => s.nodesSeen read
  | .edges => s.edgesSeenBy read
  | .label label => s.nodesWithLabel label read
  | .edgeType edgeType => s.edgesOfType edgeType read

/-- What the committed rows weigh together. -/
def weighs (s : Store Name Value) (counter : Counter Name) : Int :=
  ∑ e ∈ entities s.nextNodeId s.nextEdgeId, (s.row e).strip.weight counter e

theorem sum_entities (nodes edges : Nat) (f : Entity → Int) : ∑ e ∈ entities nodes edges, f e =
      ∑ id ∈ Finset.range nodes, f (.node id) + ∑ id ∈ Finset.range edges, f (.edge id) := by
  unfold entities
  rw [Finset.sum_union, Finset.sum_image (by simp), Finset.sum_image (by simp)]
  rw [Finset.disjoint_left]
  intro e hnode hedge
  obtain ⟨id, -, rfl⟩ := Finset.mem_image.mp hnode
  simp at hedge

theorem nodeVisible_eq (s : Store Name Value) (id : Nat) (read : Read) :
    s.nodeVisible id read = (s.row (.node id)).version.visible read := rfl

theorem edgeVisible_eq (s : Store Name Value) (id : Nat) (read : Read) :
    s.edgeVisible id read = (s.row (.edge id)).version.visible read := rfl

/-- **A scan counts what the reader sees.** -/
theorem length_scan (hs : s.Sound) (counter : Counter Name) (read : Read) :
    ((s.scan counter read).length : Int) = ∑ e ∈ entities s.nextNodeId s.nextEdgeId,
        RowImage.weight ((s.row e).seen read) counter e := by
  have hlabels : ∀ id, s.labels.getAt id read = (s.row (.node id)).labels.readAt read :=
    fun id => hs.labels.getAt_eq id read
  have hends : ∀ id, s.edgeVisible id read = true → s.ends id = (s.row (.edge id)).ends :=
    fun id hvisible => by
      have hhas : s.has (.edge id) = true := has_of_visible hvisible
      exact (if_pos hhas).symm
  have hseen (e : Entity) : RowImage.weight ((s.row e).seen read) counter e =
      if (s.row e).version.visible read then
        counter.weight e ((s.row e).labels.readAt read) (s.row e).ends else 0 := by
    unfold seen
    split <;> rfl
  rw [sum_entities]
  simp only [hseen]
  cases counter with
  | nodes =>
    simp [scan, nodesSeen, nodeVisible_eq, length_filter_range, Counter.weight]
  | edges =>
    simp [scan, edgesSeenBy, edgeVisible_eq, length_filter_range, Counter.weight]
  | label label =>
    simp only [scan, nodesWithLabel, nodesSeen, nodeVisible_eq, List.filter_filter,
      length_filter_range, Counter.weight, ite_self, Finset.sum_const_zero, add_zero, hlabels]
    refine Finset.sum_congr rfl fun id _ => ?_
    cases (s.row (.node id)).version.visible read <;> simp
  | edgeType edgeType =>
    simp only [scan, edgesOfType, edgesSeenBy, List.filter_filter, length_filter_range,
      Counter.weight, ite_self, Finset.sum_const_zero, zero_add]
    refine Finset.sum_congr rfl fun id _ => ?_
    rw [← edgeVisible_eq]
    cases hvisible : s.edgeVisible id read with
    | false => simp
    | true => simp [hends id hvisible]

/-! ### The weight of the committed rows -/

/-- Rows beyond the ids handed out weigh nothing, so any set that has those handed out does. -/
theorem weighs_eq (hs : s.Sound) (hhanded : ∀ e, s.has e = true → e.below s.nextNodeId s.nextEdgeId)
    {nodes edges : Nat} (hnodes : s.nextNodeId ≤ nodes) (hedges : s.nextEdgeId ≤ edges)
    (counter : Counter Name) :
    s.weighs counter = ∑ e ∈ entities nodes edges, (s.row e).strip.weight counter e := by
  refine Finset.sum_subset (fun e he => ?_) fun e _ hnot => ?_
  · rw [mem_entities] at he ⊢
    cases e with
    | node id => exact he.trans_le hnodes
    | edge id => exact he.trans_le hedges
  have hnone : s.has e = false := by
    by_contra hhas
    exact hnot (mem_entities.mpr (hhanded e (by simpa using hhas)))
  rw [hs.blank hnone, NoPending.empty.strip_eq, weight_empty]

end Store

/-! ### What a row weighs -/

/-- A collect leaves a row's weight. -/
theorem Row.weight_collect (row : Row Name Value) (horizon : Nat) (collapsed : Bool)
    (counter : Counter Name) (e : Entity) :
    (row.collect horizon collapsed).weight counter e = row.weight counter e := by
  unfold collect
  split
  next hgone =>
    have hdeleted : row.version.deleted ≠ none := fun hnone => by simp [hnone] at hgone
    rw [weight_empty, weight_of_deleted hdeleted]
  cases collapsed with
  | false => rfl
  | true =>
    simp only [weight, if_true, RowVersion.collapse]
    by_cases hlive : row.version.created.isSome = true ∧ row.version.deleted = none
    · simp [hlive, always, Cell.collect]
    · simp [hlive]

/-- The committed row fits its entity. -/
theorem Row.Fits.strip {row : Row Name Value} {e : Entity} (h : row.Fits e) : row.strip.Fits e := by
  cases hcreated : row.version.created with
  | none =>
    exact h.empty hcreated ▸ h
  | some stamp =>
    cases stamp with
    | pending t =>
      rw [show row.strip = {} by simp [Row.strip, hcreated]]
      exact ⟨fun _ => rfl, fun h => by cases h⟩
    | epoch e' =>
      have hversion : row.strip.version.created = some (.epoch e') := by
        simp [Row.strip, hcreated]
      have hends : row.strip.ends = row.ends := by simp [Row.strip, hcreated]
      refine ⟨fun hnone => ?_, fun _ => ?_⟩
      · rw [hversion] at hnone
        cases hnone
      · rw [hends]
        exact h.ends (by rw [hcreated]; rfl)

namespace Workload

variable [DecidableEq Value] {w w' : Workload Name Value} {tx : OpenTransaction Name Value}
  {action : Action Name Value}

/-- The transaction a commit is of has kept the labels of the nodes it created in bulk. -/
def commitKeepsBulkLabels (w : Workload Name Value) : Action Name Value → Bool
  | .commit id _ =>
      (w.find id).all fun tx => keepsBulkLabels w.store.toTables tx.changes.entries
  | _ => true

/-- The counts are what the committed rows weigh. -/
def Counted (w : Workload Name Value) : Prop :=
  ∀ counter, w.store.counts.at counter = w.store.weighs counter

/-- The committed row of a transaction's is the one it found. -/
theorem Ok.strip_row (h : w.Ok) (e : Entity) :
    (w.store.row e).strip.NoPending ∧ ∀ tx ∈ w.transactions, tx.changes.names e = true →
      Wrote tx.id (w.store.row e).strip (eventsOf e tx.changes.entries) (w.store.row e) := by
  rcases h.owned.cases e with ⟨tx, htx, hname, base, hbase, hwrote⟩ | ⟨hnone, hfree⟩
  · rw [(hwrote.shape hbase).strip_eq hbase]
    refine ⟨hbase, fun tx' htx' hname' => ?_⟩
    rwa [h.owned.disjoint tx' htx' tx htx e hname' hname]
  · rw [hfree.strip_eq]
    refine ⟨hfree, fun tx htx hname => ?_⟩
    rw [hnone tx htx] at hname
    cases hname

/-- A rollback leaves the committed rows. -/
theorem Ok.strip_undoes (h : w.Ok) (htx : tx ∈ w.transactions)
    {pre undone : List (Change Name Value)} (hentries : tx.changes.entries = pre ++ undone)
    {store : Store Name Value} (hundoes : w.store.Undoes tx.id pre undone store) (e : Entity) :
    (store.row e).strip = (w.store.row e).strip := by
  cases hname : tx.changes.names e with
  | true =>
    obtain ⟨hbase, hwrote⟩ := h.strip_row e
    have hwrote := hwrote tx htx hname
    rw [hentries] at hwrote
    exact ((hundoes.back e _ hbase hwrote).shape hbase).strip_eq hbase
  | false => rw [hundoes.row_of_not_named hentries hname]

/-- A commit moves each counter by what the transaction's rows weigh more. -/
theorem Ok.counted_commits (h : w.Ok) (htx : tx ∈ w.transactions)
    {store : Store Name Value} (hcommits : w.store.Commits tx.id epoch tx.changes.entries store)
    (hkeeps : keepsBulkLabels w.store.toTables tx.changes.entries = true) (hcounted : w.Counted)
    (counter : Counter Name) : store.counts.at counter = store.weighs counter := by
  let row := fun e => if tx.changes.names e then w.store.row e else (w.store.row e).strip
  have hnamed : ∀ e, tx.changes.names e = true → row e = w.store.row e := fun e hname => by
    simp [row, hname]
  have hunnamed : ∀ e, tx.changes.names e = false → row e = (w.store.row e).strip :=
    fun e hname => by simp [row, hname]
  have hlogged := h.owned.logged htx
  -- The committed rows after the commit.
  have hafter : ∀ e, (store.row e).strip.weight counter e = (row e).weight counter e := fun e => by
    rw [hcommits.row]
    cases hname : tx.changes.names e with
    | true =>
      obtain ⟨base, hbase, hwrote⟩ := h.owned.wrote tx htx e hname
      rw [((hwrote.shape hbase).restamp_noPending hbase epoch).strip_eq, weight_restamp,
        hnamed e hname]
    | false => rw [h.owned.row_restamp htx hname, hunnamed e hname]
  have hname : ∀ record ∈ tx.changes.entries.flatMap records,
      tx.changes.names record.op.entity = true := fun record hrecord => by
    obtain ⟨change, hchange, hrecord⟩ := mem_flatMap.mp hrecord
    exact ChangeSet.names_iff.mpr ⟨change, hchange,
      names_of_mem_records (hlogged.ok.rows change hchange) hrecord⟩
  have hwrote : ∀ e, Wrote tx.id (w.store.row e).strip
      (eventsIn e (tx.changes.entries.flatMap records)) (row e) := fun e => by
    cases hname : tx.changes.names e with
    | true =>
      rw [hnamed e hname]
      exact (h.strip_row e).2 tx htx hname
    | false =>
      have hnil : eventsIn e (tx.changes.entries.flatMap records) = [] :=
        eventsOf_eq_nil hlogged.ok.rows (ChangeSet.names_eq_false.mp hname)
      rw [hunnamed e hname, hnil]
      exact .nil
  have hsum := sum_weight hwrote (fun e => (h.sound.fits e).strip)
    (fun record hrecord => mem_entities.mpr (h.named tx htx _ (hname record hrecord))) counter
  have hdeltas : (tx.changes.entries.flatMap records).map
      (fun record => record.delta counter (row record.op.entity).ends) =
      (tx.changes.entries.flatMap records).map
        fun record => record.delta counter (w.store.row record.op.entity).ends :=
    map_congr_left fun record hrecord => by rw [hnamed _ (hname record hrecord)]
  rw [hdeltas] at hsum
  rw [hcommits.counts, hcounted, hlogged.sum_moved hkeeps]
  simp only [Store.weighs, hcommits.nextNodeId, hcommits.nextEdgeId, hafter]
  exact hsum.symm

/-- A write stamped at once moves each counter by what it adds to its row's weight. -/
theorem Ok.counted_stamped (h : w.Ok) {op : DataOp Name Value} {writer : Writer}
    {mode : Mode} {pushed : Option Stamp} {version : PendingVersion} {s₁ store : Store Name Value}
    (hmode : mode = { writer, read := .atEpoch epoch, stamp := .epoch epoch, epoch := some epoch,
                      images := writer.buildsImages, history := w.store.history })
    (hlater : w.store.epoch ≤ epoch)
    (hunowned : ∀ tx ∈ w.transactions, tx.changes.names op.entity = false)
    (hwritten : w.store.Written op mode pushed version s₁)
    (hsettles : s₁.Settles op mode true store) (hcounted : w.Counted) (counter : Counter Name) :
    store.counts.at counter = store.weighs counter := by
  have hfree := h.owned.free op.entity hunowned
  -- The writer sees every commit, so it wrote no deleted row.
  have hdeleted : (w.store.row op.entity).version.deleted = none := by
    cases hcreate : op.isCreate with
    | true => rw [h.sound.blank (hwritten.fresh hcreate)]
    | false =>
      have hseen := hwritten.seen hcreate
      rw [hmode, ← Tables.version_row] at hseen
      have hbelow := (h.below op.entity).mono ((h.written _).trans hlater)
      have himage := seen_of_below hfree hbelow
      rw [seen, if_pos hseen] at himage
      by_contra hdeleted
      rw [if_neg fun hlive => hdeleted hlive.2] at himage
      cases himage
  have hrow := hwritten.row hsettles
  have hnew : (store.row op.entity).NoPending := by
    rw [hrow, if_pos rfl, hmode]
    refine hfree.put rfl (fun stamp hmem => ?_) _
    rw [(hwritten.pushed stamp hmem).1, hmode]
    rfl
  have hnodes : w.store.nextNodeId ≤ store.nextNodeId :=
    hwritten.frame.nextNodeId ▸ hsettles.idles.nextNodeId
  have hedges : w.store.nextEdgeId ≤ store.nextEdgeId :=
    hwritten.frame.nextEdgeId ▸ hsettles.idles.nextEdgeId
  have hmem : op.entity ∈ entities store.nextNodeId store.nextEdgeId :=
    mem_entities.mpr (hwritten.handed hsettles h.handed _ (.inl rfl))
  have hchange := sum_change (f := fun e => (store.row e).strip.weight counter e)
    (g := fun e => (w.store.row e).strip.weight counter e) hmem fun e he => by
      rw [hrow, if_neg he]
  have hstamped : mode.stamped = true := by rw [hmode]; rfl
  have hcounts := hwritten.counts (by rwa [← Tables.version_row]) counter
  rw [hstamped, if_pos rfl] at hcounts
  simp only [hnew.strip_eq, hfree.strip_eq] at hchange
  rw [Store.weighs, hchange, ← Store.weighs_eq h.sound h.handed hnodes hedges, ← hcounted counter,
    hsettles.counts, hcounts, hsettles.toTables]

/-- A collect leaves the weight of the committed row. -/
theorem Ok.weight_strip_collect (h : w.Ok) {e : Entity} {horizon : Nat} {collapsed : Bool}
    (hsettled : collapsed = true → (w.store.version e).SettledBy horizon) (counter : Counter Name) :
    ((w.store.row e).collect horizon collapsed).strip.weight counter e =
      (w.store.row e).strip.weight counter e := by
  rw [← Tables.version_row] at hsettled
  rcases h.owned.cases e with ⟨tx, -, -, base, hbase, hwrote⟩ | ⟨-, hfree⟩
  · have hcollect := hwrote.collect hsettled
    have hbase' := hbase.collect horizon collapsed
    rw [(hcollect.shape hbase').strip_eq hbase', (hwrote.shape hbase).strip_eq hbase,
      weight_collect]
  · rw [(hfree.collect horizon collapsed).strip_eq, hfree.strip_eq, weight_collect]

/-- **Each step keeps the counts**, but the commit of a transaction that wrote the labels of a
node it created in bulk. -/
theorem Moves.counted (hmoves : w.Moves action w') (h : w.Ok)
    (hkeeps : w.commitKeepsBulkLabels action = true) (hcounted : w.Counted) : w'.Counted := by
  -- A step that leaves the counts and the weight of every committed row.
  have hsame : ∀ store : Store Name Value,
      (∀ counter, store.counts.at counter = w.store.counts.at counter) →
      w.store.nextNodeId ≤ store.nextNodeId → w.store.nextEdgeId ≤ store.nextEdgeId →
      (∀ counter e, (store.row e).strip.weight counter e = (w.store.row e).strip.weight counter e) →
      ∀ counter, store.counts.at counter = store.weighs counter := by
    intro store hcounts hnodes hedges hrow counter
    rw [hcounts, hcounted counter, Store.weighs_eq h.sound h.handed hnodes hedges]
    exact Finset.sum_congr rfl fun e _ => (hrow counter e).symm
  cases hmoves with
  | opened => exact hcounted
  | @idled _ store _ idles | @bulked _ tx range store mem idles =>
    exact hsame store (fun _ => by rw [idles.counts]) idles.nextNodeId idles.nextEdgeId
      fun _ e => by rw [idles.row]
  | @wrote _ tx op before version changes mode pushed s₁ store mem transaction applied written
      settles writes adds other =>
      have hunstamped : mode.stamped = false := by rw [transaction]; rfl
      have hdeleted : (w.store.version op.entity).deleted = none := by
        rw [← Tables.version_row]
        exact writes.not_deleted
      refine hsame store (fun counter => ?_) ?_ ?_ fun counter e => ?_
      · rw [settles.counts, written.counts hdeleted, hunstamped]
        simp
      · rw [← written.frame.nextNodeId]
        exact settles.idles.nextNodeId
      · rw [← written.frame.nextEdgeId]
        exact settles.idles.nextEdgeId
      · by_cases he : e = op.entity
        · subst he
          obtain ⟨base, hbase, hwrote⟩ := h.owned.wrote_of_own mem other
          rw [((hwrote.snoc writes).shape hbase).strip_eq hbase, (hwrote.shape hbase).strip_eq hbase]
        · rw [written.row settles, if_neg he]
  | stamped mode_eq published later unowned applied written settles =>
    exact h.counted_stamped mode_eq later unowned written settles hcounted
  | @committed tx epoch store mem published later _ commits =>
    refine h.counted_commits mem commits ?_ hcounted
    simpa [commitKeepsBulkLabels, find_id h.owned.ids mem] using hkeeps
  | @rolledBack tx store mem undo undoes =>
    exact hsame store (fun _ => by rw [undoes.counts])
      (undoes.frame.nextNodeId.symm.le) (undoes.frame.nextEdgeId.symm.le)
      fun counter e => by rw [h.strip_undoes mem (nil_append _).symm undoes]
  | @rolledBackTo tx mark store mem undo undoes =>
    exact hsame store (fun _ => by rw [undoes.counts])
      (undoes.frame.nextNodeId.symm.le) (undoes.frame.nextEdgeId.symm.le)
      fun counter e => by rw [h.strip_undoes mem (take_append_drop mark _).symm undoes]
  | published => exact hcounted
  | @collected horizon collapsed published snapshots collects =>
    refine hsame _ (fun _ => by rw [collects.counts]) (collects.nextNodeId.symm.le)
      (collects.nextEdgeId.symm.le) fun counter e => ?_
    rw [collects.row]
    split
    next hlisted => exact h.weight_strip_collect (fun hc => collects.settled e hlisted hc) counter
    · rfl
  | indexed created how =>
    subst created
    exact hcounted

/-! ### Counts and scans -/

/-- A committed reader at or after the store's epoch sees the committed rows. -/
theorem Ok.seen_committed (h : w.Ok) (hepoch : w.store.epoch ≤ epoch) (e : Entity) :
    (w.store.row e).seen (.atEpoch epoch) =
      let row := (w.store.row e).strip
      if row.version.created.isSome = true ∧ row.version.deleted = none then
        some { labels := row.labels.value, values := fun key => (row.values key).value,
               ends := row.ends }
      else none := by
  have hbelow := (h.below e).mono ((h.written e).trans hepoch)
  rcases h.owned.cases e with ⟨tx, -, -, base, hbase, hwrote⟩ | ⟨-, hfree⟩
  · have hshape := hwrote.shape hbase
    rw [hshape.seen_eq hbase rfl, hshape.strip_eq hbase]
    exact seen_of_below hbase (hshape.stampsBelow_iff.mp hbelow)
  · rw [hfree.strip_eq]
    exact seen_of_below hfree hbelow

/-- What the committed rows weigh is what such a reader counts. -/
theorem Ok.weighs_eq_scan (h : w.Ok) (hepoch : w.store.epoch ≤ epoch) (counter : Counter Name) :
    w.store.weighs counter = (w.store.scan counter (.atEpoch epoch)).length := by
  rw [Store.length_scan h.sound]
  refine Finset.sum_congr rfl fun e _ => ?_
  rw [h.seen_committed hepoch, weight]
  split
  next hlive =>
    rw [if_pos hlive]
    rfl
  next hlive =>
    rw [if_neg hlive]
    rfl

/-- A node created in bulk with `labels` and given `later` labels before the commit. -/
def bulkCreate (labels later : List Nat) : List (Action Nat Nat) :=
  [.begin 2 0, .bulk 2 .nodes 1, .bulkRow 2 (.createNode 0 labels [])] ++
    later.map (fun label => .write 2 (.addNodeLabel 0 label)) ++ [.commit 2 1]

end Workload

end Grafeo.RowGroup
