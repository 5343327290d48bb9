import Grafeo.RowGroup.Workload
import Grafeo.RowGroup.RowReads
import Grafeo.RowGroup.StoreCollects

/-!
# Grafeo.RowGroup.WorkloadSteps

**What a call does, in every state of a run.** `Workload.Ok` says what holds between calls:
the tables are sound, the open transactions own what is pending, the commits' stamps of a row
are at or below the last commit that wrote it. In such a state no call of the store fails that
the callers' promises rule out, and what it does is one of the cases of `Moves`. Every
invariant over runs is by these cases.
-/

namespace Grafeo.RowGroup

open List Function Bool

variable {Name Value : Type} {epoch : Nat}

/-! ### Stamps in chains -/

namespace Tables

variable {tables tables' : Tables Name Value} {stamp : Stamp} {snapshot : Nat}

theorem Searched.of_push {pushed : Stamp} (h : tables.Searched stamp snapshot)
    (hpush : ∀ c group vector, tables'.stampsOf c group vector = tables.stampsOf c group vector ∨
      tables'.stampsOf c group vector = tables.stampsOf c group vector ++ [pushed])
    (hpushed : pushed.committedBy snapshot = false) : tables'.Searched stamp snapshot := by
  intro c group vector
  rcases hpush c group vector with heq | heq
  · rw [heq]
    exact h c group vector
  · rw [heq, Lib.pairwise_concat]
    exact ⟨h c group vector, fun _ _ _ => hpushed⟩

theorem Searched.of_sublist (h : tables.Searched stamp snapshot) (hsub : ∀ c group vector,
      (tables'.stampsOf c group vector).Sublist (tables.stampsOf c group vector)) :
    tables'.Searched stamp snapshot :=
  fun c group vector => (h c group vector).sublist (hsub c group vector)

/-- A commit the writer does not see changes nothing of its search. -/
theorem Searched.of_restamp {u t epoch : Nat} (h : tables.Searched (.pending u) snapshot)
    (hepoch : snapshot < epoch) (hstamps : ∀ c group vector, tables'.stampsOf c group vector =
      (tables.stampsOf c group vector).map (Updates.restamp t epoch)) :
    tables'.Searched (.pending u) snapshot := by
  intro c group vector
  rw [hstamps, pairwise_map]
  refine (h c group vector).imp fun {a b} hab ha => ?_
  unfold Updates.restamp at ha ⊢
  by_cases hat : a = .pending t
  · rw [if_pos hat] at ha
    cases ha
  rw [if_neg hat] at ha
  by_cases hbt : b = .pending t
  · rw [if_pos hbt]
    simpa [Stamp.committedBy] using hepoch
  · rw [if_neg hbt]
    exact hab ha

/-- Every stamp of a chain is one a row of the chain's vector holds. -/
theorem Sound.exists_held (h : tables.Sound) {group vector : Nat} :
    ∀ {c : ColumnOf Name}, stamp ∈ tables.stampsOf c group vector →
      ∃ e : Entity, vectorOf e.raw = group * vectors + vector ∧
        ((tables.row e).labels.heldBy stamp = true ∨
          ∃ key, ((tables.row e).values key).heldBy stamp = true)
  | .labels, hstamp => by
    obtain ⟨raw, hvector, hheld⟩ := h.labels.exists_held hstamp
    exact ⟨.node raw, hvector, .inl hheld⟩
  | .values table key, hstamp => by
    obtain ⟨raw, hvector, hheld⟩ := (h.columns table key).exists_held hstamp
    refine ⟨entityOf table raw, by rwa [raw_entityOf], .inr ⟨key, ?_⟩⟩
    rw [values_row]
    cases table <;> exact hheld

/-- A chain bears no stamp of a transaction no row holds anything of. -/
theorem Sound.searched_of_free (h : tables.Sound) {t : Nat}
    (hfree : ∀ e, (tables.row e).Free t) (snapshot : Nat) :
    tables.Searched (.pending t) snapshot := by
  refine fun c group vector => pairwise_iff_forall_sublist.mpr fun {a b} hsub hat => ?_
  subst hat
  obtain ⟨e, -, hheld⟩ := h.exists_held (hsub.subset (mem_cons_self ..))
  rcases hheld with hheld | ⟨key, hheld⟩
  · rw [(hfree e).labels] at hheld
    cases hheld
  · rw [(hfree e).values key] at hheld
    cases hheld

end Tables

/-! ### The states between calls -/

/-- What holds of a workload between calls. -/
structure Workload.Ok [DecidableEq Name] (w : Workload Name Value) : Prop where
  sound : w.store.Sound
  owned : Owned w.transactions w.store.row
  listed : w.store.listed.Nodup
  stamps : ∀ tx ∈ w.transactions, pendingStamp tx.id = .ok (.pending tx.id)
  searched : ∀ tx ∈ w.transactions, w.store.Searched (.pending tx.id) tx.snapshot
  /-- The rows bear the stamps of the commits that wrote them. -/
  below : ∀ e, (w.store.row e).StampsBelow (w.written e)
  written : ∀ e, w.written e ≤ w.store.epoch
  /-- The ids of rows and of change sets were handed out. -/
  handed : ∀ e, w.store.has e = true → e.below w.store.nextNodeId w.store.nextEdgeId
  named : ∀ tx ∈ w.transactions, ∀ e, tx.changes.names e = true →
    e.below w.store.nextNodeId w.store.nextEdgeId
  floor : w.store.floor ≤ w.published
  snapshots : ∀ tx ∈ w.transactions, w.store.floor ≤ tx.snapshot ∧ tx.snapshot ≤ w.published

/-- A call that wrote no row: it may list a vector, pass an id, or note an epoch. -/
structure Store.Idles (s s' : Store Name Value) : Prop where
  toTables : s'.toTables = s.toTables
  outgoing : s'.outgoing = s.outgoing
  incoming : s'.incoming = s.incoming
  counts : s'.counts = s.counts
  indexes : s'.indexes = s.indexes
  keepsIncoming : s'.keepsIncoming = s.keepsIncoming
  history : s'.history = s.history
  floor : s'.floor = s.floor
  listed : s'.listed = s.listed ∨ ∃ table raw, s'.listed = (s.list table raw).listed
  epoch : s.epoch ≤ s'.epoch
  nextNodeId : s.nextNodeId ≤ s'.nextNodeId
  nextEdgeId : s.nextEdgeId ≤ s'.nextEdgeId

variable [DecidableEq Name] [DecidableEq Value]

namespace Mode

variable {mode : Mode} {writer : Writer} {history : Bool}

/-- How a writer that stamps at once writes. -/
theorem of_stamped (hwriter : writer.epoch = some epoch) (h : Mode.of writer history = .ok mode) :
    mode = { writer, read := .atEpoch epoch, stamp := .epoch epoch, epoch := some epoch,
             images := writer.buildsImages, history } := by
  cases writer with
  | transaction => cases hwriter
  | _ =>
    cases hwriter
    simp only [Mode.of] at h
    split at h <;> cases h
    rfl

theorem writer_of (h : Mode.of writer history = .ok mode) : mode.writer = writer := by
  cases writer with
  | transaction t snapshot =>
    simp only [Mode.of] at h
    cases hstamp : pendingStamp t with
    | error error =>
      rw [hstamp] at h
      cases h
    | ok stamp =>
      rw [hstamp] at h
      cases h
      rfl
  | replay | immediate => rw [of_stamped rfl h]

end Mode

namespace Store

variable {s s' : Store Name Value} {op : DataOp Name Value} {writer : Writer}

theorem Idles.refl : s.Idles s :=
  ⟨rfl, rfl, rfl, rfl, rfl, rfl, rfl, rfl, .inl rfl, le_rfl, le_rfl, le_rfl⟩

theorem createPropertyIndex_eq (s : Store Name Value) (key : Name) :
    ∃ indexes, s.createPropertyIndex key = { s with indexes } := by
  unfold createPropertyIndex
  split
  · exact ⟨s.indexes, rfl⟩
  · exact ⟨_, rfl⟩

theorem createLabelIndex_eq (s : Store Name Value) (label key : Name) :
    ∃ indexes, s.createLabelIndex label key = { s with indexes } := by
  unfold createLabelIndex
  split
  · exact ⟨s.indexes, rfl⟩
  · exact ⟨_, rfl⟩

/-- What a writer's op lists. -/
theorem listed_listOp (s : Store Name Value) (mode : Mode) (op : DataOp Name Value) :
    (s.listOp mode op).listed = s.listed ∨
      ∃ table raw, (s.listOp mode op).listed = (s.list table raw).listed := by
  unfold listOp
  cases mode.lists op with
  | none => exact .inl rfl
  | some listed => exact .inr ⟨listed.1, listed.2, rfl⟩

theorem Settles.idles {mode : Mode} {lists : Bool} (h : s.Settles op mode lists s') : s.Idles s' :=
  { h with
    listed := by
      rw [h.listed]
      cases lists with
      | true => exact s.listed_listOp mode op
      | false => exact .inl rfl
    epoch := by
      rw [h.epoch]
      exact le_max_left ..
    nextNodeId := by
      rw [h.nextNodeId]
      exact (s.le_passId op).1
    nextEdgeId := by
      rw [h.nextEdgeId]
      exact (s.le_passId op).2 }

/-- Ids handed out, for a bulk write of a transaction or to no one. -/
theorem reserve_spec {table : Table} {count : Nat} {range : BulkRange}
    (h : s.reserve table count = .ok (s', range)) :
    s.Idles s' ∧ (∀ e, range.contains e = true → ¬e.below s.nextNodeId s.nextEdgeId) ∧
      ∀ e, range.contains e = true → e.below s'.nextNodeId s'.nextEdgeId := by
  cases table with
  | nodes | edges =>
    simp only [Store.reserve] at h
    split at h <;> cases h
    refine ⟨⟨rfl, rfl, rfl, rfl, rfl, rfl, rfl, rfl, .inl rfl, le_rfl, by simp, by simp⟩,
      fun e he => ?_, fun e he => ?_⟩ <;>
      cases e <;> simp_all [BulkRange.contains_iff, Entity.below, Entity.table, Entity.raw]

/-- **What `apply` does**: nothing to any row, or one write, after which the store settled. -/
theorem apply_spec (hs : s.Sound) {result : Except ApplyError (Applied Name Value)}
    (h : s.apply op writer = (s', result)) :
    s.Idles s' ∧ ((∃ error, result = .error error) ∨ result = .ok .unchanged ∨
        result = .ok .committed ∧ ∃ epoch, writer = .replay epoch ∧ epoch ≤ s'.epoch) ∨
      ∃ mode s₁ pushed version, Mode.of writer s.history = .ok mode ∧
          s.applyOp op mode = .ok (s₁, mode.applied ((s.row op.entity).before op.rowOp) version) ∧
          result = .ok (mode.applied ((s.row op.entity).before op.rowOp) version) ∧
          Written s op mode pushed version s₁ ∧ s₁.Settles op mode true s' := by
  rcases apply_cases h with ⟨listed, error, rfl, hresult, hlisted⟩ |
    ⟨mode, s₁, applied, hmode, hresult, hop, hsettles⟩
  · refine .inl ⟨⟨rfl, rfl, rfl, rfl, rfl, rfl, rfl, rfl, ?_, le_rfl, le_rfl,
      le_rfl⟩, .inl ⟨error, hresult⟩⟩
    rcases hlisted with hlisted | ⟨mode, hlisted⟩
    · exact .inl hlisted
    · have := s.listed_listOp mode op
      rwa [← hlisted] at this
  · rcases applyOp_cases hs hop with ⟨rfl, happlied⟩ | ⟨pushed, version, happlied, hwritten⟩
    · refine .inl ⟨hsettles.idles, .inr ?_⟩
      rcases happlied with rfl | ⟨rfl, epoch, hwriter⟩
      · exact .inl hresult
      · rw [Mode.writer_of hmode] at hwriter
        subst hwriter
        refine .inr ⟨hresult, epoch, rfl, ?_⟩
        rw [hsettles.epoch, Mode.of_stamped rfl hmode]
        exact le_max_right ..
    · refine .inr ⟨mode, s₁, pushed, version, hmode, happlied ▸ hop, happlied ▸ hresult, hwritten, ?_⟩
      have hlists : applied.lists = true := by
        rw [happlied, Mode.applied]
        split <;> rfl
      rwa [hlists] at hsettles

end Store

/-! ### The cases of a step -/

/-- **What a call does.** -/
inductive Workload.Moves (w : Workload Name Value) : Action Name Value → Workload Name Value → Prop
  /-- A transaction begins. -/
  | opened {id snapshot : Nat} (fresh : ∀ tx ∈ w.transactions, tx.id ≠ id)
      (stamp : pendingStamp id = .ok (.pending id)) (floor : w.store.floor ≤ snapshot)
      (published : snapshot ≤ w.published) :
      w.Moves (.begin id snapshot)
        { w with transactions := w.transactions ++ [OpenTransaction.mk id snapshot {}] }
  /-- A call that wrote no row. -/
  | idled {action : Action Name Value} {store : Store Name Value} {written : Entity → Nat} (idles : w.store.Idles store)
      (mono : ∀ e, w.written e ≤ written e)
      (bound : ∀ e, written e = w.written e ∨ written e ≤ store.epoch) :
      w.Moves action { w with store, written }
  /-- A transaction's write of a row, recorded. -/
  | wrote {action : Action Name Value} {tx : OpenTransaction Name Value} {op : DataOp Name Value} {before : Before Name Value}
      {version : PendingVersion} {changes : ChangeSet Name Value} {mode : Mode}
      {pushed : Option Stamp} {s₁ store : Store Name Value} (mem : tx ∈ w.transactions)
      (transaction : mode =
        { writer := .transaction tx.id tx.snapshot, read := .transaction tx.id tx.snapshot,
          stamp := .pending tx.id, epoch := none, images := true, history := w.store.history })
      (applied : w.store.applyOp op mode = .ok (s₁, .changed before version))
      (written : w.store.Written op mode pushed version s₁)
      (settles : s₁.Settles op mode true store)
      (writes : Writes tx.id (Record.mk op before version).event (w.store.row op.entity)
        (store.row op.entity))
      (adds : tx.changes.Adds ⟨op, before, version⟩ changes)
      (other : ∀ tx' ∈ w.transactions, tx'.id ≠ tx.id → tx'.changes.names op.entity = false) :
      w.Moves action ({ w with store }.setChanges tx.id changes)
  /-- A transaction reserves ids for a bulk write. -/
  | bulked {action : Action Name Value} {tx : OpenTransaction Name Value} {range : BulkRange} {store : Store Name Value}
      (mem : tx ∈ w.transactions) (idles : w.store.Idles store)
      (past : ∀ e, range.contains e = true → ¬e.below w.store.nextNodeId w.store.nextEdgeId)
      (handed : ∀ e, range.contains e = true → e.below store.nextNodeId store.nextEdgeId) :
      w.Moves action ({ w with store }.setChanges tx.id (tx.changes.pushBulk range))
  /-- A write stamped at once. -/
  | stamped {op : DataOp Name Value} {writer : Writer} {epoch : Nat} {mode : Mode}
      {pushed : Option Stamp} {version : PendingVersion} {applied : Applied Name Value}
      {s₁ store : Store Name Value}
      (mode_eq : mode =
        { writer, read := .atEpoch epoch, stamp := .epoch epoch, epoch := some epoch,
          images := writer.buildsImages, history := w.store.history })
      (published : w.published < epoch) (later : w.store.epoch ≤ epoch)
      (unowned : ∀ tx ∈ w.transactions, tx.changes.names op.entity = false)
      (applied : w.store.applyOp op mode = .ok (s₁, applied))
      (written : w.store.Written op mode pushed version s₁)
      (settles : s₁.Settles op mode true store) :
      w.Moves (.direct op writer) { w with store, written := Function.update w.written op.entity epoch }
  | committed {tx : OpenTransaction Name Value} {epoch : Nat} {store : Store Name Value}
      (mem : tx ∈ w.transactions) (published : w.published < epoch)
      (later : w.store.epoch < epoch)
      (commit : w.store.commit tx.id tx.changes.entries epoch = (store, .ok ()))
      (commits : w.store.Commits tx.id epoch tx.changes.entries store) :
      w.Moves (.commit tx.id epoch) ({ w with
        store
        written := fun entity => if tx.changes.names entity then epoch else w.written entity
        : Workload Name Value }.close tx.id)
  /-- A rollback, whole. -/
  | rolledBack {tx : OpenTransaction Name Value} {store : Store Name Value}
      (mem : tx ∈ w.transactions)
      (undo : w.store.undo tx.id tx.changes.entries = (store, .ok ()))
      (undoes : w.store.Undoes tx.id [] tx.changes.entries store) :
      w.Moves (.rollback tx.id) ({ w with store }.close tx.id)
  /-- A rollback to a savepoint. -/
  | rolledBackTo {tx : OpenTransaction Name Value} {mark : Nat} {store : Store Name Value}
      (mem : tx ∈ w.transactions)
      (undo : w.store.undo tx.id (tx.changes.entries.drop mark) = (store, .ok ()))
      (undoes : w.store.Undoes tx.id (tx.changes.entries.take mark) (tx.changes.entries.drop mark)
        store) :
      w.Moves (.rollbackTo tx.id mark) ({ w with store }.setChanges tx.id ⟨tx.changes.entries.take mark⟩)
  | published {epoch : Nat} (later : w.published ≤ epoch) :
      w.Moves (.publish epoch) { w with published := epoch }
  | collected {horizon : Nat} {collapsed : Table → Nat → Bool} (published : horizon ≤ w.published)
      (snapshots : ∀ tx ∈ w.transactions, horizon ≤ tx.snapshot)
      (collects : w.store.Collects horizon collapsed (w.store.collect horizon)) :
      w.Moves (.collect horizon) { w with store := w.store.collect horizon }
  /-- An index was created or dropped. -/
  | indexed {action : Action Name Value} {store : Store Name Value} {indexes : Indexes Name Value}
      (created : store = { w.store with indexes })
      (how : (∃ key, store = w.store.createPropertyIndex key) ∨
        (∃ key, store = w.store.dropPropertyIndex key) ∨
        (∃ label key, store = w.store.createLabelIndex label key) ∨
        ∃ label key, store = w.store.dropLabelIndex label key) :
      w.Moves action { w with store }

namespace Workload

variable {w w' : Workload Name Value} {tx : OpenTransaction Name Value} {op : DataOp Name Value}
  {action : Action Name Value}

theorem Moves.idle {store : Store Name Value} (h : w.store.Idles store) :
    w.Moves action { w with store } :=
  .idled h (fun _ => le_rfl) fun _ => .inl rfl

namespace Ok

/-- A transaction may write what it sees of a row no other transaction wrote and no commit after
its snapshot. -/
theorem live (h : w.Ok) {e : Entity}
    (hother : ∀ tx' ∈ w.transactions, tx'.id ≠ tx.id → tx'.changes.names e = false)
    (hwritten : w.written e ≤ tx.snapshot)
    (hseen : (w.store.version e).visible (.transaction tx.id tx.snapshot) = true) :
    (w.store.row e).Live tx.id := by
  rw [← Tables.version_row, RowVersion.visible, and_eq_true, not_eq_true'] at hseen
  obtain ⟨hcreated, hdeleted⟩ := hseen
  have hbelow := h.below e
  -- What is pending in the row is the transaction's own.
  have hpending : ∀ t, (w.store.row e).Free t ∨ t = tx.id := fun t => by
    by_cases ht : t = tx.id
    · exact .inr ht
    · refine .inl (h.owned.free_of_not_names fun tx' htx' hid => hother tx' htx' ?_)
      rwa [hid]
  constructor
  · cases hd : (w.store.row e).version.deleted with
    | none => rfl
    | some stamp =>
      rw [hd] at hdeleted
      cases stamp with
      | pending t =>
        rcases hpending t with hfree | rfl
        · exact absurd hd hfree.deleted
        · simp [Read.seesSome, Read.sees, Read.isTransaction] at hdeleted
      | epoch d =>
        have hd' : d ≤ w.written e := hbelow.deleted _ hd
        have hsees : Read.sees (.transaction tx.id tx.snapshot) (.epoch d) = true :=
          Read.sees_epoch.mpr (hd'.trans hwritten)
        rw [Read.seesSome, hsees] at hdeleted
        cases hdeleted
  · cases hc : (w.store.row e).version.created with
    | none =>
      rw [hc] at hcreated
      cases hcreated
    | some stamp =>
      cases stamp with
      | pending t =>
        rcases hpending t with hfree | rfl
        · exact absurd hc hfree.created
        · exact .inl rfl
      | epoch c => exact .inr ⟨c, rfl⟩

/-- A transaction's write, applied and recorded. -/
theorem writeWith (h : w.Ok) (htx : tx ∈ w.transactions)
    (hother : ∀ tx' ∈ w.transactions, tx'.id ≠ tx.id → tx'.changes.names op.entity = false)
    (hlive : op.isCreate = false →
      (w.store.version op.entity).visible (.transaction tx.id tx.snapshot) = true →
        (w.store.row op.entity).Live tx.id)
    {record : Before Name Value → PendingVersion → ChangeSet Name Value}
    (hadds : ∀ before version row', Writes tx.id (Record.mk op before version).event
      (w.store.row op.entity) row' → tx.changes.Adds ⟨op, before, version⟩ (record before version)) :
    w.Moves action (w.writeWith tx op record) := by
  unfold Workload.writeWith
  cases happly : w.store.apply op (.transaction tx.id tx.snapshot) with
  | mk store result =>
    rcases Store.apply_spec h.sound happly with ⟨hidles, hresult⟩ |
      ⟨mode, s₁, pushed, version, hmode, hop, rfl, hwritten, hsettles⟩
    · rcases hresult with ⟨error, rfl⟩ | rfl | ⟨rfl, epoch, hwriter, -⟩ <;> exact .idle hidles
    simp only [Mode.of, h.stamps tx htx] at hmode
    have hmode := (Except.ok.inj hmode).symm
    have himages : mode.images = true := by rw [hmode]
    have hrow : store.row op.entity = (w.store.row op.entity).put mode.stamp pushed op.rowOp := by
      have hputs := hwritten.puts op.entity
      rw [if_pos rfl, ← hsettles.toTables] at hputs
      exact hputs
    obtain ⟨hpushed, hversion⟩ := hwritten.exact tx.id tx.snapshot (by rw [hmode])
      (by rw [hmode]) (by rw [hmode]) (h.searched tx htx)
    have hwrites : Writes tx.id
        (Record.mk op ((w.store.row op.entity).before op.rowOp) version).event
        (w.store.row op.entity) (store.row op.entity) := by
      refine ⟨hwritten.changes.accepts ?_, rfl, hversion, ?_⟩
      · cases hcreate : op.isCreate with
        | true =>
          rw [← isCreate_rowOp] at hcreate
          cases hrowOp : op.rowOp with
          | create labels values ends => exact .inl ⟨labels, values, ends, rfl⟩
          | _ => rw [hrowOp] at hcreate; cases hcreate
        | false =>
          refine .inr (hlive hcreate ?_)
          have hseen := hwritten.seen hcreate
          rwa [hmode] at hseen
      · rw [hrow, hpushed, hmode]
        rfl
    simp only [Mode.applied, himages, if_true] at hop ⊢
    exact .wrote htx hmode hop hwritten hsettles hwrites (hadds _ _ _ hwrites) hother

/-- A write stamped at once, of a row no transaction wrote. -/
theorem writeStamped (h : w.Ok) {writer : Writer} (hwriter : writer.epoch = some epoch)
    (hpublished : w.published < epoch) (hlater : w.store.epoch ≤ epoch)
    (hunowned : ∀ tx ∈ w.transactions, tx.changes.names op.entity = false) :
    w.Moves (.direct op writer) (w.writeStamped op writer) := by
  unfold Workload.writeStamped
  cases happly : w.store.apply op writer with
  | mk store result =>
    rcases Store.apply_spec h.sound happly with ⟨hidles, hresult⟩ |
      ⟨mode, s₁, pushed, version, hmode, hop, rfl, hwritten, hsettles⟩
    · rcases hresult with ⟨error, rfl⟩ | rfl | ⟨rfl, epoch', rfl, hepoch⟩
      · exact .idle hidles
      · exact .idle hidles
      cases hwriter
      refine .idled hidles (fun e => ?_) fun e => ?_ <;> rw [update_apply] <;> split
      · exact (h.written _).trans hlater
      · exact le_rfl
      · exact .inr hepoch
      · exact .inl rfl
    · have hstamped : w.Moves (.direct op writer)
          { w with store, written := update w.written op.entity epoch } :=
        .stamped (Mode.of_stamped hwriter hmode) hpublished hlater hunowned hop hwritten hsettles
      have hgetD : writer.epoch.getD 0 = epoch := by rw [hwriter]; rfl
      cases himages : mode.images with
      | true => simpa only [Mode.applied, himages, if_true, hgetD] using hstamped
      | false =>
        simpa only [Mode.applied, himages, false_eq_true, if_false, hgetD] using hstamped

end Ok

/-- A commit of an open transaction. -/
theorem Ok.commit (h : w.Ok) (htx : tx ∈ w.transactions) (hlater : w.store.epoch < epoch) :
    ∃ store, w.store.commit tx.id tx.changes.entries epoch = (store, .ok ()) ∧
      w.store.Commits tx.id epoch tx.changes.entries store := by
  have hfresh : ∀ e, (w.store.version e).created ≠ some (.epoch epoch) := fun e hcreated => by
    rw [← Tables.version_row] at hcreated
    have hle : epoch ≤ w.written e := (h.below e).created _ hcreated
    have := h.written e
    omega
  exact Store.commit_spec (h.stamps tx htx) h.sound (h.owned.logged htx) hfresh

/-- A rollback of the entries of an open transaction after a mark. -/
theorem Ok.undo (h : w.Ok) (htx : tx ∈ w.transactions) {pre undone : List (Change Name Value)}
    (hentries : tx.changes.entries = pre ++ undone) :
    ∃ store, w.store.undo tx.id undone = (store, .ok ()) ∧
      w.store.Undoes tx.id pre undone store := by
  obtain ⟨store, hall, hundoes⟩ := Store.undoAll_spec h.sound (hentries ▸ h.owned.logged htx)
  exact ⟨store, by simp only [Store.undo, h.stamps tx htx, hall], hundoes⟩

/-- **Every step is one of the cases.** -/
theorem step_cases (h : w.Ok) (hstep : w.step action = some w') : w.Moves action w' := by
  obtain ⟨hallowed, rfl⟩ : w.allowed action = true ∧ w.act action = w' := by
    simpa [step] using hstep
  cases action with
  | «begin» id snapshot =>
    simp only [allowed, and_eq_true, decide_eq_true_eq, Option.isNone_iff_eq_none] at hallowed
    obtain ⟨⟨⟨⟨hfind, hsystem⟩, hid⟩, hfloor⟩, hpublished⟩ := hallowed
    refine .opened (fun tx htx heq => ?_) ?_ hfloor hpublished
    · have := find?_eq_none.mp hfind tx htx
      simp [heq] at this
    · rw [pendingStamp, if_neg hsystem, if_neg (Nat.not_le.mpr hid)]
  | write id op =>
    simp only [allowed, act] at hallowed ⊢
    cases hfind : w.find id with
    | none => simp [hfind] at hallowed
    | some tx =>
      simp only [hfind, and_eq_true, not_eq_true', decide_eq_true_eq,
        writtenByOther, any_eq_false, and_eq_false_iff] at hallowed
      obtain ⟨⟨hother, hwritten⟩, hcreate⟩ := hallowed
      obtain ⟨htx, rfl⟩ := find_eq_some hfind
      have hother : ∀ tx' ∈ w.transactions, tx'.id ≠ tx.id →
          tx'.changes.names op.entity = false := fun tx' htx' hid => by
        simpa [hid] using hother tx' htx'
      refine h.writeWith htx hother (fun _ hseen => h.live hother hwritten hseen)
        fun before version row' _ => ChangeSet.adds_push (h.owned.logs tx htx) fun hop => ?_
      intro range rows hmem
      have hreserved := hcreate.resolve_left (by simp [hop])
      simp only [reserved, any_eq_false] at hreserved
      simpa using hreserved _ hmem
  | bulk id table count =>
    simp only [act]
    split
    next tx store range hfind hreserve =>
      obtain ⟨htx, rfl⟩ := find_eq_some hfind
      obtain ⟨hidles, hpast, hhanded⟩ := Store.reserve_spec hreserve
      exact .bulked htx hidles hpast hhanded
    · exact .idle .refl
  | bulkRow id op =>
    simp only [allowed, act] at hallowed ⊢
    cases hfind : w.find id with
    | none => simp [hfind] at hallowed
    | some tx =>
      obtain ⟨htx, rfl⟩ := find_eq_some hfind
      simp only [hfind, inLastRange] at hallowed
      split at hallowed
      next range rows hlast =>
        obtain ⟨changes, hchanges, hadds⟩ :=
          ChangeSet.adds_pushBulkRows (h.owned.logs tx htx) hlast hallowed
        have hholds : op.isCreate = true ∧ range.contains op.entity = true := by
          simpa [BulkRange.holds] using hallowed
        have hnames : tx.changes.names op.entity = true :=
          ChangeSet.names_iff.mpr ⟨_, mem_of_getLast? hlast, hholds.2⟩
        refine h.writeWith htx (fun tx' htx' hid => h.owned.not_names htx htx' hid hnames)
          (fun hnot => ?_) fun before version row' hwrites => ?_
        · rw [hholds.1] at hnot
          cases hnot
        -- A create replaces nothing.
        have hrecord : before = .absent ∧ version = .created := by
          have hbefore := hwrites.before
          have hversion := hwrites.version
          cases op with
          | createNode | createEdge => exact ⟨hbefore, hversion⟩
          | _ => cases hholds.1
        rw [hrecord.1, hrecord.2, hchanges]
        exact hadds
      · cases hallowed
  | reserve table count =>
    simp only [act]
    split
    next store range hreserve => exact .idle (Store.reserve_spec hreserve).1
    · exact .idle .refl
  | direct op writer =>
    simp only [allowed] at hallowed
    cases hepoch : writer.epoch with
    | none => simp [hepoch] at hallowed
    | some epoch =>
      simp only [hepoch, and_eq_true, decide_eq_true_eq, all_eq_true, not_eq_true'] at hallowed
      exact h.writeStamped hepoch hallowed.1.1 hallowed.1.2 hallowed.2
  | commit id epoch =>
    simp only [allowed, act, and_eq_true, decide_eq_true_eq] at hallowed ⊢
    cases hfind : w.find id with
    | none => simp [hfind] at hallowed
    | some tx =>
      obtain ⟨htx, rfl⟩ := find_eq_some hfind
      obtain ⟨store, hcommit, hcommits⟩ := h.commit htx hallowed.2
      simp only [hcommit]
      exact .committed htx hallowed.1.2 hallowed.2 hcommit hcommits
  | rollback id =>
    simp only [allowed, act] at hallowed ⊢
    cases hfind : w.find id with
    | none => simp [hfind] at hallowed
    | some tx =>
      obtain ⟨htx, rfl⟩ := find_eq_some hfind
      obtain ⟨store, hundo, hundoes⟩ := h.undo htx (nil_append _).symm
      simp only [hundo]
      exact .rolledBack htx hundo hundoes
  | rollbackTo id mark =>
    simp only [allowed, act] at hallowed ⊢
    cases hfind : w.find id with
    | none => simp [hfind] at hallowed
    | some tx =>
      obtain ⟨htx, rfl⟩ := find_eq_some hfind
      obtain ⟨store, hundo, hundoes⟩ := h.undo htx (take_append_drop mark _).symm
      simp only [ChangeSet.splitOff, hundo]
      exact .rolledBackTo htx hundo hundoes
  | publish epoch => exact .published (by simpa [allowed] using hallowed)
  | collect horizon =>
    simp only [allowed, and_eq_true, decide_eq_true_eq, all_eq_true] at hallowed
    obtain ⟨collapsed, hcollects⟩ := Store.collect_spec h.sound h.listed horizon
    exact .collected hallowed.1 hallowed.2 hcollects
  | createPropertyIndex property =>
    obtain ⟨indexes, heq⟩ := w.store.createPropertyIndex_eq property
    exact .indexed heq (.inl ⟨property, rfl⟩)
  | dropPropertyIndex property => exact .indexed rfl (.inr (.inl ⟨property, rfl⟩))
  | createLabelIndex label property =>
    obtain ⟨indexes, heq⟩ := w.store.createLabelIndex_eq label property
    exact .indexed heq (.inr (.inr (.inl ⟨label, property, rfl⟩)))
  | dropLabelIndex label property => exact .indexed rfl (.inr (.inr (.inr ⟨label, property, rfl⟩)))

end Workload

end Grafeo.RowGroup
