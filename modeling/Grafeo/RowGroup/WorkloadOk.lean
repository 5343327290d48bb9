import Grafeo.RowGroup.WorkloadSteps

/-!
# Grafeo.RowGroup.WorkloadOk

**Every state of a run is in order** (`Workload.Ok`): an empty store is, and each case of a
step keeps it so.
-/

namespace Grafeo.RowGroup

open List Function Lib ChangeSet Tables Nat

variable {Name Value : Type} {e : Entity} {pre undone : List (Change Name Value)}
  {changes : ChangeSet Name Value} {action : Action Name Value} {w' : Workload Name Value}

namespace Store

variable {s s' : Store Name Value} {op : DataOp Name Value} {mode : Mode}

theorem nodup_list (h : s.listed.Nodup) (table : Table) (raw : Nat) :
    (s.list table raw).listed.Nodup := by
  unfold list
  split
  · exact h
  next hnot =>
    have hmem : (table, vectorOf raw) ∉ s.listed := fun hmem => hnot (.inl hmem)
    exact nodup_append.mpr ⟨h, nodup_singleton _, fun a ha b hb heq =>
      hmem (by rw [← mem_singleton.mp hb, ← heq]; exact ha)⟩

theorem Idles.nodup (h : s.Idles s') (hnodup : s.listed.Nodup) : s'.listed.Nodup := by
  rcases h.listed with heq | ⟨table, raw, heq⟩
  · rwa [heq]
  · rw [heq]
    exact nodup_list hnodup table raw

theorem Idles.row (h : s.Idles s') : s'.row = s.row := by rw [h.toTables]

theorem Idles.below (h : s.Idles s') (hbelow : e.below s.nextNodeId s.nextEdgeId) :
    e.below s'.nextNodeId s'.nextEdgeId := by
  cases e with
  | node id => exact hbelow.trans_le h.nextNodeId
  | edge id => exact hbelow.trans_le h.nextEdgeId

variable [DecidableEq Name] [DecidableEq Value] {s₁ : Store Name Value} {pushed : Option Stamp}
  {version : PendingVersion} {lists : Bool}

section

variable (h : s.Written op mode pushed version s₁)
include h

/-- A write and what follows it change the row of the op alone. -/
theorem Written.row (hsettles : s₁.Settles op mode lists s') (e : Entity) :
    s'.row e = if e = op.entity then (s.row op.entity).put mode.stamp pushed op.rowOp
      else s.row e := by
  rw [hsettles.toTables]
  exact h.puts e

/-- The ids of the rows were handed out. -/
theorem Written.handed (hsettles : s₁.Settles op mode lists s')
    (hhanded : ∀ e, s.has e = true → e.below s.nextNodeId s.nextEdgeId) (e : Entity)
    (he : e = op.entity ∨ s.has e = true) : e.below s'.nextNodeId s'.nextEdgeId := by
  have hframe : ∀ e : Entity, e.below s.nextNodeId s.nextEdgeId → e.below s'.nextNodeId s'.nextEdgeId := by
    intro e hbelow
    refine hsettles.idles.below ?_
    rwa [h.frame.nextNodeId, h.frame.nextEdgeId]
  rcases he with rfl | hhas
  · cases hcreate : op.isCreate with
    | true =>
      rw [hsettles.nextNodeId, hsettles.nextEdgeId]
      cases op <;> simp_all [DataOp.isCreate, DataOp.entity, Entity.below, passId]
    | false => exact hframe _ (hhanded _ (has_of_visible (h.seen hcreate)))
  · exact hframe e (hhanded e hhas)

/-- A row that exists after a write did before, or the op created it. -/
theorem Written.has_cases (hsettles : s₁.Settles op mode lists s') (he : s'.has e = true) :
    e = op.entity ∨ s.has e = true := by
  by_cases heq : e = op.entity
  · exact .inl heq
  · right
    have hrow := h.row hsettles e
    rw [if_neg heq] at hrow
    rw [has_row, hrow, version_row] at he
    exact he

end

/-- A rollback leaves the rows alone that the transaction did not write. -/
theorem Undoes.row_of_not_named {t : Nat} (h : s.Undoes t pre undone s')
    (hentries : changes.entries = pre ++ undone) (hname : changes.names e = false) :
    s'.row e = s.row e :=
  h.other e fun change hchange =>
    names_eq_false.mp hname change (by simp [hentries, hchange])

end Store

namespace Workload

variable [DecidableEq Name] [DecidableEq Value] {w : Workload Name Value}
  {tx : OpenTransaction Name Value} {store : Store Name Value}

/-! ### Each case -/

namespace Ok

theorem opened (h : w.Ok) {id snapshot : Nat} (hfresh : ∀ tx ∈ w.transactions, tx.id ≠ id)
    (hstamp : pendingStamp id = .ok (.pending id)) (hfloor : w.store.floor ≤ snapshot)
    (hpublished : snapshot ≤ w.published) :
    Ok { w with transactions := w.transactions ++ [OpenTransaction.mk id snapshot {}] } := by
  have hfree : ∀ e, (w.store.row e).Free id := fun e =>
    h.owned.free_of_not_names fun tx htx hid => absurd hid (hfresh tx htx)
  exact
    { h with
      owned := h.owned.openTransaction hfresh snapshot
      stamps := forall_mem_concat.mpr ⟨h.stamps, hstamp⟩
      searched := forall_mem_concat.mpr ⟨h.searched, h.sound.searched_of_free hfree snapshot⟩
      named := forall_mem_concat.mpr ⟨h.named, nofun⟩
      snapshots := forall_mem_concat.mpr ⟨h.snapshots, hfloor, hpublished⟩ }

end Ok

/-- A call of the store alone: what is left to say is who owns the rows. -/
structure Kept (w : Workload Name Value) (store : Store Name Value) (written : Entity → Nat) :
    Prop where
  sound : store.Sound
  listed : store.listed.Nodup
  searched : ∀ tx ∈ w.transactions, store.Searched (.pending tx.id) tx.snapshot
  below : ∀ e, (store.row e).StampsBelow (written e)
  written : ∀ e, written e ≤ store.epoch
  handed : ∀ e, store.has e = true → e.below store.nextNodeId store.nextEdgeId
  next : ∀ e : Entity, e.below w.store.nextNodeId w.store.nextEdgeId →
    e.below store.nextNodeId store.nextEdgeId
  floor : store.floor = w.store.floor

variable {written : Entity → Nat}

section

variable (hkept : w.Kept store written)
include hkept

/-- The transactions that are left are open ones, with the change sets they have then. -/
theorem Kept.ok (h : w.Ok)
    {transactions : List (OpenTransaction Name Value)} (howned : Owned transactions store.row)
    (hopen : ∀ tx' ∈ transactions, ∃ tx ∈ w.transactions, tx'.id = tx.id ∧
      tx'.snapshot = tx.snapshot ∧ (tx'.changes = tx.changes ∨ ∀ e, tx'.changes.names e = true →
          e.below store.nextNodeId store.nextEdgeId)) :
    Ok { w with transactions, store, written } where
  sound := hkept.sound
  owned := howned
  listed := hkept.listed
  stamps tx' htx' := by
    obtain ⟨tx, htx, hid, -⟩ := hopen tx' htx'
    exact hid ▸ h.stamps tx htx
  searched tx' htx' := by
    obtain ⟨tx, htx, hid, hsnapshot, -⟩ := hopen tx' htx'
    exact hid ▸ hsnapshot ▸ hkept.searched tx htx
  below := hkept.below
  written := hkept.written
  handed := hkept.handed
  named tx' htx' e hname := by
    obtain ⟨tx, htx, -, -, heq | hnamed⟩ := hopen tx' htx'
    · exact hkept.next e (h.named tx htx e (heq ▸ hname))
    · exact hnamed e hname
  floor := hkept.floor ▸ h.floor
  snapshots tx' htx' := by
    obtain ⟨tx, htx, -, hsnapshot, -⟩ := hopen tx' htx'
    exact hkept.floor ▸ hsnapshot ▸ h.snapshots tx htx

/-- Another change set of a transaction. -/
theorem Kept.setChanges (h : w.Ok) (htx : tx ∈ w.transactions)
    (howned : Owned (w.setChanges tx.id changes).transactions store.row)
    (hnamed : ∀ e, changes.names e = true → e.below store.nextNodeId store.nextEdgeId) :
    Ok (({ w with store, written } : Workload Name Value).setChanges tx.id changes) := by
  refine hkept.ok h howned fun tx' htx' => ?_
  rcases (mem_setChanges h.owned.ids htx).mp htx' with rfl | ⟨htx', -⟩
  · exact ⟨tx, htx, rfl, rfl, .inr hnamed⟩
  · exact ⟨tx', htx', rfl, rfl, .inl rfl⟩

/-- The change sets stay. -/
theorem Kept.same (h : w.Ok) (howned : Owned w.transactions store.row) :
    Ok { w with store, written } :=
  hkept.ok h howned fun tx htx => ⟨tx, htx, rfl, rfl, .inl rfl⟩

/-- A transaction ends. -/
theorem Kept.close (h : w.Ok) {t : Nat} (howned : Owned (w.close t).transactions store.row) :
    Ok (({ w with store, written } : Workload Name Value).close t) :=
  hkept.ok h howned fun tx htx => ⟨tx, (mem_close.mp htx).1, rfl, rfl, .inl rfl⟩

end

namespace Ok

theorem kept_idles (h : w.Ok) (hidles : w.store.Idles store) (hmono : ∀ e, w.written e ≤ written e)
    (hbound : ∀ e, written e = w.written e ∨ written e ≤ store.epoch) : w.Kept store written where
  sound := by
    have := h.sound
    rwa [← hidles.toTables] at this
  listed := hidles.nodup h.listed
  searched tx htx := by
    have := h.searched tx htx
    rwa [← hidles.toTables] at this
  below e := by
    have := (h.below e).mono (hmono e)
    rwa [← hidles.row] at this
  written e := by
    rcases hbound e with heq | hle
    · exact (le_of_eq heq).trans ((h.written e).trans hidles.epoch)
    · exact hle
  handed e he := by
    refine hidles.below (h.handed e ?_)
    rwa [← hidles.toTables]
  next e := hidles.below
  floor := hidles.floor

/-- A write keeps the store in order, whoever wrote it. -/
theorem kept_written (h : w.Ok) {op : DataOp Name Value} {mode : Mode} {pushed : Option Stamp}
    {version : PendingVersion} {s₁ : Store Name Value} {bound : Nat}
    (hwritten : w.store.Written op mode pushed version s₁)
    (hsettles : s₁.Settles op mode true store)
    (hsearched : ∀ tx ∈ w.transactions, mode.stamp.committedBy tx.snapshot = false)
    (hstamp : mode.stamp.AtMost bound) (hmono : w.written op.entity ≤ bound)
    (hbound : bound ≤ store.epoch) : w.Kept store (update w.written op.entity bound) where
  sound := hsettles.toTables ▸ hwritten.sound
  listed := by
    have hnodup : s₁.listed.Nodup := hwritten.frame.listed ▸ h.listed
    exact hsettles.idles.nodup hnodup
  searched tx htx := by
    rw [hsettles.toTables]
    exact (h.searched tx htx).of_push hwritten.stamps (hsearched tx htx)
  below e := by
    rw [hwritten.row hsettles]
    by_cases he : e = op.entity
    · subst he
      rw [if_pos rfl, update_self]
      refine ((h.below op.entity).mono hmono).put hstamp (fun stamp hmem => ?_) op.rowOp
      rwa [(hwritten.pushed stamp hmem).1]
    · rw [if_neg he, update_of_ne he]
      exact h.below e
  written e := by
    rw [update_apply]
    split
    · exact hbound
    · rw [hsettles.epoch, hwritten.frame.epoch]
      exact (h.written e).trans (le_max_left ..)
  handed e he := hwritten.handed hsettles h.handed e (hwritten.has_cases hsettles he)
  next e hbelow := hsettles.idles.below (by
    rwa [hwritten.frame.nextNodeId, hwritten.frame.nextEdgeId])
  floor := hsettles.floor.trans hwritten.frame.floor

theorem kept_undoes (h : w.Ok) (htx : tx ∈ w.transactions)
    (hentries : tx.changes.entries = pre ++ undone)
    (hundoes : w.store.Undoes tx.id pre undone store) : w.Kept store w.written where
  sound := hundoes.sound
  listed := hundoes.frame.listed ▸ h.listed
  searched tx htx := (h.searched tx htx).of_sublist hundoes.stamps
  below e := by
    cases hname : tx.changes.names e with
    | true =>
      -- Both rows are what the transaction made of the committed one.
      obtain ⟨base, hbase, hwrote⟩ := h.owned.wrote tx htx e hname
      rw [hentries] at hwrote
      rw [((hundoes.back e base hbase hwrote).shape hbase).stampsBelow_iff,
        ← (hwrote.shape hbase).stampsBelow_iff]
      exact h.below e
    | false =>
      rw [hundoes.row_of_not_named hentries hname]
      exact h.below e
  written e := hundoes.frame.epoch ▸ h.written e
  handed e he := by
    rw [hundoes.frame.nextNodeId, hundoes.frame.nextEdgeId]
    cases hname : tx.changes.names e with
    | true => exact h.named tx htx e hname
    | false =>
      refine h.handed e ?_
      rwa [has_row, ← hundoes.row_of_not_named hentries hname,
        version_row]
  next e hbelow := by rwa [hundoes.frame.nextNodeId, hundoes.frame.nextEdgeId]
  floor := hundoes.frame.floor

theorem kept_commits (h : w.Ok) (htx : tx ∈ w.transactions) {epoch : Nat}
    (hpublished : w.published < epoch) (hlater : w.store.epoch < epoch)
    (hcommits : w.store.Commits tx.id epoch tx.changes.entries store) :
    w.Kept store (fun e => if tx.changes.names e then epoch else w.written e) where
  sound := hcommits.sound
  listed := hcommits.listed ▸ h.listed
  searched tx' htx' := (h.searched tx' htx').of_restamp
    ((h.snapshots tx' htx').2.trans_lt hpublished) hcommits.stamps
  below e := by
    rw [hcommits.row]
    cases hname : tx.changes.names e with
    | true =>
      have hle : w.written e ≤ epoch := (lt_of_le_of_lt (h.written e) hlater).le
      exact ((h.below e).mono hle).restamp (le_refl epoch)
    | false =>
      have hfree := h.owned.row_restamp htx hname epoch
      simpa [hfree] using h.below e
  written e := by
    rw [hcommits.epoch]
    have := h.written e
    split <;> omega
  handed e he := by
    rw [hcommits.nextNodeId, hcommits.nextEdgeId]
    refine h.handed e ?_
    rw [has_row, hcommits.row] at he
    rw [has_row]
    simpa [Row.restamp] using he
  next e hbelow := by rwa [hcommits.nextNodeId, hcommits.nextEdgeId]
  floor := hcommits.floor

theorem collected (h : w.Ok) {horizon : Nat} {collapsed : Table → Nat → Bool}
    (hpublished : horizon ≤ w.published) (hsnapshots : ∀ tx ∈ w.transactions, horizon ≤ tx.snapshot)
    (hcollects : w.store.Collects horizon collapsed store) : Ok { w with store } := by
  -- What holds of a row, and of the row when a collect visits it, its vector collapsed or not.
  have hrow : ∀ (P : Row Name Value → Prop) e, P (w.store.row e) → (∀ c, (c = true →
      (w.store.row e).version.SettledBy horizon) → P ((w.store.row e).collect horizon c)) →
      P (store.row e) := fun P e hold hcollect => by
    rw [hcollects.row]
    split
    next hlisted =>
      refine hcollect _ fun hc => ?_
      rw [version_row]
      exact hcollects.settled e hlisted hc
    next => exact hold
  have hfloor : store.floor ≤ max w.store.floor horizon := by
    rw [hcollects.floor]
    split <;> omega
  refine
    { sound := hcollects.sound
      owned := h.owned.map (fun e hnone => ?_) fun tx htx e hname base events hbase hwrote => ?_
      listed := hcollects.listed ▸ h.listed.filter _
      stamps := h.stamps
      searched tx htx := (h.searched tx htx).of_sublist hcollects.stamps
      below e := ?_
      written e := hcollects.epoch ▸ h.written e
      handed e he := ?_
      named tx htx e hname := ?_
      floor := hfloor.trans (Nat.max_le.mpr ⟨h.floor, hpublished⟩)
      snapshots tx htx := ⟨le_trans hfloor
        (Nat.max_le.mpr ⟨(h.snapshots tx htx).1, hsnapshots tx htx⟩), (h.snapshots tx htx).2⟩ }
  · have hfree := h.owned.free e hnone
    exact hrow Row.NoPending e hfree fun c _ => hfree.collect horizon c
  · exact hrow (fun row => ∃ base, base.NoPending ∧ Wrote tx.id base events row) e
      ⟨base, hbase, hwrote⟩ fun c hsettled =>
        ⟨base.collect horizon c, hbase.collect horizon c, hwrote.collect hsettled⟩
  · exact hrow (·.StampsBelow (w.written e)) e (h.below e) fun c _ => (h.below e).collect horizon c
  · rw [hcollects.nextNodeId, hcollects.nextEdgeId]
    refine h.handed e ?_
    rw [has_row] at he ⊢
    exact hrow (fun row => row.version.created.isSome = true → _) e id
      (fun c _ => Row.isSome_of_collect) he
  · rw [hcollects.nextNodeId, hcollects.nextEdgeId]
    exact h.named tx htx e hname

end Ok

/-- **Each step keeps a workload in order.** -/
theorem Moves.ok (hmoves : w.Moves action w') (h : w.Ok) : w'.Ok := by
  cases hmoves with
  | opened fresh stamp floor published => exact h.opened fresh stamp floor published
  | idled idles mono bound =>
    exact (h.kept_idles idles mono bound).same h (idles.row ▸ h.owned)
  | @wrote _ tx op before version changes mode pushed s₁ store mem transaction applied written settles
      writes adds other =>
      have hstamp : mode.stamp = .pending tx.id := by rw [transaction]
      have hkept : w.Kept store (update w.written op.entity (w.written op.entity)) :=
        h.kept_written written settles (fun tx' _ => by rw [hstamp]; rfl)
          (by rw [hstamp]; exact trivial) le_rfl (by
            rw [settles.epoch, written.frame.epoch]
            exact (h.written _).trans (le_max_left ..))
      rw [update_eq_self] at hkept
      have hrow : ∀ e, e ≠ op.entity → store.row e = w.store.row e := fun e he => by
        rw [written.row settles, if_neg he]
      refine hkept.setChanges h mem (h.owned.replace mem adds.ok (fun e hname tx' htx' hid => ?_)
        (fun e hname => ?_) (fun e hname hnone => ?_) fun tx' htx' hid e hname => ?_) fun e hname => ?_
      · rcases (adds.names e).mp hname with hold | rfl
        · exact h.owned.not_names mem htx' hid hold
        · exact other tx' htx' hid
      · rw [adds.eventsOf]
        by_cases he : e = op.entity
        · subst he
          obtain ⟨base, hbase, hwrote⟩ := h.owned.wrote_of_own mem other
          rw [eventsIn_self (Record.mk op before version)]
          exact ⟨base, hbase, hwrote.snoc writes⟩
        · rw [eventsIn_of_ne (Ne.symm he), append_nil, hrow e he]
          exact h.owned.wrote tx mem e (((adds.names e).mp hname).resolve_right he)
      · have hold : ¬(tx.changes.names e = true ∨ e = op.entity) := fun hor => by
          rw [(adds.names e).mpr hor] at hname
          cases hname
        rw [hrow e fun he => hold (.inr he)]
        exact h.owned.free_of_others mem (by simpa using fun h => hold (.inl h)) hnone
      · refine hrow e fun he => ?_
        rw [he, other tx' htx' hid] at hname
        cases hname
      · rcases (adds.names e).mp hname with hold | rfl
        · exact hkept.next e (h.named tx mem e hold)
        · exact written.handed settles h.handed _ (.inl rfl)
  | @bulked _ tx range store mem idles past handed =>
    have hfresh : ∀ e, range.contains e = true → ∀ tx ∈ w.transactions,
        tx.changes.names e = false := fun e he tx htx => by
      by_contra hname
      exact past e he (h.named tx htx e (by simpa using hname))
    obtain ⟨hok, hevents, hnames⟩ :=
      ok_pushBulk (h.owned.logs tx mem) fun e he => hfresh e he tx mem
    have hother : ∀ e, (tx.changes.pushBulk range).names e = true → ∀ tx' ∈ w.transactions,
        tx'.id ≠ tx.id → tx'.changes.names e = false := fun e hname tx' htx' hid => by
      rcases hnames e hname with hold | hrange
      · exact h.owned.not_names mem htx' hid hold
      · exact hfresh e hrange tx' htx'
    refine (h.kept_idles idles (fun _ => le_rfl) fun _ => .inl rfl).setChanges h mem
      (idles.row ▸ h.owned.replace mem hok hother (fun e hname => ?_) (fun e hname hnone => ?_)
        fun _ _ _ _ _ => rfl) fun e hname => ?_
    · rw [hevents]
      exact h.owned.wrote_of_own mem (hother e hname)
    · refine h.owned.free_of_others mem ?_ hnone
      by_contra hold
      rw [names_pushBulk (by simpa using hold)] at hname
      cases hname
    · rcases hnames e hname with hold | hrange
      · exact idles.below (h.named tx mem e hold)
      · exact handed e hrange
  | @stamped op writer epoch mode pushed version _ s₁ store mode_eq published later unowned
      applied written settles =>
      have hstamp : mode.stamp = .epoch epoch := by rw [mode_eq]
      have hkept : w.Kept store (update w.written op.entity epoch) := by
        refine h.kept_written written settles (fun tx htx => ?_) (by rw [hstamp]; exact le_rfl)
          ((h.written _).trans later) ?_
        · have := (h.snapshots tx htx).2
          rw [hstamp]
          simpa [Stamp.committedBy] using this.trans_lt published
        · rw [settles.epoch, mode_eq]
          exact le_max_right ..
      have hother : ∀ tx ∈ w.transactions, ∀ e, tx.changes.names e = true →
          store.row e = w.store.row e := fun tx htx e hname => by
        rw [written.row settles, if_neg]
        rintro rfl
        rw [unowned tx htx] at hname
        cases hname
      refine hkept.same h (h.owned.map (fun e hnone => ?_)
        fun tx htx e hname base events hbase hwrote => ⟨base, hbase, hother tx htx e hname ▸ hwrote⟩)
      rw [written.row settles]
      by_cases he : e = op.entity
      · subst he
        rw [if_pos rfl, hstamp]
        refine (h.owned.free _ unowned).put rfl (fun stamp hmem => ?_) _
        rw [(written.pushed stamp hmem).1, hstamp]
        rfl
      · rw [if_neg he]
        exact h.owned.free e hnone
  | @committed tx epoch store mem published later _ commits =>
    refine (h.kept_commits mem published later commits).close h (h.owned.close ?_ ?_)
    · intro tx' htx' hid e hname
      obtain ⟨base, hbase, hwrote⟩ := h.owned.wrote tx' htx' e hname
      rw [commits.row, ← hid]
      exact (hwrote.shape hbase).restamp_noPending hbase epoch
    · intro e hnone
      rw [commits.row]
      exact h.owned.row_restamp mem (hnone tx mem rfl) epoch
  | @rolledBack tx store mem undo undoes =>
    refine (h.kept_undoes mem (nil_append _).symm undoes).close h (h.owned.close ?_ ?_)
    · intro tx' htx' hid e hname
      obtain rfl := eq_of_id h.owned.ids htx' mem hid
      obtain ⟨base, hbase, hwrote⟩ := h.owned.wrote tx' htx' e hname
      rw [Wrote.nil_iff.mp (undoes.back e base hbase hwrote)]
      exact hbase
    · exact fun e hnone => undoes.row_of_not_named (nil_append _).symm (hnone tx mem rfl)
  | @rolledBackTo tx mark store mem undo undoes =>
    have hentries := (take_append_drop mark tx.changes.entries).symm
    have hnames : ∀ e, names ⟨tx.changes.entries.take mark⟩ e = true →
        tx.changes.names e = true := fun e hname => by
      obtain ⟨change, hchange, hname⟩ := names_iff.mp hname
      exact names_iff.mpr ⟨change, mem_of_mem_take hchange, hname⟩
    have hback : ∀ e, tx.changes.names e = true → ∃ base, base.NoPending ∧
        Wrote tx.id base (eventsOf e (tx.changes.entries.take mark)) (store.row e) :=
      fun e hname => by
        obtain ⟨base, hbase, hwrote⟩ := h.owned.wrote tx mem e hname
        rw [hentries] at hwrote
        exact ⟨base, hbase, undoes.back e base hbase hwrote⟩
    have hok := (undoes.logged (hentries ▸ h.owned.logged mem)).ok
    refine (h.kept_undoes mem hentries undoes).setChanges h mem (h.owned.replace mem hok
      (fun e hname tx' htx' hid => h.owned.not_names mem htx' hid (hnames e hname))
      (fun e hname => hback e (hnames e hname)) (fun e hname hnone => ?_)
      fun tx' htx' hid e hname => ?_) fun e hname => ?_
    · cases hall : tx.changes.names e with
      | true =>
        obtain ⟨base, hbase, hwrote⟩ := hback e hall
        rw [eventsOf_eq_nil hok.rows (names_eq_false.mp hname), Wrote.nil_iff] at hwrote
        rwa [hwrote]
      | false =>
        rw [undoes.row_of_not_named hentries hall]
        exact h.owned.free_of_others mem hall hnone
    · exact undoes.row_of_not_named hentries (h.owned.not_names htx' mem (hid.symm) hname)
    · rw [undoes.frame.nextNodeId, undoes.frame.nextEdgeId]
      exact h.named tx mem e (hnames e hname)
  | published later =>
    exact { h with
      floor := h.floor.trans later
      snapshots tx htx := ⟨(h.snapshots tx htx).1, (h.snapshots tx htx).2.trans later⟩ }
  | collected published snapshots collects => exact h.collected published snapshots collects
  | indexed created how =>
    subst created
    exact { h with }

/-- Only a collect moves the oldest epoch the store answers reads at, and no further than its
horizon. -/
theorem Moves.floor_le (hmoves : w.Moves action w') : w'.store.floor = w.store.floor ∨
      ∃ horizon, action = .collect horizon ∧ w'.store.floor ≤ max w.store.floor horizon := by
  cases hmoves with
  | opened => exact .inl rfl
  | idled idles | bulked mem idles => exact .inl idles.floor
  | wrote mem transaction applied written settles
  | stamped mode_eq published later unowned applied written settles =>
    exact .inl (settles.floor.trans written.frame.floor)
  | committed mem published later commit commits => exact .inl commits.floor
  | rolledBack mem undo undoes | rolledBackTo mem undo undoes => exact .inl undoes.frame.floor
  | published => exact .inl rfl
  | @collected horizon collapsed published snapshots collects =>
    refine .inr ⟨horizon, rfl, ?_⟩
    rw [collects.floor]
    split <;> omega
  | indexed created how =>
    subst created
    exact .inl rfl

/-! ### Runs -/

/-- An empty store has no row. -/
theorem row_initial (keepsIncoming history : Bool) (e : Entity) :
    (initial keepsIncoming history : Workload Name Value).store.row e = {} := by
  cases e with
  | node id =>
    exact Row.ext rfl (Cells.cell_of_values _) (funext fun _ => Cells.cell_of_values _) rfl
  | edge id => exact Row.ext rfl rfl (funext fun _ => Cells.cell_of_values _) rfl

theorem ok_initial (keepsIncoming history : Bool) :
    (initial keepsIncoming history : Workload Name Value).Ok where
  sound :=
    { columns table := by cases table <;> exact fun _ => Cells.WF.of_values _
      labels := Cells.WF.of_values _
      fits e := by
        rw [row_initial]
        exact ⟨fun _ => rfl, nofun⟩ }
  owned :=
    { ids := nodup_nil
      logs := by simp [initial]
      disjoint := by simp [initial]
      wrote := by simp [initial]
      free e _ := by
        rw [row_initial]
        exact .empty }
  listed := nodup_nil
  stamps := by simp [initial]
  searched := by simp [initial]
  below e := by
    rw [row_initial]
    exact .empty _
  written _ := zero_le _
  handed e he := by
    rw [has_row, row_initial] at he
    cases he
  named := by simp [initial]
  floor := zero_le _
  snapshots := by simp [initial]

theorem Reachable.ok (h : w.Reachable) : w.Ok := by
  obtain ⟨keepsIncoming, history, actions, hrun⟩ := h
  exact run_invariant Ok (fun w action w' hok hstep => (step_cases hok hstep).ok hok)
    (ok_initial keepsIncoming history) hrun

/-- After collects up to horizon `h` the store answers readers from there on. -/
theorem floor_le_of_run {keepsIncoming history : Bool} {actions : List (Action Name Value)}
    (hrun : run step (initial keepsIncoming history) actions = some w) {h : Nat}
    (hcollects : ∀ horizon, Action.collect horizon ∈ actions → horizon ≤ h) :
    w.store.floor ≤ h := by
  have hboth : w.Ok ∧ w.store.floor ≤ h := by
    refine run_invariant_of_mem (fun w => w.Ok ∧ w.store.floor ≤ h)
      (fun w action hmem w' ⟨hok, hfloor⟩ hstep => ?_)
      ⟨ok_initial keepsIncoming history, zero_le h⟩ hrun
    have hmove := step_cases hok hstep
    refine ⟨hmove.ok hok, ?_⟩
    rcases hmove.floor_le with hsame | ⟨horizon, rfl, hle⟩
    · exact hsame ▸ hfloor
    · exact hle.trans (Nat.max_le.mpr ⟨hfloor, hcollects horizon hmem⟩)
  exact hboth.2

/-- **What every case of a step keeps holds in every state of a run.** -/
theorem Reachable.invariant (Inv : Workload Name Value → Prop)
    (hinitial : ∀ keepsIncoming history, Inv (initial keepsIncoming history))
    (hmoves : ∀ w action w', w.Ok → w.Moves action w' → Inv w → Inv w') (h : w.Reachable) :
    Inv w := by
  obtain ⟨keepsIncoming, history, actions, hrun⟩ := h
  have hboth : w.Ok ∧ Inv w :=
    run_invariant (fun w => w.Ok ∧ Inv w)
      (fun w action w' ⟨hok, hinv⟩ hstep =>
        have hmove := step_cases hok hstep
        ⟨hmove.ok hok, hmoves w action w' hok hmove hinv⟩)
      ⟨ok_initial keepsIncoming history, hinitial keepsIncoming history⟩ hrun
  exact hboth.2

end Workload

end Grafeo.RowGroup
