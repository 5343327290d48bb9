import Grafeo.Transaction.Isolation

/-!
# Grafeo.Transaction.Horizon

**Garbage collection never passes a reader.** The readers of an epoch are the open
transactions with that snapshot and the live pins there; the deque of read pins counts
exactly them, so the oldest epoch in it bounds the collect horizon and the history
floor by every one of them, whatever is pinned, released or collected in between.

A transaction whose publication holds the table's lock and has released its snapshot
reads no more: the source marks it committed before it releases.
-/

namespace Grafeo.Transaction

open Lib TransactionManager List System Nat

variable {K : Type} {epoch : Nat} {commit : Publish}

namespace System

variable {s s' : System K}

/-- Whether the publication of transaction `t` has released its snapshot. -/
def snapshotReleased (s : System K) (t : Nat) : Bool :=
  s.turn.any fun turn => decide (turn.2 = .released) && decide (turn.1.transactionId = t)

/-- Whether transaction `t` is open and reads at `epoch`. -/
def readsAt (s : System K) (t epoch : Nat) : Bool :=
  ((s.manager.transactions[t]?).any fun info =>
    info.state.isOpen && decide (info.startEpoch = epoch)) && !s.snapshotReleased t

/-- How many readers hold `epoch`: open transactions with that snapshot, and pins. -/
def holders (s : System K) (epoch : Nat) : Nat :=
  Nat.count (fun t => s.readsAt t epoch = true) s.manager.nextTransactionId + s.pins.count epoch

structure PinInv (s : System K) : Prop where
  counts : s.manager.reads.Counts s.holders
  held : ∀ e, 0 < s.holders e → s.manager.history.floor ≤ e ∧ e ≤ s.manager.publishedEpoch
  floor_le : s.manager.history.floor ≤ s.manager.publishedEpoch

theorem PinInv.init : PinInv ({} : System K) := by
  have hzero : ∀ e, holders ({} : System K) e = 0 := by
    intro e
    simp [holders, readsAt]
  constructor
  case counts => exact ReadPins.Counts.nil.congr hzero
  case held =>
    intro e he
    cases he
  case floor_le => exact le_rfl

/-! ### The readers after a change -/

theorem holders_congr (hnext : s'.manager.nextTransactionId = s.manager.nextTransactionId)
    (hpins : s'.pins = s.pins) (hreads : ∀ t e, s'.readsAt t e = s.readsAt t e) (e : Nat) :
    s'.holders e = s.holders e := by
  rw [holders, holders, hnext, hpins]
  congr 1
  exact count_congr fun t _ => by rw [hreads]

/-- The same table and turn: the same transactions read. -/
theorem readsAt_congr (htransactions : s'.manager.transactions = s.manager.transactions)
    (hturn : ∀ t, s'.snapshotReleased t = s.snapshotReleased t) (t e : Nat) :
    s'.readsAt t e = s.readsAt t e := by
  rw [readsAt, readsAt, htransactions, hturn]

/-- A transaction in the table reads at its snapshot alone. -/
theorem readsAt_eq {t : Nat} {info : TransactionInfo K}
    (hinfo : s.manager.transactions[t]? = some info) (hopen : info.state.isOpen = true)
    (hnot : s.snapshotReleased t = false) (e : Nat) :
    s.readsAt t e = decide (info.startEpoch = e) := by
  simp [readsAt, hinfo, hopen, hnot]

/-- Transaction `t`, which read at `start`, reads no more. -/
theorem holders_released {t start : Nat} (hlt : t < s.manager.nextTransactionId)
    (hnext : s'.manager.nextTransactionId = s.manager.nextTransactionId) (hpins : s'.pins = s.pins)
    (hother : ∀ k, k ≠ t → ∀ e, s'.readsAt k e = s.readsAt k e)
    (hbefore : ∀ e, s.readsAt t e = decide (start = e)) (hafter : ∀ e, s'.readsAt t e = false) :
    0 < s.holders start ∧ ∀ e, s'.holders e = ReadPins.released s.holders start e := by
  have hpos : 0 < count (fun k => s.readsAt k start = true) s.manager.nextTransactionId := by
    refine count_pos (p := fun k => s.readsAt k start = true) hlt ?_
    rw [hbefore start]
    simp
  refine ⟨hpos.trans_le (Nat.le_add_right ..), fun e => ?_⟩
  have hchange := count_change (p := fun k => s.readsAt k e = true)
    (q := fun k => s'.readsAt k e = true) hlt fun k hk => by rw [hother k hk e]
  rw [hbefore e, hafter e] at hchange
  simp only [Bool.false_eq_true, if_false, decide_eq_true_eq, add_zero] at hchange
  rw [ReadPins.released, holders, holders, hnext, hpins]
  by_cases he : e = start
  · subst he
    rw [if_pos rfl] at hchange ⊢
    omega
  · rw [if_neg fun h => he h.symm] at hchange
    rw [if_neg he]
    omega

/-! ### What keeps the invariant -/

section

variable (h : PinInv s) (hfloor : s'.manager.history.floor = s.manager.history.floor)
include h hfloor

/-- A change that keeps the readers and the floor. -/
theorem PinInv.of_same (hreads : s'.manager.reads = s.manager.reads)
    (hpub : s.manager.publishedEpoch ≤ s'.manager.publishedEpoch)
    (hholders : ∀ e, s'.holders e = s.holders e) : PinInv s' where
  counts := by
    rw [hreads]
    exact h.counts.congr hholders
  held e he := by
    rw [hholders e] at he
    obtain ⟨hle, hlepub⟩ := h.held e he
    rw [hfloor]
    exact ⟨hle, hlepub.trans hpub⟩
  floor_le := by
    rw [hfloor]
    exact h.floor_le.trans hpub

/-- A change of what neither the readers nor the floor depend on. -/
theorem PinInv.of_rest (hreads : s'.manager.reads = s.manager.reads)
    (hpub : s.manager.publishedEpoch ≤ s'.manager.publishedEpoch)
    (hnext : s'.manager.nextTransactionId = s.manager.nextTransactionId) (hpins : s'.pins = s.pins)
    (htransactions : s'.manager.transactions = s.manager.transactions)
    (hturn : ∀ t, s'.snapshotReleased t = s.snapshotReleased t) : PinInv s' :=
  h.of_same hfloor hreads hpub (holders_congr hnext hpins (readsAt_congr htransactions hturn))

/-- One more reader, at or after the floor and at or before the published epoch. -/
theorem PinInv.of_held (hcounts : s'.manager.reads.Counts (ReadPins.held s.holders epoch))
    (hpub : s'.manager.publishedEpoch = s.manager.publishedEpoch)
    (hholders : ∀ e, s'.holders e = ReadPins.held s.holders epoch e)
    (hle : s.manager.history.floor ≤ epoch) (hlepub : epoch ≤ s.manager.publishedEpoch) :
    PinInv s' where
  counts := hcounts.congr hholders
  held e he := by
    rw [hfloor, hpub]
    rw [hholders e, ReadPins.held] at he
    by_cases heq : e = epoch
    · subst heq
      exact ⟨hle, hlepub⟩
    · rw [if_neg heq] at he
      exact h.held e he
  floor_le := by
    rw [hfloor, hpub]
    exact h.floor_le

/-- One reader fewer. -/
theorem PinInv.of_released (hpos : 0 < s.holders epoch)
    (hreads : s'.manager.reads = s.manager.reads.release epoch)
    (hpub : s'.manager.publishedEpoch = s.manager.publishedEpoch)
    (hholders : ∀ e, s'.holders e = ReadPins.released s.holders epoch e) : PinInv s' where
  counts := by
    rw [hreads]
    exact (h.counts.release hpos).congr hholders
  held e he := by
    rw [hfloor, hpub]
    rw [hholders e, ReadPins.released] at he
    refine h.held e ?_
    split at he <;> omega
  floor_le := by
    rw [hfloor, hpub]
    exact h.floor_le

end

/-! ### Effects -/

theorem snapshotReleased_of_unlocked (hunlocked : s.tableLocked = false) (t : Nat) :
    s.snapshotReleased t = false := by
  unfold tableLocked at hunlocked
  unfold snapshotReleased
  cases hturn : s.turn with
  | none => rfl
  | some turn =>
    rw [hturn] at hunlocked
    simp only [Option.any_some] at hunlocked ⊢
    rw [hunlocked, Bool.false_and]

/-- A change of one transaction's entry that keeps whether it is open and its
    snapshot. -/
theorem readsAt_of_entry {t : Nat} {old : TransactionInfo K} (new : TransactionInfo K)
    (hold : s.manager.transactions[t]? = some old) (hlookup : ∀ k : Nat,
      s'.manager.transactions[k]? = if k = t then some new else s.manager.transactions[k]?)
    (hopen : new.state.isOpen = old.state.isOpen) (hstart : new.startEpoch = old.startEpoch)
    (hturn : ∀ t, s'.snapshotReleased t = s.snapshotReleased t) (k e : Nat) :
    s'.readsAt k e = s.readsAt k e := by
  rw [readsAt, readsAt, hturn, hlookup]
  split
  next hk => simp [hk, hold, hopen, hstart]
  · rfl

section

variable (h : PinInv s)
include h

theorem PinInv.claimed {m : TransactionManager K}
    (hedit : EditsClaims s.manager m) : PinInv { s with manager := m } := by
  obtain ⟨t, info, info', ht, hactive, ⟨hstate, hstart, -⟩, rfl⟩ := hedit
  refine h.of_same rfl rfl le_rfl (holders_congr rfl rfl ?_)
  exact readsAt_of_entry info' ht (fun k => lookup_setInfo info') (by rw [hstate]) hstart fun _ => rfl

theorem PinInv.began (hunlocked : s.tableLocked = false)
    (isolationLevel : IsolationLevel) (isPrivate : Bool) :
    PinInv { s with manager := (s.manager.register isolationLevel isPrivate).2 } := by
  have hcounts := h.counts.holdPublished fun e he => (h.held e he).2
  refine h.of_held rfl hcounts rfl ?_ h.floor_le le_rfl
  intro e
  show Nat.count _ (s.manager.nextTransactionId + 1) + s.pins.count e = _
  rw [count_succ, ReadPins.held, holders]
  have hbelow : count (fun t => readsAt
      { s with manager := (s.manager.register isolationLevel isPrivate).2 } t e = true)
      s.manager.nextTransactionId =
      count (fun t => s.readsAt t e = true) s.manager.nextTransactionId := by
    refine count_congr fun t ht => ?_
    rw [readsAt, readsAt, lookup_register, if_neg (ht.ne)]
    rfl
  have hnew : readsAt
      { s with manager := (s.manager.register isolationLevel isPrivate).2 }
      s.manager.nextTransactionId e = decide (s.manager.publishedEpoch = e) := by
    have hinfo : (s.manager.register isolationLevel isPrivate).2.transactions[
        s.manager.nextTransactionId]? = some (s.manager.newInfo isolationLevel isPrivate) := by
      rw [lookup_register, if_pos rfl]
    have hopen : (s.manager.newInfo isolationLevel isPrivate).state.isOpen = true := rfl
    refine readsAt_eq ?_ hopen ?_ e
    · exact hinfo
    · exact snapshotReleased_of_unlocked hunlocked _
  rw [hbelow, hnew]
  simp only [decide_eq_true_eq, eq_comm (b := e)]
  split <;> omega

theorem PinInv.takenBack (hc : CommitInv s) (hlock : s.lock = .committing commit) :
    PinInv (s.tookBack commit) := by
  obtain ⟨info, hinfo, hstate⟩ := hc.handle_info (mem_handles_of_lock hlock)
  refine h.of_same rfl rfl le_rfl (holders_congr rfl rfl ?_)
  refine readsAt_of_entry { info with state := .active } hinfo (fun k => ?_)
    (by rw [hstate]; rfl) rfl fun _ => rfl
  rw [lookup_takeBack, hinfo]
  rfl

/-- A publication releases the snapshot of its transaction. -/
theorem PinInv.orderedRan (hc : CommitInv s) (hturn : s.turn = some (commit, .ordered)) :
    PinInv (s.ranOrdered commit) := by
  obtain ⟨info, hinfo, hstate⟩ := hc.handle_info (mem_handles_of_turn hturn (by decide))
  have hnone : ∀ t, s.snapshotReleased t = false := by
    intro t
    rw [snapshotReleased, hturn]
    rfl
  have hbefore := readsAt_eq hinfo (by rw [hstate]; rfl) (hnone commit.transactionId)
  refine And.elim (fun hpos hholders => h.of_released rfl hpos ?_ rfl hholders)
    (holders_released (hc.table.lt_next hinfo) rfl rfl ?_ hbefore ?_)
  · simp only [ranOrdered, releaseSnapshot, hinfo]
  · intro k hk e
    have hne : ¬ commit.transactionId = k := fun heq => hk heq.symm
    rw [readsAt, readsAt, hnone k]
    simp [snapshotReleased, hne, releaseSnapshot]
  · intro e
    simp [readsAt, snapshotReleased]

/-- The transaction that is published released its snapshot before. -/
theorem PinInv.published (hc : CommitInv s) (hturn : s.turn = some (commit, .released)) :
    PinInv { s with
      manager := s.manager.publish commit
      turn := some (commit, .published) } := by
  obtain ⟨info, hinfo, -⟩ := hc.handle_info (mem_handles_of_turn hturn (by decide))
  refine h.of_same rfl rfl (le_max_left ..) (holders_congr rfl rfl ?_)
  intro k e
  rw [readsAt, readsAt, (lookup_publish hinfo).1]
  by_cases hk : k = commit.transactionId
  · subst hk
    cases hleaves : s.manager.leavesAtPublish info <;>
      simp [snapshotReleased, hturn, TransactionState.isOpen]
  · have hne : ¬ commit.transactionId = k := fun heq => hk heq.symm
    simp [snapshotReleased, hturn, hk, hne]

theorem PinInv.aborted (hc : CommitInv s) {t : Nat} {info : TransactionInfo K}
    (leaves : Bool) (hinfo : s.manager.transactions[t]? = some info)
    (hactive : info.state = .active) (hunlocked : s.tableLocked = false) :
    PinInv { s with manager := s.manager.endAborted t info leaves } := by
  have hnone := snapshotReleased_of_unlocked hunlocked
  have hbefore := readsAt_eq hinfo (by rw [hactive]; rfl) (hnone t)
  refine And.elim (fun hpos hholders => h.of_released rfl hpos rfl rfl hholders)
    (holders_released (hc.table.lt_next hinfo) rfl rfl ?_ hbefore ?_)
  · intro k hk e
    rw [readsAt, readsAt, lookup_endAborted, if_neg hk]
    rfl
  · intro e
    rw [readsAt, lookup_endAborted, if_pos rfl]
    cases leaves with
    | true | false => rfl

theorem PinInv.collected : PinInv { s with manager := s.manager.gc.2 } := by
  refine h.of_same rfl rfl le_rfl (holders_congr rfl rfl ?_)
  intro t e
  rw [readsAt, readsAt, lookup_gc.1]
  cases hinfo : s.manager.transactions[t]? with
  | none => rfl
  | some info =>
    by_cases hopen : info.state.isOpen = true
    · simp only [Option.filter, isCollectable_of_open hopen]
      rfl
    · cases hkeep : s.manager.isCollectable t info <;>
        simp [Option.filter, hkeep, hopen, snapshotReleased]

end

/-! ### Pins -/

section Pins

variable (hnext : s'.manager.nextTransactionId = s.manager.nextTransactionId)
  (htransactions : s'.manager.transactions = s.manager.transactions) (hturn : s'.turn = s.turn)
include hnext htransactions hturn

theorem count_readsAt_congr (e : Nat) :
    count (fun t => s'.readsAt t e = true) s'.manager.nextTransactionId =
      count (fun t => s.readsAt t e = true) s.manager.nextTransactionId := by
  rw [hnext]
  refine count_congr fun t _ => ?_
  rw [readsAt_congr htransactions fun t => by rw [snapshotReleased, snapshotReleased, hturn]]

theorem holders_pin (hpins : s'.pins = epoch :: s.pins) (e : Nat) :
    s'.holders e = ReadPins.held s.holders epoch e := by
  rw [holders, count_readsAt_congr hnext htransactions hturn, hpins, ReadPins.held, holders,
    count_cons]
  simp only [beq_iff_eq, eq_comm (b := e)]
  split <;> omega

theorem holders_unpin (hmem : epoch ∈ s.pins) (hpins : s'.pins = s.pins.erase epoch) (e : Nat) :
    s'.holders e = ReadPins.released s.holders epoch e := by
  have hpos := count_pos_iff.mpr hmem
  rw [holders, count_readsAt_congr hnext htransactions hturn, hpins, ReadPins.released, holders,
    count_erase]
  simp only [beq_iff_eq, eq_comm (b := e)]
  split
  next he => rw [he]; omega
  · omega

end Pins

theorem holders_pos_of_pin (hmem : epoch ∈ s.pins) : 0 < s.holders epoch :=
  (count_pos_iff.mpr hmem).trans_le (Nat.le_add_left ..)

/-! ### The collect horizon -/

/-- The read horizon is at or before every reader and the published epoch. -/
theorem PinInv.readHorizon_le (h : PinInv s) : s.manager.readHorizon ≤ s.manager.publishedEpoch ∧
      ∀ e, 0 < s.holders e → s.manager.readHorizon ≤ e := by
  unfold readHorizon
  constructor
  · cases s.manager.reads.oldest with
    | none => exact le_rfl
    | some oldest => exact min_le_right ..
  · intro e he
    obtain ⟨oldest, holdest, hle⟩ := h.counts.oldest_le he
    rw [holdest]
    exact (min_le_left ..).trans hle

theorem collectHorizon_le (m : TransactionManager K) (now : Nat) :
    (m.collectHorizon now).1 ≤ m.readHorizon := by
  unfold collectHorizon
  cases m.history.retentionHorizon now with
  | none => exact le_rfl
  | some start => exact min_le_left ..

theorem PinInv.horizon (h : PinInv s) (now : Nat) :
    PinInv { s with manager := (s.manager.collectHorizon now).2 } := by
  obtain ⟨hpub, hheld⟩ := h.readHorizon_le
  have hle := collectHorizon_le s.manager now
  have hfloor : (s.manager.collectHorizon now).2.history.floor =
      max s.manager.history.floor (s.manager.collectHorizon now).1 :=
    History.floor_collectedAt ..
  constructor
  case counts => exact h.counts
  case held =>
    intro e he
    obtain ⟨hold, hepub⟩ := h.held e he
    have := hheld e he
    refine ⟨?_, hepub⟩
    show (s.manager.collectHorizon now).2.history.floor ≤ e
    omega
  case floor_le =>
    have := h.floor_le
    show (s.manager.collectHorizon now).2.history.floor ≤ s.manager.publishedEpoch
    omega

section Run

variable [DecidableEq K] [ToString K]

theorem PinInv.effect (h : PinInv s) (hc : CommitInv s) (he : Effect s s') : PinInv s' := by
  have hordered : ∀ commit, s.turn = some (commit, TurnPhase.ordered) →
      ∀ t, s.snapshotReleased t = false := by
    intro commit hturn t
    rw [snapshotReleased, hturn]
    rfl
  cases he with
  | claimed hedit => exact h.claimed hedit
  | began isolationLevel isPrivate hunlocked => exact h.began hunlocked isolationLevel isPrivate
  | epochTaken t now info commit m hlock hinfo hepoch =>
    obtain ⟨ours, -, hfound, hactive, -, -, rfl⟩ := takeEpoch_eq_ok hepoch
    refine h.of_same (History.floor_commitTime ..) rfl le_rfl
      (holders_congr rfl rfl ?_)
    exact readsAt_of_entry { ours with state := .committing } hfound
      (fun k => lookup_insert t k _) (by rw [hactive]; rfl) rfl fun _ => rfl
  | takenBack commit hlock => exact h.takenBack hc hlock
  | turnTaken commit hturn =>
    refine h.of_rest rfl rfl le_rfl rfl rfl rfl fun t => ?_
    rw [snapshotReleased, snapshotReleased, hturn]
    rfl
  | orderedRan commit hturn => exact h.orderedRan hc hturn
  | orderedFailed commit hturn =>
    refine h.of_rest rfl rfl le_rfl rfl rfl rfl fun t => ?_
    rw [hordered commit hturn t]
    rfl
  | published commit hturn => exact h.published hc hturn
  | timed commit hturn =>
    refine h.of_rest ?_ rfl le_rfl rfl rfl rfl fun t => ?_
    · simp only [recordTime]
      split
      · exact History.floor_record ..
      · rfl
    · rw [snapshotReleased, snapshotReleased, hturn]
      rfl
  | aborted t info leaves hinfo hactive hunlocked =>
    exact h.aborted hc leaves hinfo hactive hunlocked
  | collected => exact h.collected
  | synced epoch =>
    exact h.of_rest rfl rfl (le_max_left ..) rfl rfl rfl fun t => rfl
  | pinned =>
    exact h.of_held rfl (h.counts.holdPublished fun e he => (h.held e he).2) rfl
      (fun e => by refine holders_pin ?_ ?_ ?_ ?_ e <;> rfl) h.floor_le le_rfl
  | pinnedAt epoch hfloor =>
    exact h.of_held rfl h.counts.holdAt rfl (fun e => by refine holders_pin ?_ ?_ ?_ ?_ e <;> rfl)
      (Nat.le_min.mpr ⟨hfloor, h.floor_le⟩) (min_le_right ..)
  | pinnedAgain epoch hmem =>
    obtain ⟨hle, hlepub⟩ := h.held epoch (holders_pos_of_pin hmem)
    exact h.of_held rfl h.counts.holdAt rfl (fun e => by refine holders_pin ?_ ?_ ?_ ?_ e <;> rfl) hle hlepub
  | unpinned epoch hmem =>
    exact h.of_released rfl (holders_pos_of_pin hmem) rfl rfl
      fun e => by refine holders_unpin ?_ ?_ ?_ hmem ?_ e <;> rfl
  | horizon now => exact h.horizon now
  | retention history hfloor => exact h.of_rest hfloor rfl le_rfl rfl rfl rfl fun t => rfl
  | _ => exact h.of_rest rfl rfl le_rfl rfl rfl rfl fun t => rfl

theorem PinInv.run {ops : List (Op K)} (hrun : run System.step {} ops = some s) : PinInv s := by
  have hboth : CommitInv s ∧ PinInv s := by
    refine (run_effects hrun).invariant (fun r => CommitInv r ∧ PinInv r) ?_
      ⟨CommitInv.init, PinInv.init⟩
    intro r r' hr heffect
    exact ⟨hr.1.effect heffect, hr.2.effect hr.1 heffect⟩
  exact hboth.2

end Run

end System

/-- **No horizon passes a reader.** After every interleaving of begins and ends, commits,
    pins granted, cloned and dropped, and collects: the deque of read pins is strictly
    ascending, with exactly the epochs that have a live reader, each with the positive
    number of its readers; whatever the clock says, the horizon the next collect runs at
    and the floor it records are at or before every live pin, every open transaction's
    snapshot and the published epoch; and no read is pinned below the history floor. -/
theorem horizon_passes_no_reader [DecidableEq K] [ToString K] {ops : List (Op K)} {s : System K}
    (hrun : run System.step {} ops = some s) :
    Ascending s.manager.reads ∧
      (∀ e readers, (e, readers) ∈ s.manager.reads ↔ 0 < readers ∧ readers = s.holders e) ∧
      (∀ now horizon m, s.manager.collectHorizon now = (horizon, m) →
        horizon ≤ s.manager.publishedEpoch ∧ m.history.floor ≤ s.manager.publishedEpoch ∧
        (∀ e ∈ s.pins, horizon ≤ e ∧ m.history.floor ≤ e) ∧
        ∀ t e, s.readsAt t e = true → horizon ≤ e ∧ m.history.floor ≤ e) ∧
      ∀ epoch granted m, s.manager.pinReadAt epoch = .ok (granted, m) →
        s.manager.history.floor ≤ granted := by
  have hinv := PinInv.run hrun
  obtain ⟨hcommit, -⟩ := invariants_run hrun
  refine ⟨hinv.counts.1, ?_, ?_, ?_⟩
  · intro e readers
    constructor
    · intro hmem
      exact hinv.counts.holders_pos (lookup_of_mem hinv.counts.1 hmem)
    · rintro ⟨hpos, rfl⟩
      exact mem_of_lookup (hinv.counts.lookup_of_pos hpos)
  · intro now horizon m hcollect
    obtain ⟨hpub, hheld⟩ := hinv.readHorizon_le
    have hle := collectHorizon_le s.manager now
    have hafter := hinv.horizon now
    obtain rfl : (s.manager.collectHorizon now).1 = horizon := by rw [hcollect]
    obtain rfl : (s.manager.collectHorizon now).2 = m := by rw [hcollect]
    have hreader : ∀ e, 0 < s.holders e → (s.manager.collectHorizon now).1 ≤ e ∧
        (s.manager.collectHorizon now).2.history.floor ≤ e := fun e he =>
      ⟨hle.trans (hheld e he), (hafter.held e he).1⟩
    refine ⟨hle.trans hpub, hafter.floor_le, ?_, ?_⟩
    · intro e he
      exact hreader e (holders_pos_of_pin he)
    intro t e hreads
    refine hreader e (lt_of_lt_of_le ?_ (Nat.le_add_right ..))
    have hlt : t < s.manager.nextTransactionId := by
      by_contra hge
      rw [readsAt, hcommit.table.fresh t (le_of_not_gt hge)] at hreads
      cases hreads
    exact count_pos (p := fun k => s.readsAt k e = true) hlt hreads
  · intro epoch granted m hpin
    unfold pinReadAt at hpin
    split at hpin <;> cases hpin
    rename_i hfloor
    exact Nat.le_min.mpr ⟨le_of_not_gt hfloor, hinv.floor_le⟩

/-- A pin of epoch 1 stays while epoch 2 is published: a collect stops at the pin. -/
def pinnedWhileCommitting : List (Op Nat) :=
  [.syncEpoch 1, .pinRead, .beginPrivate, .enterCommit 2 false, .takeEpoch 0, .completeHeld,
    .takeTurn 2, .orderedDone true, .publish, .recordTime, .beginPrivate, .pinAgain 1]

theorem horizon_passes_no_reader_pinnedWhileCommitting :
    ∃ s : System Nat, run System.step {} pinnedWhileCommitting = some s ∧
      s.manager.publishedEpoch = 2 ∧ s.manager.reads = [(1, 2), (2, 1)] ∧
      (s.manager.collectHorizon 0).1 ≤ 1 := by
  let s : System Nat := (run step {} pinnedWhileCommitting).getD {}
  have hs : run step {} pinnedWhileCommitting = some s := rfl
  have hpin : 1 ∈ s.pins := by decide +kernel
  have hhorizons := (horizon_passes_no_reader hs).2.2.1 0 _ _ Prod.mk.eta.symm
  exact ⟨s, hs, by decide +kernel, by decide +kernel, (hhorizons.2.2.1 1 hpin).1⟩

end Grafeo.Transaction
