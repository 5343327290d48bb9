import Grafeo.Transaction.Effects

/-!
# Grafeo.Transaction.Commits

Commits take their epochs under one lock and publish them under another, in epoch
order, and end in one of three ways: completed, taken back with the epoch given
back, or left incomplete. The invariant (`CommitInv`) says **which transaction each
epoch between the published and the assigned one belongs to**: it is committing in
the table, with the claims it had when it took the epoch, and at most one handle
can still publish it.
-/

namespace Grafeo.Transaction

open Lib TransactionManager List Nat Option

variable {K : Type} {commit : Publish} {m : TransactionManager K} {info : TransactionInfo K}
  {commits : List (Commit K)} {c : Commit K} {lock : CommitLock} {epoch : Nat}

/-- The same snapshot and the same claims. -/
def TransactionInfo.SameClaims (info other : TransactionInfo K) : Prop :=
  other.startEpoch = info.startEpoch ∧ other.writeSet = info.writeSet ∧
    other.deleteSet = info.deleteSet ∧ other.endpointSet = info.endpointSet ∧
    other.keySet = info.keySet

/-- The manager still knows commit `c`: its transaction is in the table with the claims
    it committed with, under its epoch. -/
def Known (m : TransactionManager K) (c : Commit K) (state : TransactionState) : Prop :=
  ∃ info, m.transactions[c.transactionId]? = some info ∧ info.state = state ∧
    c.info.SameClaims info ∧ m.committedEpochs[c.transactionId]? = some c.epoch

namespace System

variable {s s' : System K}

def lockHandle : CommitLock → List Publish
  | .committing commit => [commit]
  | _ => []

def turnHandle : Option (Publish × TurnPhase) → List Publish
  | some (commit, .ordered) | some (commit, .released) => [commit]
  | _ => []

/-- The handles that can still publish their commit or leave it incomplete. -/
def handles (s : System K) : List Publish :=
  lockHandle s.lock ++ s.written ++ turnHandle s.turn ++ s.failed

/-- The state once the commit of the guard is taken back. -/
abbrev tookBack (s : System K) (commit : Publish) : System K :=
  { s with
    manager := s.manager.takeBack commit
    lock := .free
    takenBack := commit.transactionId :: s.takenBack
    commits := s.commits.filter fun c => c.epoch ≠ commit.epoch }

/-- The state once the ordered step of the turn's commit ran. -/
abbrev ranOrdered (s : System K) (commit : Publish) : System K :=
  { s with
    manager := s.manager.releaseSnapshot commit
    turn := some (commit, .released)
    commits := markOrdered s.commits commit.epoch }

structure CommitInv (s : System K) : Prop where
  table : TableInv s.manager
  published_le : s.manager.publishedEpoch ≤ s.manager.assignedEpoch
  epoch_le : ∀ c ∈ s.commits, c.epoch ≤ s.manager.assignedEpoch
  id_lt : ∀ c ∈ s.commits, c.transactionId < s.manager.nextTransactionId
  epoch_inj : ∀ a ∈ s.commits, ∀ b ∈ s.commits, a.epoch = b.epoch → a = b
  id_inj : ∀ a ∈ s.commits, ∀ b ∈ s.commits, a.transactionId = b.transactionId → a = b
  ordered : ∀ c ∈ s.commits, c.epoch ≤ s.manager.publishedEpoch → c.ordered = true
  pending : ∀ c ∈ s.commits, s.manager.publishedEpoch < c.epoch → Known s.manager c .committing
  settled : ∀ c ∈ s.commits, c.epoch ≤ s.manager.publishedEpoch →
    ∀ info, s.manager.transactions[c.transactionId]? = some info → info.state = .committed
  handle : ∀ p ∈ s.handles, s.manager.publishedEpoch < p.epoch ∧ p.epoch ∉ s.incomplete ∧
    ∃ c ∈ s.commits, c.transactionId = p.transactionId ∧ c.epoch = p.epoch
  handles_nodup : (s.handles.map Publish.epoch).Nodup
  guard : ∀ p, s.lock = .committing p → p.epoch = s.manager.assignedEpoch
  turn_next : ∀ p phase, s.turn = some (p, phase) → p.epoch ≤ s.manager.publishedEpoch + 1
  turn_ordered : ∀ p, s.turn = some (p, .released) →
    ∀ c ∈ s.commits, c.epoch = p.epoch → c.ordered = true
  incomplete : ∀ e ∈ s.incomplete, s.manager.publishedEpoch < e ∧ s.manager.poisoned = true ∧
    ∃ c ∈ s.commits, c.epoch = e

/-- Nothing began yet. -/
theorem CommitInv.init : CommitInv ({} : System K) := by
  constructor
  case table => exact ⟨fun t _ => rfl, by simp [isOpen]⟩
  all_goals simp [handles, lockHandle, turnHandle]

theorem mem_handles_of_lock (hlock : s.lock = .committing commit) : commit ∈ s.handles := by
  rw [handles, hlock]
  exact mem_cons_self

/-- The turn's handle and the others. -/
theorem handles_perm_turn {phase : TurnPhase}
    (hturn : s.turn = some (commit, phase)) (hphase : phase ≠ .published) :
    s.handles.Perm (commit :: (lockHandle s.lock ++ s.written ++ s.failed)) := by
  have hhandle : turnHandle s.turn = [commit] := by
    rw [hturn]
    cases phase with
    | ordered | released => rfl
    | published => exact absurd rfl hphase
  rw [handles, hhandle, append_assoc, singleton_append]
  exact perm_middle

theorem mem_handles_of_turn {phase : TurnPhase} (hturn : s.turn = some (commit, phase))
    (hphase : phase ≠ .published) : commit ∈ s.handles :=
  (handles_perm_turn hturn hphase).symm.subset mem_cons_self

/-- `gc` keeps every open transaction. -/
theorem isCollectable_of_open {t : Nat}
    (hopen : info.state.isOpen = true) : m.isCollectable t info = false := by
  unfold isCollectable
  cases hstate : info.state with
  | active | committing => rfl
  | committed | aborted => rw [hstate] at hopen; cases hopen

theorem lockHandle_unlock (lock : CommitLock) (t : Nat) :
    lockHandle (unlock lock t) = lockHandle lock := by
  unfold unlock
  split
  next hlock =>
    rw [hlock]
    rfl
  · rfl

theorem unlock_eq {held : CommitLock} {t : Nat} (h : unlock lock t = held) (hheld : held ≠ .free) :
    lock = held := by
  unfold unlock at h
  split at h
  · exact absurd h.symm hheld
  · exact h

/-- An old commit is still there, marked or not. -/
theorem mem_markOrdered_of_mem {d : Commit K} (epoch : Nat) (h : d ∈ commits) :
    ∃ c ∈ markOrdered commits epoch,
      c.transactionId = d.transactionId ∧ c.epoch = d.epoch ∧ c.info = d.info := by
  refine ⟨_, mem_map_of_mem h, ?_⟩
  split <;> exact ⟨rfl, rfl, rfl⟩

/-- What determines a commit determines its marked copy. -/
theorem markOrdered_inj {f : Commit K → Nat} (hf : ∀ d : Commit K, f { d with ordered := true } = f d)
    (hinj : ∀ a ∈ commits, ∀ b ∈ commits, f a = f b → a = b) :
    ∀ a ∈ markOrdered commits epoch, ∀ b ∈ markOrdered commits epoch, f a = f b → a = b := by
  have hkeep : ∀ d : Commit K,
      f (if d.epoch = epoch then { d with ordered := true } else d) = f d := by
    intro d
    split
    · exact hf d
    · rfl
  refine forall_mem_map.mpr fun d hd => forall_mem_map.mpr fun e he hab => ?_
  rw [hkeep, hkeep] at hab
  rw [hinj d hd e he hab]

/-! ### What the invariant says of one transaction -/

variable (h : CommitInv s)
include h

/-- An active transaction has no commit. -/
theorem CommitInv.ne_of_active {t : Nat} (hc : c ∈ s.commits)
    (hinfo : s.manager.transactions[t]? = some info) (hactive : info.state = .active) :
    c.transactionId ≠ t := by
  rintro rfl
  rcases lt_or_ge s.manager.publishedEpoch c.epoch with hlt | hge
  · obtain ⟨found, hfound, hstate, -⟩ := h.pending c hc hlt
    rw [hinfo] at hfound
    cases hfound
    rw [hstate] at hactive
    cases hactive
  · rw [h.settled c hc hge info hinfo] at hactive
    cases hactive

/-- The commit of a handle is the one of its transaction, and the one of its epoch. -/
theorem CommitInv.handle_iff {p : Publish} (hp : p ∈ s.handles) (hc : c ∈ s.commits) :
    c.transactionId = p.transactionId ↔ c.epoch = p.epoch := by
  obtain ⟨-, -, d, hd, hid, hepoch⟩ := h.handle p hp
  rw [← hid, ← hepoch]
  constructor
  · intro heq
    rw [h.id_inj c hc d hd heq]
  · intro heq
    rw [h.epoch_inj c hc d hd heq]

/-- The transaction of a handle is committing. -/
theorem CommitInv.handle_known {p : Publish} (hp : p ∈ s.handles) :
    ∃ c ∈ s.commits, c.transactionId = p.transactionId ∧ c.epoch = p.epoch ∧
      Known s.manager c .committing := by
  obtain ⟨hpub, -, c, hc, hid, hepoch⟩ := h.handle p hp
  exact ⟨c, hc, hid, hepoch, h.pending c hc (hepoch ▸ hpub)⟩

theorem CommitInv.handle_info {p : Publish} (hp : p ∈ s.handles) :
    ∃ info, s.manager.transactions[p.transactionId]? = some info ∧ info.state = .committing := by
  obtain ⟨c, -, hid, -, info, hinfo, hstate, -⟩ := h.handle_known hp
  exact ⟨info, hid ▸ hinfo, hstate⟩

/-! ### Effects on the manager alone -/

section

variable {pins : List Nat} (hassigned : m.assignedEpoch = s.manager.assignedEpoch)
  (hpublished : m.publishedEpoch = s.manager.publishedEpoch)
  (hpoisoned : s.manager.poisoned = true → m.poisoned = true)
include hassigned hpublished hpoisoned

/-- A change of the manager that moves no epoch and forgets no commit. -/
theorem CommitInv.of_manager (htable : TableInv m)
    (hnext : s.manager.nextTransactionId ≤ m.nextTransactionId)
    (hknown : ∀ c ∈ s.commits, Known s.manager c .committing → Known m c .committing)
    (hsettled : ∀ c ∈ s.commits, ∀ info, m.transactions[c.transactionId]? = some info →
      s.manager.transactions[c.transactionId]? = some info) :
    CommitInv { s with manager := m, pins := pins } where
  table := htable
  published_le := by rw [hassigned, hpublished]; exact h.published_le
  epoch_le := by rw [hassigned]; exact h.epoch_le
  id_lt c hc := (h.id_lt c hc).trans_le hnext
  epoch_inj := h.epoch_inj
  id_inj := h.id_inj
  ordered := by rw [hpublished]; exact h.ordered
  pending := by
    rw [hpublished]
    exact fun c hc hlt => hknown c hc (h.pending c hc hlt)
  settled := by
    rw [hpublished]
    exact fun c hc hle info hinfo => h.settled c hc hle info (hsettled c hc info hinfo)
  handle := by rw [hpublished]; exact h.handle
  handles_nodup := h.handles_nodup
  guard := by rw [hassigned]; exact h.guard
  turn_next := by rw [hpublished]; exact h.turn_next
  turn_ordered := h.turn_ordered
  incomplete := by
    rw [hpublished]
    intro e he
    obtain ⟨hlt, hpoison, hc⟩ := h.incomplete e he
    exact ⟨hlt, hpoisoned hpoison, hc⟩

/-- A change of the manager that leaves both tables and both epochs. -/
theorem CommitInv.of_rest (htransactions : m.transactions = s.manager.transactions)
    (hcommitted : m.committedEpochs = s.manager.committedEpochs)
    (hcount : m.activeCount = s.manager.activeCount)
    (hnext : m.nextTransactionId = s.manager.nextTransactionId) :
    CommitInv { s with manager := m, pins := pins } := by
  refine h.of_manager hassigned hpublished hpoisoned ?_ (hnext.symm.le) ?_ ?_
  · refine h.table.congr ?_ ?_ hnext hcount
    · rw [htransactions]
      exact fun t ht => ht
    · intro t
      rw [isOpen, isOpen, htransactions]
  · intro c _ hknown
    rw [Known, htransactions, hcommitted]
    exact hknown
  · rw [htransactions]
    exact fun c _ info hinfo => hinfo

/-- A change of the table at transactions no commit is of. -/
theorem CommitInv.of_uncommitted (htable : TableInv m)
    (hnext : s.manager.nextTransactionId ≤ m.nextTransactionId)
    (hcommitted : m.committedEpochs = s.manager.committedEpochs) (hother : ∀ c ∈ s.commits,
      m.transactions[c.transactionId]? = s.manager.transactions[c.transactionId]?) :
    CommitInv { s with manager := m } := by
  refine h.of_manager hassigned hpublished hpoisoned htable hnext ?_ ?_
  · intro c hc hknown
    rw [Known, hother c hc, hcommitted]
    exact hknown
  · intro c hc info hinfo
    rw [← hother c hc]
    exact hinfo

end

namespace CommitInv

theorem claimed (hedit : EditsClaims s.manager m) :
    CommitInv { s with manager := m } := by
  obtain ⟨t, info, info', ht, hactive, hsame, rfl⟩ := hedit
  refine h.of_uncommitted rfl rfl id ?_ le_rfl rfl ?_
  · refine h.table.change ht (fun k => lookup_setInfo ..) rfl ?_
    rw [← hsame.1]
    rfl
  · intro c hc
    rw [lookup_setInfo, if_neg (h.ne_of_active hc ht hactive)]

theorem began (isolationLevel : IsolationLevel) (isPrivate : Bool) :
    CommitInv { s with manager := (s.manager.register isolationLevel isPrivate).2 } := by
  refine h.of_uncommitted rfl rfl id (h.table.register isolationLevel isPrivate)
    (le_succ _) rfl ?_
  intro c hc
  rw [lookup_register, if_neg ((h.id_lt c hc).ne)]

theorem aborted {t : Nat} (leaves : Bool)
    (hinfo : s.manager.transactions[t]? = some info) (hactive : info.state = .active) :
    CommitInv { s with manager := s.manager.endAborted t info leaves } := by
  refine h.of_uncommitted rfl rfl id ?_ le_rfl rfl ?_
  · refine h.table.change hinfo (fun k => lookup_endAborted info leaves) rfl ?_
    have hpos := h.table.activeCount_pos hinfo (by rw [hactive]; rfl)
    rw [hactive]
    show s.manager.activeCount - 1 + 1 = _
    cases leaves <;> exact Nat.sub_add_cancel hpos
  · intro c hc
    rw [lookup_endAborted, if_neg (h.ne_of_active hc hinfo hactive)]

theorem collected : CommitInv { s with manager := s.manager.gc.2 } := by
  have hstill : ∀ (t : Nat) (info : TransactionInfo K), info.state.isOpen = true →
      s.manager.transactions[t]? = some info → s.manager.gc.2.transactions[t]? = some info ∧
        s.manager.gc.2.committedEpochs[t]? = s.manager.committedEpochs[t]? := by
    intro t info hopen hinfo
    have hkeep : s.manager.isCollectable t info = false := isCollectable_of_open hopen
    rw [lookup_gc.1, lookup_gc.2, hinfo]
    simp [filter, hkeep]
  have hsub : ∀ (t : Nat) (info : TransactionInfo K),
      s.manager.gc.2.transactions[t]? = some info → s.manager.transactions[t]? = some info := by
    intro t info hinfo
    rw [lookup_gc.1] at hinfo
    exact (filter_eq_some_iff.mp hinfo).1
  refine h.of_manager rfl rfl (fun hp => hp) ?_ le_rfl ?_ ?_
  · refine h.table.congr ?_ ?_ rfl rfl
    · intro t ht
      rw [lookup_gc.1, ht]
      rfl
    intro t
    cases hinfo : s.manager.transactions[t]? with
    | none => rw [isOpen, isOpen, lookup_gc.1, hinfo]; rfl
    | some info =>
      by_cases hopen : info.state.isOpen = true
      · rw [isOpen, isOpen, (hstill t info hopen hinfo).1, hinfo]
      · rw [isOpen, isOpen, lookup_gc.1, hinfo]
        cases hkeep : s.manager.isCollectable t info <;> simp [filter, hkeep, hopen]
  · rintro c hc ⟨info, hinfo, hstate, hclaims, hepoch⟩
    obtain ⟨hinfo', hepoch'⟩ := hstill c.transactionId info (by rw [hstate]; rfl) hinfo
    exact ⟨info, hinfo', hstate, hclaims, hepoch'.trans hepoch⟩
  · intro c hc info hinfo
    exact hsub c.transactionId info hinfo

/-! ### Effects on the handles -/

/-- Handles moved between their places, or given up. -/
theorem of_handles {written failed : List Publish} {turn : Option (Publish × TurnPhase)}
    (hsub : Subperm (lockHandle lock ++ written ++ turnHandle turn ++ failed) s.handles)
    (hguard : ∀ p, lock = .committing p → s.lock = .committing p)
    (hturn : ∀ p phase, turn = some (p, phase) → p.epoch ≤ s.manager.publishedEpoch + 1)
    (hreleased : ∀ p, turn = some (p, .released) → s.turn = some (p, .released)) :
    CommitInv { s with lock := lock, written := written, turn := turn, failed := failed } :=
  { h with
    handle p hp := h.handle p (hsub.subset hp)
    handles_nodup := by
      obtain ⟨l, hperm, hsublist⟩ := hsub
      exact (hperm.map Publish.epoch).nodup_iff.mp
        (h.handles_nodup.sublist (hsublist.map Publish.epoch))
    guard p hp := h.guard p (hguard p hp)
    turn_next := hturn
    turn_ordered p hp := h.turn_ordered p (hreleased p hp) }

/-- The lock taken or freed by one that is no commit. -/
theorem relocked (hbefore : lockHandle s.lock = []) (hafter : lockHandle lock = []) :
    CommitInv { s with lock := lock } := by
  refine h.of_handles ?_ ?_ h.turn_next fun p hp => hp
  · rw [handles, hbefore, hafter]
  · rintro p rfl
    cases hafter

theorem written (hlock : s.lock = .committing commit)
    (hafter : lock = .free ∨ lock = .completing commit.transactionId) :
    CommitInv { s with lock := lock, written := commit :: s.written } := by
  have hnone : lockHandle lock = [] := by rcases hafter with rfl | rfl <;> rfl
  refine h.of_handles ?_ ?_ h.turn_next fun p hp => hp
  · rw [handles, hlock, hnone]
    exact Subperm.refl _
  · rintro p rfl
    rcases hafter with hp | hp <;> cases hp

theorem gaveUp : CommitInv { s with
      written := s.written.erase commit
      lock := unlock s.lock commit.transactionId } := by
  refine h.of_handles ?_ (fun p hp => unlock_eq hp nofun) h.turn_next fun p hp => hp
  rw [handles, lockHandle_unlock]
  exact ((((Sublist.refl _).append erase_sublist).append
    (Sublist.refl _)).append (Sublist.refl _)).subperm

theorem turnTaken (hturn : s.turn = none)
    (hmem : commit ∈ s.written) (hnext : commit.epoch ≤ s.manager.publishedEpoch + 1) :
    CommitInv { s with
      written := s.written.erase commit
      turn := some (commit, .ordered) } := by
  refine h.of_handles ?_ (fun p hp => hp) ?_ nofun
  · rw [handles, hturn]
    -- The handle leaves its place among the written ones for the turn's.
    have hperm : (s.written.erase commit ++ [commit]).Perm s.written :=
      perm_append_comm.trans (perm_cons_erase hmem).symm
    simp only [turnHandle, append_nil]
    rw [append_assoc (lockHandle s.lock)]
    exact ((hperm.append_left _).append_right _).subperm
  · intro p phase hp
    cases hp
    exact hnext

theorem orderedFailed (hturn : s.turn = some (commit, .ordered)) :
    CommitInv { s with turn := none, failed := commit :: s.failed } := by
  refine h.of_handles ?_ (fun p hp => hp) nofun nofun
  rw [handles, hturn]
  simp only [turnHandle, append_nil, append_assoc, singleton_append]
  exact Subperm.refl _

theorem timed (hturn : s.turn = some (commit, .published)) : CommitInv { s with
      manager := s.manager.recordTime commit
      turn := none
      lock := unlock s.lock commit.transactionId } := by
  have hrest : CommitInv { s with manager := s.manager.recordTime commit } :=
    h.of_rest rfl rfl (fun hp => hp) rfl rfl rfl rfl
  refine hrest.of_handles ?_ (fun p hp => unlock_eq hp nofun) nofun nofun
  show Subperm _ (lockHandle s.lock ++ s.written ++ turnHandle s.turn ++ s.failed)
  rw [lockHandle_unlock, hturn]
  exact Subperm.refl _

/-- A handle dropped unfinished: its epoch joins the incomplete ones. -/
theorem of_dropped {written failed : List Publish}
    (hperm : s.handles.Perm (commit :: (lockHandle lock ++ written ++ turnHandle s.turn ++ failed)))
    (hguard : ∀ p, lock = .committing p → s.lock = .committing p) :
    CommitInv { s with
      manager := s.manager.incompleteFrom commit.epoch
      lock := lock
      written := written
      failed := failed
      incomplete := commit.epoch :: s.incomplete } := by
  have hrest : CommitInv { s with manager := s.manager.incompleteFrom commit.epoch } :=
    h.of_rest rfl rfl (fun _ => rfl) rfl rfl rfl rfl
  have hmoved := hrest.of_handles
    ((sublist_cons_self commit _).subperm.trans hperm.symm.subperm) hguard h.turn_next
    fun p hp => hp
  have hnodup := (hperm.map Publish.epoch).nodup_iff.mp h.handles_nodup
  rw [map_cons, nodup_cons] at hnodup
  refine { hmoved with handle := ?_, incomplete := ?_ }
  · intro p hp
    obtain ⟨hpub, hnot, hc⟩ := hmoved.handle p hp
    refine ⟨hpub, ?_, hc⟩
    rw [mem_cons, not_or]
    refine ⟨fun heq => hnodup.1 ?_, hnot⟩
    rw [← heq]
    exact mem_map_of_mem hp
  · intro e he
    rcases mem_cons.mp he with rfl | he
    · obtain ⟨hpub, -, c, hc, -, hepoch⟩ :=
        h.handle commit (hperm.symm.subset mem_cons_self)
      exact ⟨hpub, rfl, c, hc, hepoch⟩
    · exact hmoved.incomplete e he

theorem guardDropped (hlock : s.lock = .committing commit) :
    CommitInv { s.leaveIncomplete commit with lock := .free } := by
  refine h.of_dropped ?_ nofun
  rw [handles, hlock]
  exact .refl _

theorem writtenDropped (hmem : commit ∈ s.written) :
    CommitInv ({ s with written := s.written.erase commit }.leaveIncomplete commit) := by
  refine h.of_dropped ?_ fun p hp => unlock_eq hp nofun
  rw [handles, lockHandle_unlock]
  have hperm := ((perm_cons_erase hmem).append_left (lockHandle s.lock)).trans
    perm_middle
  exact (hperm.append_right (turnHandle s.turn)).append_right s.failed

theorem failedDropped (hmem : commit ∈ s.failed) :
    CommitInv ({ s with failed := s.failed.erase commit }.leaveIncomplete commit) := by
  refine h.of_dropped ?_ fun p hp => unlock_eq hp nofun
  rw [handles, lockHandle_unlock]
  exact ((perm_cons_erase hmem).append_left _).trans perm_middle

/-! ### Effects on the commits -/

theorem orderedRan (hturn : s.turn = some (commit, .ordered)) :
    CommitInv (s.ranOrdered commit) := by
  have hrest : CommitInv { s with manager := s.manager.releaseSnapshot commit } :=
    h.of_rest rfl rfl (fun hp => hp) rfl rfl rfl rfl
  have hhandles : ∀ x : Publish, x ∈ lockHandle s.lock ++ s.written ++ [commit] ++ s.failed →
      x ∈ s.handles := by
    intro x hx
    rw [handles, hturn]
    exact hx
  constructor
  case table => exact hrest.table
  case published_le => exact hrest.published_le
  case epoch_le => exact forall_mem_map.mpr fun d hd => by split <;> exact hrest.epoch_le d hd
  case id_lt => exact forall_mem_map.mpr fun d hd => by split <;> exact hrest.id_lt d hd
  case epoch_inj => exact markOrdered_inj (fun _ => rfl) h.epoch_inj
  case id_inj => exact markOrdered_inj (fun _ => rfl) h.id_inj
  case ordered =>
    refine forall_mem_map.mpr fun d hd => ?_
    split
    · exact fun _ => rfl
    · exact hrest.ordered d hd
  case pending => exact forall_mem_map.mpr fun d hd => by split <;> exact hrest.pending d hd
  case settled => exact forall_mem_map.mpr fun d hd => by split <;> exact hrest.settled d hd
  case handle =>
    intro p hp
    obtain ⟨hpub, hnot, c, hc, hid, hepoch⟩ := hrest.handle p (hhandles p hp)
    obtain ⟨c', hc', hid', hepoch', -⟩ := mem_markOrdered_of_mem commit.epoch hc
    exact ⟨hpub, hnot, c', hc', hid'.trans hid, hepoch'.trans hepoch⟩
  case handles_nodup =>
    have := h.handles_nodup
    rw [handles, hturn] at this
    exact this
  case guard => exact hrest.guard
  case turn_next =>
    intro p phase hp
    cases hp
    exact hrest.turn_next commit .ordered hturn
  case turn_ordered =>
    intro p hp
    cases hp
    refine forall_mem_map.mpr fun d hd heq => ?_
    split at heq
    · exact if_pos (by assumption) ▸ rfl
    · exact absurd heq (by assumption)
  case incomplete =>
    intro e he
    obtain ⟨hlt, hpoison, c, hc, hepoch⟩ := hrest.incomplete e he
    obtain ⟨c', hc', -, hepoch', -⟩ := mem_markOrdered_of_mem commit.epoch hc
    exact ⟨hlt, hpoison, c', hc', hepoch'.trans hepoch⟩

theorem published (hturn : s.turn = some (commit, .released)) :
    CommitInv { s with
      manager := s.manager.publish commit
      turn := some (commit, .published) } := by
  have hperm := handles_perm_turn hturn (by decide)
  have hmem : commit ∈ s.handles := hperm.symm.subset mem_cons_self
  obtain ⟨hpub, hnot, -⟩ := h.handle commit hmem
  obtain ⟨c, hc, hid, hepoch, info, hinfo, hstate, hclaims, hcommitted⟩ := h.handle_known hmem
  have hnext : commit.epoch = s.manager.publishedEpoch + 1 :=
    le_antisymm (h.turn_next commit .released hturn) hpub
  have hordered := h.turn_ordered commit hturn c hc hepoch
  rw [hid] at hinfo
  have hlookup := fun k => lookup_publish (k := k) hinfo
  have hpublished : (s.manager.publish commit).publishedEpoch = commit.epoch := by
    show max s.manager.publishedEpoch commit.epoch = commit.epoch
    omega
  -- Only the commit itself stands between the published epoch and the new one.
  have hself : ∀ d ∈ s.commits, s.manager.publishedEpoch < d.epoch → d.epoch ≤ commit.epoch →
      d = c := by
    intro d hd hlt hle
    exact h.epoch_inj d hd c hc (by omega)
  have hnodup := (hperm.map Publish.epoch).nodup_iff.mp h.handles_nodup
  rw [map_cons, nodup_cons] at hnodup
  constructor
  case table =>
    refine h.table.change hinfo (fun k => (hlookup k).1) rfl ?_
    have hpos := h.table.activeCount_pos hinfo (by rw [hstate]; rfl)
    rw [hstate]
    show s.manager.activeCount - 1 + 1 = _
    cases s.manager.leavesAtPublish info <;> exact Nat.sub_add_cancel hpos
  case published_le =>
    show (s.manager.publish commit).publishedEpoch ≤ s.manager.assignedEpoch
    rw [hpublished, ← hepoch]
    exact h.epoch_le c hc
  case epoch_le => exact h.epoch_le
  case id_lt => exact h.id_lt
  case epoch_inj => exact h.epoch_inj
  case id_inj => exact h.id_inj
  case ordered =>
    show ∀ d ∈ s.commits, d.epoch ≤ (s.manager.publish commit).publishedEpoch → d.ordered = true
    rw [hpublished]
    intro d hd hle
    rcases lt_or_ge s.manager.publishedEpoch d.epoch with hlt | hge
    · rw [hself d hd hlt hle]
      exact hordered
    · exact h.ordered d hd hge
  case pending =>
    show ∀ d ∈ s.commits, (s.manager.publish commit).publishedEpoch < d.epoch → _
    intro d hd hlt
    have hne : d.transactionId ≠ commit.transactionId := by
      rw [ne_eq, h.handle_iff hmem hd]
      omega
    rw [Known, (hlookup d.transactionId).1, if_neg hne, (hlookup d.transactionId).2,
      if_neg fun hboth => hne hboth.1]
    exact h.pending d hd (by omega)
  case settled =>
    show ∀ d ∈ s.commits, d.epoch ≤ (s.manager.publish commit).publishedEpoch → _
    rw [hpublished]
    intro d hd hle found hfound
    rw [(hlookup d.transactionId).1] at hfound
    split at hfound
    · split at hfound <;> cases hfound
      rfl
    next hne =>
      rcases lt_or_ge s.manager.publishedEpoch d.epoch with hlt | hge
      · rw [hself d hd hlt hle] at hne
        exact absurd hid hne
      · exact h.settled d hd hge found hfound
  case handle =>
    show ∀ p ∈ lockHandle s.lock ++ s.written ++ [] ++ s.failed,
      (s.manager.publish commit).publishedEpoch < p.epoch ∧ _
    rw [hpublished, append_nil]
    intro p hp
    obtain ⟨hlt, hnotp, hcp⟩ := h.handle p (hperm.symm.subset (mem_cons_of_mem _ hp))
    have hne : p.epoch ≠ commit.epoch := fun heq =>
      hnodup.1 (heq ▸ mem_map_of_mem hp)
    exact ⟨by omega, hnotp, hcp⟩
  case handles_nodup =>
    show ((lockHandle s.lock ++ s.written ++ [] ++ s.failed).map Publish.epoch).Nodup
    rw [append_nil]
    exact hnodup.2
  case guard => exact h.guard
  case turn_next =>
    intro p phase hp
    cases hp
    show commit.epoch ≤ (s.manager.publish commit).publishedEpoch + 1
    omega
  case turn_ordered => exact nofun
  case incomplete =>
    show ∀ e ∈ s.incomplete, (s.manager.publish commit).publishedEpoch < e ∧ _
    intro e he
    obtain ⟨hlt, hrest⟩ := h.incomplete e he
    have hne : e ≠ commit.epoch := fun heq => hnot (heq ▸ he)
    exact ⟨by omega, hrest⟩

/-- A commit taken back gives its epoch back: it was the last one handed out. -/
theorem takenBack (hlock : s.lock = .committing commit) :
    CommitInv (s.tookBack commit) := by
  have hhandles : s.handles = commit :: (s.written ++ turnHandle s.turn ++ s.failed) := by
    rw [handles, hlock]
    rfl
  have hmem : commit ∈ s.handles := hhandles ▸ mem_cons_self
  obtain ⟨hpub, hnot, -⟩ := h.handle commit hmem
  obtain ⟨c, hc, hid, hepoch, info, hinfo, hstate, -⟩ := h.handle_known hmem
  rw [hid] at hinfo
  have hlast := h.guard commit hlock
  have hlookup := fun k => lookup_takeBack (m := s.manager) (k := k) commit
  have hkept : ∀ d, d ∈ s.commits.filter (fun c => c.epoch ≠ commit.epoch) ↔
      d ∈ s.commits ∧ d.epoch ≠ commit.epoch := by
    intro d
    simp
  have hnodup := h.handles_nodup
  rw [hhandles, map_cons, nodup_cons] at hnodup
  constructor
  case table =>
    refine h.table.change hinfo hlookup rfl ?_
    rw [hinfo, hstate]
    rfl
  case published_le =>
    show s.manager.publishedEpoch ≤ commit.epoch - 1
    omega
  case epoch_le =>
    intro d hd
    obtain ⟨hd, hne⟩ := (hkept d).mp hd
    have := h.epoch_le d hd
    show d.epoch ≤ commit.epoch - 1
    omega
  case id_lt => exact fun d hd => h.id_lt d ((hkept d).mp hd).1
  case epoch_inj =>
    exact fun a ha b hb => h.epoch_inj a ((hkept a).mp ha).1 b ((hkept b).mp hb).1
  case id_inj => exact fun a ha b hb => h.id_inj a ((hkept a).mp ha).1 b ((hkept b).mp hb).1
  case ordered => exact fun d hd => h.ordered d ((hkept d).mp hd).1
  case pending =>
    intro d hd hlt
    obtain ⟨hd, hne⟩ := (hkept d).mp hd
    have hne' := mt (h.handle_iff hmem hd).mp hne
    have hepochs : (s.manager.takeBack commit).committedEpochs[d.transactionId]? =
        s.manager.committedEpochs[d.transactionId]? :=
      (lookup_erase commit.transactionId d.transactionId).trans (if_neg hne')
    rw [Known, hlookup, if_neg hne', hepochs]
    exact h.pending d hd hlt
  case settled =>
    intro d hd hle found hfound
    obtain ⟨hd, hne⟩ := (hkept d).mp hd
    rw [hlookup, if_neg (mt (h.handle_iff hmem hd).mp hne)] at hfound
    exact h.settled d hd hle found hfound
  case handle =>
    show ∀ p ∈ s.written ++ turnHandle s.turn ++ s.failed, _
    intro p hp
    obtain ⟨hlt, hnotp, d, hd, hidp, hepochp⟩ := h.handle p
      (hhandles ▸ mem_cons_of_mem _ hp)
    have hne : p.epoch ≠ commit.epoch := fun heq =>
      hnodup.1 (heq ▸ mem_map_of_mem hp)
    exact ⟨hlt, hnotp, d, (hkept d).mpr ⟨hd, hepochp ▸ hne⟩, hidp, hepochp⟩
  case handles_nodup => exact hnodup.2
  case guard => exact nofun
  case turn_next => exact h.turn_next
  case turn_ordered => exact fun p hp d hd => h.turn_ordered p hp d ((hkept d).mp hd).1
  case incomplete =>
    intro e he
    obtain ⟨hlt, hpoison, d, hd, hepochd⟩ := h.incomplete e he
    refine ⟨hlt, hpoison, d, (hkept d).mpr ⟨hd, fun heq => hnot ?_⟩, hepochd⟩
    rw [← heq, hepochd]
    exact he

/-- Both epochs move only while no commit is in progress: then every commit is
    published, and none was left incomplete. -/
theorem synced (epoch : Nat) (hidle : commitInProgress s.manager = false) :
    CommitInv { s with manager := s.manager.syncEpoch epoch } := by
  have hnone : ∀ (t : Nat) (info : TransactionInfo K), s.manager.transactions[t]? = some info →
      info.state ≠ .committing := by
    intro t info hinfo hstate
    have hany : commitInProgress s.manager = true := by
      refine any_eq_true.mpr ⟨(t, info), ?_, by simpa using hstate⟩
      exact Std.ExtTreeMap.mem_toList_iff_getElem?_eq_some.mpr hinfo
    rw [hidle] at hany
    cases hany
  have hpublished : ∀ c ∈ s.commits, c.epoch ≤ s.manager.publishedEpoch := by
    intro c hc
    by_contra hlt
    obtain ⟨info, hinfo, hstate, -⟩ := h.pending c hc (lt_of_not_ge hlt)
    exact hnone c.transactionId info hinfo hstate
  have hhandles : ∀ p, p ∉ s.handles := by
    intro p hp
    obtain ⟨hlt, -, c, hc, -, hepoch⟩ := h.handle p hp
    have := hpublished c hc
    omega
  have hmax : s.manager.publishedEpoch ≤ (s.manager.syncEpoch epoch).publishedEpoch :=
    le_max_left ..
  have htable : TableInv (s.manager.syncEpoch epoch) :=
    h.table.congr (fun t ht => ht) (fun t => rfl) rfl rfl
  constructor
  case table => exact htable
  case published_le =>
    have := h.published_le
    show max s.manager.publishedEpoch epoch ≤ max s.manager.assignedEpoch epoch
    omega
  case epoch_le => exact fun c hc => (h.epoch_le c hc).trans (le_max_left ..)
  case id_lt => exact h.id_lt
  case epoch_inj => exact h.epoch_inj
  case id_inj => exact h.id_inj
  case ordered => exact fun c hc _ => h.ordered c hc (hpublished c hc)
  case pending =>
    intro c hc hlt
    exact absurd ((hpublished c hc).trans hmax) (not_le.mpr hlt)
  case settled => exact fun c hc _ => h.settled c hc (hpublished c hc)
  case handle => exact fun p hp => absurd hp (hhandles p)
  case handles_nodup => exact h.handles_nodup
  case guard =>
    intro p hp
    exact absurd (mem_handles_of_lock hp) (hhandles p)
  case turn_next =>
    intro p phase hp
    exact (h.turn_next p phase hp).trans (succ_le_succ hmax)
  case turn_ordered => exact h.turn_ordered
  case incomplete =>
    intro e he
    obtain ⟨hlt, -, c, hc, hepoch⟩ := h.incomplete e he
    have := hpublished c hc
    omega

end CommitInv

end System

/-! ### The commit's epoch -/

namespace TransactionManager

variable [DecidableEq K] [ToString K] {m m' : TransactionManager K} {t now : Nat}

/-- What taking the epoch does, to the active transaction `ours` that passed the checks. -/
theorem takeEpoch_eq_ok (h : m.takeEpoch t now = .ok (commit, m')) :
    ∃ ours, m.validateCommit t = .ok ours ∧ m.transactions[t]? = some ours ∧
      ours.state = .active ∧ commit.transactionId = t ∧ commit.epoch = m.assignedEpoch + 1 ∧
      m' = { m with
        assignedEpoch := m.assignedEpoch + 1
        transactions := m.transactions.insert t { ours with state := .committing }
        committedEpochs := m.committedEpochs.insert t (m.assignedEpoch + 1)
        history := (m.history.commitTime now).2 } := by
  simp only [takeEpoch, bind_eq_ok, pure_eq_ok, Prod.mk.injEq] at h
  obtain ⟨ours, hours, rfl, rfl⟩ := h
  have hchecks := hours
  simp only [validateCommit, bind_eq_ok, pure_eq_ok] at hchecks
  obtain ⟨info, hinfo, -, -, -, -, -, -, -, -, rfl⟩ := hchecks
  obtain ⟨hfound, hactive⟩ := activeInfo_eq_ok.mp hinfo
  exact ⟨info, hours, hfound, hactive, rfl, rfl, rfl⟩

end TransactionManager

namespace System

variable [DecidableEq K] [ToString K] {s s' : System K}

/-- What tells the commits apart tells them from one more that differs in it. -/
theorem inj_cons {f : Commit K → Nat} (hfresh : ∀ d ∈ commits, f d ≠ f c)
    (hinj : ∀ a ∈ commits, ∀ b ∈ commits, f a = f b → a = b) :
    ∀ a ∈ c :: commits, ∀ b ∈ c :: commits, f a = f b → a = b := by
  intro a ha b hb heq
  rcases mem_cons.mp ha with rfl | hold <;> rcases mem_cons.mp hb with rfl | hb
  · rfl
  · exact absurd heq.symm (hfresh b hb)
  · exact absurd heq (hfresh a hold)
  · exact hinj a hold b hb heq

theorem CommitInv.epochTaken (h : CommitInv s) {t now : Nat}
    (hlock : s.lock = .entered t) (hinfo : s.manager.transactions[t]? = some info)
    (hepoch : s.manager.takeEpoch t now = .ok (commit, m)) :
    CommitInv { s with
      manager := m
      lock := .committing commit
      commits := { transactionId := t, epoch := commit.epoch, info } :: s.commits } := by
  obtain ⟨ours, -, hfound, hactive, hid, hnew, rfl⟩ := takeEpoch_eq_ok hepoch
  rw [hinfo] at hfound
  cases hfound
  have hother : ∀ c ∈ s.commits, c.transactionId ≠ t := fun c hc =>
    h.ne_of_active hc hinfo hactive
  have hfresh : ∀ c ∈ s.commits, c.epoch ≠ commit.epoch := by
    intro c hc
    have := h.epoch_le c hc
    omega
  have hpub := h.published_le
  have hhandles : s.handles = s.written ++ turnHandle s.turn ++ s.failed := by
    rw [handles, hlock]
    rfl
  constructor
  case table =>
    refine h.table.change hinfo (fun k => lookup_insert t k _) rfl ?_
    rw [hactive]
    rfl
  case published_le => exact le_succ_of_le h.published_le
  case epoch_le =>
    intro c hc
    rcases mem_cons.mp hc with rfl | hc
    · exact hnew.le
    · exact le_succ_of_le (h.epoch_le c hc)
  case id_lt =>
    intro c hc
    rcases mem_cons.mp hc with rfl | hc
    · exact h.table.lt_next hinfo
    · exact h.id_lt c hc
  case epoch_inj => exact inj_cons hfresh h.epoch_inj
  case id_inj => exact inj_cons hother h.id_inj
  case ordered =>
    intro c hc hle
    rcases mem_cons.mp hc with rfl | hc
    · exact absurd hle (by show ¬ commit.epoch ≤ s.manager.publishedEpoch; omega)
    · exact h.ordered c hc hle
  case pending =>
    intro c hc hlt
    rcases mem_cons.mp hc with rfl | hc
    · refine ⟨{ info with state := .committing }, ?_, rfl, ⟨rfl, rfl, rfl, rfl, rfl⟩, ?_⟩
      · exact (lookup_insert t t _).trans (if_pos rfl)
      · rw [hnew]
        exact (lookup_insert t t _).trans (if_pos rfl)
    · simp only [Known, lookup_insert, if_neg (hother c hc)]
      exact h.pending c hc hlt
  case settled =>
    intro c hc hle found hfound
    rcases mem_cons.mp hc with rfl | hc
    · exact absurd hle (by show ¬ commit.epoch ≤ s.manager.publishedEpoch; omega)
    · simp only [lookup_insert, if_neg (hother c hc)] at hfound
      exact h.settled c hc hle found hfound
  case handle =>
    show ∀ p ∈ commit :: (s.written ++ turnHandle s.turn ++ s.failed), _
    rw [← hhandles]
    intro p hp
    rcases mem_cons.mp hp with rfl | hp
    · refine ⟨by show s.manager.publishedEpoch < p.epoch; omega, fun hin => ?_, _,
        mem_cons_self, hid.symm, rfl⟩
      obtain ⟨-, -, c, hc, hce⟩ := h.incomplete p.epoch hin
      exact hfresh c hc hce
    · obtain ⟨hlt, hnot, c, hc, hrest⟩ := h.handle p hp
      exact ⟨hlt, hnot, c, mem_cons_of_mem _ hc, hrest⟩
  case handles_nodup =>
    show ((commit :: (s.written ++ turnHandle s.turn ++ s.failed)).map Publish.epoch).Nodup
    rw [← hhandles, map_cons, nodup_cons]
    refine ⟨fun hin => ?_, h.handles_nodup⟩
    obtain ⟨p, hp, hpe⟩ := mem_map.mp hin
    obtain ⟨-, -, c, hc, -, hce⟩ := h.handle p hp
    exact hfresh c hc (hce.trans hpe)
  case guard =>
    intro p hp
    cases hp
    exact hnew
  case turn_next => exact h.turn_next
  case turn_ordered =>
    intro p hp c hc heq
    rcases mem_cons.mp hc with rfl | hc
    · obtain ⟨-, -, c, hc, -, hce⟩ := h.handle p (mem_handles_of_turn hp (by decide))
      exact absurd (hce.trans heq.symm) (hfresh c hc)
    · exact h.turn_ordered p hp c hc heq
  case incomplete =>
    intro e he
    obtain ⟨hlt, hpoison, c, hc, hce⟩ := h.incomplete e he
    exact ⟨hlt, hpoison, c, mem_cons_of_mem _ hc, hce⟩

/-! ### Every effect, every run -/

theorem CommitInv.effect (h : CommitInv s) (he : Effect s s') : CommitInv s' := by
  cases he with
  | claimed hedit => exact h.claimed hedit
  | began isolationLevel isPrivate => exact h.began isolationLevel isPrivate
  | entered t hfree | held hfree => exact h.relocked (by rw [hfree]; rfl) rfl
  | refused t hlock | unheld hlock => exact h.relocked (by rw [hlock]; rfl) rfl
  | epochTaken t now info commit m hlock hinfo hepoch => exact h.epochTaken hlock hinfo hepoch
  | takenBack commit hlock => exact h.takenBack hlock
  | written commit lock hlock hafter => exact h.written hlock hafter
  | guardDropped commit hlock => exact h.guardDropped hlock
  | writtenDropped commit hmem => exact h.writtenDropped hmem
  | gaveUp commit hmem => exact h.gaveUp
  | turnTaken commit hturn hmem hnext => exact h.turnTaken hturn hmem hnext
  | orderedRan commit hturn => exact h.orderedRan hturn
  | orderedFailed commit hturn => exact h.orderedFailed hturn
  | published commit hturn => exact h.published hturn
  | timed commit hturn => exact h.timed hturn
  | failedDropped commit hmem => exact h.failedDropped hmem
  | aborted t info leaves hinfo hactive => exact h.aborted leaves hinfo hactive
  | collected => exact h.collected
  | poisoned => exact h.of_rest rfl rfl (fun _ => rfl) rfl rfl rfl rfl
  | closed => exact h.of_rest rfl rfl (fun hp => hp) rfl rfl rfl rfl
  | synced epoch hidle => exact h.synced epoch hidle
  | pinned | pinnedAt | pinnedAgain | unpinned | horizon | retention =>
    exact h.of_rest rfl rfl (fun hp => hp) rfl rfl rfl rfl

end System

end Grafeo.Transaction
