import Grafeo.Lib.Except
import Grafeo.Transaction.System
import Grafeo.Lib.Count

/-!
# Grafeo.Transaction.Effects

What a step of the system **can do**, said once. `Effect s s'` lists the changes,
each with what the code checked before it made it; `step_effects` takes every step
apart into them. An invariant of the system is then proved by cases on the effects
and never looks at an operation again.

The transaction table: what each effect leaves a **lookup** to find, and the
invariant that `active_count` is the number of open transactions in it, which the
fast paths of the conflict scans rest on.
-/

namespace Grafeo.Transaction

open Lib TransactionInfo Relation Nat Option

variable {K : Type}

/-! ### The manager's checks -/

namespace TransactionManager

variable {m m' : TransactionManager K} {t : Nat}

theorem activeInfo_eq_ok {info : TransactionInfo K} :
    m.activeInfo t = .ok info ↔ m.transactions[t]? = some info ∧ info.state = .active := by
  unfold activeInfo
  cases ht : m.transactions[t]? with
  | none => simp
  | some found =>
    by_cases hstate : found.state = .active
    · simp only [hstate, ne_eq, not_true_eq_false, if_false, Except.ok.injEq, some.injEq]
      constructor
      · rintro rfl
        exact ⟨rfl, hstate⟩
      · exact fun h => h.1
    · simp only [hstate, ne_eq, not_false_eq_true, if_true, reduceCtorEq, some.injEq,
        false_iff]
      rintro ⟨rfl, h⟩
      exact hstate h

/-- An edit of one active transaction's claims. -/
def EditsClaims (m m' : TransactionManager K) : Prop :=
  ∃ t info info', m.transactions[t]? = some info ∧ info.state = .active ∧
    info.SameStanding info' ∧ m' = m.setInfo t info'

theorem editsClaims_of {info info' : TransactionInfo K} (hinfo : m.activeInfo t = .ok info)
    (hsame : info.SameStanding info') : EditsClaims m (m.setInfo t info') := by
  obtain ⟨ht, hactive⟩ := activeInfo_eq_ok.mp hinfo
  exact ⟨t, info, info', ht, hactive, hsame, rfl⟩

theorem recordClaims_edits {claim : Claim} {entities : List GraphEntity}
    (h : m.recordClaims t claim entities = .ok m') : EditsClaims m m' := by
  simp only [recordClaims, bind_eq_ok, pure_eq_ok] at h
  obtain ⟨-, -, -, -, info, hinfo, rfl⟩ := h
  refine editsClaims_of hinfo (SameStanding.foldl ?_ info entities)
  exact fun info entity => info.addClaim_sameStanding claim entity

theorem recordKey_edits [DecidableEq K] [ToString K] {key : K}
    (h : m.recordKey t key = .ok m') : EditsClaims m m' := by
  simp only [recordKey, bind_eq_ok, pure_eq_ok] at h
  obtain ⟨-, -, -, -, info, hinfo, rfl⟩ := h
  exact editsClaims_of hinfo (by simp [claimKey, SameStanding])

theorem recordRead_edits {entity : GraphEntity} (h : m.recordRead t entity = .ok m') :
    EditsClaims m m' := by
  simp only [recordRead, bind_eq_ok, pure_eq_ok] at h
  obtain ⟨info, hinfo, rfl⟩ := h
  exact editsClaims_of hinfo (.refl info)

theorem markClaims_edits {mark : Nat} (h : m.markClaims t = .ok (mark, m')) : EditsClaims m m' := by
  simp only [markClaims, bind_eq_ok, pure_eq_ok, Prod.mk.injEq] at h
  obtain ⟨info, hinfo, -, rfl⟩ := h
  exact editsClaims_of hinfo (.refl info)

theorem restoreClaims_edits [DecidableEq K] {mark : Nat} (h : m.restoreClaims t mark = .ok m') :
    EditsClaims m m' := by
  simp only [restoreClaims, bind_eq_ok, pure_eq_ok] at h
  obtain ⟨info, hinfo, restored, hrestored, rfl⟩ := h
  exact editsClaims_of hinfo (restoreClaims_sameStanding hrestored)

/-- The transaction with its end recorded. -/
def markAborted (info : TransactionInfo K) : TransactionInfo K :=
  { info with state := .aborted, claimUndo := none }

/-- Transaction `t`, active as `info`, ends without a commit: it leaves the table
    (`leaves`) or stays there aborted. -/
def endAborted (m : TransactionManager K) (t : Nat) (info : TransactionInfo K) (leaves : Bool) :
    TransactionManager K :=
  { m with
    transactions :=
      if leaves then m.transactions.erase t else m.transactions.insert t (markAborted info)
    reads := m.reads.release info.startEpoch
    activeCount := m.activeCount - 1 }

theorem abortRegistered_eq_ok (h : m.abortRegistered t = .ok m') :
    ∃ info, m.transactions[t]? = some info ∧ info.state = .active ∧
      m' = m.endAborted t info info.isPrivate := by
  simp only [abortRegistered, bind_eq_ok, pure_eq_ok] at h
  obtain ⟨info, hinfo, rfl⟩ := h
  obtain ⟨ht, hactive⟩ := activeInfo_eq_ok.mp hinfo
  exact ⟨info, ht, hactive, rfl⟩

end TransactionManager

/-! ### Effects -/

open TransactionManager

section Effects

variable [DecidableEq K] [ToString K]

/-- One change of the system, with what was checked for it. -/
inductive Effect (s : System K) : System K → Prop where
  | claimed {m : TransactionManager K} (hedit : EditsClaims s.manager m)
      (hunlocked : s.tableLocked = false) : Effect s { s with manager := m }
  | began (isolationLevel : IsolationLevel) (isPrivate : Bool)
      (hunlocked : s.tableLocked = false) :
      Effect s { s with manager := (s.manager.register isolationLevel isPrivate).2 }
  | entered (t : Nat) (hfree : s.lock = .free) (htaken : t ∉ s.takenBack)
      (hpoison : s.manager.poisoned = false) : Effect s { s with lock := .entered t }
  | refused (t : Nat) (hlock : s.lock = .entered t) : Effect s { s with lock := .free }
  | epochTaken (t now : Nat) (info : TransactionInfo K) (commit : Publish)
      (m : TransactionManager K) (hlock : s.lock = .entered t)
      (hinfo : s.manager.transactions[t]? = some info)
      (hepoch : s.manager.takeEpoch t now = .ok (commit, m))
      (hunlocked : s.tableLocked = false) :
      Effect s { s with
        manager := m
        lock := .committing commit
        commits := { transactionId := t, epoch := commit.epoch, info } :: s.commits }
  | takenBack (commit : Publish) (hlock : s.lock = .committing commit)
      (hunlocked : s.tableLocked = false) :
      Effect s { s with
        manager := s.manager.takeBack commit
        lock := .free
        takenBack := commit.transactionId :: s.takenBack
        commits := s.commits.filter fun c => c.epoch ≠ commit.epoch }
  | written (commit : Publish) (lock : CommitLock) (hlock : s.lock = .committing commit)
      (hafter : lock = .free ∨ lock = .completing commit.transactionId) :
      Effect s { s with lock := lock, written := commit :: s.written }
  | guardDropped (commit : Publish) (hlock : s.lock = .committing commit) :
      Effect s { s.leaveIncomplete commit with lock := .free }
  | writtenDropped (commit : Publish) (hmem : commit ∈ s.written) :
      Effect s ({ s with written := s.written.erase commit }.leaveIncomplete commit)
  | gaveUp (commit : Publish) (hmem : commit ∈ s.written) : Effect s { s with
        written := s.written.erase commit
        lock := System.unlock s.lock commit.transactionId }
  | turnTaken (commit : Publish) (hturn : s.turn = none) (hmem : commit ∈ s.written)
      (hnext : commit.epoch ≤ s.manager.publishedEpoch + 1) :
      Effect s { s with
        written := s.written.erase commit
        turn := some (commit, .ordered) }
  | orderedRan (commit : Publish) (hturn : s.turn = some (commit, .ordered)) : Effect s { s with
        manager := s.manager.releaseSnapshot commit
        turn := some (commit, .released)
        commits := System.markOrdered s.commits commit.epoch }
  | orderedFailed (commit : Publish) (hturn : s.turn = some (commit, .ordered)) :
      Effect s { s with turn := none, failed := commit :: s.failed }
  | published (commit : Publish) (hturn : s.turn = some (commit, .released)) : Effect s { s with
        manager := s.manager.publish commit
        turn := some (commit, .published) }
  | timed (commit : Publish) (hturn : s.turn = some (commit, .published)) : Effect s { s with
        manager := s.manager.recordTime commit
        turn := none
        lock := System.unlock s.lock commit.transactionId }
  | failedDropped (commit : Publish) (hmem : commit ∈ s.failed) :
      Effect s ({ s with failed := s.failed.erase commit }.leaveIncomplete commit)
  | aborted (t : Nat) (info : TransactionInfo K) (leaves : Bool)
      (hinfo : s.manager.transactions[t]? = some info) (hactive : info.state = .active)
      (hunlocked : s.tableLocked = false) :
      Effect s { s with manager := s.manager.endAborted t info leaves }
  | collected (hunlocked : s.tableLocked = false) : Effect s { s with manager := s.manager.gc.2 }
  | poisoned : Effect s { s with manager := s.manager.poison }
  | closed : Effect s { s with manager := { s.manager with closed := true } }
  | held (hfree : s.lock = .free) : Effect s { s with lock := .held }
  | unheld (hlock : s.lock = .held) : Effect s { s with lock := .free }
  | synced (epoch : Nat) (hidle : System.commitInProgress s.manager = false) :
      Effect s { s with manager := s.manager.syncEpoch epoch }
  | pinned : Effect s { s with
      manager := s.manager.pinRead.2
      pins := s.manager.publishedEpoch :: s.pins }
  | pinnedAt (epoch : Nat) (hfloor : s.manager.history.floor ≤ epoch) : Effect s { s with
        manager := s.manager.pinAgain (s.manager.readableEpoch epoch)
        pins := s.manager.readableEpoch epoch :: s.pins }
  | pinnedAgain (epoch : Nat) (hmem : epoch ∈ s.pins) :
      Effect s { s with manager := s.manager.pinAgain epoch, pins := epoch :: s.pins }
  | unpinned (epoch : Nat) (hmem : epoch ∈ s.pins) :
      Effect s { s with manager := s.manager.unpin epoch, pins := s.pins.erase epoch }
  | horizon (now : Nat) : Effect s { s with manager := (s.manager.collectHorizon now).2 }
  | retention (history : History) (hfloor : history.floor = s.manager.history.floor) :
      Effect s { s with manager := { s.manager with history := history } }

/-- Effects, one after the other. -/
abbrev Effects : System K → System K → Prop := Relation.ReflTransGen Effect

theorem Effect.effects {s s' : System K} (h : Effect s s') : Effects s s' :=
  ReflTransGen.single h

/-! ### Every step is made of effects -/

variable {s s' : System K}

theorem whenUnlocked_eq_some {act : Option (System K)} (h : s.whenUnlocked act = some s') :
    s.tableLocked = false ∧ act = some s' := by
  unfold System.whenUnlocked at h
  split at h
  · cases h
  next hlocked => exact ⟨by simpa using hlocked, h⟩

/-- A call on the manager fails, or gives the next one. -/
theorem attempt_cases {ε : Type} {r : Except ε (TransactionManager K)}
    (h : s.whenUnlocked (some (s.attempt r)) = some s') :
    s' = s ∧ (∃ e, r = .error e) ∨ ∃ m, r = .ok m ∧ s'.manager = m := by
  obtain ⟨-, hact⟩ := whenUnlocked_eq_some h
  cases hact
  cases r with
  | error e => exact .inl ⟨rfl, e, rfl⟩
  | ok m => exact .inr ⟨m, rfl, rfl⟩

theorem handle?_mem {handles : List Publish} {t : Nat} {commit : Publish}
    (h : System.handle? handles t = some commit) : commit ∈ handles ∧ commit.transactionId = t := by
  refine ⟨List.mem_of_find?_eq_some h, ?_⟩
  have := List.find?_some h
  simpa using this

/-- A call that failed has no effect. -/
theorem attempt_effects {ε : Type} {r : Except ε (TransactionManager K)}
    (h : ∀ m, r = .ok m → Effects s { s with manager := m }) : Effects s (s.attempt r) := by
  cases r with
  | ok m => exact h m rfl
  | error e => exact ReflTransGen.refl

/-- A call under the table's lock that only edits the claims of an active transaction. -/
theorem claims_effects {ε : Type} {r : Except ε (TransactionManager K)}
    (hstep : s.whenUnlocked (some (s.attempt r)) = some s')
    (hedit : ∀ m, r = .ok m → EditsClaims s.manager m) : Effects s s' := by
  obtain ⟨hunlocked, hact⟩ := whenUnlocked_eq_some hstep
  cases hact
  exact attempt_effects fun m hm => (Effect.claimed (hedit m hm) hunlocked).effects

theorem abort_effects (t : Nat) (undone : Bool) (hunlocked : s.tableLocked = false) :
    Effects s { s with manager := (s.manager.abort t undone).2 } := by
  -- The undo that failed poisons first; what follows is the abort of the table's entry.
  have hend : ∀ r : System K, r.tableLocked = false →
      Effects r { r with manager := (r.manager.abort t true).2 } := by
    intro r hr
    simp only [abort, if_true]
    cases hreg : r.manager.abortRegistered t with
    | error e => exact ReflTransGen.refl
    | ok m =>
      obtain ⟨info, hinfo, hactive, rfl⟩ := abortRegistered_eq_ok hreg
      exact (Effect.aborted t info info.isPrivate hinfo hactive hr).effects
  cases undone with
  | true => exact hend s hunlocked
  | false =>
    have hpoison : Effects s { s with manager := s.manager.poison } := Effect.poisoned.effects
    exact hpoison.trans (hend { s with manager := s.manager.poison } hunlocked)

theorem abortActive_effects (t : Nat) (hunlocked : s.tableLocked = false) :
    Effects s { s with manager := s.manager.abortActive t } := by
  unfold abortActive
  cases hinfo : s.manager.transactions[t]? with
  | none => exact ReflTransGen.refl
  | some info =>
    by_cases hactive : info.state = .active
    · simp only [hactive, if_true]
      exact (Effect.aborted t info false hinfo hactive hunlocked).effects
    · simp only [hactive, if_false]
      exact ReflTransGen.refl

theorem enterCommit_effects {t : Nat} {quiet : Bool} (h : s.enterCommit t quiet = some s') :
    Effects s s' := by
  unfold System.enterCommit at h
  split at h
  next hfree =>
    split at h
    · cases h
      exact ReflTransGen.refl
    rename_i hok
    cases h
    have hpoison : s.manager.poisoned = false := by
      cases hp : s.manager.poisoned with
      | false => rfl
      | true => exact absurd (.inl hp) hok
    exact (Effect.entered t hfree.1 hfree.2.1 hpoison).effects
  · cases h

theorem takeEpoch_effects {now : Nat} (hunlocked : s.tableLocked = false)
    (h : s.takeEpoch now = some s') : Effects s s' := by
  unfold System.takeEpoch at h
  split at h
  next t hlock =>
    split at h
    next commit m info hepoch hinfo =>
      cases h
      exact (Effect.epochTaken t now info commit m hlock hinfo hepoch hunlocked).effects
    · cases h
      exact (Effect.refused t hlock).effects
  · cases h

theorem takeTurn_effects {t : Nat} (h : s.takeTurn t = some s') : Effects s s' := by
  unfold System.takeTurn at h
  split at h
  next commit hturn hhandle =>
    obtain ⟨hmem, rfl⟩ := handle?_mem hhandle
    simp only at h
    split at h
    · cases h
      exact (Effect.gaveUp commit hmem).effects
    · split at h <;> cases h
      rename_i hnext
      exact (Effect.turnTaken commit hturn hmem hnext).effects
  · cases h

theorem orderedDone_effects {succeeded : Bool} (h : s.orderedDone succeeded = some s') :
    Effects s s' := by
  unfold System.orderedDone at h
  split at h
  next commit hturn =>
    split at h
    · cases h
      exact (Effect.orderedRan commit hturn).effects
    · cases h
      exact (Effect.orderedFailed commit hturn).effects
  · cases h

theorem pinReadAt_effects {epoch : Nat} (h : s.step (.pinReadAt epoch) = some s') :
    Effects s s' := by
  simp only [System.step, TransactionManager.pinReadAt] at h
  by_cases hfloor : epoch < s.manager.history.floor
  · simp only [hfloor, if_true] at h
    cases h
    exact ReflTransGen.refl
  · simp only [hfloor, if_false] at h
    cases h
    exact (Effect.pinnedAt epoch (le_of_not_gt hfloor)).effects

/-- Every step of the system is made of effects. -/
theorem step_effects {op : Op K} (h : s.step op = some s') : Effects s s' := by
  cases op <;> simp only [System.step] at h
  case beginWithIsolation isolationLevel =>
    obtain ⟨hunlocked, hact⟩ := whenUnlocked_eq_some h
    cases hact
    exact (Effect.began isolationLevel false hunlocked).effects
  case beginPrivate =>
    obtain ⟨hunlocked, hact⟩ := whenUnlocked_eq_some h
    cases hact
    refine attempt_effects fun m hm => ?_
    obtain ⟨began, hbegan, rfl⟩ := map_eq_ok.mp hm
    simp only [beginPrivate, bind_eq_ok, pure_eq_ok] at hbegan
    obtain ⟨-, -, rfl⟩ := hbegan
    exact (Effect.began .snapshotIsolation true hunlocked).effects
  case recordClaims t claim entities => exact claims_effects h fun m hm => recordClaims_edits hm
  case recordKey t key => exact claims_effects h fun m hm => recordKey_edits hm
  case recordRead t entity => exact claims_effects h fun m hm => recordRead_edits hm
  case markClaims t =>
    refine claims_effects h fun m hm => ?_
    obtain ⟨⟨mark, m'⟩, hmark, rfl⟩ := map_eq_ok.mp hm
    exact markClaims_edits hmark
  case restoreClaims t mark => exact claims_effects h fun m hm => restoreClaims_edits hm
  case enterCommit t quiet => exact enterCommit_effects h
  case takeEpoch now =>
    obtain ⟨hunlocked, hact⟩ := whenUnlocked_eq_some h
    exact takeEpoch_effects hunlocked hact
  case abortCommit =>
    split at h
    next commit hlock =>
      obtain ⟨hunlocked, hact⟩ := whenUnlocked_eq_some h
      cases hact
      exact (Effect.takenBack commit hlock hunlocked).effects
    · cases h
  case written =>
    split at h <;> cases h
    rename_i commit hlock
    exact (Effect.written commit .free hlock (.inl rfl)).effects
  case completeHeld =>
    split at h <;> cases h
    rename_i commit hlock
    exact (Effect.written commit (.completing commit.transactionId) hlock (.inr rfl)).effects
  case dropGuard =>
    split at h <;> cases h
    rename_i commit hlock
    exact (Effect.guardDropped commit hlock).effects
  case dropWritten t =>
    obtain ⟨commit, hhandle, rfl⟩ := map_eq_some_iff.mp h
    exact (Effect.writtenDropped commit (handle?_mem hhandle).1).effects
  case takeTurn t => exact takeTurn_effects h
  case orderedDone succeeded => exact orderedDone_effects h
  case publish =>
    split at h <;> cases h
    rename_i commit hturn
    exact (Effect.published commit hturn).effects
  case recordTime =>
    split at h <;> cases h
    rename_i commit hturn
    exact (Effect.timed commit hturn).effects
  case dropFailed t =>
    obtain ⟨commit, hhandle, rfl⟩ := map_eq_some_iff.mp h
    exact (Effect.failedDropped commit (handle?_mem hhandle).1).effects
  case abort t undone =>
    obtain ⟨hunlocked, hact⟩ := whenUnlocked_eq_some h
    cases hact
    exact abort_effects t undone hunlocked
  case abortActive t =>
    obtain ⟨hunlocked, hact⟩ := whenUnlocked_eq_some h
    cases hact
    exact abortActive_effects t hunlocked
  case gc =>
    obtain ⟨hunlocked, hact⟩ := whenUnlocked_eq_some h
    cases hact
    exact (Effect.collected hunlocked).effects
  case poison =>
    cases h
    exact Effect.poisoned.effects
  case closeForWrites =>
    split at h <;> cases h
    exact Effect.closed.effects
  case holdCommits =>
    split at h
    next hfree =>
      split at h
      · cases h
        exact ReflTransGen.refl
      · cases h
        exact (Effect.held hfree.1).effects
    · cases h
  case releaseCommits =>
    split at h <;> cases h
    rename_i hlock
    exact (Effect.unheld hlock).effects
  case syncEpoch epoch =>
    split at h <;> cases h
    rename_i hidle
    exact (Effect.synced epoch (by simpa using hidle)).effects
  case pinRead =>
    cases h
    exact Effect.pinned.effects
  case pinReadAt epoch => exact pinReadAt_effects h
  case pinAgain epoch =>
    split at h <;> cases h
    rename_i hmem
    exact (Effect.pinnedAgain epoch hmem).effects
  case unpin epoch =>
    split at h <;> cases h
    rename_i hmem
    exact (Effect.unpinned epoch hmem).effects
  case collectHorizon now =>
    cases h
    exact (Effect.horizon now).effects
  case setHistoryRetention retention now =>
    cases h
    exact (Effect.retention _ (History.floor_setRetention ..)).effects

/-- What every effect keeps, a sequence of them keeps. -/
theorem Effects.invariant (Inv : System K → Prop)
    (hkeep : ∀ s s', Inv s → Effect s s' → Inv s') (h : Effects s s') (hs : Inv s) : Inv s' := by
  induction h with
  | refl => exact hs
  | tail _ heffect ih => exact hkeep _ _ ih heffect

/-- A run of the system is a sequence of effects. -/
theorem run_effects {ops : List (Op K)} (h : run System.step s ops = some s') : Effects s s' := by
  refine run_invariant (fun r => Effects s r) ?_ ReflTransGen.refl h
  intro r op r' hr hstep
  exact hr.trans (step_effects hstep)

end Effects

variable {K : Type} {info : TransactionInfo K}

namespace TransactionManager

variable {m m' : TransactionManager K} {t k : Nat}

/-! ### Lookups -/

theorem lookup_setInfo (info : TransactionInfo K) :
    (m.setInfo t info).transactions[k]? = if k = t then some info else m.transactions[k]? :=
  lookup_insert t k info

/-- What `register` puts into the table. -/
def newInfo (m : TransactionManager K) (isolationLevel : IsolationLevel) (isPrivate : Bool) :
    TransactionInfo K :=
  { isolationLevel, startEpoch := m.publishedEpoch, isPrivate }

theorem lookup_register (isolationLevel : IsolationLevel) (isPrivate : Bool) :
    (m.register isolationLevel isPrivate).2.transactions[k]? =
      if k = m.nextTransactionId then some (m.newInfo isolationLevel isPrivate)
      else m.transactions[k]? :=
  lookup_insert m.nextTransactionId k _

theorem lookup_takeBack (commit : Publish) : (m.takeBack commit).transactions[k]? =
      if k = commit.transactionId then
        m.transactions[commit.transactionId]?.map fun info => { info with state := .active }
      else m.transactions[k]? :=
  lookup_modify commit.transactionId k _

theorem lookup_endAborted (info : TransactionInfo K) (leaves : Bool) :
    (m.endAborted t info leaves).transactions[k]? =
      if k = t then (if leaves then none else some (markAborted info))
      else m.transactions[k]? := by
  cases leaves with
  | true => exact lookup_erase t k
  | false => exact lookup_insert t k _

theorem lookup_publish {commit : Publish}
    (hinfo : m.transactions[commit.transactionId]? = some info) :
    (m.publish commit).transactions[k]? = (if k = commit.transactionId then
          (if m.leavesAtPublish info then none
            else some { info with state := .committed, claimUndo := none })
        else m.transactions[k]?) ∧
      (m.publish commit).committedEpochs[k]? =
        (if k = commit.transactionId ∧ m.leavesAtPublish info = true then none
        else m.committedEpochs[k]?) := by
  simp only [publish, hinfo]
  cases hleaves : m.leavesAtPublish info with
  | true => simp [lookup_erase]
  | false =>
    simp [lookup_insert]

/-- What `gc` collects, in both tables. -/
theorem lookup_gc : m.gc.2.transactions[k]? =
        (m.transactions[k]?).filter (fun info => !m.isCollectable k info) ∧
      m.gc.2.committedEpochs[k]? =
        if (m.transactions[k]?).any (fun info => m.isCollectable k info) then none
        else m.committedEpochs[k]? := by
  have hmem : k ∈ (m.transactions.toList.filter fun entry =>
      m.isCollectable entry.1 entry.2).map Prod.fst ↔
      ∃ info, m.transactions[k]? = some info ∧ m.isCollectable k info = true := by
    simp [Std.ExtTreeMap.mem_toList_iff_getElem?_eq_some]
  simp only [gc, lookup_foldl_erase, hmem]
  cases hk : m.transactions[k]? with
  | none => simp
  | some info =>
    by_cases hcollect : m.isCollectable k info = true <;> simp [hcollect, Option.filter]

/-! ### The count of open transactions -/

/-- Whether transaction `t` is in the table and counted as open. -/
def isOpen (m : TransactionManager K) (t : Nat) : Bool :=
  (m.transactions[t]?).any fun info => info.state.isOpen

theorem isOpen_eq_true (ht : m.transactions[t]? = some info)
    (hopen : info.state.isOpen = true) : m.isOpen t = true := by
  rw [isOpen, ht]
  exact hopen

/-- The ids handed out cover the table, and `active_count` counts its open
    transactions. -/
structure TableInv (m : TransactionManager K) : Prop where
  fresh : ∀ t, m.nextTransactionId ≤ t → m.transactions[t]? = none
  counted : m.activeCount = Nat.count (fun t => m.isOpen t = true) m.nextTransactionId

variable (h : TableInv m)
include h

/-- A change that keeps who is open. -/
theorem TableInv.congr (hfresh : ∀ t : Nat, m.transactions[t]? = none → m'.transactions[t]? = none)
    (hopen : ∀ t, m'.isOpen t = m.isOpen t) (hnext : m'.nextTransactionId = m.nextTransactionId)
    (hcount : m'.activeCount = m.activeCount) : TableInv m' := by
  refine ⟨fun t ht => hfresh t (h.fresh t (hnext ▸ ht)), ?_⟩
  rw [hcount, hnext, h.counted]
  exact count_congr fun t _ => by rw [hopen t]

theorem TableInv.register (isolationLevel : IsolationLevel) (isPrivate : Bool) :
    TableInv (m.register isolationLevel isPrivate).2 := by
  refine ⟨fun t ht => ?_, ?_⟩
  · have hne : t ≠ m.nextTransactionId := ne_of_gt ht
    rw [lookup_register, if_neg hne]
    exact h.fresh t (le_of_succ_le ht)
  show m.activeCount + 1 = count _ (m.nextTransactionId + 1)
  have hnew : (m.register isolationLevel isPrivate).2.isOpen m.nextTransactionId = true := by
    rw [isOpen, lookup_register, if_pos rfl]
    rfl
  rw [count_succ, if_pos hnew, h.counted]
  congr 1
  refine count_congr fun t ht => ?_
  rw [isOpen, isOpen, lookup_register, if_neg (ht.ne)]

variable (ht : m.transactions[t]? = some info)
include ht

theorem TableInv.lt_next : t < m.nextTransactionId := by
  by_contra hle
  rw [h.fresh t (le_of_not_gt hle)] at ht
  cases ht

/-- Where at most one transaction is counted, no two are open. -/
theorem TableInv.only_open {u : Nat} {other : TransactionInfo K} (hone : m.activeCount ≤ 1)
    (hu : m.transactions[u]? = some other) (hopen : info.state.isOpen = true)
    (hother : other.state.isOpen = true) : t = u := by
  have hcount : count (fun k => m.isOpen k = true) m.nextTransactionId ≤ 1 := by
    rw [← h.counted]
    exact hone
  exact eq_of_count_le_one (p := fun k => m.isOpen k = true) (h.lt_next ht) (h.lt_next hu)
    (isOpen_eq_true ht hopen) (isOpen_eq_true hu hother) hcount

/-- A change of the table at one transaction, with the count moved accordingly. -/
theorem TableInv.change {after : Option (TransactionInfo K)}
    (hlookup : ∀ k : Nat, m'.transactions[k]? = if k = t then after else m.transactions[k]?)
    (hnext : m'.nextTransactionId = m.nextTransactionId)
    (hcount : m'.activeCount + (if info.state.isOpen then 1 else 0) =
      m.activeCount + (if after.any (·.state.isOpen) then 1 else 0)) : TableInv m' := by
  refine ⟨fun k hk => ?_, ?_⟩
  · rw [hnext] at hk
    have hne : k ≠ t := fun heq => not_lt.mpr hk (heq ▸ h.lt_next ht)
    rw [hlookup, if_neg hne]
    exact h.fresh k hk
  have hagree : ∀ k, k ≠ t → (m.isOpen k = true ↔ m'.isOpen k = true) := by
    intro k hk
    rw [isOpen, isOpen, hlookup, if_neg hk]
  have hchange := count_change (h.lt_next ht) hagree
  have hopen : m.isOpen t = info.state.isOpen := by rw [isOpen, ht]; rfl
  have hopen' : m'.isOpen t = after.any (·.state.isOpen) := by rw [isOpen, hlookup, if_pos rfl]
  rw [hopen, hopen', ← h.counted] at hchange
  rw [hnext]
  omega

/-- An open transaction is counted. -/
theorem TableInv.activeCount_pos (hopen : info.state.isOpen = true) : 0 < m.activeCount := by
  rw [h.counted]
  exact count_pos (p := fun k => m.isOpen k = true) (h.lt_next ht) (isOpen_eq_true ht hopen)

end TransactionManager

end Grafeo.Transaction
