import Grafeo.Transaction.Commits

/-!
# Grafeo.Transaction.Isolation

What holds of **every run** of the transaction manager about publishing: epochs are
published in order and only complete, and a commit left incomplete stops them for
good.

**First committer wins.** No two transactions that overlap both commit with claims
that conflict, although the commit-time scan is skipped while the assigned epoch has
not passed the snapshot, a private transaction leaves the table when it commits, and
`gc` drops committed entries.

The commit-time scan sees only what the tables still hold, so the invariant
(`ConflictInv`) says that nothing needed was dropped: every active transaction that
may still commit finds each commit above its snapshot in both tables, with the claims
it committed with. The scans against open transactions, with their fast path, are not
needed for this; they only refuse earlier.
-/

namespace Grafeo.Transaction

open Lib TransactionManager List System

variable {K : Type} [DecidableEq K] [ToString K] {s s' : System K}

namespace System

/-- Every state a run reaches satisfies the invariant of the commits. -/
theorem CommitInv.effects (h : CommitInv s) (he : Effects s s') : CommitInv s' :=
  he.invariant CommitInv (fun _ _ hs heffect => hs.effect heffect) h

theorem CommitInv.run {ops : List (Op K)} (hrun : run System.step {} ops = some s) : CommitInv s :=
  CommitInv.init.effects (run_effects hrun)

/-! ### What moves in one direction -/

/-- The published epoch only moves forward, and the incomplete commits stay. -/
theorem forward_effect (he : Effect s s') :
    s.manager.publishedEpoch ≤ s'.manager.publishedEpoch ∧ s.incomplete ⊆ s'.incomplete := by
  have hcons : ∀ e : Nat, s.incomplete ⊆ e :: s.incomplete := fun e => subset_cons_self e _
  cases he with
  | claimed hedit =>
    obtain ⟨t, info, info', -, -, -, rfl⟩ := hedit
    exact ⟨le_rfl, Subset.refl _⟩
  | epochTaken t now info commit m hlock hinfo hepoch =>
    obtain ⟨ours, -, -, -, -, -, rfl⟩ := takeEpoch_eq_ok hepoch
    exact ⟨le_rfl, Subset.refl _⟩
  | guardDropped | writtenDropped | failedDropped => exact ⟨le_rfl, hcons _⟩
  | published | synced => exact ⟨le_max_left .., Subset.refl _⟩
  | _ => exact ⟨le_rfl, Subset.refl _⟩

theorem forward_effects (he : Effects s s') :
    s.manager.publishedEpoch ≤ s'.manager.publishedEpoch ∧ s.incomplete ⊆ s'.incomplete := by
  refine he.invariant (fun r =>
    s.manager.publishedEpoch ≤ r.manager.publishedEpoch ∧ s.incomplete ⊆ r.incomplete) ?_
    ⟨le_rfl, Subset.refl _⟩
  intro r r' hr heffect
  obtain ⟨hpub, hinc⟩ := forward_effect heffect
  exact ⟨hr.1.trans hpub, Subset.trans hr.2 hinc⟩

/-- No `start_commit` is past its check for incomplete commits, and none gets there. -/
def NoStart (s : System K) : Prop :=
  s.manager.poisoned = true ∧ ∀ t, s.lock ≠ .entered t

/-- Every commit of `s'` is one of `s`, whether its ordered step ran in between or
    not. -/
def CommitsOf (s s' : System K) : Prop :=
  ∀ c ∈ s'.commits, ∃ d ∈ s.commits, d.transactionId = c.transactionId ∧ d.epoch = c.epoch

theorem CommitsOf.refl (s : System K) : CommitsOf s s := fun c hc => ⟨c, hc, rfl, rfl⟩

theorem CommitsOf.trans {s s' s'' : System K} (h : CommitsOf s s') (h' : CommitsOf s' s'') :
    CommitsOf s s'' := by
  intro c hc
  obtain ⟨d, hd, hid, hepoch⟩ := h' c hc
  obtain ⟨e, he, hid', hepoch'⟩ := h d hd
  exact ⟨e, he, hid'.trans hid, hepoch'.trans hepoch⟩

theorem unlock_ne_entered {lock : CommitLock} (h : ∀ t, lock ≠ .entered t) (t t' : Nat) :
    unlock lock t ≠ .entered t' := by
  unfold unlock
  split
  · exact nofun
  · exact h t'

/-- After the check fails for good, no effect starts a commit. -/
theorem noStart_effect (h : NoStart s) (he : Effect s s') : NoStart s' ∧ CommitsOf s s' := by
  cases he with
  | claimed hedit =>
    obtain ⟨t, info, info', -, -, -, rfl⟩ := hedit
    exact ⟨h, CommitsOf.refl s⟩
  | entered t hfree htaken hpoison =>
    rw [h.1] at hpoison
    cases hpoison
  | refused t hlock | epochTaken t now info commit m hlock => exact absurd hlock (h.2 t)
  | takenBack commit hlock =>
    refine ⟨⟨h.1, nofun⟩, fun c hc => ?_⟩
    exact ⟨c, (mem_filter.mp hc).1, rfl, rfl⟩
  | written commit lock hlock hafter =>
    refine ⟨⟨h.1, fun t ht => ?_⟩, CommitsOf.refl s⟩
    rcases hafter with rfl | rfl <;> cases ht
  | guardDropped commit hlock => exact ⟨⟨rfl, nofun⟩, CommitsOf.refl s⟩
  | writtenDropped commit hmem | failedDropped commit hmem =>
    exact ⟨⟨rfl, unlock_ne_entered h.2 commit.transactionId⟩, CommitsOf.refl s⟩
  | gaveUp commit hmem | timed commit hturn =>
    exact ⟨⟨h.1, unlock_ne_entered h.2 commit.transactionId⟩, CommitsOf.refl s⟩
  | orderedRan commit hturn =>
    exact ⟨h, forall_mem_map.mpr fun d hd => ⟨d, hd, by split <;> exact ⟨rfl, rfl⟩⟩⟩
  | held | unheld => exact ⟨⟨h.1, nofun⟩, CommitsOf.refl s⟩
  | poisoned => exact ⟨⟨rfl, h.2⟩, CommitsOf.refl s⟩
  | _ => exact ⟨h, CommitsOf.refl s⟩

theorem noStart_effects (h : NoStart s) (he : Effects s s') : NoStart s' ∧ CommitsOf s s' := by
  refine he.invariant (fun r => NoStart r ∧ CommitsOf s r) ?_ ⟨h, CommitsOf.refl s⟩
  intro r r' hr heffect
  obtain ⟨hno, hof⟩ := noStart_effect hr.1 heffect
  exact ⟨hno, hr.2.trans hof⟩

end System

/-- **Epochs are published in order, complete, and never past an incomplete commit.**
    Along every run, whatever the threads do: the published epoch never decreases and
    never exceeds the assigned one; it reaches no commit whose ordered step did not run
    successfully; and from a state where the commit at `e` was left incomplete on, no
    epoch at or above `e` is ever published and no later commit starts. A `start_commit`
    that comes to its check afterwards fails, and no commit takes an epoch any more,
    unless one was past that check already. -/
theorem published_in_order {ops later : List (Op K)} {s s' : System K}
    (hrun : run System.step {} ops = some s) (hlater : run System.step s later = some s') :
    s.manager.publishedEpoch ≤ s'.manager.publishedEpoch ∧
      s'.manager.publishedEpoch ≤ s'.manager.assignedEpoch ∧
      (∀ c ∈ s'.commits, c.epoch ≤ s'.manager.publishedEpoch → c.ordered = true) ∧
      ∀ e ∈ s.incomplete, s'.manager.publishedEpoch < e ∧
        (∀ t quiet s'', s'.step (.enterCommit t quiet) = some s'' → s'' = s') ∧
        ((∀ t, s.lock ≠ .entered t) → System.CommitsOf s s') := by
  have hinv := CommitInv.run hrun
  have heffects := run_effects hlater
  have hinv' := hinv.effects heffects
  obtain ⟨hforward, hincomplete⟩ := forward_effects heffects
  refine ⟨hforward, hinv'.published_le, hinv'.ordered, ?_⟩
  intro e he
  obtain ⟨hlt, hpoison', -⟩ := hinv'.incomplete e (hincomplete he)
  refine ⟨hlt, ?_, ?_⟩
  · intro t quiet s'' hstep
    simp only [step, enterCommit, hpoison', true_or, if_true] at hstep
    split at hstep <;> cases hstep
    rfl
  · intro hlock
    obtain ⟨-, hpoison, -⟩ := hinv.incomplete e he
    exact (noStart_effects ⟨hpoison, hlock⟩ heffects).2

/-- Two commits are written, the first is dropped before it publishes, and the second
    gives up: from then on epoch 1 is never reached. -/
theorem published_in_order_after_drop : ∃ s s' : System Nat,
      run System.step {} [.beginWithIsolation .snapshotIsolation, .beginPrivate,
        .enterCommit 2 false, .takeEpoch 0, .written, .enterCommit 3 false, .takeEpoch 0,
        .written, .dropWritten 2] = some s ∧
      run System.step s [.takeTurn 3] = some s' ∧ 1 ∈ s.incomplete ∧
      s'.manager.assignedEpoch = 2 ∧ s'.manager.publishedEpoch < 1 := by
  let ops : List (Op Nat) := [.beginWithIsolation .snapshotIsolation, .beginPrivate,
    .enterCommit 2 false, .takeEpoch 0, .written, .enterCommit 3 false, .takeEpoch 0,
    .written, .dropWritten 2]
  let s : System Nat := (run step {} ops).getD {}
  let s' : System Nat := (run step s [.takeTurn 3]).getD {}
  have hs : run step {} ops = some s := rfl
  have hs' : run step s [.takeTurn 3] = some s' := rfl
  have hdropped : 1 ∈ s.incomplete := by decide
  exact ⟨s, s', hs, hs', hdropped, rfl, ((published_in_order hs hs').2.2.2 1 hdropped).1⟩

open Option

variable {K : Type} {m : TransactionManager K} {info : TransactionInfo K} {commit : Publish}
  {others : List (TransactionInfo K)} {ours other : TransactionInfo K} {entity : GraphEntity}

/-- The tables still hold commit `c`, with the claims it committed with. -/
def Remembered (m : TransactionManager K) (c : Commit K) : Prop :=
  ∃ info, m.transactions[c.transactionId]? = some info ∧ c.info.SameClaims info ∧
    m.committedEpochs[c.transactionId]? = some c.epoch

theorem Known.remembered {c : Commit K} {state : TransactionState}
    (h : Known m c state) : Remembered m c := by
  obtain ⟨info, hinfo, -, hclaims, hepoch⟩ := h
  exact ⟨info, hinfo, hclaims, hepoch⟩

/-- Claims of two transactions that do not conflict. -/
structure TransactionInfo.Compatible (ours other : TransactionInfo K) : Prop where
  writes : ∀ e ∈ ours.writeSet, e ∉ other.writeSet
  keys : ∀ k ∈ ours.keySet, k ∉ other.keySet
  endpoints : ∀ e ∈ ours.endpointSet, e ∉ other.deleteSet
  deletes : ∀ e ∈ ours.deleteSet, e ∉ other.endpointSet

theorem TransactionInfo.Compatible.symm (h : ours.Compatible other) : other.Compatible ours where
  writes e he hin := h.writes e hin he
  keys k hk hin := h.keys k hin hk
  endpoints e he hin := h.deletes e hin he
  deletes e he hin := h.endpoints e hin he

/-- Each began below the other's commit epoch. -/
def Commit.Overlaps (a b : Commit K) : Prop :=
  a.info.startEpoch < b.epoch ∧ b.info.startEpoch < a.epoch

/-! ### The commit-time scan -/

theorem refuse_eq_ok {skip : Bool} {conflict : TransactionInfo K → Option TransactionError} :
    refuse skip others conflict = .ok () ↔
      skip = true ∨ ∀ other ∈ others, conflict other = none := by
  unfold refuse
  cases skip with
  | true => simp
  | false =>
    cases hfound : others.findSome? conflict with
    | none => simpa using findSome?_eq_none_iff.mp hfound
    | some error =>
      obtain ⟨other, hmem, herror⟩ := exists_of_findSome?_eq_some hfound
      simp only [Bool.false_eq_true, if_false, reduceCtorEq, false_or, false_iff]
      intro hall
      rw [hall other hmem] at herror
      cases herror

/-- A scan over one of the transaction's own sets that found nothing. -/
theorem clear_of_scan {α : Type} {skip : Bool} {mine : List α}
    (find : TransactionInfo K → α → Prop) [∀ o, DecidablePred (find o)]
    {raise : α → TransactionError} (h : refuse (skip || mine.isEmpty) others (fun other =>
      (mine.find? fun a => find other a).map raise) = .ok ()) (hskip : skip = false) :
    ∀ other ∈ others, ∀ a ∈ mine, ¬ find other a := by
  intro other hother a ha
  rcases refuse_eq_ok.mp h with hs | hnone
  · rw [hskip, Bool.false_or, List.isEmpty_iff] at hs
    rw [hs] at ha
    cases ha
  · have := map_eq_none_iff.mp (hnone other hother)
    have := find?_eq_none.mp this a ha
    simpa using this

section Scan

variable {m : TransactionManager K} {t : Nat}

theorem mem_committedSince {start u : Nat} {other : TransactionInfo K} {epoch : Nat}
    (hother : m.transactions[u]? = some other) (hepoch : m.committedEpochs[u]? = some epoch)
    (hne : u ≠ t) (hlt : start < epoch) : other ∈ m.committedSince t start := by
  refine mem_filterMap.mpr ⟨(u, epoch), ?_, ?_⟩
  · exact Std.ExtTreeMap.mem_toList_iff_getElem?_eq_some.mpr hepoch
  · simp only [ne_eq, hne, not_false_eq_true, gt_iff_lt, hlt, and_self, if_true]
    exact hother

theorem conflictWith_none {claim : Claim} (h : info.conflictWith claim entity = none) :
    (claim = .endpoint → entity ∉ info.deleteSet) ∧
      (claim = .delete → entity ∉ info.endpointSet) := by
  cases claim <;> grind [TransactionInfo.conflictWith]

/-- A transaction that passes the commit-time scan is compatible with everything the
    tables hold above its snapshot. -/
theorem validateCommit_compatible [DecidableEq K] [ToString K]
    (h : m.validateCommit t = .ok ours) (hassigned : ours.startEpoch < m.assignedEpoch)
    (hother : other ∈ m.committedSince t ours.startEpoch) : ours.Compatible other := by
  simp only [validateCommit, bind_eq_ok, pure_eq_ok] at h
  obtain ⟨info, -, ⟨⟩, hwrites, ⟨⟩, hedges, ⟨⟩, hkeys, ⟨⟩, -, rfl⟩ := h
  have hskip : (!decide (m.assignedEpoch > info.startEpoch)) = false := by
    simpa using hassigned
  rw [hskip] at hwrites hedges hkeys
  have hedge : ∀ e, (e ∈ info.endpointSet → e ∉ other.deleteSet) ∧
      (e ∈ info.deleteSet → e ∉ other.endpointSet) := by
    intro e
    rcases refuse_eq_ok.mp hedges with hs | hnone
    · rw [Bool.false_or, Bool.and_eq_true, List.isEmpty_iff, List.isEmpty_iff] at hs
      simp [hs.1, hs.2]
    · have hor := map_eq_none_iff.mp (hnone other hother)
      rw [or_eq_none_iff] at hor
      refine ⟨fun he => ?_, fun he => ?_⟩
      · exact (conflictWith_none (findSome?_eq_none_iff.mp hor.1 e he)).1 rfl
      · exact (conflictWith_none (findSome?_eq_none_iff.mp hor.2 e he)).2 rfl
  exact {
    writes := clear_of_scan (fun o e => e ∈ o.writeSet) hwrites rfl other hother
    keys := clear_of_scan (fun o k => k ∈ o.keySet) hkeys rfl other hother
    endpoints e := (hedge e).1
    deletes e := (hedge e).2 }

end Scan

/-! ### The invariant -/

namespace System

variable {s s' : System K}

/-- Transaction `t` is active and its commit was not taken back: it may still
    commit. -/
def MayCommit (s : System K) (t : Nat) (info : TransactionInfo K) : Prop :=
  s.manager.transactions[t]? = some info ∧ info.state = .active ∧ t ∉ s.takenBack

structure ConflictInv (s : System K) : Prop where
  remembered : ∀ t info, s.MayCommit t info →
    ∀ c ∈ s.commits, info.startEpoch < c.epoch → Remembered s.manager c
  entered : ∀ t, s.lock = .entered t → t ∉ s.takenBack
  compatible : ∀ a ∈ s.commits, ∀ b ∈ s.commits, a ≠ b → a.Overlaps b → a.info.Compatible b.info

theorem ConflictInv.init : ConflictInv ({} : System K) where
  remembered := nofun
  entered := nofun
  compatible := nofun

/-- The history of commits is what the table says while it says it: a transaction that
    is committing or committed there has its commit, with the claims it holds. -/
def Recorded (s : System K) : Prop :=
  ∀ (t : Nat) (info : TransactionInfo K), s.manager.transactions[t]? = some info →
    info.state = .committing ∨ info.state = .committed →
    ∃ c ∈ s.commits, c.transactionId = t ∧ c.info.SameClaims info

theorem Recorded.of_commits (h : Recorded s) (hcommits : s'.commits = s.commits)
    (htable : ∀ (t : Nat) (info : TransactionInfo K), s'.manager.transactions[t]? = some info →
      info.state = .committing ∨ info.state = .committed →
      s.manager.transactions[t]? = some info) : Recorded s' := by
  intro t info hinfo hstate
  rw [hcommits]
  exact h t info (htable t info hinfo hstate) hstate

/-- The oldest active snapshot is at or below every active one. -/
theorem minActiveStart_le {t : Nat}
    (hinfo : m.transactions[t]? = some info) (hactive : info.state = .active) :
    ∃ minStart, m.minActiveStart = some minStart ∧ minStart ≤ info.startEpoch := by
  have hmem : info.startEpoch ∈ (m.transactions.toList.filter
      fun entry => entry.2.state = .active).map fun entry => entry.2.startEpoch := by
    refine mem_map.mpr ⟨(t, info), mem_filter.mpr ⟨?_, by simpa using hactive⟩, rfl⟩
    exact Std.ExtTreeMap.mem_toList_iff_getElem?_eq_some.mpr hinfo
  unfold minActiveStart
  cases hmin : ((m.transactions.toList.filter
      fun entry => entry.2.state = .active).map fun entry => entry.2.startEpoch).min? with
  | none =>
    rw [min?_eq_none_iff] at hmin
    rw [hmin] at hmem
    cases hmem
  | some minStart => exact ⟨minStart, rfl, (min?_eq_some_iff.mp hmin).2 _ hmem⟩

section

variable (h : ConflictInv s)
include h

namespace ConflictInv

/-- An effect that keeps the commits, and lets no transaction that may commit lose
    one. -/
theorem of_commits (hcommits : s'.commits = s.commits)
    (hentered : ∀ t, s'.lock = .entered t → t ∉ s'.takenBack)
    (hmay : ∀ t info, s'.MayCommit t info →
      ∃ info', s.MayCommit t info' ∧ info'.startEpoch = info.startEpoch)
    (hremembered : ∀ c ∈ s.commits, Remembered s.manager c → Remembered s'.manager c) :
    ConflictInv s' where
  remembered := by
    rw [hcommits]
    intro t info ht c hc hlt
    obtain ⟨info', ht', hstart⟩ := hmay t info ht
    exact hremembered c hc (h.remembered t info' ht' c hc (hstart ▸ hlt))
  entered := hentered
  compatible := by
    rw [hcommits]
    exact h.compatible

/-- An effect that leaves both tables and the commits. -/
theorem of_tables (hcommits : s'.commits = s.commits)
    (htaken : s'.takenBack = s.takenBack)
    (htransactions : s'.manager.transactions = s.manager.transactions)
    (hcommitted : s'.manager.committedEpochs = s.manager.committedEpochs)
    (hlock : ∀ t, s'.lock = .entered t → s.lock = .entered t ∨ t ∉ s.takenBack) :
    ConflictInv s' := by
  refine h.of_commits hcommits ?_ ?_ ?_
  · rw [htaken]
    intro t ht
    rcases hlock t ht with hold | hnew
    · exact h.entered t hold
    · exact hnew
  · intro t info ht
    rw [MayCommit, htransactions, htaken] at ht
    exact ⟨info, ht, rfl⟩
  · intro c _ hc
    rw [Remembered, htransactions, hcommitted]
    exact hc

/-- A change of the table away from every commit's transaction. -/
theorem of_manager (hmay : ∀ t info, System.MayCommit { s with manager := m } t info →
      ∃ info', s.MayCommit t info' ∧ info'.startEpoch = info.startEpoch)
    (hcommitted : m.committedEpochs = s.manager.committedEpochs) (hother : ∀ c ∈ s.commits,
      m.transactions[c.transactionId]? = s.manager.transactions[c.transactionId]?) :
    ConflictInv { s with manager := m } := by
  refine h.of_commits ?_ h.entered hmay ?_
  · rfl
  · intro c hc hremembered
    rw [Remembered, hother c hc, hcommitted]
    exact hremembered

theorem orderedRan : ConflictInv (s.ranOrdered commit) := by
  constructor
  case remembered =>
    intro t info hmay
    exact forall_mem_map.mpr fun d hd => by split <;> exact h.remembered t info hmay d hd
  case entered => exact h.entered
  case compatible =>
    refine forall_mem_map.mpr fun d hd => forall_mem_map.mpr fun e he hne => ?_
    have hde : d ≠ e := by
      rintro rfl
      exact hne rfl
    split <;> split <;> exact h.compatible d hd e he hde

variable (hc : CommitInv s)
include hc

theorem claimed (hedit : EditsClaims s.manager m) : ConflictInv { s with manager := m } := by
  obtain ⟨t, info, info', ht, hactive, hsame, rfl⟩ := hedit
  refine h.of_manager ?_ rfl ?_
  · rintro u found ⟨hfound, hstate, htaken⟩
    rw [lookup_setInfo] at hfound
    split at hfound
    next heq =>
      cases hfound
      subst heq
      exact ⟨info, ⟨ht, hactive, htaken⟩, hsame.2.1.symm⟩
    · exact ⟨found, ⟨hfound, hstate, htaken⟩, rfl⟩
  · intro c hmem
    rw [lookup_setInfo, if_neg (hc.ne_of_active hmem ht hactive)]

/-- A transaction that begins reads at the published epoch: the commits above it are
    still committing, so the tables hold them. -/
theorem began (isolationLevel : IsolationLevel) (isPrivate : Bool) :
    ConflictInv { s with manager := (s.manager.register isolationLevel isPrivate).2 } := by
  have hkeep : ∀ c ∈ s.commits, Remembered s.manager c →
      Remembered (s.manager.register isolationLevel isPrivate).2 c := by
    rintro c hmem ⟨info, hinfo, hclaims, hepoch⟩
    refine ⟨info, ?_, hclaims, hepoch⟩
    rw [lookup_register, if_neg ((hc.id_lt c hmem).ne)]
    exact hinfo
  refine { h with remembered := ?_ }
  rintro t info ⟨hinfo, hstate, htaken⟩ c hmem hlt
  rw [lookup_register] at hinfo
  split at hinfo
  · cases hinfo
    exact hkeep c hmem (hc.pending c hmem hlt).remembered
  · exact hkeep c hmem (h.remembered t info ⟨hinfo, hstate, htaken⟩ c hmem hlt)

theorem aborted {t : Nat} (leaves : Bool)
    (hinfo : s.manager.transactions[t]? = some info) (hactive : info.state = .active) :
    ConflictInv { s with manager := s.manager.endAborted t info leaves } := by
  refine h.of_manager ?_ rfl ?_
  · rintro u found ⟨hfound, hstate, htaken⟩
    rw [lookup_endAborted] at hfound
    split at hfound
    · cases leaves <;> cases hfound
      cases hstate
    · exact ⟨found, ⟨hfound, hstate, htaken⟩, rfl⟩
  · intro c hmem
    rw [lookup_endAborted, if_neg (hc.ne_of_active hmem hinfo hactive)]

/-- `gc` keeps a commit above the snapshot of an active transaction. -/
theorem collected : ConflictInv { s with manager := s.manager.gc.2 } := by
  refine { h with remembered := ?_ }
  rintro t info ⟨hinfo, hstate, htaken⟩ c hmem hlt
  have hinfo' : s.manager.transactions[t]? = some info := by
    rw [lookup_gc.1] at hinfo
    exact (filter_eq_some_iff.mp hinfo).1
  obtain ⟨found, hfound, hclaims, hepoch⟩ :=
    h.remembered t info ⟨hinfo', hstate, htaken⟩ c hmem hlt
  have hkept : s.manager.isCollectable c.transactionId found = false := by
    rcases lt_or_ge s.manager.publishedEpoch c.epoch with hpending | hsettled
    · obtain ⟨found', hfound', hcommitting, -⟩ := hc.pending c hmem hpending
      rw [hfound] at hfound'
      cases hfound'
      exact isCollectable_of_open (by rw [hcommitting]; rfl)
    · obtain ⟨minStart, hmin, hle⟩ := minActiveStart_le hinfo' hstate
      simp only [isCollectable, hc.settled c hmem hsettled found hfound, hmin, hepoch,
        any_some, decide_eq_false_iff_not, not_lt]
      omega
  refine ⟨found, ?_, hclaims, ?_⟩
  · rw [lookup_gc.1, hfound]
    simp [filter, hkept]
  · rw [lookup_gc.2, hfound]
    simp [hkept, hepoch]

/-- A commit taken back is one fewer, and its transaction does not commit any more. -/
theorem takenBack (hlock : s.lock = .committing commit) :
    ConflictInv (s.tookBack commit) := by
  constructor
  case remembered =>
    rintro t info ⟨hinfo, hstate, htaken⟩ c hcmem hlt
    rw [mem_cons, not_or] at htaken
    obtain ⟨hcmem, hne⟩ := mem_filter.mp hcmem
    have hother : c.transactionId ≠ commit.transactionId := by
      rw [ne_eq, hc.handle_iff (mem_handles_of_lock hlock) hcmem]
      simpa using hne
    rw [lookup_takeBack, if_neg htaken.1] at hinfo
    have hepochs : (s.manager.takeBack commit).committedEpochs[c.transactionId]? =
        s.manager.committedEpochs[c.transactionId]? :=
      (lookup_erase commit.transactionId c.transactionId).trans (if_neg hother)
    rw [Remembered, lookup_takeBack, if_neg hother, hepochs]
    exact h.remembered t info ⟨hinfo, hstate, htaken.2⟩ c hcmem hlt
  case entered => exact nofun
  case compatible =>
    intro a ha b hb
    exact h.compatible a (mem_filter.mp ha).1 b (mem_filter.mp hb).1

/-- A publication takes a transaction out of the table only when no other is open. -/
theorem published (hturn : s.turn = some (commit, .released)) :
    ConflictInv { s with
      manager := s.manager.publish commit
      turn := some (commit, .published) } := by
  obtain ⟨info₀, hinfo₀, hstate₀⟩ := hc.handle_info (mem_handles_of_turn hturn (by decide))
  have hlookup := fun k => lookup_publish (k := k) hinfo₀
  refine { h with remembered := ?_ }
  rintro t info ⟨hinfo, hstate, htaken⟩ c hcmem hlt
  have hne : t ≠ commit.transactionId := by
    rintro rfl
    rw [(hlookup _).1, if_pos rfl] at hinfo
    split at hinfo <;> cases hinfo
    cases hstate
  rw [(hlookup t).1, if_neg hne] at hinfo
  have hstays : s.manager.leavesAtPublish info₀ = false := by
    cases hleaves : s.manager.leavesAtPublish info₀ with
    | false => rfl
    | true =>
      simp only [leavesAtPublish, Bool.and_eq_true, decide_eq_true_eq] at hleaves
      exact absurd (hc.table.only_open hinfo (hleaves.2.le) hinfo₀
        (by rw [hstate]; rfl) (by rw [hstate₀]; rfl)) hne
  obtain ⟨found, hfound, hclaims, hepoch⟩ :=
    h.remembered t info ⟨hinfo, hstate, htaken⟩ c hcmem hlt
  rw [Remembered, (hlookup c.transactionId).1, (hlookup c.transactionId).2, hstays]
  by_cases hself : c.transactionId = commit.transactionId
  · rw [hself, hinfo₀] at hfound
    cases hfound
    exact ⟨_, if_pos hself, hclaims, by simpa using hepoch⟩
  · exact ⟨found, (if_neg hself).trans hfound, hclaims, by simpa using hepoch⟩

variable [DecidableEq K] [ToString K]

/-- The one effect that adds a commit: what the scan saw is all there is to see. -/
theorem epochTaken {t now : Nat}
    (hlock : s.lock = .entered t) (hinfo : s.manager.transactions[t]? = some info)
    (hepoch : s.manager.takeEpoch t now = .ok (commit, m)) :
    ConflictInv { s with
      manager := m
      lock := .committing commit
      commits := { transactionId := t, epoch := commit.epoch, info } :: s.commits } := by
  obtain ⟨ours, hours, hfound, hactive, -, hnew, rfl⟩ := takeEpoch_eq_ok hepoch
  rw [hinfo] at hfound
  cases hfound
  have hother : ∀ c ∈ s.commits, c.transactionId ≠ t := fun c hmem =>
    hc.ne_of_active hmem hinfo hactive
  have hscan : ∀ c ∈ s.commits, info.startEpoch < c.epoch → info.Compatible c.info := by
    intro c hmem hlt
    obtain ⟨found, hfound, ⟨-, hw, hd, he, hk⟩, hcommitted⟩ :=
      h.remembered t info ⟨hinfo, hactive, h.entered t hlock⟩ c hmem hlt
    have hcompat := validateCommit_compatible hours
      (hlt.trans_le (hc.epoch_le c hmem))
      (mem_committedSince hfound hcommitted (hother c hmem) hlt)
    exact ⟨hw ▸ hcompat.writes, hk ▸ hcompat.keys, hd ▸ hcompat.endpoints, he ▸ hcompat.deletes⟩
  constructor
  case remembered =>
    rintro u found ⟨hfound, hstate, htaken⟩ c hmem hlt
    simp only [lookup_insert] at hfound
    split at hfound
    · cases hfound
      cases hstate
    rcases mem_cons.mp hmem with rfl | hmem
    · refine ⟨{ info with state := .committing }, (lookup_insert t t _).trans (if_pos rfl),
        ⟨rfl, rfl, rfl, rfl, rfl⟩, ?_⟩
      rw [hnew]
      exact (lookup_insert t t _).trans (if_pos rfl)
    · simp only [Remembered, lookup_insert, if_neg (hother c hmem)]
      exact h.remembered u found ⟨hfound, hstate, htaken⟩ c hmem hlt
  case entered => exact nofun
  case compatible =>
    intro a ha b hb hne hover
    rcases mem_cons.mp ha with rfl | ha <;> rcases mem_cons.mp hb with rfl | hb
    · exact absurd rfl hne
    · exact hscan b hb hover.1
    · exact (hscan a ha hover.2).symm
    · exact h.compatible a ha b hb hne hover

theorem effect (he : Effect s s') : ConflictInv s' := by
  cases he with
  | claimed hedit => exact h.claimed hc hedit
  | began isolationLevel isPrivate => exact h.began hc isolationLevel isPrivate
  | entered t hfree htaken =>
    refine h.of_tables rfl rfl rfl rfl fun u hu => .inr ?_
    cases hu
    exact htaken
  | refused | guardDropped | held | unheld =>
    exact h.of_tables rfl rfl rfl rfl nofun
  | epochTaken t now info commit m hlock hinfo hepoch => exact h.epochTaken hc hlock hinfo hepoch
  | takenBack commit hlock => exact h.takenBack hc hlock
  | written commit lock hlock hafter =>
    refine h.of_tables rfl rfl rfl rfl fun u hu => ?_
    rcases hafter with rfl | rfl <;> cases hu
  | writtenDropped | gaveUp | timed | failedDropped =>
    exact h.of_tables rfl rfl rfl rfl fun u hu => .inl (unlock_eq hu nofun)
  | orderedRan commit => exact h.orderedRan
  | published commit hturn => exact h.published hc hturn
  | aborted t info leaves hinfo hactive => exact h.aborted hc leaves hinfo hactive
  | collected => exact h.collected hc
  | _ => exact h.of_tables rfl rfl rfl rfl fun u hu => .inl hu

end ConflictInv

end

section Run

variable [DecidableEq K] [ToString K]

theorem Recorded.effect (h : Recorded s) (hc : CommitInv s) (he : Effect s s') : Recorded s' := by
  cases he with
  | claimed hedit =>
    obtain ⟨u, old, new, hu, hactive, hsame, rfl⟩ := hedit
    refine h.of_commits rfl fun t info hinfo hstate => ?_
    rw [lookup_setInfo] at hinfo
    split at hinfo
    · cases hinfo
      rw [hsame.1, hactive] at hstate
      rcases hstate with hstate | hstate <;> cases hstate
    · exact hinfo
  | began isolationLevel isPrivate =>
    refine h.of_commits rfl fun t info hinfo hstate => ?_
    rw [lookup_register] at hinfo
    split at hinfo
    · cases hinfo
      rcases hstate with hstate | hstate <;> cases hstate
    · exact hinfo
  | epochTaken u now old commit m hlock hold hepoch =>
    obtain ⟨ours, -, hfound, -, -, -, rfl⟩ := takeEpoch_eq_ok hepoch
    rw [hold] at hfound
    cases hfound
    intro t info hinfo hstate
    simp only [lookup_insert] at hinfo
    split at hinfo
    next ht =>
      cases hinfo
      exact ⟨_, mem_cons_self, ht.symm, ⟨rfl, rfl, rfl, rfl, rfl⟩⟩
    · obtain ⟨c, hmem, hid, hclaims⟩ := h t info hinfo hstate
      exact ⟨c, mem_cons_of_mem _ hmem, hid, hclaims⟩
  | takenBack commit hlock =>
    intro t info hinfo hstate
    rw [lookup_takeBack] at hinfo
    split at hinfo
    · obtain ⟨old, -, rfl⟩ := map_eq_some_iff.mp hinfo
      rcases hstate with hstate | hstate <;> cases hstate
    rename_i hne
    obtain ⟨c, hcmem, hid, hclaims⟩ := h t info hinfo hstate
    refine ⟨c, mem_filter.mpr ⟨hcmem, ?_⟩, hid, hclaims⟩
    -- Another transaction's commit has another epoch.
    rw [decide_eq_true_eq, ne_eq, ← hc.handle_iff (mem_handles_of_lock hlock) hcmem, hid]
    exact hne
  | orderedRan commit hturn =>
    intro t info hinfo hstate
    obtain ⟨c, hmem, hid, hclaims⟩ := h t info hinfo hstate
    obtain ⟨c', hmem', hid', -, hinfo'⟩ := mem_markOrdered_of_mem commit.epoch hmem
    exact ⟨c', hmem', hid'.trans hid, hinfo' ▸ hclaims⟩
  | published commit hturn =>
    obtain ⟨c₀, hc₀, hid₀, -, info₀, hinfo₀, -, hclaims₀, -⟩ :=
      hc.handle_known (mem_handles_of_turn hturn (by decide))
    rw [hid₀] at hinfo₀
    intro t info hinfo hstate
    rw [(lookup_publish hinfo₀).1] at hinfo
    split at hinfo
    next heq =>
      split at hinfo <;> cases hinfo
      exact ⟨c₀, hc₀, hid₀.trans heq.symm, hclaims₀⟩
    · exact h t info hinfo hstate
  | aborted u old leaves hold hactive =>
    refine h.of_commits rfl fun t info hinfo hstate => ?_
    rw [lookup_endAborted] at hinfo
    split at hinfo
    · cases leaves <;> cases hinfo
      rcases hstate with hstate | hstate <;> cases hstate
    · exact hinfo
  | collected =>
    refine h.of_commits rfl fun t info hinfo _ => ?_
    rw [lookup_gc.1] at hinfo
    exact (filter_eq_some_iff.mp hinfo).1
  | _ => exact h

/-- The invariants of the manager's transactions, after every run. -/
theorem invariants_run {ops : List (Op K)} (hrun : run System.step {} ops = some s) :
    CommitInv s ∧ ConflictInv s ∧ Recorded s := by
  refine (run_effects hrun).invariant (fun r => CommitInv r ∧ ConflictInv r ∧ Recorded r) ?_
    ⟨CommitInv.init, ConflictInv.init, nofun⟩
  rintro r r' ⟨hcommit, hconflict, hrecorded⟩ heffect
  exact ⟨hcommit.effect heffect, hconflict.effect hcommit heffect, hrecorded.effect hcommit heffect⟩

end Run

end System

/-- **No two overlapping transactions commit the same write or the same key.** After
    every interleaving of begins, claims, savepoints, commits, publications, commits taken
    back and then aborted, aborts and collections: two transactions that committed, each
    of which began below the other's commit epoch, held no common entity in their write
    sets and no common key when they committed. -/
theorem first_committer_wins [DecidableEq K] [ToString K] {ops : List (Op K)} {s : System K}
    (hrun : run System.step {} ops = some s) {a b : Commit K} (ha : a ∈ s.commits)
    (hb : b ∈ s.commits) (hne : a.transactionId ≠ b.transactionId) (hover : a.Overlaps b) :
    (∀ e ∈ a.info.writeSet, e ∉ b.info.writeSet) ∧ ∀ k ∈ a.info.keySet, k ∉ b.info.keySet := by
  obtain ⟨-, hconflict, -⟩ := invariants_run hrun
  have hab : a ≠ b := by
    rintro rfl
    exact hne rfl
  have hcompatible := hconflict.compatible a ha b hb hab hover
  exact ⟨hcompatible.writes, hcompatible.keys⟩

/-- Two transactions that overlap and write different nodes and different keys. -/
def disjointWriters : List (Op Nat) :=
  [.beginWithIsolation .snapshotIsolation, .beginPrivate,
    .recordClaims 2 .write [{ entity := .node 0 }], .recordKey 2 7,
    .recordClaims 3 .delete [{ entity := .node 1 }], .recordKey 3 8,
    .enterCommit 2 false, .takeEpoch 0, .completeHeld, .takeTurn 2, .orderedDone true,
    .publish, .recordTime, .enterCommit 3 false, .takeEpoch 0]

/-- Both commit, and what they wrote is disjoint. -/
theorem first_committer_wins_disjointWriters : ∃ (s : System Nat) (a b : Commit Nat),
      run System.step {} disjointWriters = some s ∧ s.commits = [b, a] ∧ a.Overlaps b ∧
      a.info.writeSet = [{ entity := .node 0 }] ∧ b.info.writeSet = [{ entity := .node 1 }] ∧
      ∀ k ∈ a.info.keySet, k ∉ b.info.keySet := by
  let s : System Nat := (run step {} disjointWriters).getD {}
  have hs : run step {} disjointWriters = some s := rfl
  let a : Commit Nat := { transactionId := 2, epoch := 1, ordered := true, info :=
    { isolationLevel := .snapshotIsolation, startEpoch := 0, isPrivate := false,
      writeSet := [{ entity := .node 0 }], keySet := [7] } }
  let b : Commit Nat := { transactionId := 3, epoch := 2, info :=
    { isolationLevel := .snapshotIsolation, startEpoch := 0, isPrivate := true,
      writeSet := [{ entity := .node 1 }], deleteSet := [{ entity := .node 1 }],
      keySet := [8] } }
  have hcommits : s.commits = [b, a] := by decide +kernel
  have ha : a ∈ s.commits := by rw [hcommits]; exact mem_cons_of_mem _ mem_cons_self
  have hb : b ∈ s.commits := by rw [hcommits]; exact mem_cons_self
  have hover : a.Overlaps b := ⟨by decide, by decide⟩
  exact ⟨s, a, b, hs, hcommits, hover, rfl, rfl,
    (first_committer_wins hs ha hb (by decide) hover).2⟩

end Grafeo.Transaction
