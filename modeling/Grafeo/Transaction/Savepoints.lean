import Grafeo.Transaction.Commits

/-!
# Grafeo.Transaction.Savepoints

Savepoints of a transaction's **claims**: `mark_claims` remembers how long the log of
claims is, and `restore_claims` takes the claims logged after a mark back.

The log holds only the claims that were new when they were made, and only those made
since the first mark. `Logs` says what that is worth: taking the logged claims back,
the newest first, gives the sets as they were. Savepoints nest, so the marks that can
still be restored are a stack, which `Savepointed` keeps beside the system; a restore
drops the marks made after the one it restores and keeps the others.

The savepoints of one transaction **among all the calls of the system**: whatever the
other transactions, commits, collections and readers do in between, the claims and the
claim log of a transaction that is open change only by its own claims, marks and
restores (`KeepsClaims.step`).

`Savepointed` keeps, beside the system, the savepoints of the transaction that can still
be restored. Restores nest: a mark is restored only while it is among them.
-/

namespace Grafeo.Transaction

open Lib TransactionManager List Option System Nat

variable {K : Type} {claim : ClaimUndo K} {more : List (ClaimUndo K)} {log : List (ClaimUndo K)}
  {other : ClaimUndo K}

/-! ### The sets of claims -/

/-- The sets a rollback to a savepoint restores. -/
structure ClaimSets (K : Type) where
  writeSet : List GraphEntity
  deleteSet : List GraphEntity
  endpointSet : List GraphEntity
  keySet : List K
deriving DecidableEq

def TransactionInfo.claims (info : TransactionInfo K) : ClaimSets K :=
  { writeSet := info.writeSet, deleteSet := info.deleteSet,
    endpointSet := info.endpointSet, keySet := info.keySet }

namespace ClaimSets

/-- Whether the claim that `undo` takes back is made. -/
def Holds (sets : ClaimSets K) : ClaimUndo K → Prop
  | .write entity => entity ∈ sets.writeSet
  | .delete entity => entity ∈ sets.deleteSet
  | .endpoint entity => entity ∈ sets.endpointSet
  | .key key => key ∈ sets.keySet

variable [DecidableEq K] {sets : ClaimSets K}

/-- Takes one claim back. -/
def undo (sets : ClaimSets K) : ClaimUndo K → ClaimSets K
  | .write entity => { sets with writeSet := sets.writeSet.filter (· ≠ entity) }
  | .delete entity => { sets with deleteSet := sets.deleteSet.filter (· ≠ entity) }
  | .endpoint entity => { sets with endpointSet := sets.endpointSet.filter (· ≠ entity) }
  | .key key => { sets with keySet := sets.keySet.filter (· ≠ key) }

/-- Makes the claim that `undo` takes back. -/
def insert (sets : ClaimSets K) : ClaimUndo K → ClaimSets K
  | .write entity => { sets with writeSet := sets.writeSet.insert entity }
  | .delete entity => { sets with deleteSet := sets.deleteSet.insert entity }
  | .endpoint entity => { sets with endpointSet := sets.endpointSet.insert entity }
  | .key key => { sets with keySet := sets.keySet.insert key }

/-- Takes a log of claims back, the newest first. -/
def rewind (sets : ClaimSets K) (log : List (ClaimUndo K)) : ClaimSets K :=
  log.foldr (fun claim sets => sets.undo claim) sets

theorem rewind_append (sets : ClaimSets K) (older newer : List (ClaimUndo K)) :
    sets.rewind (older ++ newer) = (sets.rewind newer).rewind older :=
  foldr_append

/-- A set that took a new element and gave it back is the set it was. -/
theorem filter_ne_insert {α : Type} [DecidableEq α] {a : α} {set : List α} (h : a ∉ set) :
    (set.insert a).filter (fun b => decide (b ≠ a)) = set := by
  rw [insert_of_not_mem h, filter_cons_of_neg (by simp)]
  refine filter_eq_self.mpr fun b hb => ?_
  simpa using fun heq : b = a => h (heq ▸ hb)

theorem undo_insert (h : ¬ sets.Holds claim) : (sets.insert claim).undo claim = sets := by
  cases claim <;> simp only [insert, undo] <;> rw [filter_ne_insert h]

theorem insert_of_holds (h : sets.Holds claim) : sets.insert claim = sets := by
  cases claim <;> simp only [insert] <;> rw [insert_of_mem h]

theorem holds_insert (claim : ClaimUndo K)
    (h : sets.Holds other) : (sets.insert claim).Holds other := by
  cases claim <;> cases other <;> simp_all [insert, Holds]

theorem holds_undo {claim other : ClaimUndo K} (hne : other ≠ claim)
    (h : sets.Holds other) : (sets.undo claim).Holds other := by
  cases claim <;> cases other <;> simp_all [undo, Holds]

theorem holds_rewind (hlog : other ∉ log) (h : sets.Holds other) : (sets.rewind log).Holds other := by
  induction log with
  | nil => exact h
  | cons claim log ih =>
    obtain ⟨hne, htail⟩ := ne_and_not_mem_of_not_mem_cons hlog
    exact holds_undo hne (ih htail)

end ClaimSets

namespace TransactionInfo

/-! ### What a claim logs -/

/-- `info` becomes `after` by claims, of which `more` were new: they are logged where a
    savepoint asked for the log, and taking them back gives the sets as they were. -/
structure Logs [DecidableEq K] (info after : TransactionInfo K) (more : List (ClaimUndo K)) :
    Prop where
  undo : after.claimUndo = info.claimUndo.map (· ++ more)
  back : after.claims.rewind more = info.claims
  keeps : ∀ claim, info.claims.Holds claim → after.claims.Holds claim
  new : ∀ claim ∈ more, ¬ info.claims.Holds claim

section

variable [DecidableEq K] {info after : TransactionInfo K}

theorem Logs.refl (info : TransactionInfo K) : Logs info info [] where
  undo := by cases h : info.claimUndo <;> simp
  back := rfl
  keeps _ h := h
  new := nofun

theorem Logs.trans {last : TransactionInfo K} {more rest : List (ClaimUndo K)}
    (h : Logs info after more) (hrest : Logs after last rest) : Logs info last (more ++ rest) where
  undo := by
    rw [hrest.undo, h.undo]
    cases info.claimUndo <;> simp
  back := by rw [ClaimSets.rewind_append, hrest.back, h.back]
  keeps claim hclaim := hrest.keeps claim (h.keeps claim hclaim)
  new claim hclaim hheld := by
    rcases mem_append.mp hclaim with hmore | hmore
    · exact h.new claim hmore hheld
    · exact hrest.new claim hmore (h.keeps claim hheld)

theorem Logs.foldl {α : Type} {f : TransactionInfo K → α → TransactionInfo K}
    (hf : ∀ info a, ∃ more, Logs info (f info a) more) (info : TransactionInfo K) (as : List α) :
    ∃ more, Logs info (as.foldl f info) more := by
  induction as generalizing info with
  | nil => exact ⟨[], Logs.refl info⟩
  | cons a as ih =>
    obtain ⟨more, hmore⟩ := hf info a
    obtain ⟨rest, hrest⟩ := ih (f info a)
    exact ⟨more ++ rest, hmore.trans hrest⟩

@[simp] theorem logUndo_claims (info : TransactionInfo K) (isNew : Bool) (undo : ClaimUndo K) :
    (info.logUndo isNew undo).claims = info.claims := by
  simp [claims]

/-- One claim: `added` is the transaction with the claim in its set. -/
theorem logs_logUndo {added : TransactionInfo K} {isNew : Bool}
    (hundo : added.claimUndo = info.claimUndo) (hadded : added.claims = info.claims.insert claim)
    (hnew : isNew = true ↔ ¬ info.claims.Holds claim) :
    Logs info (added.logUndo isNew claim) (if isNew then [claim] else []) where
  undo := by cases isNew <;> cases h : info.claimUndo <;> simp [TransactionInfo.logUndo, hundo, h]
  back := by
    rw [logUndo_claims, hadded]
    cases isNew with
    | false => exact ClaimSets.insert_of_holds (by simpa using hnew)
    | true => exact ClaimSets.undo_insert (hnew.mp rfl)
  keeps := by
    rw [logUndo_claims, hadded]
    exact fun other hother => ClaimSets.holds_insert claim hother
  new := by
    cases isNew with
    | false => exact nofun
    | true =>
      intro other hother
      rw [mem_singleton.mp hother]
      exact hnew.mp rfl

theorem claimWrite_logs (info : TransactionInfo K) (entity : GraphEntity) :
    ∃ more, Logs info (info.claimWrite entity) more :=
  ⟨_, logs_logUndo rfl rfl decide_eq_true_iff⟩

theorem claimKey_logs (info : TransactionInfo K) (key : K) :
    ∃ more, Logs info (info.claimKey key) more :=
  ⟨_, logs_logUndo rfl rfl decide_eq_true_iff⟩

theorem addClaim_logs (info : TransactionInfo K) (claim : Claim) (entity : GraphEntity) :
    ∃ more, Logs info (info.addClaim claim entity) more := by
  cases claim with
  | write => exact info.claimWrite_logs entity
  | delete =>
    -- A write and a second entry of the log.
    obtain ⟨more, hwrite⟩ := info.claimWrite_logs entity
    exact ⟨_, hwrite.trans (logs_logUndo rfl rfl decide_eq_true_iff)⟩
  | endpoint => exact ⟨_, logs_logUndo rfl rfl decide_eq_true_iff⟩

/-! ### What a restore takes back -/

theorem claims_foldr_undoClaim (info : TransactionInfo K) (log : List (ClaimUndo K)) :
    (log.foldr (fun claim info => info.undoClaim claim) info).claims = info.claims.rewind log := by
  induction log with
  | nil => rfl
  | cons claim log ih =>
    show _ = (info.claims.rewind log).undo claim
    rw [← ih]
    cases claim <;> rfl

/-- A restore to a mark within the log. -/
theorem restoreClaims_spec {mark : Nat}
    (hlog : info.claimUndo = some log) (hmark : mark ≤ log.length) :
    ∃ restored, info.restoreClaims mark = .ok restored ∧
      restored.claims = info.claims.rewind (log.drop mark) ∧
      restored.claimUndo = some (log.take mark) := by
  simp only [restoreClaims, hlog, hmark, if_true, foldl_reverse]
  exact ⟨_, rfl, info.claims_foldr_undoClaim (log.drop mark), rfl⟩

end

end TransactionInfo

/-! ### Marks that can be restored -/

/-- A savepoint: its mark, and the claims when it was made. -/
structure Savepoint (K : Type) where
  mark : Nat
  claims : ClaimSets K
deriving DecidableEq

namespace TransactionInfo

variable [DecidableEq K] {info after : TransactionInfo K} {marks : List (Savepoint K)}

/-- Every savepoint of `marks`, the newest first, restores the claims it was made at. -/
structure Restorable (info : TransactionInfo K) (marks : List (Savepoint K)) : Prop where
  ordered : marks.Pairwise fun newer older => older.mark ≤ newer.mark
  restores : ∀ point ∈ marks, ∃ log, info.claimUndo = some log ∧ point.mark ≤ log.length ∧
    info.claims.rewind (log.drop point.mark) = point.claims
  unmarked : marks = [] → info.claimUndo = none

section

variable (h : Restorable info marks)
include h

theorem Restorable.congr (hclaims : after.claims = info.claims)
    (hundo : after.claimUndo = info.claimUndo) : Restorable after marks where
  ordered := h.ordered
  restores := by rw [hclaims, hundo]; exact h.restores
  unmarked := by rw [hundo]; exact h.unmarked

/-- Claims made after the marks are at the end of the log, so they are taken back first. -/
theorem Restorable.claimed (hlogs : Logs info after more) : Restorable after marks where
  ordered := h.ordered
  restores point hpoint := by
    obtain ⟨log, hlog, hle, hback⟩ := h.restores point hpoint
    refine ⟨log ++ more, by rw [hlogs.undo, hlog]; rfl, ?_, ?_⟩
    · rw [length_append]
      omega
    · rw [drop_append_of_le_length hle, ClaimSets.rewind_append, hlogs.back, hback]
  unmarked hnil := by
    rw [hlogs.undo, h.unmarked hnil]
    rfl

theorem Restorable.marked :
    Restorable info.markClaims.2 ({ mark := info.markClaims.1, claims := info.claims } :: marks)
    where
  ordered := by
    refine pairwise_cons.mpr ⟨fun point hpoint => ?_, h.ordered⟩
    obtain ⟨log, hlog, hle, -⟩ := h.restores point hpoint
    simpa [markClaims, hlog] using hle
  restores point hpoint := by
    refine ⟨info.claimUndo.getD [], rfl, ?_⟩
    rcases mem_cons.mp hpoint with rfl | hold
    · exact ⟨le_rfl, by simp [markClaims]; rfl⟩
    · obtain ⟨log, hlog, hle, hback⟩ := h.restores point hold
      rw [hlog]
      exact ⟨hle, hback⟩
  unmarked := nofun

/-- **A restore gives the claims of the mark back, and leaves the marks at or before it
    restorable.** -/
theorem Restorable.restored {point : Savepoint K} (hpoint : point ∈ marks) :
    ∃ restored, info.restoreClaims point.mark = .ok restored ∧ restored.claims = point.claims ∧
      Restorable restored (marks.filter fun other => other.mark ≤ point.mark) := by
  obtain ⟨log, hlog, hle, hback⟩ := h.restores point hpoint
  obtain ⟨restored, hok, hclaims, hundo⟩ := restoreClaims_spec hlog hle
  refine ⟨restored, hok, hclaims.trans hback, h.ordered.filter _, ?_, ?_⟩
  · intro other hother
    obtain ⟨hmem, hbefore⟩ := mem_filter.mp hother
    have hbefore : other.mark ≤ point.mark := of_decide_eq_true hbefore
    obtain ⟨found, hfound, -, hother⟩ := h.restores other hmem
    cases hlog.symm.trans hfound
    refine ⟨log.take point.mark, hundo, by rw [length_take]; omega, ?_⟩
    -- The log after `other` is the log between the two marks and then the log after
    -- the mark that is restored.
    have hsplit : log.drop other.mark =
        (log.take point.mark).drop other.mark ++ log.drop point.mark := by
      rw [← drop_append_of_le_length (by rw [length_take]; omega), take_append_drop]
    rw [hclaims, ← ClaimSets.rewind_append, ← hsplit, hother]
  · intro hnil
    have hmem : point ∈ marks.filter fun other => other.mark ≤ point.mark :=
      mem_filter.mpr ⟨hpoint, decide_eq_true le_rfl⟩
    rw [hnil] at hmem
    cases hmem

end

/-! ### Claims made before the first mark -/

/-- The claims of `base` are held and not in the log, so no restore takes them back. -/
structure Protects (info : TransactionInfo K) (base : ClaimSets K) : Prop where
  held : ∀ claim, base.Holds claim → info.claims.Holds claim
  unlogged : ∀ claim, base.Holds claim → ∀ log, info.claimUndo = some log → claim ∉ log

variable {base : ClaimSets K}

theorem protects_self (h : info.claimUndo = none) : Protects info info.claims where
  held _ hclaim := hclaim
  unlogged _ _ log hlog := by rw [h] at hlog; cases hlog

section

variable (h : Protects info base)
include h

theorem Protects.congr (hclaims : after.claims = info.claims)
    (hundo : after.claimUndo = info.claimUndo) : Protects after base where
  held := by rw [hclaims]; exact h.held
  unlogged := by rw [hundo]; exact h.unlogged

/-- What is held is not logged again. -/
theorem Protects.claimed (hlogs : Logs info after more) : Protects after base where
  held claim hclaim := hlogs.keeps claim (h.held claim hclaim)
  unlogged claim hclaim log hlog hmem := by
    rw [hlogs.undo] at hlog
    obtain ⟨older, holder, rfl⟩ := map_eq_some_iff.mp hlog
    rcases mem_append.mp hmem with hold | hnew
    · exact h.unlogged claim hclaim older holder hold
    · exact hlogs.new claim hnew (h.held claim hclaim)

theorem Protects.marked : Protects info.markClaims.2 base where
  held := h.held
  unlogged claim hclaim log hlog hmem := by
    obtain rfl : info.claimUndo.getD [] = log := some.inj hlog
    cases hundo : info.claimUndo with
    | none => rw [hundo] at hmem; cases hmem
    | some older => rw [hundo] at hmem; exact h.unlogged claim hclaim older hundo hmem

theorem Protects.restored {restored : TransactionInfo K} {mark : Nat}
    (hok : info.restoreClaims mark = .ok restored) : Protects restored base := by
  cases hlog : info.claimUndo with
  | none => simp [restoreClaims, hlog] at hok
  | some log =>
    by_cases hmark : mark ≤ log.length
    · obtain ⟨found, hfound, hclaims, hundo⟩ := restoreClaims_spec hlog hmark
      cases hok.symm.trans hfound
      refine ⟨fun claim hclaim => ?_, fun claim hclaim older holder hmem => ?_⟩
      · rw [hclaims]
        refine ClaimSets.holds_rewind (fun hmem => ?_) (h.held claim hclaim)
        exact h.unlogged claim hclaim log hlog (mem_of_mem_drop hmem)
      · obtain rfl : log.take mark = older := some.inj (hundo.symm.trans holder)
        exact h.unlogged claim hclaim log hlog (mem_of_mem_take hmem)
    · simp [restoreClaims, hlog, hmark] at hok

end

end TransactionInfo

variable {K : Type} {info : TransactionInfo K}

/-! ### The other calls leave a transaction's claims alone -/

/-- The transaction whose claims an operation edits. -/
def Op.claimant : Op K → Option Nat
  | .recordClaims t _ _ | .recordKey t _ | .markClaims t | .restoreClaims t _ => some t
  | _ => none

/-- While transaction `t` is open, its claims and its claim log are as they were; one
    that began has no log. -/
structure KeepsClaims (t : Nat) (m m' : TransactionManager K) : Prop where
  next : m.nextTransactionId ≤ m'.nextTransactionId
  kept : ∀ info', m'.transactions[t]? = some info' → info'.state.isOpen = true →
    (m.nextTransactionId ≤ t ∧ info'.claimUndo = none) ∨
    ∃ info, m.transactions[t]? = some info ∧ info.state.isOpen = true ∧
      info'.claims = info.claims ∧ info'.claimUndo = info.claimUndo

namespace KeepsClaims

variable {m m' : TransactionManager K} {t : Nat}

theorem of_eq (hnext : m'.nextTransactionId = m.nextTransactionId)
    (hlookup : m'.transactions[t]? = m.transactions[t]?) : KeepsClaims t m m' where
  next := hnext.symm.le
  kept info' hinfo hopen := .inr ⟨info', hlookup ▸ hinfo, hopen, rfl, rfl⟩

/-- Another transaction's information changes. -/
theorem setInfo {u : Nat} (hne : u ≠ t) (info : TransactionInfo K) :
    KeepsClaims t m (m.setInfo u info) :=
  of_eq rfl (by rw [lookup_setInfo, if_neg (hne.symm)])

/-- Transaction `t` is registered anew, with no log, or is another one. -/
theorem register (isolationLevel : IsolationLevel) (isPrivate : Bool) :
    KeepsClaims t m (m.register isolationLevel isPrivate).2 where
  next := le_succ _
  kept info' hinfo hopen := by
    rw [lookup_register] at hinfo
    split at hinfo
    next heq =>
      cases hinfo
      exact .inl ⟨heq.symm.le, rfl⟩
    · exact .inr ⟨info', hinfo, hopen, rfl, rfl⟩

/-- Transaction `u` is `info` and then `after`: open after it only with what it had. -/
theorem of_change {u : Nat}
    {after : Option (TransactionInfo K)} (hnext : m'.nextTransactionId = m.nextTransactionId)
    (hinfo : m.transactions[u]? = some info)
    (hlookup : m'.transactions[t]? = if t = u then after else m.transactions[t]?)
    (hafter : ∀ info', after = some info' → info'.state.isOpen = true →
      info.state.isOpen = true ∧ info'.claims = info.claims ∧
        info'.claimUndo = info.claimUndo) : KeepsClaims t m m' where
  next := hnext.symm.le
  kept info' hinfo' hopen := by
    rw [hlookup] at hinfo'
    split at hinfo'
    next heq =>
      obtain ⟨hwas, hclaims, hundo⟩ := hafter info' hinfo' hopen
      exact .inr ⟨info, heq ▸ hinfo, hwas, hclaims, hundo⟩
    · exact .inr ⟨info', hinfo', hopen, rfl, rfl⟩

theorem endAborted {u : Nat} (leaves : Bool)
    (hinfo : m.transactions[u]? = some info) : KeepsClaims t m (m.endAborted u info leaves) := by
  refine of_change rfl hinfo (lookup_endAborted info leaves) ?_
  intro info' hafter hopen
  cases leaves with
  | true => cases hafter
  | false => cases hafter; cases hopen

theorem abort (u : Nat) (undone : Bool) : KeepsClaims t m (m.abort u undone).2 := by
  -- A failed undo poisons the manager first, which leaves the table as it is.
  obtain ⟨n, hn, hnext, htable⟩ : ∃ n : TransactionManager K,
      (if undone then m else m.poison) = n ∧ n.nextTransactionId = m.nextTransactionId ∧
        n.transactions = m.transactions := by
    cases undone <;> exact ⟨_, rfl, rfl, rfl⟩
  simp only [TransactionManager.abort, hn]
  cases habort : n.abortRegistered u with
  | error error => exact of_eq hnext (by rw [htable])
  | ok m' =>
    obtain ⟨info, hinfo, -, rfl⟩ := abortRegistered_eq_ok habort
    have hkept := endAborted (t := t) info.isPrivate hinfo
    exact ⟨hnext ▸ hkept.next, by rw [← hnext, ← htable]; exact hkept.kept⟩

theorem abortActive (u : Nat) : KeepsClaims t m (m.abortActive u) := by
  simp only [TransactionManager.abortActive]
  split
  next info hinfo =>
    split
    · refine of_change rfl hinfo (lookup_setInfo _) ?_
      intro info' hafter hopen
      cases hafter
      cases hopen
    · exact of_eq rfl rfl
  · exact of_eq rfl rfl

theorem gc : KeepsClaims t m m.gc.2 where
  next := le_rfl
  kept info' hinfo hopen := by
    rw [lookup_gc.1] at hinfo
    exact .inr ⟨info', (filter_eq_some_iff.mp hinfo).1, hopen, rfl, rfl⟩

theorem takeEpoch [DecidableEq K] [ToString K] {u now : Nat} {commit : Publish}
    (h : m.takeEpoch u now = .ok (commit, m')) : KeepsClaims t m m' := by
  obtain ⟨ours, hours, hinfo, hactive, -, -, rfl⟩ := takeEpoch_eq_ok h
  refine of_change rfl hinfo (lookup_insert u t _) ?_
  intro info' hafter _
  cases hafter
  exact ⟨by rw [hactive]; rfl, rfl, rfl⟩

/-- A commit taken back leaves its transaction as open as it was. -/
theorem takeBack {commit : Publish} (hinfo : m.transactions[commit.transactionId]? = some info)
    (hopen : info.state.isOpen = true) : KeepsClaims t m (m.takeBack commit) := by
  refine of_change rfl hinfo (lookup_takeBack commit) ?_
  intro info' hafter _
  rw [hinfo] at hafter
  cases hafter
  exact ⟨hopen, rfl, rfl⟩

theorem publish (commit : Publish) : KeepsClaims t m (m.publish commit) := by
  cases hinfo : m.transactions[commit.transactionId]? with
  | none => exact of_eq rfl (by simp only [TransactionManager.publish, hinfo])
  | some info =>
    refine of_change rfl hinfo (lookup_publish hinfo).1 ?_
    intro info' hafter hopen
    split at hafter <;> cases hafter
    cases hopen

/-- A read edits the information of its transaction, but not its claims. -/
theorem recordRead {u : Nat} {entity : GraphEntity}
    (h : m.recordRead u entity = .ok m') : KeepsClaims t m m' := by
  simp only [TransactionManager.recordRead, bind_eq_ok, pure_eq_ok] at h
  obtain ⟨info, hinfo, rfl⟩ := h
  obtain ⟨hu, hactive⟩ := activeInfo_eq_ok.mp hinfo
  refine of_change rfl hu (lookup_setInfo _) ?_
  intro info' hafter _
  cases hafter
  exact ⟨by rw [hactive]; rfl, rfl, rfl⟩

variable [DecidableEq K] [ToString K] {s s' : System K} {t : Nat}

theorem unlocked {after : System K} (hkeep : KeepsClaims t s.manager after.manager)
    (h : s.whenUnlocked (some after) = some s') : KeepsClaims t s.manager s'.manager := by
  obtain ⟨-, hact⟩ := whenUnlocked_eq_some h
  cases hact
  exact hkeep

/-- A call that edits the information of another transaction, or fails. -/
theorem attempt {ε : Type} {r : Except ε (TransactionManager K)}
    (h : s.whenUnlocked (some (s.attempt r)) = some s')
    (hkeep : ∀ m, r = .ok m → KeepsClaims t s.manager m) : KeepsClaims t s.manager s'.manager := by
  rcases attempt_cases h with ⟨rfl, -⟩ | ⟨m, hm, rfl⟩
  · exact of_eq rfl rfl
  · exact hkeep _ hm

/-- A call that edits the claims of transaction `u` leaves those of another. -/
theorem claimed {u : Nat} {op : Op K} (hop : op.claimant = some u) (hne : u ≠ t)
    (h : s.step op = some s') : KeepsClaims t s.manager s'.manager := by
  cases op with
  | recordClaims | recordKey =>
    cases hop
    refine attempt h fun m hm => ?_
    simp only [TransactionManager.recordClaims, TransactionManager.recordKey, bind_eq_ok,
      pure_eq_ok] at hm
    obtain ⟨-, -, -, -, info, -, rfl⟩ := hm
    exact setInfo hne _
  | restoreClaims v mark =>
    cases hop
    refine attempt h fun m hm => ?_
    simp only [TransactionManager.restoreClaims, bind_eq_ok, pure_eq_ok] at hm
    obtain ⟨info, -, restored, -, rfl⟩ := hm
    exact setInfo hne _
  | markClaims v =>
    cases hop
    refine attempt h fun m hm => ?_
    obtain ⟨⟨mark, m'⟩, hmark, rfl⟩ := map_eq_ok.mp hm
    simp only [TransactionManager.markClaims, bind_eq_ok, pure_eq_ok, Prod.mk.injEq] at hmark
    obtain ⟨info, -, -, rfl⟩ := hmark
    exact setInfo hne _
  | _ => cases hop

theorem systemTakeEpoch {now : Nat} (h : s.takeEpoch now = some s') :
    KeepsClaims t s.manager s'.manager := by
  simp only [System.takeEpoch] at h
  split at h
  · split at h
    next hepoch _ =>
      cases h
      exact takeEpoch hepoch
    · cases h
      exact of_eq rfl rfl
  · cases h

/-- Only the transaction's own claims, marks and restores change its claims and its log
    while it is open. -/
theorem step {op : Op K} (hc : System.CommitInv s) (hop : op.claimant ≠ some t)
    (h : s.step op = some s') : KeepsClaims t s.manager s'.manager := by
  cases op with
  | recordClaims | recordKey | markClaims | restoreClaims =>
    exact claimed rfl (fun heq => hop (congrArg some heq)) h
  | beginWithIsolation isolationLevel => exact (register isolationLevel false).unlocked h
  | beginPrivate =>
    refine attempt h fun m hm => ?_
    obtain ⟨began, hbegan, rfl⟩ := map_eq_ok.mp hm
    simp only [beginPrivate, bind_eq_ok, pure_eq_ok] at hbegan
    obtain ⟨-, -, rfl⟩ := hbegan
    exact register .snapshotIsolation true
  | recordRead u entity => exact attempt h fun m hm => recordRead hm
  | takeEpoch now => exact systemTakeEpoch (whenUnlocked_eq_some h).2
  | abortCommit =>
    simp only [System.step] at h
    split at h
    next commit hlock =>
      -- The commit lock's handle belongs to a committing transaction.
      obtain ⟨info, hinfo, hstate⟩ := hc.handle_info (mem_handles_of_lock hlock)
      exact (takeBack hinfo (by rw [hstate]; rfl)).unlocked h
    · cases h
  | publish =>
    simp only [System.step] at h
    split at h <;> cases h
    exact publish _
  | abort u undone => exact (abort u undone).unlocked h
  | abortActive u => exact (abortActive u).unlocked h
  | gc => exact gc.unlocked h
  | pinReadAt epoch =>
    simp only [System.step, pinReadAt] at h
    split at h <;> rename_i hpin <;> cases h
    · split at hpin <;> cases hpin
      exact of_eq rfl rfl
    · exact of_eq rfl rfl
  | _ =>
    -- The others leave the table as it is.
    simp only [System.step, System.enterCommit, System.takeTurn, System.orderedDone,
      map_eq_some_iff] at h
    repeat' split at h
    all_goals first
      | (cases h; exact of_eq rfl rfl)
      | (obtain ⟨_, _, rfl⟩ := h; exact of_eq rfl rfl)
      | cases h

end KeepsClaims

/-! ### The savepoints that can be restored -/

/-- The system with the savepoints of one transaction that can still be restored, the
    newest first. -/
structure Savepointed (K : Type) where
  system : System K := {}
  marks : List (Savepoint K) := []

namespace Savepointed

variable [DecidableEq K] [ToString K]

/-- The savepoints of transaction `t` after `op`. A restore of a mark that is not among
    them is not nested (`none`). -/
def marksAfter (t : Nat) (o : Savepointed K) : Op K → Option (List (Savepoint K))
  | .markClaims u =>
      if u = t then
        match o.system.manager.activeInfo t, o.system.manager.markClaims t with
        | .ok info, .ok (mark, _) => some ({ mark, claims := info.claims } :: o.marks)
        | _, _ => some o.marks
      else some o.marks
  | .restoreClaims u mark =>
      if u = t then
        if o.marks.any fun point => point.mark = mark then
          match o.system.manager.restoreClaims t mark with
          | .ok _ => some (o.marks.filter fun point => point.mark ≤ mark)
          | .error _ => some o.marks
        else none
      else some o.marks
  | _ => some o.marks

/-- A step of the system in which the restores of transaction `t` are nested. -/
def step (t : Nat) (o : Savepointed K) (op : Op K) : Option (Savepointed K) := do
  let system ← o.system.step op
  let marks ← o.marksAfter t op
  return { system, marks }

variable {t : Nat} {o o' : Savepointed K} {op : Op K}

theorem step_eq_some (h : step t o op = some o') :
    o.system.step op = some o'.system ∧ o.marksAfter t op = some o'.marks := by
  simp only [step, bind_eq_bind, bind_eq_some_iff, Option.pure_def, some.injEq] at h
  obtain ⟨system, hsystem, marks, hmarks, rfl⟩ := h
  exact ⟨hsystem, hmarks⟩

theorem marksAfter_of_ne (hop : op.claimant ≠ some t) : o.marksAfter t op = some o.marks := by
  cases op with
  | markClaims | restoreClaims => exact if_neg fun heq => hop (congrArg some heq)
  | _ => rfl

/-- The savepoints kept beside the system can be restored while the transaction is open. -/
structure Ok (t : Nat) (o : Savepointed K) : Prop where
  commits : System.CommitInv o.system
  began : o.marks ≠ [] → t < o.system.manager.nextTransactionId
  restorable : ∀ info, o.system.manager.transactions[t]? = some info →
    info.state.isOpen = true → info.Restorable o.marks

/-- Transaction `t` holds the claims of `base` outside its log while it is open. -/
def Guards (t : Nat) (base : ClaimSets K) (o : Savepointed K) : Prop :=
  t < o.system.manager.nextTransactionId ∧ ∀ info, o.system.manager.transactions[t]? = some info →
      info.state.isOpen = true → info.Protects base

/-- One call of transaction `t` that edits its claims: it fails and leaves everything as
    it is, or turns the active `info` into `after`. -/
inductive Edited (t : Nat) (o o' : Savepointed K) : Prop where
  | failed (hsystem : o'.system = o.system) (hmarks : o'.marks = o.marks)
  | claimed (info after : TransactionInfo K) (more : List (ClaimUndo K))
      (hinfo : o.system.manager.transactions[t]? = some info) (hactive : info.state = .active)
      (hafter : o'.system.manager = o.system.manager.setInfo t after)
      (hlogs : info.Logs after more) (hmarks : o'.marks = o.marks)
  | marked (info : TransactionInfo K)
      (hinfo : o.system.manager.transactions[t]? = some info) (hactive : info.state = .active)
      (hafter : o'.system.manager = o.system.manager.setInfo t info.markClaims.2)
      (hmarks : o'.marks = { mark := info.markClaims.1, claims := info.claims } :: o.marks)
  | restored (info after : TransactionInfo K) (point : Savepoint K)
      (hinfo : o.system.manager.transactions[t]? = some info) (hactive : info.state = .active)
      (hpoint : point ∈ o.marks) (hok : info.restoreClaims point.mark = .ok after)
      (hafter : o'.system.manager = o.system.manager.setInfo t after)
      (hmarks : o'.marks = o.marks.filter fun other => other.mark ≤ point.mark)

theorem edited_of_step (hop : op.claimant = some t) (h : step t o op = some o') :
    Edited t o o' := by
  obtain ⟨hsystem, hmarks⟩ := step_eq_some h
  cases op with
  | recordClaims u claim entities =>
    cases hop
    have hmarks : o'.marks = o.marks := (some.inj hmarks).symm
    rcases attempt_cases hsystem with ⟨hsame, -⟩ | ⟨m, hr, hm⟩
    · exact .failed hsame hmarks
    · simp only [recordClaims, bind_eq_ok, pure_eq_ok] at hr
      obtain ⟨-, -, -, -, info, hinfo, rfl⟩ := hr
      obtain ⟨ht, hactive⟩ := activeInfo_eq_ok.mp hinfo
      obtain ⟨more, hlogs⟩ := TransactionInfo.Logs.foldl
        (fun info entity => info.addClaim_logs claim entity) info entities
      exact .claimed info _ more ht hactive hm hlogs hmarks
  | recordKey u key =>
    cases hop
    have hmarks : o'.marks = o.marks := (some.inj hmarks).symm
    rcases attempt_cases hsystem with ⟨hsame, -⟩ | ⟨m, hr, hm⟩
    · exact .failed hsame hmarks
    · simp only [recordKey, bind_eq_ok, pure_eq_ok] at hr
      obtain ⟨-, -, -, -, info, hinfo, rfl⟩ := hr
      obtain ⟨ht, hactive⟩ := activeInfo_eq_ok.mp hinfo
      obtain ⟨more, hlogs⟩ := info.claimKey_logs key
      exact .claimed info _ more ht hactive hm hlogs hmarks
  | markClaims u =>
    cases hop
    obtain ⟨-, hact⟩ := whenUnlocked_eq_some hsystem
    simp only [marksAfter, if_true] at hmarks
    cases hinfo : o.system.manager.activeInfo t with
    | error e =>
      have hr : o.system.manager.markClaims t = .error e := by
        simp only [TransactionManager.markClaims, hinfo]
        rfl
      rw [hr] at hact
      rw [hinfo] at hmarks
      exact .failed (some.inj hact).symm (some.inj hmarks).symm
    | ok info =>
      have hr : o.system.manager.markClaims t =
          .ok (info.markClaims.1, o.system.manager.setInfo t info.markClaims.2) := by
        simp only [TransactionManager.markClaims, hinfo]
        rfl
      rw [hr] at hact
      rw [hinfo, hr] at hmarks
      obtain ⟨ht, hactive⟩ := activeInfo_eq_ok.mp hinfo
      exact .marked info ht hactive (congrArg manager (some.inj hact).symm)
        (some.inj hmarks).symm
  | restoreClaims u mark =>
    cases hop
    simp only [marksAfter, if_true] at hmarks
    split at hmarks
    next hany =>
      obtain ⟨point, hpoint, hmark⟩ := any_eq_true.mp hany
      obtain rfl : point.mark = mark := of_decide_eq_true hmark
      rcases attempt_cases hsystem with ⟨hsame, e, hr⟩ | ⟨m, hr, hm⟩
      · rw [hr] at hmarks
        exact .failed hsame (some.inj hmarks).symm
      · rw [hr] at hmarks
        simp only [restoreClaims, bind_eq_ok, pure_eq_ok] at hr
        obtain ⟨info, hinfo, after, hok, rfl⟩ := hr
        obtain ⟨ht, hactive⟩ := activeInfo_eq_ok.mp hinfo
        exact .restored info after point ht hactive hpoint hok hm (some.inj hmarks).symm
    · cases hmarks
  | _ => cases hop

/-- An edit of transaction `t` alone. -/
theorem Ok.of_edit {after : TransactionInfo K} (hcommits : System.CommitInv o'.system)
    (hafter : o'.system.manager = o.system.manager.setInfo t after)
    (hbegan : t < o.system.manager.nextTransactionId)
    (hrestorable : after.Restorable o'.marks) : Ok t o' where
  commits := hcommits
  began _ := by rw [hafter]; exact hbegan
  restorable found hfound _ := by
    rw [hafter, lookup_setInfo, if_pos rfl] at hfound
    cases hfound
    exact hrestorable

/-- Every step keeps the savepoints restorable. -/
theorem Ok.step (h : Ok t o) (hstep : step t o op = some o') : Ok t o' := by
  obtain ⟨hsystem, hmarks⟩ := step_eq_some hstep
  have hcommits : CommitInv o'.system :=
    (step_effects hsystem).invariant CommitInv (fun _ _ hc he => hc.effect he) h.commits
  by_cases hop : op.claimant = some t
  · cases edited_of_step hop hstep with
    | failed hsame hmarks => exact ⟨hcommits, by rw [hmarks, hsame]; exact h.began,
        by rw [hmarks, hsame]; exact h.restorable⟩
    | claimed info after more hinfo hactive hafter hlogs hmarks =>
      refine Ok.of_edit hcommits hafter (h.commits.table.lt_next hinfo) ?_
      rw [hmarks]
      exact (h.restorable info hinfo (by rw [hactive]; rfl)).claimed hlogs
    | marked info hinfo hactive hafter hmarks =>
      refine Ok.of_edit hcommits hafter (h.commits.table.lt_next hinfo) ?_
      rw [hmarks]
      exact (h.restorable info hinfo (by rw [hactive]; rfl)).marked
    | restored info after point hinfo hactive hpoint hok hafter hmarks =>
      refine Ok.of_edit hcommits hafter (h.commits.table.lt_next hinfo) ?_
      rw [hmarks]
      obtain ⟨found, hfound, -, hrest⟩ :=
        (h.restorable info hinfo (by rw [hactive]; rfl)).restored hpoint
      cases hok.symm.trans hfound
      exact hrest
  · have hsame : o'.marks = o.marks :=
      (some.inj (hmarks.symm.trans (marksAfter_of_ne hop)))
    have hkeeps := KeepsClaims.step h.commits hop hsystem
    refine ⟨hcommits, fun hne => ?_, fun info' hinfo' hopen => ?_⟩
    · exact (h.began (hsame ▸ hne)).trans_le hkeeps.next
    rw [hsame]
    rcases hkeeps.kept info' hinfo' hopen with ⟨hnext, hundo⟩ | ⟨info, hinfo, hwas, hc, hu⟩
    · -- The transaction begins here, so it has no savepoint yet.
      have hnil : o.marks = [] := by
        by_contra hne
        exact not_lt.mpr hnext (h.began hne)
      rw [hnil]
      exact ⟨.nil, nofun, fun _ => hundo⟩
    · exact (h.restorable info hinfo hwas).congr hc hu

/-- Every step leaves the claims outside the log. -/
theorem Guards.step {base : ClaimSets K} (h : Guards t base o) (hok : Ok t o)
    (hstep : Savepointed.step t o op = some o') : Guards t base o' := by
  obtain ⟨hlt, hguards⟩ := h
  have hedit : ∀ {after : TransactionInfo K}, after.Protects base →
      o'.system.manager = o.system.manager.setInfo t after → Guards t base o' := by
    intro after hprotects hafter
    refine ⟨by rw [hafter]; exact hlt, fun found hfound _ => ?_⟩
    rw [hafter, lookup_setInfo, if_pos rfl] at hfound
    cases hfound
    exact hprotects
  by_cases hop : op.claimant = some t
  · cases edited_of_step hop hstep with
    | failed hsame _ => exact ⟨by rw [hsame]; exact hlt, by rw [hsame]; exact hguards⟩
    | claimed info after more hinfo hactive hafter hlogs =>
      have hheld := hguards info hinfo (by rw [hactive]; rfl)
      exact hedit (hheld.claimed hlogs) hafter
    | marked info hinfo hactive hafter =>
      have hheld := hguards info hinfo (by rw [hactive]; rfl)
      exact hedit hheld.marked hafter
    | restored info after point hinfo hactive _ hrestored hafter =>
      have hheld := hguards info hinfo (by rw [hactive]; rfl)
      exact hedit (hheld.restored hrestored) hafter
  · have hkeeps := KeepsClaims.step hok.commits hop (step_eq_some hstep).1
    refine ⟨hlt.trans_le hkeeps.next, fun info' hinfo' hopen => ?_⟩
    rcases hkeeps.kept info' hinfo' hopen with ⟨hnext, -⟩ | ⟨info, hinfo, hwas, hc, hu⟩
    · exact absurd hlt (not_lt.mpr hnext)
    · exact (hguards info hinfo hwas).congr hc hu

/-! ### Runs -/

theorem ok_run {ops : List (Op K)} (hrun : run (Savepointed.step t) {} ops = some o) : Ok t o := by
  refine run_invariant (Ok t) (fun _ _ _ h hstep => h.step hstep) ?_ hrun
  exact ⟨CommitInv.init, fun hne => absurd rfl hne, nofun⟩

theorem guards_run {base : ClaimSets K} {ops : List (Op K)} (hok : Ok t o)
    (h : Guards t base o) (hrun : run (Savepointed.step t) o ops = some o') : Guards t base o' := by
  refine (run_invariant (fun r => Ok t r ∧ Guards t base r) ?_ ⟨hok, h⟩ hrun).2
  exact fun _ _ _ hr hstep => ⟨hr.1.step hstep, hr.2.step hr.1 hstep⟩

end Savepointed

/-- **Savepoints restore the claims exactly.** After every interleaving of claims, marks
    and nested restores of transaction `t` with all the other calls of the system, while
    the transaction is active:

    * a mark that can be restored restores: the restore succeeds, gives the write, delete,
      endpoint and key sets as they were when the mark was made, and leaves the mark and
      every mark made before it restorable;
    * the claims made before the first mark (`first` made none) are still held. -/
theorem savepoints_restore [DecidableEq K] [ToString K] {t : Nat} {first rest : List (Op K)}
    {o₁ o : Savepointed K} (hfirst : run (Savepointed.step t) {} first = some o₁)
    (hrest : run (Savepointed.step t) o₁ rest = some o) {info : TransactionInfo K}
    (hinfo : o.system.manager.transactions[t]? = some info) (hactive : info.state = .active) :
    (∀ newer point older, o.marks = newer ++ point :: older →
      ∃ m restored, o.system.manager.restoreClaims t point.mark = .ok m ∧
        m.transactions[t]? = some restored ∧ restored.claims = point.claims ∧
        (o.system.tableLocked = false →
          ∃ o', Savepointed.step t o (.restoreClaims t point.mark) = some o' ∧
            o'.system.manager = m ∧ (point :: older) <:+ o'.marks)) ∧
    (o₁.marks = [] → ∀ before, o₁.system.manager.transactions[t]? = some before →
      before.state = .active → ∀ claim, before.claims.Holds claim → info.claims.Holds claim) := by
  have hok₁ := Savepointed.ok_run hfirst
  have hok : Savepointed.Ok t o :=
    run_invariant (Savepointed.Ok t) (fun _ _ _ h hstep => h.step hstep) hok₁ hrest
  have hopen : info.state.isOpen = true := by rw [hactive]; rfl
  constructor
  · intro newer point older hmarks
    have hrestorable := hok.restorable info hinfo hopen
    have hpoint : point ∈ o.marks := by rw [hmarks]; simp
    obtain ⟨restored, hrestored, hclaims, -⟩ := hrestorable.restored hpoint
    have hcall : o.system.manager.restoreClaims t point.mark =
        .ok (o.system.manager.setInfo t restored) := by
      simp only [restoreClaims, activeInfo_eq_ok.mpr ⟨hinfo, hactive⟩, bind_eq_ok, pure_eq_ok]
      exact ⟨info, rfl, restored, hrestored, rfl⟩
    refine ⟨_, restored, hcall, by rw [lookup_setInfo, if_pos rfl], hclaims, fun hlock => ?_⟩
    refine ⟨Savepointed.mk { o.system with manager := o.system.manager.setInfo t restored }
      (o.marks.filter fun other => other.mark ≤ point.mark), ?_, rfl, ?_⟩
    · have hany : o.marks.any (fun other => other.mark = point.mark) = true :=
        any_eq_true.mpr ⟨point, hpoint, by simp⟩
      simp [Savepointed.step, step, whenUnlocked, hlock, hcall, attempt,
        Savepointed.marksAfter, hany]
    -- The older marks are at or before the restored one, so the filter keeps them all.
    have hordered := hrestorable.ordered
    rw [hmarks] at hordered ⊢
    have hkept : ∀ other ∈ point :: older, decide (other.mark ≤ point.mark) = true := by
      intro other hother
      rcases mem_cons.mp hother with rfl | hold
      · simp
      · exact decide_eq_true
          ((pairwise_cons.mp (pairwise_append.mp hordered).2.1).1 other hold)
    rw [filter_append, filter_eq_self.mpr hkept]
    exact suffix_append ..
  · intro hnil before hbefore hstate claim hclaim
    have hguards : Savepointed.Guards t before.claims o₁ := by
      refine ⟨hok₁.commits.table.lt_next hbefore, fun found hfound hfoundOpen => ?_⟩
      cases hbefore.symm.trans hfound
      exact TransactionInfo.protects_self ((hok₁.restorable before hbefore hfoundOpen).unmarked hnil)
    exact ((Savepointed.guards_run hok₁ hguards hrest).2 info hinfo hopen).held claim hclaim

/-- A transaction that writes node 0 before its first mark, deletes it after the mark and
    claims a key after a second mark, beside another transaction. -/
def markedWriter : List (Op Nat) :=
  [.beginWithIsolation .snapshotIsolation, .recordClaims 2 .write [{ entity := .node 0 }]]

def markedWriterRest : List (Op Nat) :=
  [.markClaims 2, .beginPrivate, .recordClaims 2 .delete [{ entity := .node 0 }],
    .markClaims 2, .recordKey 2 7, .recordClaims 3 .write [{ entity := .node 1 }],
    .recordClaims 2 .endpoint [{ entity := .node 2 }, { entity := .node 2 }]]

/-- Restoring the first mark takes the delete, the key and the endpoint back, and node 0
    stays written. -/
theorem savepoints_restore_markedWriter :
    ∃ o m restored, run (Savepointed.step 2) {} (markedWriter ++ markedWriterRest) = some o ∧
      o.system.manager.restoreClaims 2 0 = .ok m ∧ m.transactions[2]? = some restored ∧
      restored.claims = ClaimSets.mk [{ entity := .node 0 }] [] [] [] := by
  let sets : ClaimSets Nat := ClaimSets.mk [{ entity := .node 0 }] [] [] []
  let deleted : ClaimSets Nat := { sets with deleteSet := [{ entity := .node 0 }] }
  have hfacts : ((run (Savepointed.step 2) {} markedWriter).bind fun o₁ =>
      (run (Savepointed.step 2) o₁ markedWriterRest).map fun o =>
        (o.system.manager.transactions[2]?.map (·.state), o.marks)) =
      some (some .active, [{ mark := 1, claims := deleted }, { mark := 0, claims := sets }]) := by
    decide +kernel
  obtain ⟨o₁, hfirst, hfacts⟩ := bind_eq_some_iff.mp hfacts
  obtain ⟨o, hrest, hfacts⟩ := map_eq_some_iff.mp hfacts
  obtain ⟨hfound, hmarks⟩ := Prod.mk.inj hfacts
  obtain ⟨info, hinfo, hactive⟩ := map_eq_some_iff.mp hfound
  obtain ⟨hrestore, -⟩ := savepoints_restore hfirst hrest hinfo hactive
  obtain ⟨m, restored, hcall, hfound, hclaims, -⟩ := hrestore [_] _ _ hmarks
  exact ⟨o, m, restored, run_append_eq_some.mpr ⟨o₁, hfirst, hrest⟩, hcall, hfound, hclaims⟩

end Grafeo.Transaction
