import Grafeo.Lib.Ascending
import Grafeo.Transaction.History
import Grafeo.Lib.Transition

/-!
# Grafeo.Transaction.System

The epochs the readers that hold the read horizon back read at, each with how
many such readers (`ReadPins` of `transaction/manager.rs`): open and committing
transactions by their snapshot, reads outside a transaction by the epoch they
pinned.

The abstract model is the **number of live readers of each epoch**, a function.
`Counts pins holders` says that the deque holds it: strictly ascending, with
exactly the epochs that have a reader, each with their number. Every operation of
the deque is one more or one fewer reader of one epoch.

What one transaction **claims** while it runs (`TransactionInfo` of
`transaction/manager.rs`): the entities it writes, the nodes it deletes, the
endpoints of the edges it creates and the values it writes under unique keys,
with the log that takes claims back at a rollback to a savepoint.

The sets of the source are hash sets; here a set is a list without duplicates,
and every fact below is about membership. A scan that reports the first conflict
it finds reports the first in the list's order, where the source reports the
first in its hash order: which one is reported differs, whether one is reported
does not.

Epochs, transaction ids, node ids and edge ids are natural numbers. The manager
is generic in the type `K` of key claims; `KeyClaim V` is the one the source
uses, over its hashable values.

The **transaction manager** (`transaction/manager.rs`): the table of transactions
with their claims, the epochs handed out and published, and the readers that hold
the read horizon back.

Each function below is what one method does while it holds the locks it takes; a
method that lets other threads in between two parts is two functions. Which
interleavings of them the locks allow is said by `step`. Atomic
counters and hash maps are plain fields and ordered maps. `unpublishable_from`,
`u64::MAX` while every commit completed, is `none` there. The change sets, the
write freeze and the idle gate are not part of this model: a method that reports
how a change set's undo went takes the report as an argument.

One transaction manager with **every thread that uses it**: which calls its locks
let run next, and what each does.

A state is the manager with who holds the commit lock, the written commits that
wait for their turn to publish, the commit whose turn it is, and the live read
pins. A step is one atomic part of one call. A call that waits for a lock or for
an epoch is a step that is not possible yet (`none`); a call that fails leaves the
state as it is. So a list of operations whose run exists is one interleaving of
calls, and every interleaving is such a list.

`start_commit` is two steps, because it checks for an incomplete commit before it
takes the table's lock and a written commit of another thread can be dropped in
between. A publication is four: its turn, its ordered step, the release of its
snapshot (which a collect sees before the new epoch) and the rest.

Three rules of the callers are in `step`. `CommitGuard::abort` is followed by the
abort of its transaction, so a commit taken back is not started again.
`sync_epoch` is called only while no commit is in progress; a commit that was left
incomplete stays in progress. A pin is dropped and cloned only while it lives.

`commits` and `incomplete` are history: what was committed and what was left
incomplete, kept beside the manager, which forgets.
-/

namespace Grafeo.Transaction

open Lib List Option

/-- `(epoch, readers)`, ascending. -/
abbrev ReadPins := List (Nat × Nat)

namespace ReadPins

/-- Counts a reader at the published epoch, at the back: it only moves forward. -/
def holdPublished (epochs : ReadPins) (published : Nat) : ReadPins :=
  match epochs.getLast? with
  | some (newest, readers) =>
      if newest = published then epochs.dropLast ++ [(newest, readers + 1)]
      else epochs ++ [(published, 1)]
  | none => epochs ++ [(published, 1)]

/-- Counts a reader at `epoch`, in its place among the readers. -/
def holdAt (epochs : ReadPins) (epoch : Nat) : ReadPins :=
  match search epochs epoch with
  | .ok index => epochs.modify index fun entry => (entry.1, entry.2 + 1)
  | .error index => epochs.insertIdx index (epoch, 1)

/-- Releases one reader at `epoch`. -/
def release (epochs : ReadPins) (epoch : Nat) : ReadPins :=
  match search epochs epoch with
  | .ok index =>
      let counted := epochs.modify index fun entry => (entry.1, entry.2 - 1)
      if (counted[index]?.map Prod.snd) = some 0 then counted.eraseIdx index else counted
  | .error _ => epochs

/-- The oldest epoch a reader reads at. -/
def oldest (epochs : ReadPins) : Option Nat :=
  epochs.head?.map Prod.fst

/-- The deque holds `holders`, the number of live readers of each epoch. -/
def Counts (epochs : ReadPins) (holders : Nat → Nat) : Prop :=
  Ascending epochs ∧
    ∀ epoch, epochs.lookup epoch = if holders epoch = 0 then none else some (holders epoch)

/-- One more reader of `epoch`. -/
def held (holders : Nat → Nat) (epoch : Nat) : Nat → Nat :=
  fun e => if e = epoch then holders e + 1 else holders e

/-- One fewer reader of `epoch`. -/
def released (holders : Nat → Nat) (epoch : Nat) : Nat → Nat :=
  fun e => if e = epoch then holders e - 1 else holders e

variable {epochs : ReadPins} {holders : Nat → Nat} {epoch : Nat}

theorem Counts.nil : Counts [] fun _ => 0 :=
  ⟨ascending_nil, fun _ => rfl⟩

section

variable (h : Counts epochs holders)
include h

theorem Counts.congr {holders' : Nat → Nat}
    (heq : ∀ e, holders' e = holders e) : Counts epochs holders' := by
  rwa [show holders' = holders from funext heq]

theorem Counts.holders_pos {readers : Nat}
    (hl : epochs.lookup epoch = some readers) : 0 < readers ∧ readers = holders epoch := by
  rw [h.2 epoch] at hl
  split at hl <;> cases hl
  omega

/-- An epoch is in the deque when it has a reader. -/
theorem Counts.lookup_of_pos (hpos : 0 < holders epoch) :
    epochs.lookup epoch = some (holders epoch) := by
  rw [h.2 epoch, if_neg (hpos.ne')]

theorem Counts.holdAt : Counts (ReadPins.holdAt epochs epoch) (held holders epoch) := by
  unfold ReadPins.holdAt
  cases hs : search epochs epoch with
  | ok index =>
    obtain ⟨hasc, hlook⟩ := modify_at (· + 1) h.1 hs
    obtain ⟨readers, hfound, -⟩ := lookup_of_search_ok hs
    refine ⟨hasc, fun e => ?_⟩
    obtain ⟨-, hreaders⟩ := h.holders_pos hfound
    rw [hlook e, hfound, held]
    by_cases he : e = epoch
    · simp [he, hreaders]
    · simp [he, h.2 e]
  | error index =>
    obtain ⟨hasc, hlook⟩ := insertIdx_at 1 h.1 hs
    have hmiss := lookup_of_search_error h.1 hs
    have hzero : holders epoch = 0 := by
      by_contra hne
      rw [h.lookup_of_pos (Nat.pos_of_ne_zero hne)] at hmiss
      cases hmiss
    refine ⟨hasc, fun e => ?_⟩
    rw [hlook e, held]
    by_cases he : e = epoch
    · simp [he, hzero]
    · simp [he, h.2 e]

omit h in
/-- Where every counted epoch is at or before the published one, counting at the
    back is counting in place. -/
theorem holdPublished_eq {published : Nat} (hasc : Ascending epochs)
    (hle : ∀ x ∈ epochs, x.1 ≤ published) :
    ReadPins.holdPublished epochs published = ReadPins.holdAt epochs published := by
  unfold ReadPins.holdPublished ReadPins.holdAt
  rcases eq_nil_or_concat epochs with rfl | ⟨front, ⟨newest, readers⟩, rfl⟩
  · rfl
  rw [concat_eq_append] at hasc hle ⊢
  obtain ⟨-, hfront⟩ := pairwise_concat.mp hasc
  rw [getLast?_concat, dropLast_concat]
  dsimp only
  split
  next hnew =>
    subst hnew
    rw [search_split hfront]
    exact (modify_length front [] (newest, readers) fun entry => (entry.1, entry.2 + 1)).symm
  next hnew =>
    have hlt : newest < published := lt_of_le_of_ne (hle (newest, readers) (by simp)) hnew
    rw [search_end (forall_mem_concat.mpr ⟨fun x hx => (hfront x hx).trans hlt, hlt⟩)]
    exact insertIdx_length_self.symm

theorem Counts.holdPublished {published : Nat} (hle : ∀ e, 0 < holders e → e ≤ published) :
    Counts (ReadPins.holdPublished epochs published) (held holders published) := by
  rw [holdPublished_eq h.1 fun x hx => ?_]
  · exact h.holdAt
  · obtain ⟨hpos, heq⟩ := h.holders_pos (lookup_of_mem h.1 hx)
    exact hle x.1 (heq ▸ hpos)

/-- A reader that is counted is released. -/
theorem Counts.release (hpos : 0 < holders epoch) :
    Counts (ReadPins.release epochs epoch) (released holders epoch) := by
  have hfound := h.lookup_of_pos hpos
  obtain ⟨index, hs⟩ := (search_isOk_iff h.1).mpr ⟨_, hfound⟩
  obtain ⟨hasc, hlook⟩ := modify_at (· - 1) h.1 hs
  obtain ⟨pre, readers, post, rfl, hlen, hpre⟩ := search_ok hs
  subst hlen
  have hreaders : readers = holders epoch := by
    rw [lookup_append_of_ne fun x hx => (hpre x hx).ne, lookup_cons_self] at hfound
    exact some_inj.mp hfound
  simp only [ReadPins.release, hs, modify_length] at hasc hlook ⊢
  simp only [getElem?_append_right le_rfl, Nat.sub_self, getElem?_cons_zero, map_some, some.injEq]
  split
  next hlast =>
    obtain ⟨hasc', hlook'⟩ := eraseIdx_at hasc (search_split hpre)
    refine ⟨hasc', fun e => ?_⟩
    rw [hlook' e, hlook e, released, h.2 e]
    by_cases he : e = epoch
    · simp [he, ← hreaders, hlast]
    · simp [he]
  next hmore =>
    refine ⟨hasc, fun e => ?_⟩
    rw [hlook e, released, hfound, h.2 e]
    by_cases he : e = epoch
    · simp [he, ← hreaders, hmore]
    · simp [he]

/-- The oldest epoch is at or before every epoch with a reader. -/
theorem Counts.oldest_le (hpos : 0 < holders epoch) :
    ∃ first, oldest epochs = some first ∧ first ≤ epoch := by
  have hmem := mem_of_lookup (h.lookup_of_pos hpos)
  cases epochs with
  | nil => cases hmem
  | cons x rest =>
    refine ⟨x.1, rfl, ?_⟩
    rcases mem_cons.mp hmem with rfl | hmem
    · exact le_rfl
    · exact ((ascending_cons.mp h.1).1 _ hmem).le

end

end ReadPins

/-- An entity identifier for write tracking. -/
inductive EntityId where
  | node (id : Nat)
  | edge (id : Nat)
deriving DecidableEq, Repr

/-- `NodeId::INVALID` and `EdgeId::INVALID`, which the debug text names. -/
def invalidId : Nat := 2 ^ 64 - 1

/-- The debug text of an identifier of type `name`. -/
def debugId (name : String) (id : Nat) : String :=
  if id = invalidId then s!"{name}(INVALID)" else s!"{name}({id})"

/-- The debug text of an entity. -/
def EntityId.debug : EntityId → String
  | .node id => "Node(" ++ debugId "NodeId" id ++ ")"
  | .edge id => "Edge(" ++ debugId "EdgeId" id ++ ")"

/-- A node or edge of one graph: the unit of conflict detection. `none` is the
    default graph. -/
structure GraphEntity where
  graph : Option String := none
  entity : EntityId
deriving DecidableEq, Repr

/-- The suffix that names a graph other than the default one. -/
def inGraph : Option String → String
  | some graph => s!" in graph '{graph}'"
  | none => ""

instance : ToString GraphEntity where
  toString entity := entity.entity.debug ++ inGraph entity.graph

/-- A value written under a UNIQUE, PRIMARY KEY or NODE KEY constraint. -/
structure KeyClaim (V : Type) where
  graph : Option String
  label : String
  properties : List String
  values : List V
deriving DecidableEq, Repr

instance {V : Type} [ToString V] : ToString (KeyClaim V) where
  toString key :=
    let shown := (key.properties.zip key.values).map fun (property, value) =>
      s!"{property} = {value}"
    s!":{key.label}(" ++ ", ".intercalate shown ++ ")" ++ inGraph key.graph

inductive TransactionState where
  | active
  | committing
  | committed
  | aborted
deriving DecidableEq, Repr

/-- A transaction that is counted as open: active, or committing until its epoch
    is published. -/
def TransactionState.isOpen : TransactionState → Bool
  | .active | .committing => true
  | .committed | .aborted => false

inductive IsolationLevel where
  | readCommitted
  | snapshotIsolation
  | serializable
deriving DecidableEq, Repr

inductive TransactionError where
  | writeConflict (message : String)
  | serializationFailure (message : String)
  | invalidState (message : String)
  | databaseClosed
  | incompleteCommit
deriving DecidableEq, Repr

/-- How a transaction claims an entity for conflict detection. -/
inductive Claim where
  /-- Conflicts with another transaction's writes, deletes included. -/
  | write
  /-- A write that also conflicts with another's claim of the node as an endpoint. -/
  | delete
  /-- Conflicts only with another transaction's delete of the node. -/
  | endpoint
deriving DecidableEq, Repr

/-- One change to conflict claims. -/
inductive ClaimUndo (K : Type) where
  | write (entity : GraphEntity)
  | delete (entity : GraphEntity)
  | endpoint (entity : GraphEntity)
  | key (key : K)
deriving DecidableEq, Repr

structure TransactionInfo (K : Type) where
  state : TransactionState := .active
  isolationLevel : IsolationLevel
  /-- The snapshot epoch. -/
  startEpoch : Nat
  writeSet : List GraphEntity := []
  readSet : List GraphEntity := []
  deleteSet : List GraphEntity := []
  endpointSet : List GraphEntity := []
  keySet : List K := []
  /-- A direct call's transaction, whose state nobody asks for. -/
  isPrivate : Bool
  /-- Inverses of the claims since the first savepoint, newest last. -/
  claimUndo : Option (List (ClaimUndo K)) := none
deriving DecidableEq

namespace TransactionInfo

variable {K : Type}

/-- Why another transaction's `claim` of `entity` conflicts with this one's writes
    and claims. -/
def conflictWith (info : TransactionInfo K) (claim : Claim) (entity : GraphEntity) :
    Option String :=
  let written := entity ∈ info.writeSet
  match claim with
  | .write => if written then some s!"Write-write conflict on entity {entity}" else none
  | .delete =>
      if written then some s!"Write-write conflict on entity {entity}"
      else if entity ∈ info.endpointSet then
        some (s!"Write conflict on entity {entity}: another transaction creates an edge to the " ++
          "node this transaction deletes")
      else none
  | .endpoint =>
      if entity ∈ info.deleteSet then
        some (s!"Write conflict on entity {entity}: another transaction deletes the node this " ++
          "transaction creates an edge to")
      else none

/-- Logs `undo` where a savepoint asked for the log and the claim is new. -/
def logUndo (info : TransactionInfo K) (isNew : Bool) (undo : ClaimUndo K) : TransactionInfo K :=
  if isNew then { info with claimUndo := info.claimUndo.map (· ++ [undo]) } else info

def claimWrite (info : TransactionInfo K) (entity : GraphEntity) : TransactionInfo K :=
  { info with writeSet := info.writeSet.insert entity }.logUndo
    (entity ∉ info.writeSet) (.write entity)

def claimDelete (info : TransactionInfo K) (entity : GraphEntity) : TransactionInfo K :=
  let info := info.claimWrite entity
  { info with deleteSet := info.deleteSet.insert entity }.logUndo
    (entity ∉ info.deleteSet) (.delete entity)

def claimEndpoint (info : TransactionInfo K) (entity : GraphEntity) : TransactionInfo K :=
  { info with endpointSet := info.endpointSet.insert entity }.logUndo
    (entity ∉ info.endpointSet) (.endpoint entity)

def claimKey [DecidableEq K] (info : TransactionInfo K) (key : K) : TransactionInfo K :=
  { info with keySet := info.keySet.insert key }.logUndo (key ∉ info.keySet) (.key key)

/-- Takes `entity` into the sets of `claim`. -/
def addClaim (info : TransactionInfo K) (claim : Claim) (entity : GraphEntity) :
    TransactionInfo K :=
  match claim with
  | .write => info.claimWrite entity
  | .delete => info.claimDelete entity
  | .endpoint => info.claimEndpoint entity

/-- Takes one logged claim back. -/
def undoClaim [DecidableEq K] (info : TransactionInfo K) : ClaimUndo K → TransactionInfo K
  | .write entity => { info with writeSet := info.writeSet.filter (· ≠ entity) }
  | .delete entity => { info with deleteSet := info.deleteSet.filter (· ≠ entity) }
  | .endpoint entity => { info with endpointSet := info.endpointSet.filter (· ≠ entity) }
  | .key key => { info with keySet := info.keySet.filter (· ≠ key) }

/-- Captures the position of the claim log, which starts here if it had not yet. -/
def markClaims (info : TransactionInfo K) : Nat × TransactionInfo K :=
  let undo := info.claimUndo.getD []
  (undo.length, { info with claimUndo := some undo })

/-- Takes back the claims logged after `mark`, the newest first. -/
def restoreClaims [DecidableEq K] (info : TransactionInfo K) (mark : Nat) :
    Except TransactionError (TransactionInfo K) :=
  match info.claimUndo with
  | some undo =>
      if mark ≤ undo.length then
        let info := (undo.drop mark).reverse.foldl undoClaim info
        .ok { info with claimUndo := some (undo.take mark) }
      else .error (.invalidState "Invalid conflict-claim savepoint")
  | none => .error (.invalidState "Invalid conflict-claim savepoint")

/-! ### What a claim adds and what it leaves -/

@[simp] theorem logUndo_sets (info : TransactionInfo K) (isNew : Bool) (undo : ClaimUndo K) :
    (info.logUndo isNew undo).state = info.state ∧
      (info.logUndo isNew undo).startEpoch = info.startEpoch ∧
      (info.logUndo isNew undo).isPrivate = info.isPrivate ∧
      (info.logUndo isNew undo).writeSet = info.writeSet ∧
      (info.logUndo isNew undo).deleteSet = info.deleteSet ∧
      (info.logUndo isNew undo).endpointSet = info.endpointSet ∧
      (info.logUndo isNew undo).keySet = info.keySet := by
  unfold logUndo
  split <;> simp

/-- The part of a transaction no claim and no rollback of claims changes: who it is
    and where it stands. -/
def SameStanding (before after : TransactionInfo K) : Prop :=
  after.state = before.state ∧ after.startEpoch = before.startEpoch ∧
    after.isPrivate = before.isPrivate

theorem SameStanding.refl (info : TransactionInfo K) : SameStanding info info :=
  ⟨rfl, rfl, rfl⟩

theorem SameStanding.trans {a b c : TransactionInfo K} (hab : SameStanding a b)
    (hbc : SameStanding b c) : SameStanding a c :=
  ⟨hbc.1.trans hab.1, hbc.2.1.trans hab.2.1, hbc.2.2.trans hab.2.2⟩

theorem addClaim_sameStanding (info : TransactionInfo K) (claim : Claim) (entity : GraphEntity) :
    SameStanding info (info.addClaim claim entity) := by
  cases claim <;> simp [addClaim, claimWrite, claimDelete, claimEndpoint, SameStanding]

/-- A fold of steps that keep the standing keeps it. -/
theorem SameStanding.foldl {α : Type} {f : TransactionInfo K → α → TransactionInfo K}
    (hf : ∀ info a, SameStanding info (f info a)) (info : TransactionInfo K) (as : List α) :
    SameStanding info (as.foldl f info) := by
  induction as generalizing info with
  | nil => exact SameStanding.refl info
  | cons a as ih => exact (hf info a).trans (ih (f info a))

theorem restoreClaims_sameStanding [DecidableEq K] {info after : TransactionInfo K} {mark : Nat}
    (h : info.restoreClaims mark = .ok after) : SameStanding info after := by
  unfold restoreClaims at h
  split at h
  · split at h <;> cases h
    exact SameStanding.foldl (fun info undo => by cases undo <;> exact .refl info) info _
  · cases h

end TransactionInfo

structure TransactionManager (K : Type) where
  /-- Starts at 2: 1 is the system transaction. -/
  nextTransactionId : Nat := 2
  /-- The last epoch handed out. -/
  assignedEpoch : Nat := 0
  /-- The last epoch whose commit is complete, the one readers see. -/
  publishedEpoch : Nat := 0
  /-- How many transactions are active or committing. -/
  activeCount : Nat := 0
  transactions : Std.ExtTreeMap Nat (TransactionInfo K) := ∅
  committedEpochs : Std.ExtTreeMap Nat Nat := ∅
  poisoned : Bool := false
  closed : Bool := false
  /-- The lowest epoch that is never published. -/
  unpublishableFrom : Option Nat := none
  reads : ReadPins := []
  history : History := {}

/-- A started commit, on its way to being published. -/
structure Publish where
  transactionId : Nat
  epoch : Nat
  commitTime : Option Nat
deriving DecidableEq, Repr

namespace TransactionManager

variable {K : Type}

/-! ### Begin -/

/-- Registers a new active transaction reading at the published epoch. -/
def register (m : TransactionManager K) (isolationLevel : IsolationLevel) (isPrivate : Bool) :
    Nat × TransactionManager K :=
  let id := m.nextTransactionId
  let info : TransactionInfo K :=
    { isolationLevel, startEpoch := m.publishedEpoch, isPrivate }
  (id, { m with
    nextTransactionId := id + 1
    reads := m.reads.holdPublished m.publishedEpoch
    transactions := m.transactions.insert id info
    activeCount := m.activeCount + 1 })

def beginWithIsolation (m : TransactionManager K) (isolationLevel : IsolationLevel) :
    Nat × TransactionManager K :=
  m.register isolationLevel false

def checkOpen (m : TransactionManager K) : Except TransactionError Unit :=
  if m.closed then .error .databaseClosed else .ok ()

def checkNoIncompleteCommit (m : TransactionManager K) : Except TransactionError Unit :=
  if m.poisoned then .error .incompleteCommit else .ok ()

def beginPrivate (m : TransactionManager K) :
    Except TransactionError (Nat × TransactionManager K) := do
  m.checkOpen
  return m.register .snapshotIsolation true

/-! ### Claims -/

/-- The information of transaction `t`, which has to be active. -/
def activeInfo (m : TransactionManager K) (t : Nat) : Except TransactionError (TransactionInfo K) :=
  match m.transactions[t]? with
  | none => .error (.invalidState "Transaction not found")
  | some info =>
      if info.state ≠ .active then .error (.invalidState "Transaction is not active")
      else .ok info

def setInfo (m : TransactionManager K) (t : Nat) (info : TransactionInfo K) :
    TransactionManager K :=
  { m with transactions := m.transactions.insert t info }

/-- Fails with the first conflict of an open transaction other than `t`; the scan is
    skipped when at most one transaction is open. -/
def checkOpenConflicts (m : TransactionManager K) (t : Nat)
    (conflict : TransactionInfo K → Option String) : Except TransactionError Unit :=
  if m.activeCount > 1 then
    let found := m.transactions.toList.findSome? fun (other, info) =>
      if other = t ∨ info.state.isOpen = false then none else conflict info
    match found with
    | some message => .error (.writeConflict message)
    | none => .ok ()
  else .ok ()

/-- Records `claim` of each of `entities`, all of them or none on a conflict. -/
def recordClaims (m : TransactionManager K) (t : Nat) (claim : Claim)
    (entities : List GraphEntity) : Except TransactionError (TransactionManager K) := do
  m.checkNoIncompleteCommit
  m.checkOpenConflicts t fun other => entities.findSome? (other.conflictWith claim)
  let info ← m.activeInfo t
  return m.setInfo t (entities.foldl (fun info entity => info.addClaim claim entity) info)

def recordWrite (m : TransactionManager K) (t : Nat) (entity : GraphEntity) :
    Except TransactionError (TransactionManager K) :=
  m.recordClaims t .write [entity]

def recordDelete (m : TransactionManager K) (t : Nat) (entity : GraphEntity) :
    Except TransactionError (TransactionManager K) :=
  m.recordClaims t .delete [entity]

def recordEndpoints (m : TransactionManager K) (t : Nat) (src dst : GraphEntity) :
    Except TransactionError (TransactionManager K) :=
  m.recordClaims t .endpoint [src, dst]

/-- Claims `key`, a value written under a unique constraint. -/
def recordKey [DecidableEq K] [ToString K] (m : TransactionManager K) (t : Nat) (key : K) :
    Except TransactionError (TransactionManager K) := do
  m.checkNoIncompleteCommit
  m.checkOpenConflicts t fun other =>
    if key ∈ other.keySet then
      some s!"on key {key}: another open transaction writes the same value of the key"
    else none
  let info ← m.activeInfo t
  return m.setInfo t (info.claimKey key)

/-- Records a read, for serializable isolation. -/
def recordRead (m : TransactionManager K) (t : Nat) (entity : GraphEntity) :
    Except TransactionError (TransactionManager K) := do
  let info ← m.activeInfo t
  return m.setInfo t { info with readSet := info.readSet.insert entity }

def markClaims (m : TransactionManager K) (t : Nat) :
    Except TransactionError (Nat × TransactionManager K) := do
  let info ← m.activeInfo t
  return (info.markClaims.1, m.setInfo t info.markClaims.2)

def restoreClaims [DecidableEq K] (m : TransactionManager K) (t mark : Nat) :
    Except TransactionError (TransactionManager K) := do
  let info ← m.activeInfo t
  let restored ← info.restoreClaims mark
  return m.setInfo t restored

/-! ### Commit -/

/-- The transactions in the table, other than `t`, that took a commit epoch after
    `start`. -/
def committedSince (m : TransactionManager K) (t start : Nat) : List (TransactionInfo K) :=
  m.committedEpochs.toList.filterMap fun (other, epoch) =>
    if other ≠ t ∧ epoch > start then m.transactions[other]? else none

/-- One commit-time scan: the first conflict with one of `others`. -/
def refuse (skip : Bool) (others : List (TransactionInfo K))
    (conflict : TransactionInfo K → Option TransactionError) : Except TransactionError Unit :=
  if skip then .ok ()
  else match others.findSome? conflict with
    | some error => .error error
    | none => .ok ()

/-- The checks of `start_commit_after` under both tables' locks: the transaction is
    active and conflicts with nothing that committed after it began. -/
def validateCommit [DecidableEq K] [ToString K] (m : TransactionManager K) (t : Nat) :
    Except TransactionError (TransactionInfo K) := do
  let ours ← m.activeInfo t
  -- Each commit advances the epoch: none since ours began, nothing to check.
  let noneCommitted := !decide (m.assignedEpoch > ours.startEpoch)
  let others := m.committedSince t ours.startEpoch
  refuse (noneCommitted || ours.writeSet.isEmpty) others fun other =>
    (ours.writeSet.find? (· ∈ other.writeSet)).map fun entity =>
      .writeConflict s!"Write-write conflict on entity {entity}"
  refuse (noneCommitted || (ours.endpointSet.isEmpty && ours.deleteSet.isEmpty)) others
    fun other =>
      ((ours.endpointSet.findSome? (other.conflictWith .endpoint)).or
        (ours.deleteSet.findSome? (other.conflictWith .delete))).map .writeConflict
  refuse (noneCommitted || ours.keySet.isEmpty) others fun other =>
    (ours.keySet.find? (· ∈ other.keySet)).map fun key =>
      .writeConflict (s!"on key {key}: a transaction that committed after this one began " ++
        "wrote the same value of the key")
  refuse (noneCommitted || ours.isolationLevel ≠ .serializable || ours.readSet.isEmpty) others
    fun other =>
      (ours.readSet.find? (· ∈ other.writeSet)).map fun entity =>
        .serializationFailure (s!"Read-write conflict on entity {entity}: another " ++
          "transaction modified data we read")
  return ours

/-- A validated commit takes the next epoch. -/
def takeEpoch [DecidableEq K] [ToString K] (m : TransactionManager K) (t now : Nat) :
    Except TransactionError (Publish × TransactionManager K) := do
  let ours ← m.validateCommit t
  let epoch := m.assignedEpoch + 1
  let (commitTime, history) := m.history.commitTime now
  return ({ transactionId := t, epoch, commitTime }, { m with
    assignedEpoch := epoch
    transactions := m.transactions.insert t { ours with state := .committing }
    committedEpochs := m.committedEpochs.insert t epoch
    history := history })

/-- `CommitGuard::abort`: takes the commit back before anything of it is written. -/
def takeBack (m : TransactionManager K) (commit : Publish) : TransactionManager K :=
  { m with
    transactions := m.transactions.modify commit.transactionId fun info =>
      { info with state := .active }
    committedEpochs := m.committedEpochs.erase commit.transactionId
    assignedEpoch := commit.epoch - 1 }

/-- Whether `Publish::complete_with` gives up on this commit: a commit at or below
    its epoch did not complete. -/
def isUnpublishable (m : TransactionManager K) (commit : Publish) : Bool :=
  m.unpublishableFrom.any (· ≤ commit.epoch)

/-- The first part of a publication under the table's lock: the transaction reads no
    more. -/
def releaseSnapshot (m : TransactionManager K) (commit : Publish) : TransactionManager K :=
  { m with
    reads := match m.transactions[commit.transactionId]? with
      | some info => m.reads.release info.startEpoch
      | none => m.reads }

/-- Whether a published transaction leaves the table: a private one, when no other is
    open. -/
def leavesAtPublish (m : TransactionManager K) (info : TransactionInfo K) : Bool :=
  info.isPrivate && decide (m.activeCount = 1)

/-- The second part: the transaction is committed and its epoch published. -/
def publish (m : TransactionManager K) (commit : Publish) : TransactionManager K :=
  let t := commit.transactionId
  let (transactions, committedEpochs) := match m.transactions[t]? with
    | some info =>
        if m.leavesAtPublish info then (m.transactions.erase t, m.committedEpochs.erase t)
        else (m.transactions.insert t { info with state := .committed, claimUndo := none },
          m.committedEpochs)
    | none => (m.transactions, m.committedEpochs)
  { m with
    transactions, committedEpochs
    activeCount := m.activeCount - 1
    publishedEpoch := max m.publishedEpoch commit.epoch }

/-- The last part, in the turn but outside the table's lock: the commit's time. -/
def recordTime (m : TransactionManager K) (commit : Publish) : TransactionManager K :=
  { m with
    history := match commit.commitTime with
      | some time => m.history.record commit.epoch time
      | none => m.history }

/-- Records that the commit at `epoch` did not complete. -/
def incompleteFrom (m : TransactionManager K) (epoch : Nat) : TransactionManager K :=
  { m with
    poisoned := true
    unpublishableFrom := some (m.unpublishableFrom.elim epoch fun from_ => min from_ epoch) }

/-- Poisons the manager after a broken invariant: nothing more is published. -/
def poison (m : TransactionManager K) : TransactionManager K :=
  m.incompleteFrom 0

/-! ### Abort -/

def abortRegistered (m : TransactionManager K) (t : Nat) :
    Except TransactionError (TransactionManager K) := do
  let info ← m.activeInfo t
  return { m with
    transactions :=
      if info.isPrivate then m.transactions.erase t
      else m.transactions.insert t { info with state := .aborted, claimUndo := none }
    reads := m.reads.release info.startEpoch
    activeCount := m.activeCount - 1 }

/-- Aborts transaction `t` after the undo of its changes, which poisons the manager
    where it failed (`undone = false`). -/
def abort (m : TransactionManager K) (t : Nat) (undone : Bool) :
    Except TransactionError Unit × TransactionManager K :=
  let m := if undone then m else m.poison
  match m.abortRegistered t with
  | .ok m => (.ok (), m)
  | .error error => (.error error, m)

/-- One round of the loop of `abort_all_active`. -/
def abortActive (m : TransactionManager K) (t : Nat) : TransactionManager K :=
  match m.transactions[t]? with
  | some info =>
      if info.state = .active then
        { m.setInfo t { info with state := .aborted, claimUndo := none } with
          reads := m.reads.release info.startEpoch
          activeCount := m.activeCount - 1 }
      else m
  | none => m

def abortAllActive (m : TransactionManager K) : TransactionManager K :=
  m.transactions.keys.foldl abortActive m

/-! ### Cleaning up -/

/-- The oldest snapshot of an active transaction. -/
def minActiveStart (m : TransactionManager K) : Option Nat :=
  ((m.transactions.toList.filter fun entry => entry.2.state = .active).map
    fun entry => entry.2.startEpoch).min?

/-- Whether `gc` drops transaction `t`. -/
def isCollectable (m : TransactionManager K) (t : Nat) (info : TransactionInfo K) : Bool :=
  match info.state with
  | .active | .committing => false
  | .aborted => true
  | .committed =>
      match m.minActiveStart with
      | some minStart => (m.committedEpochs[t]?).any (· < minStart)
      | none => true

/-- Drops the transactions no longer needed for conflict detection, and says how
    many. -/
def gc (m : TransactionManager K) : Nat × TransactionManager K :=
  let toRemove := (m.transactions.toList.filter fun entry =>
    m.isCollectable entry.1 entry.2).map Prod.fst
  let transactions := toRemove.foldl (fun table id => table.erase id) m.transactions
  (m.transactions.size - transactions.size, { m with
    transactions
    committedEpochs := toRemove.foldl (fun table id => table.erase id) m.committedEpochs })

/-! ### Epochs and readers -/

/-- Synchronizes both epochs to at least `epoch`. -/
def syncEpoch (m : TransactionManager K) (epoch : Nat) : TransactionManager K :=
  { m with
    assignedEpoch := max m.assignedEpoch epoch
    publishedEpoch := max m.publishedEpoch epoch }

/-- The oldest epoch any reader may still read at. -/
def readHorizon (m : TransactionManager K) : Nat :=
  m.reads.oldest.elim m.publishedEpoch fun oldest => min oldest m.publishedEpoch

/-- Pins a read at the published epoch. -/
def pinRead (m : TransactionManager K) : Nat × TransactionManager K :=
  (m.publishedEpoch, { m with reads := m.reads.holdPublished m.publishedEpoch })

def readableEpoch (m : TransactionManager K) (epoch : Nat) : Nat :=
  min epoch m.publishedEpoch

/-- Pins a read at `epoch`, which has to be at or after the history floor. -/
def pinReadAt (m : TransactionManager K) (epoch : Nat) :
    Except String (Nat × TransactionManager K) :=
  if epoch < m.history.floor then .error (m.history.beforeFloor epoch)
  else .ok (m.readableEpoch epoch, { m with reads := m.reads.holdAt (m.readableEpoch epoch) })

/-- `ReadPin::again`: another pin at the epoch of one that lives. -/
def pinAgain (m : TransactionManager K) (epoch : Nat) : TransactionManager K :=
  { m with reads := m.reads.holdAt epoch }

/-- The drop of a pin. -/
def unpin (m : TransactionManager K) (epoch : Nat) : TransactionManager K :=
  { m with reads := m.reads.release epoch }

/-- The horizon garbage collection runs at, which becomes the history floor. -/
def collectHorizon (m : TransactionManager K) (now : Nat) : Nat × TransactionManager K :=
  let horizon := (m.history.retentionHorizon now).elim m.readHorizon (min m.readHorizon)
  (horizon, { m with history := m.history.collectedAt horizon })

def setHistoryRetention (m : TransactionManager K) (retention : HistoryRetention) (now : Nat) :
    TransactionManager K :=
  { m with history := m.history.setRetention retention m.publishedEpoch now }

end TransactionManager

open Lib

/-- Who holds the commit lock. -/
inductive CommitLock where
  | free
  /-- A `start_commit` of `t` past its first checks, before its epoch. -/
  | entered (t : Nat)
  /-- A `CommitGuard`. -/
  | committing (commit : Publish)
  /-- A `CommitGuard` that completes its commit while it holds the lock. -/
  | completing (t : Nat)
  /-- `CommitsHeld`, of a checkpoint or a change outside a commit. -/
  | held
deriving DecidableEq, Repr

/-- How far the commit whose turn it is has got. -/
inductive TurnPhase where
  /-- Its ordered step runs. -/
  | ordered
  /-- It holds the table's lock and has released its snapshot. -/
  | released
  /-- Its epoch is published. -/
  | published
deriving DecidableEq, Repr

/-- A commit that took its epoch and was not taken back: the transaction as it was
    then, claims included, and whether its ordered step ran. -/
structure Commit (K : Type) where
  transactionId : Nat
  epoch : Nat
  info : TransactionInfo K
  ordered : Bool := false
deriving DecidableEq

structure System (K : Type) where
  manager : TransactionManager K := {}
  lock : CommitLock := .free
  /-- Started commits whose handle waits for its turn. -/
  written : List Publish := []
  turn : Option (Publish × TurnPhase) := none
  /-- Commits whose ordered step failed, before their handle is dropped. -/
  failed : List Publish := []
  /-- The epochs of the live read pins. -/
  pins : List Nat := []
  /-- Transactions whose commit was taken back. -/
  takenBack : List Nat := []
  commits : List (Commit K) := []
  /-- The epochs of the commits left incomplete. -/
  incomplete : List Nat := []

inductive Op (K : Type) where
  | beginWithIsolation (isolationLevel : IsolationLevel)
  | beginPrivate
  | recordClaims (t : Nat) (claim : Claim) (entities : List GraphEntity)
  | recordKey (t : Nat) (key : K)
  | recordRead (t : Nat) (entity : GraphEntity)
  | markClaims (t : Nat)
  | restoreClaims (t mark : Nat)
  | enterCommit (t : Nat) (quiet : Bool)
  | takeEpoch (now : Nat)
  | abortCommit
  | written
  | completeHeld
  | dropGuard
  | dropWritten (t : Nat)
  | takeTurn (t : Nat)
  | orderedDone (succeeded : Bool)
  | publish
  | recordTime
  | dropFailed (t : Nat)
  | abort (t : Nat) (undone : Bool)
  | abortActive (t : Nat)
  | gc
  | poison
  | closeForWrites
  | holdCommits
  | releaseCommits
  | syncEpoch (epoch : Nat)
  | pinRead
  | pinReadAt (epoch : Nat)
  | pinAgain (epoch : Nat)
  | unpin (epoch : Nat)
  | collectHorizon (now : Nat)
  | setHistoryRetention (retention : HistoryRetention) (now : Nat)

namespace System

variable {K : Type}

/-- Whether a publication holds the table's lock. -/
def tableLocked (s : System K) : Bool :=
  s.turn.any fun turn => turn.2 = .released

/-- Whether a transaction is between its commit epoch and its completion. -/
def commitInProgress (m : TransactionManager K) : Bool :=
  m.transactions.toList.any fun entry => entry.2.state = .committing

/-- Whether a hold waits no more for the written commits. -/
def writtenPublished (m : TransactionManager K) : Bool :=
  m.poisoned || m.assignedEpoch ≤ m.publishedEpoch

/-- A call that took effect, or failed and changed nothing. -/
def attempt (s : System K) {ε : Type} : Except ε (TransactionManager K) → System K
  | .ok m => { s with manager := m }
  | .error _ => s

/-- The handle of transaction `t` among `handles`. -/
def handle? (handles : List Publish) (t : Nat) : Option Publish :=
  handles.find? fun commit => commit.transactionId = t

/-- The commit lock once the handle of transaction `t` is gone: free, if a guard was
    completing it. -/
def unlock (lock : CommitLock) (t : Nat) : CommitLock :=
  if lock = .completing t then .free else lock

/-- A handle dropped unfinished leaves its commit incomplete. -/
def leaveIncomplete (s : System K) (commit : Publish) : System K :=
  { s with
    manager := s.manager.incompleteFrom commit.epoch
    lock := unlock s.lock commit.transactionId
    incomplete := commit.epoch :: s.incomplete }

/-- The ordered step of `epoch`'s commit ran. -/
def markOrdered (commits : List (Commit K)) (epoch : Nat) : List (Commit K) :=
  commits.map fun commit =>
    if commit.epoch = epoch then { commit with ordered := true } else commit

/-- Runs `act` unless a publication holds the table's lock. -/
def whenUnlocked (s : System K) (act : Option (System K)) : Option (System K) :=
  if s.tableLocked then none else act

section Step

variable [DecidableEq K] [ToString K]

/-- `start_commit` takes the commit lock and checks the manager. -/
def enterCommit (s : System K) (t : Nat) (quiet : Bool) : Option (System K) :=
  if s.lock = .free ∧ t ∉ s.takenBack ∧ (quiet → writtenPublished s.manager) then
    if s.manager.poisoned ∨ s.manager.closed then some s else some { s with lock := .entered t }
  else none

/-- `start_commit` checks the transaction and takes its epoch. -/
def takeEpoch (s : System K) (now : Nat) : Option (System K) :=
  match s.lock with
  | .entered t =>
      match s.manager.takeEpoch t now, s.manager.transactions[t]? with
      | .ok (commit, m), some info =>
          some { s with
            manager := m
            lock := .committing commit
            commits := { transactionId := t, epoch := commit.epoch, info } :: s.commits }
      | _, _ => some { s with lock := .free }
  | _ => none

/-- `Publish::complete_with` takes its turn: it gives up above an incomplete commit,
    and waits for the commits below it. -/
def takeTurn (s : System K) (t : Nat) : Option (System K) :=
  match s.turn, handle? s.written t with
  | none, some commit =>
      let s := { s with written := s.written.erase commit }
      if s.manager.isUnpublishable commit then some { s with lock := unlock s.lock t }
      else if commit.epoch ≤ s.manager.publishedEpoch + 1 then
        some { s with turn := some (commit, .ordered) }
      else none
  | _, _ => none

/-- The ordered step ends: the table's lock is taken and the snapshot released, or
    the turn is given up. -/
def orderedDone (s : System K) (succeeded : Bool) : Option (System K) :=
  match s.turn with
  | some (commit, .ordered) =>
      if succeeded then
        some { s with
          manager := s.manager.releaseSnapshot commit
          turn := some (commit, .released)
          commits := markOrdered s.commits commit.epoch }
      else some { s with turn := none, failed := commit :: s.failed }
  | _ => none

def step (s : System K) : Op K → Option (System K)
  | .beginWithIsolation isolationLevel =>
      s.whenUnlocked (some { s with manager := (s.manager.beginWithIsolation isolationLevel).2 })
  | .beginPrivate => s.whenUnlocked (some (s.attempt (Prod.snd <$> s.manager.beginPrivate)))
  | .recordClaims t claim entities =>
      s.whenUnlocked (some (s.attempt (s.manager.recordClaims t claim entities)))
  | .recordKey t key => s.whenUnlocked (some (s.attempt (s.manager.recordKey t key)))
  | .recordRead t entity => s.whenUnlocked (some (s.attempt (s.manager.recordRead t entity)))
  | .markClaims t => s.whenUnlocked (some (s.attempt (Prod.snd <$> s.manager.markClaims t)))
  | .restoreClaims t mark =>
      s.whenUnlocked (some (s.attempt (s.manager.restoreClaims t mark)))
  | .enterCommit t quiet => s.enterCommit t quiet
  | .takeEpoch now => s.whenUnlocked (s.takeEpoch now)
  | .abortCommit =>
      match s.lock with
      | .committing commit => s.whenUnlocked (some { s with
          manager := s.manager.takeBack commit
          lock := .free
          takenBack := commit.transactionId :: s.takenBack
          commits := s.commits.filter fun c => c.epoch ≠ commit.epoch })
      | _ => none
  | .written =>
      match s.lock with
      | .committing commit => some { s with lock := .free, written := commit :: s.written }
      | _ => none
  | .completeHeld =>
      match s.lock with
      | .committing commit => some { s with
          lock := .completing commit.transactionId
          written := commit :: s.written }
      | _ => none
  | .dropGuard =>
      match s.lock with
      | .committing commit => some { s.leaveIncomplete commit with lock := .free }
      | _ => none
  | .dropWritten t =>
      (handle? s.written t).map fun commit =>
        { s with written := s.written.erase commit }.leaveIncomplete commit
  | .takeTurn t => s.takeTurn t
  | .orderedDone succeeded => s.orderedDone succeeded
  | .publish =>
      match s.turn with
      | some (commit, .released) => some { s with
          manager := s.manager.publish commit
          turn := some (commit, .published) }
      | _ => none
  | .recordTime =>
      match s.turn with
      | some (commit, .published) => some { s with
          manager := s.manager.recordTime commit
          turn := none
          lock := unlock s.lock commit.transactionId }
      | _ => none
  | .dropFailed t =>
      (handle? s.failed t).map fun commit =>
        { s with failed := s.failed.erase commit }.leaveIncomplete commit
  | .abort t undone => s.whenUnlocked (some { s with manager := (s.manager.abort t undone).2 })
  | .abortActive t => s.whenUnlocked (some { s with manager := s.manager.abortActive t })
  | .gc => s.whenUnlocked (some { s with manager := s.manager.gc.2 })
  | .poison => some { s with manager := s.manager.poison }
  | .closeForWrites =>
      if s.lock = .free ∧ writtenPublished s.manager then
        some { s with manager := { s.manager with closed := true } }
      else none
  | .holdCommits =>
      if s.lock = .free ∧ writtenPublished s.manager then
        if s.manager.poisoned then some s else some { s with lock := .held }
      else none
  | .releaseCommits => if s.lock = .held then some { s with lock := .free } else none
  | .syncEpoch epoch =>
      if commitInProgress s.manager then none
      else some { s with manager := s.manager.syncEpoch epoch }
  | .pinRead => some { s with
      manager := s.manager.pinRead.2
      pins := s.manager.pinRead.1 :: s.pins }
  | .pinReadAt epoch =>
      match s.manager.pinReadAt epoch with
      | .ok (granted, m) => some { s with manager := m, pins := granted :: s.pins }
      | .error _ => some s
  | .pinAgain epoch =>
      if epoch ∈ s.pins then
        some { s with manager := s.manager.pinAgain epoch, pins := epoch :: s.pins }
      else none
  | .unpin epoch =>
      if epoch ∈ s.pins then
        some { s with manager := s.manager.unpin epoch, pins := s.pins.erase epoch }
      else none
  | .collectHorizon now => some { s with manager := (s.manager.collectHorizon now).2 }
  | .setHistoryRetention retention now =>
      some { s with manager := s.manager.setHistoryRetention retention now }

end Step

end System

end Grafeo.Transaction
