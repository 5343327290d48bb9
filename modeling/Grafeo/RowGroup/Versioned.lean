import Grafeo.Lib.Assoc
import Grafeo.Lib.Transition
import Grafeo.RowGroup.Kept

/-!
# Grafeo.RowGroup.Versioned

Two levels of one column.

`Versioned` is what a column with its update chains is **for**: per row every
committed value with its epoch, per open transaction the writes it made, and a
reader that takes its own last write or else the newest value committed by its
epoch. Its steps are guarded by the rule the writers follow: a row has one writer at
a time, which holds it until its commit is published.

`Column` is what the code keeps (`graph/rowgroup/column.rs` over `updates.rs`): the
newest value of each row, the update chains, and per open transaction the log of its
writes, each with what it did to the transaction's version of the row. It takes the
same operations, with no guard of its own: where an undo or a commit does not find
what the writer kept, it fails.

What relates a column with its update chains to the versioned model, **row by row**
(`RowShape`): the values kept of a row are the committed ones some reader may still
need, in epoch order, then at most one of the open transaction that wrote the row; a
reader takes the first it does not see, and under all of them stands the newest
committed value.

Beside the rows stand the rule the writers follow, as it holds of every state
(`WritersOk`), and the order of the nodes of a vector that the search of a writer's
own node rests on (`NewerUnseen`). The lemmas here say how a row's shape changes when
the row is written, committed, or left alone, and how a writer's entry changes.
-/

namespace Grafeo.RowGroup

open Lib

variable {T : Type}

/-- What transactions, immediate writers and the collector do to one column. -/
inductive ColumnOp (T : Type) where
  | begin (t snapshot : Nat)
  | write (t row : Nat) (value : T)
  | immediate (writer epoch row : Nat) (value : T)
  | commit (t epoch : Nat)
  | undoTo (t mark : Nat)
  | rollback (t : Nat)
  | publish (epoch : Nat)
  | collect (horizon : Nat)
  | collectVector (vector horizon : Nat)
  | removeRow (row : Nat)
deriving Repr

/-! ### The versioned model -/

/-- The value a transaction wrote last to `row`, of its writes in order. -/
def lastWrite (writes : List (Nat × T)) (row : Nat) : Option T :=
  writes.reverse.lookup row

/-- A writer that holds rows: an open transaction with its writes, or a commit (an
immediate one too) that is not published. -/
inductive RowWriter (T : Type) where
  | active (snapshot : Nat) (writes : List (Nat × T))
  | committed (epoch : Nat) (rows : List Nat)

/-- The rows a writer holds. -/
def RowWriter.rows : RowWriter T → List Nat
  | .active _ writes => writes.map Prod.fst
  | .committed _ rows => rows

/-- The committed values of a row, oldest first, after what it held at the start. -/
structure RowHistory (T : Type) where
  initial : T
  commits : List (Nat × T) := []

/-- The newest value committed at or before `epoch`. -/
def RowHistory.valueAt (history : RowHistory T) (epoch : Nat) : T :=
  match (history.commits.filter fun commit => decide (commit.1 ≤ epoch)).getLast? with
  | some commit => commit.2
  | none => history.initial

/-- A value committed at `epoch`. -/
def RowHistory.push (history : RowHistory T) (epoch : Nat) (value : T) : RowHistory T :=
  { history with commits := history.commits ++ [(epoch, value)] }

/-- The column as its readers are to see it. `epoch` is the newest commit epoch and
`floor` the highest horizon collected. -/
structure Versioned (T : Type) where
  history : Nat → RowHistory T
  writers : Std.ExtTreeMap Nat (RowWriter T) := {}
  published : Nat := 0
  epoch : Nat := 0
  floor : Nat := 0

namespace Versioned

/-- A column of values nothing was written to yet. -/
def start (values : Nat → T) : Versioned T where
  history := fun row => { initial := values row }

/-- Whether no writer but `writer` holds `row`. -/
def freeFor (m : Versioned T) (writer row : Nat) : Bool :=
  m.writers.toList.all fun entry => decide (entry.1 = writer) || decide (row ∉ entry.2.rows)

/-- Whether no writer holds `row`. -/
def free (m : Versioned T) (row : Nat) : Bool :=
  m.writers.toList.all fun entry => decide (row ∉ entry.2.rows)

/-- The histories with the writes of a commit at `epoch`. -/
def committed (m : Versioned T) (epoch : Nat) (writes : List (Nat × T)) :
    Nat → RowHistory T := fun row =>
  match lastWrite writes row with
  | some value => (m.history row).push epoch value
  | none => m.history row

/-- One operation, where the rule of the writers allows it. -/
def step [Inhabited T] (m : Versioned T) : ColumnOp T → Option (Versioned T)
  | .begin t snapshot =>
      if m.writers[t]?.isNone ∧ snapshot ≤ m.published then
        some { m with writers := m.writers.insert t (.active snapshot []) }
      else none
  | .write t row value =>
      match m.writers[t]? with
      | some (.active snapshot writes) =>
          if row < rowsPerGroup ∧ m.freeFor t row then
            some { m with
              writers := m.writers.insert t (.active snapshot (writes ++ [(row, value)])) }
          else none
      | _ => none
  | .immediate writer epoch row value =>
      let held := match m.writers[writer]? with
        | none => some []
        | some (.committed e rows) => if e = epoch then some rows else none
        | some (.active _ _) => none
      match held with
      | some rows =>
          if row < rowsPerGroup ∧ m.published < epoch ∧ m.freeFor writer row then
            some { m with
              history := fun r =>
                if r = row then (m.history r).push epoch value else m.history r
              writers := m.writers.insert writer (.committed epoch (row :: rows))
              epoch := max m.epoch epoch }
          else none
      | none => none
  | .commit t epoch =>
      match m.writers[t]? with
      | some (.active _ writes) =>
          if m.published < epoch then
            some { m with
              history := m.committed epoch writes
              writers := m.writers.insert t (.committed epoch (writes.map Prod.fst))
              epoch := max m.epoch epoch }
          else none
      | _ => none
  | .undoTo t mark =>
      match m.writers[t]? with
      | some (.active snapshot writes) =>
          some { m with writers := m.writers.insert t (.active snapshot (writes.take mark)) }
      | _ => none
  | .rollback t =>
      match m.writers[t]? with
      | some (.active _ _) => some { m with writers := m.writers.erase t }
      | _ => none
  | .publish epoch =>
      if m.published ≤ epoch then
        some { m with
          published := epoch
          writers := m.writers.filter fun _ writer =>
            match writer with
            | .active _ _ => true
            | .committed e _ => decide (epoch < e) }
      else none
  | .collect horizon => some { m with floor := max m.floor horizon }
  | .collectVector vector horizon =>
      if vector < vectors then some { m with floor := max m.floor horizon } else none
  | .removeRow row =>
      if row < rowsPerGroup ∧ m.free row then
        some { m with
          history := fun r => if r = row then { initial := default } else m.history r }
      else none

/-- What transaction `t` wrote last to `row`, while it is open. -/
def ownWrite (m : Versioned T) (t row : Nat) : Option T :=
  match m.writers[t]? with
  | some (.active _ writes) => lastWrite writes row
  | _ => none

/-- What a reader is to read: its own last write, else the newest value committed by
the epoch it reads at. -/
def readBy (m : Versioned T) (row : Nat) : Read → T
  | .transaction id snapshot => (m.ownWrite id row).getD ((m.history row).valueAt snapshot)
  | .atEpoch epoch => (m.history row).valueAt epoch

/-- The reads that are served: at or above every horizon collected, and an open
transaction's of the rows it wrote. -/
def Admissible (m : Versioned T) (row : Nat) (read : Read) : Prop :=
  m.floor ≤ read.epochOf ∨
    match read with
    | .transaction id _ => m.ownWrite id row ≠ none
    | .atEpoch _ => False

/-- No transaction is open. -/
def AllEnded (m : Versioned T) : Prop :=
  ∀ (t snapshot : Nat) (writes : List (Nat × T)), m.writers[t]? ≠ some (.active snapshot writes)

end Versioned

/-! ### The column of the code -/

/-- A write in a transaction's log: it created the transaction's version of the row,
whose undo node then holds what the row held before, or it replaced the version, which
the entry holds. -/
inductive ColumnEntry (T : Type) where
  | created (row : Nat)
  | replaced (row : Nat) (before : T)

def ColumnEntry.row : ColumnEntry T → Nat
  | .created row => row
  | .replaced row _ => row

/-- A transaction's snapshot and its log. -/
structure ColumnLog (T : Type) where
  snapshot : Nat
  entries : List (ColumnEntry T) := []

/-- The newest value of each row, an open transaction's included, the update chains,
and the logs of the open transactions. -/
structure Column (T : Type) where
  values : Nat → T
  updates : Updates T := .empty
  logs : Std.ExtTreeMap Nat (ColumnLog T) := {}

namespace Column

/-- A column of values nothing was written to yet. -/
def start (values : Nat → T) : Column T where
  values := values

/-- Sets the value of a row. -/
def set (c : Column T) (row : Nat) (value : T) : Column T :=
  { c with values := fun r => if r = row then value else c.values r }

/-- The value at `row` as `read` sees it: the newest, unless a write `read` does not see
replaced what it reads. -/
def getAt (c : Column T) (row : Nat) (read : Read) : T :=
  if c.updates.isEmpty then c.values row
  else (c.updates.saved row read).getD (c.values row)

/-- Keeps the value at `row`, then writes it. Returns whether the write created the
writer's version of the row. -/
def write (c : Column T) (row : Nat) (stamp : Stamp) (snapshot : Nat) (value : T) :
    Column T × Bool :=
  let (updates, created) := c.updates.keep row stamp snapshot (c.values row)
  ({ c with updates }.set row value, created)

/-- Rolls one write of transaction `t` back. -/
def undoEntry (c : Column T) (t : Nat) : ColumnEntry T → Option (Column T)
  | .created row => do
      let (kept, updates) ← c.updates.undo row (.pending t)
      return { c with updates }.set row kept
  | .replaced row before => some (c.set row before)

/-- Rolls writes back, the newest first. -/
def undoEntries (c : Column T) (t : Nat) : List (ColumnEntry T) → Option (Column T)
  | [] => some c
  | entry :: entries => (c.undoEntry t entry).bind fun c => undoEntries c t entries

/-- One operation. -/
def step [Inhabited T] (c : Column T) : ColumnOp T → Option (Column T)
  | .begin t snapshot => some { c with logs := c.logs.insert t { snapshot } }
  | .write t row value => do
      let log ← c.logs[t]?
      let (written, created) := c.write row (.pending t) log.snapshot value
      let entry := if created then .created row else .replaced row (c.values row)
      return { written with
        logs := written.logs.insert t { log with entries := log.entries ++ [entry] } }
  | .immediate _ epoch row value => some (c.write row (.epoch epoch) epoch value).1
  | .commit t epoch => do
      let log ← c.logs[t]?
      let updates ← c.updates.stampRows t epoch (log.entries.map ColumnEntry.row)
      return { c with updates, logs := c.logs.erase t }
  | .undoTo t mark => do
      let log ← c.logs[t]?
      let undone ← c.undoEntries t (log.entries.drop mark).reverse
      return { undone with
        logs := undone.logs.insert t { log with entries := log.entries.take mark } }
  | .rollback t => do
      let log ← c.logs[t]?
      let undone ← c.undoEntries t log.entries.reverse
      return { undone with logs := undone.logs.erase t }
  | .publish _ => some c
  | .collect horizon => some { c with updates := (c.updates.collect horizon).1 }
  | .collectVector vector horizon =>
      some { c with updates := (c.updates.collectVector vector horizon).1 }
  | .removeRow row =>
      let cleared := c.set row default
      some (if c.updates.isEmpty then cleared
        else { cleared with updates := c.updates.removeRow row })

end Column

open Updates List Option Bool

variable {T : Type} {epoch : Nat} {writes : List (Nat × T)} {value : T} {kept : List (Stamp × T)}
  {horizon epoch : Nat}

/-! ### Writes, logs and histories -/

theorem lastWrite_concat (writes : List (Nat × T)) (row : Nat) (value : T) (r : Nat) :
    lastWrite (writes ++ [(row, value)]) r =
      if r = row then some value else lastWrite writes r := by
  unfold lastWrite
  rw [reverse_concat, Lib.lookup_cons_ite]

theorem mem_of_lastWrite {row : Nat}
    (h : lastWrite writes row = some value) : row ∈ writes.map Prod.fst := by
  have hmem := mem_of_lookup h
  exact mem_map.mpr ⟨(row, value), mem_reverse.mp hmem, rfl⟩

theorem lastWrite_of_mem {row : Nat}
    (h : row ∈ writes.map Prod.fst) : ∃ value, lastWrite writes row = some value := by
  induction writes using reverseRecOn with
  | nil => cases h
  | append_singleton writes write ih =>
    obtain ⟨r, v⟩ := write
    rw [lastWrite_concat]
    by_cases hr : row = r
    · exact ⟨v, if_pos hr⟩
    · rw [if_neg hr]
      refine ih ?_
      simpa [hr] using h

/-- The log entry of a write of `row` after `writes`. -/
def entryAfter (writes : List (Nat × T)) (row : Nat) : ColumnEntry T :=
  match lastWrite writes row with
  | none => .created row
  | some before => .replaced row before

@[simp] theorem entryAfter_row (writes : List (Nat × T)) (row : Nat) :
    (entryAfter writes row).row = row := by
  unfold entryAfter
  split <;> rfl

/-- The log of `rest` after the writes `done`. -/
def logAfter (done : List (Nat × T)) : List (Nat × T) → List (ColumnEntry T)
  | [] => []
  | (row, value) :: rest => entryAfter done row :: logAfter (done ++ [(row, value)]) rest

theorem logAfter_append (done first second : List (Nat × T)) :
    logAfter done (first ++ second) = logAfter done first ++ logAfter (done ++ first) second := by
  induction first generalizing done with
  | nil => simp [logAfter]
  | cons write first ih =>
    simp [logAfter, ih]

theorem rows_logAfter (done writes : List (Nat × T)) :
    (logAfter done writes).map ColumnEntry.row = writes.map Prod.fst := by
  induction writes generalizing done with
  | nil => rfl
  | cons write writes ih => simp [logAfter, ih]

theorem take_logAfter (done writes : List (Nat × T)) (mark : Nat) :
    (logAfter done writes).take mark = logAfter done (writes.take mark) := by
  induction writes generalizing done mark with
  | nil => simp [logAfter]
  | cons write writes ih => cases mark <;> simp [logAfter, ih]

theorem drop_logAfter (done writes : List (Nat × T)) (mark : Nat) :
    (logAfter done writes).drop mark = logAfter (done ++ writes.take mark) (writes.drop mark) := by
  induction writes generalizing done mark with
  | nil => simp [logAfter]
  | cons write writes ih => cases mark <;> simp [logAfter, ih]

theorem valueAt_push (history : RowHistory T) (epoch : Nat) (value : T) (x : Nat) :
    (history.push epoch value).valueAt x =
      if epoch ≤ x then value else history.valueAt x := by
  unfold RowHistory.valueAt RowHistory.push
  by_cases hx : epoch ≤ x <;> simp [hx]

/-- What a reader at `epoch` takes: the first value kept that it does not see, else
the one under them. -/
def scanAt (kept : List (Stamp × T)) (base : T) (epoch : Nat) : T :=
  match kept.find? fun entry => !entry.1.committedBy epoch with
  | some entry => entry.2
  | none => base

/-- A value kept after the others is seen under them. -/
theorem scanAt_concat (kept : List (Stamp × T)) (stamp : Stamp) (value base : T) (epoch : Nat) :
    scanAt (kept ++ [(stamp, value)]) base epoch =
      scanAt kept (if stamp.committedBy epoch then base else value) epoch := by
  unfold scanAt
  rw [find?_append]
  cases kept.find? fun entry => !entry.1.committedBy epoch with
  | some entry => rfl
  | none => cases hc : stamp.committedBy epoch <;> simp [hc]

theorem scanAt_of_committed (base : T)
    (h : ∀ entry ∈ kept, entry.1.committedBy epoch = true) : scanAt kept base epoch = base := by
  have hnone : kept.find? (fun entry => !entry.1.committedBy epoch) = none :=
    find?_eq_none.mpr fun entry hentry => by simp [h entry hentry]
  unfold scanAt
  rw [hnone]

/-- A collect drops nothing a reader at or after its horizon takes. -/
theorem scanAt_filter (kept : List (Stamp × T)) (base : T) (h : horizon ≤ epoch) :
    scanAt (kept.filter fun entry => !entry.1.committedBy horizon) base epoch =
      scanAt kept base epoch := by
  have hsame : (fun entry : Stamp × T => decide ((!entry.1.committedBy horizon) = true ∧
      (!entry.1.committedBy epoch) = true)) = fun entry => !entry.1.committedBy epoch := by
    funext entry
    cases hc : entry.1.committedBy horizon with
    | false => simp
    | true => simp [committedBy_mono hc h]
  rw [scanAt, find?_filter, hsame, scanAt]

/-! ### How the two levels agree -/

/-- A commit at `epoch` that is not published holds `row`. -/
def Versioned.Held (m : Versioned T) (epoch row : Nat) : Prop :=
  ∃ (writer : Nat) (rows : List Nat), m.writers[writer]? = some (.committed epoch rows) ∧ row ∈ rows

/-- A row of the column beside the row of the versioned model: `kept` are the
committed values the chains hold of it, and `base` is its newest committed value. -/
structure RowShape (c : Column T) (m : Versioned T) (row : Nat) (kept : List (Stamp × T))
    (base : T) : Prop where
  committed : ∀ entry ∈ kept, ∃ e, entry.1 = .epoch e ∧ e ≤ m.epoch ∧
    (e ≤ m.published ∨ m.Held e row)
  sorted : kept.Pairwise fun a b => ∀ x, b.1.committedBy x = true → a.1.committedBy x = true
  reads : ∀ x, m.floor ≤ x → scanAt kept base x = (m.history row).valueAt x
  own : ∀ t value, m.ownWrite t row = some value →
    c.updates.keptStamped row = kept ++ [(.pending t, base)] ∧ c.values row = value
  free : (∀ t, m.ownWrite t row = none) → c.updates.keptStamped row = kept ∧ c.values row = base

/-- What the committed values of a row rest on stays: the floor and the epochs only rise, and a
commit of the row that is not published goes on holding it. -/
structure Versioned.Onward (m m' : Versioned T) (row : Nat) : Prop where
  floor : m.floor ≤ m'.floor
  epoch : m.epoch ≤ m'.epoch
  held : ∀ e, e ≤ m.published ∨ m.Held e row → e ≤ m'.published ∨ m'.Held e row

/-- The rule the writers follow, as it holds of every state. -/
structure WritersOk (m : Versioned T) : Prop where
  exclusive : ∀ {w w' : Nat} {a b : RowWriter T} {row : Nat}, m.writers[w]? = some a →
    m.writers[w']? = some b → row ∈ a.rows → row ∈ b.rows → w = w'
  small : ∀ {w : Nat} {a : RowWriter T} {row : Nat}, m.writers[w]? = some a → row ∈ a.rows →
    row < rowsPerGroup
  snapshots : ∀ {t snapshot : Nat} {writes : List (Nat × T)},
    m.writers[t]? = some (.active snapshot writes) → snapshot ≤ m.published

/-- `b` stands after a node of an open transaction: it is no commit the transaction
sees. -/
def NewerUnseen (m : Versioned T) (a b : Stamp) : Prop :=
  ∀ (t snapshot : Nat) (writes : List (Nat × T)), m.writers[t]? = some (.active snapshot writes) →
    a = .pending t → b.committedBy snapshot = false

/-- The column's values and chains are those of the versioned model. -/
structure Agrees (c : Column T) (m : Versioned T) : Prop where
  writers : WritersOk m
  wf : c.updates.WF
  rows : ∀ row, ∃ kept base, RowShape c m row kept base
  stamps : ∀ vector, (c.updates.stampsOf vector).Pairwise (NewerUnseen m)

/-- The log of a writer: an open transaction has one. -/
def logOf : Option (RowWriter T) → Option (ColumnLog T)
  | some (.active snapshot writes) => some ⟨snapshot, logAfter [] writes⟩
  | _ => none

/-- The two levels agree, the logs of the open transactions included. -/
structure Refines (c : Column T) (m : Versioned T) : Prop extends Agrees c m where
  logs : ∀ t : Nat, c.logs[t]? = logOf m.writers[t]?

variable {c c' : Column T} {m m' : Versioned T} {row : Nat} {kept : List (Stamp × T)}
  {base value : T}

theorem ownWrite_active {t snapshot : Nat}
    (h : m.writers[t]? = some (.active snapshot writes)) (row : Nat) :
    m.ownWrite t row = lastWrite writes row := by
  simp [Versioned.ownWrite, h]

theorem ownWrite_eq_some {t : Nat} (h : m.ownWrite t row = some value) :
    ∃ snapshot writes, m.writers[t]? = some (.active snapshot writes) ∧
      lastWrite writes row = some value := by
  unfold Versioned.ownWrite at h
  split at h
  next snapshot writes hw => exact ⟨snapshot, writes, hw, h⟩
  · cases h

theorem mem_rows_of_ownWrite {t : Nat} (h : m.ownWrite t row = some value) :
    ∃ a, m.writers[t]? = some a ∧ row ∈ a.rows := by
  obtain ⟨snapshot, writes, hw, hlast⟩ := ownWrite_eq_some h
  exact ⟨_, hw, mem_of_lastWrite hlast⟩

theorem freeFor_iff {writer : Nat} : m.freeFor writer row = true ↔
    ∀ (w : Nat) (a : RowWriter T), m.writers[w]? = some a → w = writer ∨ row ∉ a.rows := by
  simp [Versioned.freeFor, Std.ExtTreeMap.mem_toList_iff_getElem?_eq_some]

theorem free_iff : m.free row = true ↔
    ∀ (w : Nat) (a : RowWriter T), m.writers[w]? = some a → row ∉ a.rows := by
  simp [Versioned.free, Std.ExtTreeMap.mem_toList_iff_getElem?_eq_some]

/-- One transaction at most wrote a row. -/
theorem WritersOk.ownWrite_other (h : WritersOk m) {t t' : Nat} {v : T}
    (ht : m.ownWrite t row = some v) (hne : t' ≠ t) : m.ownWrite t' row = none := by
  refine eq_none_iff_forall_ne_some.mpr fun v' ht' => hne ?_
  obtain ⟨a, ha, hrow⟩ := mem_rows_of_ownWrite ht'
  obtain ⟨b, hb, hrow'⟩ := mem_rows_of_ownWrite ht
  exact h.exclusive ha hb hrow hrow'

/-- An open transaction's value kept is of a row it wrote. -/
theorem Agrees.own_of_mem (h : Agrees c m) {t : Nat} {v : T}
    (hmem : (.pending t, v) ∈ c.updates.keptStamped row) : ∃ value, m.ownWrite t row = some value := by
  obtain ⟨kept, base, hshape⟩ := h.rows row
  have hkept : (Stamp.pending t, v) ∉ kept := by
    intro hin
    obtain ⟨e, he, -⟩ := hshape.committed _ hin
    cases he
  by_cases hsome : ∃ t' value, m.ownWrite t' row = some value
  · obtain ⟨t', value, hown⟩ := hsome
    rw [(hshape.own t' value hown).1] at hmem
    rcases mem_append.mp hmem with hin | hin
    · exact absurd hin hkept
    · cases mem_singleton.mp hin
      exact ⟨value, hown⟩
  · have hfree : ∀ t', m.ownWrite t' row = none := fun t' =>
      eq_none_iff_forall_ne_some.mpr fun value hw => hsome ⟨t', value, hw⟩
    rw [(hshape.free hfree).1] at hmem
    exact absurd hmem hkept

/-- The search of a transaction's own node finds it exactly where the transaction wrote
the row. -/
theorem Agrees.held_iff (h : Agrees c m) {t snapshot : Nat}
    (hw : m.writers[t]? = some (.active snapshot writes)) :
    c.updates.held row (.pending t) snapshot = (lastWrite writes row).isSome := by
  cases hlast : lastWrite writes row with
  | none =>
    rw [isSome_none, ← not_eq_true]
    intro hheld
    obtain ⟨v, hv⟩ := mem_of_held hheld
    obtain ⟨value, hown⟩ := h.own_of_mem hv
    rw [ownWrite_active hw, hlast] at hown
    cases hown
  | some value =>
    obtain ⟨kept, base, hshape⟩ := h.rows row
    have hkept := (hshape.own t value (by rw [ownWrite_active hw, hlast])).1
    refine held_of_mem (v := base) (by rw [hkept]; simp) ?_
    exact (h.stamps (vectorOf row)).imp fun hab ha => hab t snapshot writes hw ha

/-! ### A writer changed -/

/-- `m` with writer `w` for id `k`. -/
def Versioned.setWriter (m : Versioned T) (k : Nat) (w : RowWriter T) : Versioned T :=
  { m with writers := m.writers.insert k w }

theorem writers_setWriter (m : Versioned T) (k : Nat) (w : RowWriter T) (t : Nat) :
    (m.setWriter k w).writers[t]? = if t = k then some w else m.writers[t]? :=
  lookup_insert k t w

/-- What a writer wrote last to a row, while it is open. -/
def RowWriter.own (row : Nat) : RowWriter T → Option T
  | .active _ writes => lastWrite writes row
  | .committed _ _ => none

theorem ownWrite_eq (m : Versioned T) (t row : Nat) :
    m.ownWrite t row = m.writers[t]?.bind (RowWriter.own row) := by
  unfold Versioned.ownWrite
  cases m.writers[t]? with
  | none => rfl
  | some w => cases w <;> rfl

/-- `m'` is `m` with `w` for the writer `k`, where a commit of `k` goes on holding its rows, and
perhaps with new histories. -/
structure Versioned.Changed (m m' : Versioned T) (k : Nat) (w : RowWriter T) : Prop where
  lookup : ∀ t : Nat, m'.writers[t]? = if t = k then some w else m.writers[t]?
  commits : ∀ e rows, m.writers[k]? = some (.committed e rows) →
    ∃ rows', w = .committed e rows' ∧ ∀ row ∈ rows, row ∈ rows'
  published : m'.published = m.published
  floor : m'.floor = m.floor
  epoch : m.epoch ≤ m'.epoch

section Changed

variable {k : Nat} {w : RowWriter T}

/-- A writer that is no commit may be any other. -/
theorem setWriter_changed (h : ∀ e rows, m.writers[k]? ≠ some (.committed e rows)) :
    m.Changed (m.setWriter k w) k w :=
  ⟨writers_setWriter m k w, fun e rows hc => absurd hc (h e rows), rfl, rfl, le_rfl⟩

variable (hc : m.Changed m' k w)
include hc

theorem Versioned.Changed.own (t row : Nat) :
    m'.ownWrite t row = if t = k then w.own row else m.ownWrite t row := by
  rw [ownWrite_eq, ownWrite_eq, hc.lookup]
  split <;> rfl

/-- A commit that is not published goes on holding its rows. -/
theorem Versioned.Changed.onward (row : Nat) : m.Onward m' row where
  floor := hc.floor.symm.le
  epoch := hc.epoch
  held e he := by
    rw [hc.published]
    refine he.imp id fun hheld => ?_
    obtain ⟨t, rows, ht, hrow⟩ := hheld
    by_cases heq : t = k
    · obtain ⟨rows', hw, hsub⟩ := hc.commits e rows (heq ▸ ht)
      exact ⟨t, rows', by rw [hc.lookup, if_pos heq, hw], hsub row hrow⟩
    · exact ⟨t, rows, by rw [hc.lookup, if_neg heq, ht], hrow⟩

/-- The transactions open now were open before, with the same snapshot, if `k` was. -/
theorem Versioned.Changed.active
    (hw : ∀ s ws, w = .active s ws → ∃ ws', m.writers[k]? = some (.active s ws'))
    (t s : Nat) (ws : List (Nat × T)) (h : m'.writers[t]? = some (.active s ws)) :
    ∃ ws', m.writers[t]? = some (.active s ws') := by
  rw [hc.lookup] at h
  split at h
  next heq =>
    rw [heq]
    exact hw s ws (some.inj h)
  · exact ⟨ws, h⟩

/-- The log of `k` is changed with the writer. -/
theorem Versioned.Changed.logs {logs : Std.ExtTreeMap Nat (ColumnLog T)}
    (h : ∀ t : Nat, c.logs[t]? = logOf m.writers[t]?)
    (hlogs : ∀ t : Nat, logs[t]? = if t = k then logOf (some w) else c.logs[t]?) (t : Nat) :
    logs[t]? = logOf m'.writers[t]? := by
  rw [hlogs, hc.lookup, h]
  split <;> rfl

/-- The rule holds on, where the rows of `k` are those it held or free for it. -/
theorem WritersOk.change (h : WritersOk m)
    (hrows : ∀ row ∈ w.rows, (∃ a, m.writers[k]? = some a ∧ row ∈ a.rows) ∨
      row < rowsPerGroup ∧ m.freeFor k row = true)
    (hsnapshot : ∀ snapshot writes, w = .active snapshot writes → snapshot ≤ m.published) :
    WritersOk m' := by
  have hfree : ∀ {row : Nat}, row ∈ w.rows → ∀ {t : Nat} {a : RowWriter T},
      m.writers[t]? = some a → row ∈ a.rows → t = k := by
    intro row hrow t a ha hra
    rcases hrows row hrow with ⟨b, hb, hrb⟩ | ⟨-, hfree⟩
    · exact h.exclusive ha hb hra hrb
    · exact (freeFor_iff.mp hfree t a ha).resolve_right fun hnot => hnot hra
  refine ⟨fun {t t' a b row} ha hb hra hrb => ?_, fun {t a row} ha hra => ?_,
    fun {t snapshot writes} ht => ?_⟩
  · rw [hc.lookup] at ha hb
    by_cases ht : t = k
    · rw [if_pos ht, some.injEq] at ha
      by_cases ht' : t' = k
      · rw [ht, ht']
      · rw [if_neg ht'] at hb
        exact absurd (hfree (ha ▸ hra) hb hrb) ht'
    · rw [if_neg ht] at ha
      by_cases ht' : t' = k
      · rw [if_pos ht', some.injEq] at hb
        exact absurd (hfree (hb ▸ hrb) ha hra) ht
      · rw [if_neg ht'] at hb
        exact h.exclusive ha hb hra hrb
  · rw [hc.lookup] at ha
    split at ha
    · cases ha
      rcases hrows row hra with ⟨b, hb, hrb⟩ | ⟨hsmall, -⟩
      · exact h.small hb hrb
      · exact hsmall
    · exact h.small ha hra
  · rw [hc.lookup] at ht
    rw [hc.published]
    split at ht
    · exact hsnapshot snapshot writes (some.inj ht)
    · exact h.snapshots ht

end Changed

/-- Writers ended. -/
theorem WritersOk.of_sub (h : WritersOk m)
    (hsub : ∀ (t : Nat) (a : RowWriter T), m'.writers[t]? = some a → m.writers[t]? = some a)
    (hpublished : m.published ≤ m'.published) : WritersOk m' where
  exclusive ha hb hra hrb := h.exclusive (hsub _ _ ha) (hsub _ _ hb) hra hrb
  small ha hra := h.small (hsub _ _ ha) hra
  snapshots ht := (h.snapshots (hsub _ _ ht)).trans hpublished

section

variable (h : Agrees c m) (hactive : ∀ (t snapshot : Nat) (writes : List (Nat × T)),
  m'.writers[t]? = some (.active snapshot writes) →
    ∃ writes', m.writers[t]? = some (.active snapshot writes'))
include h hactive

/-- The order of the stamps, of nodes that stayed, for writers that were there. -/
theorem Agrees.stamps_of_sub
    (hsub : ∀ vector, (c'.updates.stampsOf vector).Sublist (c.updates.stampsOf vector))
    (vector : Nat) :
    (c'.updates.stampsOf vector).Pairwise (NewerUnseen m') := by
  refine ((h.stamps vector).sublist (hsub vector)).imp ?_
  intro a b hab t snapshot writes ht ha
  obtain ⟨writes', hw⟩ := hactive t snapshot writes ht
  exact hab t snapshot writes' hw ha

/-- The order of the stamps with one more node, of a writer no open transaction sees. -/
theorem Agrees.stamps_push {s : Stamp}
    (hpush : ∀ vector, c'.updates.stampsOf vector = c.updates.stampsOf vector ∨
      c'.updates.stampsOf vector = c.updates.stampsOf vector ++ [s])
    (hs : ∀ (t snapshot : Nat) (writes : List (Nat × T)),
      m'.writers[t]? = some (.active snapshot writes) → s.committedBy snapshot = false)
    (vector : Nat) : (c'.updates.stampsOf vector).Pairwise (NewerUnseen m') := by
  have hold : (c.updates.stampsOf vector).Pairwise (NewerUnseen m') :=
    h.stamps_of_sub hactive (fun _ => .refl _) vector
  rcases hpush vector with heq | heq
  · rw [heq]
    exact hold
  · rw [heq, pairwise_concat]
    exact ⟨hold, fun _ _ t snapshot writes ht _ => hs t snapshot writes ht⟩

end

section

variable (h : RowShape c m row kept base)
include h

/-- A commit after the published epoch is after every commit of a row that no other
commit holds. -/
theorem RowShape.committedBy_of_free (hpublished : m.published < epoch)
    (hheld : ∀ e, m.Held e row → e = epoch) : ∀ entry ∈ kept, entry.1.committedBy epoch = true := by
  intro entry hentry
  obtain ⟨e, he, -, hpub⟩ := h.committed entry hentry
  rw [he, Stamp.committedBy, decide_eq_true_eq]
  rcases hpub with hpub | hpub
  · omega
  · exact (hheld e hpub).le

variable (hon : m.Onward m' row)
include hon

/-- The commits of a row stay commits of it. -/
theorem RowShape.onward : ∀ entry ∈ kept, ∃ e, entry.1 = .epoch e ∧ e ≤ m'.epoch ∧
    (e ≤ m'.published ∨ m'.Held e row) := by
  intro entry hentry
  obtain ⟨e, he, hle, hpub⟩ := h.committed entry hentry
  exact ⟨e, he, hle.trans hon.epoch, hon.held e hpub⟩

/-- A row whose committed values stayed keeps its shape, whoever wrote it since. -/
theorem RowShape.keeps
    (hhistory : m'.history row = m.history row) (hown : ∀ t value, m'.ownWrite t row = some value →
      c'.updates.keptStamped row = kept ++ [(.pending t, base)] ∧ c'.values row = value)
    (hfree : (∀ t, m'.ownWrite t row = none) →
      c'.updates.keptStamped row = kept ∧ c'.values row = base) : RowShape c' m' row kept base where
  committed := h.onward hon
  sorted := h.sorted
  reads x hx := by
    rw [hhistory]
    exact h.reads x (hon.floor.trans hx)
  own := hown
  free := hfree

/-- A row nothing was done to keeps its shape. -/
theorem RowShape.congr (hkept : c'.updates.keptStamped row = c.updates.keptStamped row)
    (hvalue : c'.values row = c.values row) (hhistory : m'.history row = m.history row)
    (hown : ∀ t, m'.ownWrite t row = m.ownWrite t row) : RowShape c' m' row kept base := by
  refine h.keeps hon hhistory (fun t value ht => ?_) fun hfree => ?_
  · rw [hkept, hvalue]
    exact h.own t value (hown t ▸ ht)
  · rw [hkept, hvalue]
    exact h.free fun t => hown t ▸ hfree t

/-- A row an open transaction wrote: what it held is kept under it. -/
theorem RowShape.owned_by {t : Nat}
    (hkept : c'.updates.keptStamped row = kept ++ [(.pending t, base)])
    (hvalue : c'.values row = value) (hhistory : m'.history row = m.history row)
    (hown : ∀ t', m'.ownWrite t' row = if t' = t then some value else none) :
    RowShape c' m' row kept base := by
  refine h.keeps hon hhistory (fun t' v ht' => ?_) fun hfree => ?_
  · rw [hown] at ht'
    split at ht'
    next heq =>
      cases ht'
      rw [heq]
      exact ⟨hkept, hvalue⟩
    · cases ht'
  · have := hfree t
    rw [hown, if_pos rfl] at this
    cases this

variable (hle : ∀ entry ∈ kept, entry.1.committedBy epoch = true) (hvalue : c'.values row = value)
  (hhistory : m'.history row = (m.history row).push epoch value)
  (hown : ∀ t, m'.ownWrite t row = none)
include hle hvalue hhistory hown

/-- A row committed at `epoch`, which no commit of the row is after: what it held is
kept for the readers before. -/
theorem RowShape.commit (hkept : c'.updates.keptStamped row = kept ++ [(.epoch epoch, base)])
    (hepoch : epoch ≤ m'.epoch) (hnew : m'.Held epoch row) :
    RowShape c' m' row (kept ++ [(.epoch epoch, base)]) value where
  committed := by
    exact forall_mem_concat.mpr ⟨h.onward hon, epoch, rfl, hepoch, .inr hnew⟩
  sorted := by
    refine pairwise_concat.mpr ⟨h.sorted, fun a ha x hx => ?_⟩
    exact committedBy_mono (hle a ha) (by simpa [Stamp.committedBy] using hx)
  reads x hx := by
    rw [scanAt_concat, hhistory, valueAt_push]
    by_cases he : epoch ≤ x
    · rw [if_pos he, scanAt_of_committed _ fun entry hentry => committedBy_mono (hle entry hentry) he]
      simp [Stamp.committedBy, he]
    · rw [if_neg he, ← h.reads x (hon.floor.trans hx)]
      simp [Stamp.committedBy, he]
  own t v ht := by
    rw [hown] at ht
    cases ht
  free _ := ⟨hkept, hvalue⟩

/-- A row committed at `epoch` again by the writer that committed it: the readers before
have what they need. -/
theorem RowShape.recommit {before : T} (hmem : (.epoch epoch, before) ∈ kept)
    (hkept : c'.updates.keptStamped row = kept) : RowShape c' m' row kept value where
  committed := h.onward hon
  sorted := h.sorted
  reads x hx := by
    rw [hhistory, valueAt_push]
    by_cases he : epoch ≤ x
    · rw [if_pos he, scanAt_of_committed _ fun entry hentry => committedBy_mono (hle entry hentry) he]
    rw [if_neg he, ← h.reads x (hon.floor.trans hx)]
    unfold scanAt
    cases hfind : kept.find? fun entry => !entry.1.committedBy x with
    | some found => rfl
    | none =>
      have := find?_eq_none.mp hfind _ hmem
      simp [Stamp.committedBy, he] at this
  own t v ht := by
    rw [hown] at ht
    cases ht
  free _ := ⟨hkept, hvalue⟩

end

end Grafeo.RowGroup
