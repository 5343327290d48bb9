import Mathlib.Algebra.Group.Int.Defs
import Mathlib.Algebra.Group.Nat.Defs

/-!
# Grafeo.Transaction.History

The database's history (`transaction/history.rs`): how long it keeps it, when
each commit happened, and the **floor**, the oldest epoch a read may still ask
for.

Times are milliseconds since the Unix epoch. The clock is an argument: a function
that reads it takes what it reads. `partition_point` of a time index whose times
do not go back is the number of its leading entries that satisfy the predicate.
-/

namespace Grafeo.Transaction

/-- How long the database keeps history. -/
inductive HistoryRetention where
  | off
  | forever
  | duration (millis : Nat)
deriving DecidableEq, Repr

structure History where
  on : Bool := false
  retention : HistoryRetention := .off
  /-- `(epoch, millis)` of each commit, epochs ascending. -/
  times : List (Nat × Nat) := []
  /-- The last time a commit took, so the next one never goes back. -/
  lastTime : Nat := 0
  /-- The newest collect horizon. -/
  floor : Nat := 0
deriving DecidableEq, Repr

namespace History

/-- The time the next commit takes: now, or the last time when the clock went back. -/
def nextTime (history : History) (now : Nat) : Nat × History :=
  (max history.lastTime now, { history with lastTime := max history.lastTime now })

/-- The time a commit takes, `none` while history is off. -/
def commitTime (history : History) (now : Nat) : Option Nat × History :=
  if history.on then
    let (time, history) := history.nextTime now
    (some time, history)
  else (none, history)

/-- Whether the newest recorded commit is before `epoch`, or none is recorded. -/
def newestBefore (times : List (Nat × Nat)) (epoch : Nat) : Bool :=
  times.getLast?.all fun newest => newest.1 < epoch

/-- Records that `epoch` committed at `millis`; an epoch at or below the newest
    recorded one changes nothing. -/
def record (history : History) (epoch millis : Nat) : History :=
  if history.on then
    let millis := history.times.getLast?.elim millis fun newest => max millis newest.2
    let times := if newestBefore history.times epoch then history.times ++ [(epoch, millis)]
      else history.times
    { history with times := times, lastTime := max history.lastTime millis }
  else history

/-- Sets the retention from now on: turned on, the index starts at the published
    epoch; turned off, it is dropped. -/
def setRetention (history : History) (retention : HistoryRetention) (published now : Nat) :
    History :=
  let wasOn := history.retention ≠ .off
  let on := retention ≠ .off
  let history := { history with retention := retention }
  let history :=
    if on ∧ ¬ wasOn then
      let (now, history) := history.nextTime now
      if newestBefore history.times published then
        { history with times := history.times ++ [(published, now)] }
      else history
    else if ¬ on then { history with times := [] }
    else history
  { history with on := on }

/-- Records `published` now when no commit at or after it is recorded. -/
def anchor (history : History) (published now : Nat) : History :=
  if history.on ∧ newestBefore history.times published then
    let (now, history) := history.nextTime now
    history.record published now
  else history

/-- How many leading commits happened at or before `millis`. -/
def committedBy (times : List (Nat × Nat)) (millis : Nat) : Nat :=
  (times.takeWhile fun commit => commit.2 ≤ millis).length

/-- The start of the retention window: `none` while history is off, the floor for
    `forever` and for a window that reaches back past every recorded commit, else
    the last epoch committed at or before now minus the window. -/
def retentionHorizon (history : History) (now : Nat) : Option Nat :=
  if history.on then
    match history.retention with
    | .off => none
    | .forever => some history.floor
    | .duration window =>
        let start := now - min window (2 ^ 64 - 1)
        let epoch := match committedBy history.times start with
          | 0 => history.floor
          | index + 1 => (history.times[index]?.map Prod.fst).getD history.floor
        some (max epoch history.floor)
  else none

/-- Moves the floor to `horizon` when it is later, and drops the commit times no
    read needs any more. -/
def collectedAt (history : History) (horizon : Nat) : History :=
  let floor := max history.floor horizon
  if history.on ∧ horizon > history.floor then
    let keepFrom := (history.times.takeWhile fun commit => commit.1 ≤ horizon).length - 1
    { history with floor := floor, times := history.times.drop keepFrom }
  else { history with floor := floor }

/-- The error of a read at `epoch`, before the floor. -/
def beforeFloor (history : History) (epoch : Nat) : String :=
  s!"history before epoch {history.floor} is not retained: a read at epoch {epoch} asks for " ++
    "older history than the database keeps (see its history retention)"

/-- The errors of a read at a time. -/
inductive Error where
  | off
  /-- A time before the oldest recorded commit, both in microseconds. -/
  | notRetained (oldest timestamp : Int)
  | beforeFloor (message : String)
deriving DecidableEq, Repr

/-- The text of an error; `display` is how a timestamp prints. -/
def Error.message (display : Int → String) : Error → String
  | .off =>
      "a read at a time needs history: the database keeps none (its history retention is off)"
  | .notRetained oldest timestamp =>
      s!"history before {display oldest} is not retained: a read at {display timestamp} asks " ++
        "for older history than the database keeps"
  | .beforeFloor message => message

/-- The milliseconds of a timestamp in microseconds, 0 for one before the Unix epoch. -/
def millisOf (timestamp : Int) : Nat :=
  (timestamp.tdiv 1000).toNat

/-- The epoch a read at `timestamp`, in microseconds, reads at: the last one committed
    at or before it. -/
def epochAt (history : History) (timestamp : Int) : Except Error Nat :=
  if history.on then
    match committedBy history.times (millisOf timestamp) with
    | 0 =>
        let oldest := (history.times.head?.map Prod.snd).getD 0
        -- `Timestamp::from_millis` multiplies in 64 bits.
        .error (.notRetained ((min (oldest : Int) (2 ^ 63 - 1) * 1000).bmod (2 ^ 64)) timestamp)
    | index + 1 =>
        let epoch := (history.times[index]?.map Prod.fst).getD 0
        if epoch < history.floor then .error (.beforeFloor (history.beforeFloor epoch))
        else .ok epoch
  else .error .off

/-! ### Images -/

/-- Epochs ascending, times not going back. -/
def Ascends (times : List (Nat × Nat)) : Prop :=
  times.Pairwise fun earlier later => earlier.1 < later.1 ∧ earlier.2 ≤ later.2

/-- What a checkpoint writes of the history, and a load gives back. The decoder refuses
    a commit that does not follow the one before it. -/
structure Image where
  floor : Nat
  times : List (Nat × Nat)
  ascends : Ascends times

/-- Sets the retention an open starts with, before it loads anything. -/
def opened (retention : HistoryRetention) : History :=
  { on := retention ≠ .off, retention := retention }

/-- What a checkpoint writes, `none` while history is off. -/
def image (history : History) (ascends : Ascends history.times) : Option Image :=
  if history.on then some { floor := history.floor, times := history.times, ascends } else none

/-- Takes in what a load read; the times are kept while history is on. -/
def restore (history : History) (image : Image) : History :=
  let history := { history with floor := max history.floor image.floor }
  if history.on then
    { history with
      times := image.times
      lastTime := image.times.getLast?.elim history.lastTime fun last =>
        max history.lastTime last.2 }
  else history

/-! ### The floor -/

@[simp] theorem floor_commitTime (history : History) (now : Nat) :
    (history.commitTime now).2.floor = history.floor := by
  unfold commitTime
  split <;> rfl

@[simp] theorem floor_record (history : History) (epoch millis : Nat) :
    (history.record epoch millis).floor = history.floor := by
  unfold record
  split <;> rfl

@[simp] theorem floor_setRetention (history : History) (retention : HistoryRetention)
    (published now : Nat) :
    (history.setRetention retention published now).floor = history.floor := by
  simp only [setRetention]
  split <;> split <;> rfl

@[simp] theorem floor_collectedAt (history : History) (horizon : Nat) :
    (history.collectedAt horizon).floor = max history.floor horizon := by
  simp only [collectedAt]
  split <;> rfl

end History

end Grafeo.Transaction
