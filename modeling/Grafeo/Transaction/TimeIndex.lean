import Mathlib
import Grafeo.Transaction.History

/-!
# Grafeo.Transaction.TimeIndex

The **time index** over whole runs: every commit time that is recorded, every collect
that trims the index, history turned off and on, the anchor of an open and the image a
load restores.

What a read at a time has to find is stated over the index **as it would be had no
collect trimmed it** (`applyFull`): its pairs are the recorded ones. The index of the
code is the end of that list, and what is missing from it is before the floor
(`Trims`), so a read the floor allows finds the same epoch in both. Turning history off
drops the recorded pairs, and a restore replaces them with the image's.
-/

namespace Grafeo.Transaction

open List Option Nat

namespace History

/-- One call on the history. A clock reads what it likes; so does the time a commit is
    recorded with. -/
inductive Op where
  | nextTime (now : Nat)
  | record (epoch millis : Nat)
  | collectedAt (horizon : Nat)
  | setRetention (retention : HistoryRetention) (published now : Nat)
  | anchor (published now : Nat)
  | restore (image : Image)

def apply (history : History) : Op → History
  | .nextTime now => (history.nextTime now).2
  | .record epoch millis => history.record epoch millis
  | .collectedAt horizon => history.collectedAt horizon
  | .setRetention retention published now => history.setRetention retention published now
  | .anchor published now => history.anchor published now
  | .restore image => history.restore image

/-- The same call, but a collect only moves the floor. -/
def applyFull (history : History) : Op → History
  | .collectedAt horizon => { history with floor := max history.floor horizon }
  | op => history.apply op

/-! ### Ascending times -/

theorem Ascends.append {times : List (Nat × Nat)} {epoch millis : Nat} (h : Ascends times)
    (hepoch : newestBefore times epoch = true) (hmillis : ∀ commit ∈ times, commit.2 ≤ millis) :
    Ascends (times ++ [(epoch, millis)]) := by
  refine pairwise_append.mpr ⟨h, pairwise_singleton .., ?_⟩
  intro commit hcommit last hlast
  obtain rfl : last = (epoch, millis) := mem_singleton.mp hlast
  refine ⟨?_, hmillis commit hcommit⟩
  -- The newest is before `epoch`, and every other one before the newest.
  rcases eq_nil_or_concat' times with rfl | ⟨older, newest, rfl⟩
  · cases hcommit
  have hnewest : newest.1 < epoch := by simpa [newestBefore] using hepoch
  rcases mem_append.mp hcommit with hold | hnew
  · have hlt := (pairwise_append.mp h).2.2 commit hold newest (mem_singleton.mpr rfl)
    exact hlt.1.trans hnewest
  · rw [mem_singleton.mp hnew]
    exact hnewest

/-- The last time of an ascending index is its greatest. -/
theorem Ascends.le_last {times : List (Nat × Nat)} {last commit : Nat × Nat} (h : Ascends times)
    (hlast : times.getLast? = some last) (hcommit : commit ∈ times) : commit.2 ≤ last.2 := by
  obtain ⟨older, rfl⟩ := getLast?_eq_some_iff.mp hlast
  rcases mem_append.mp hcommit with hold | hnew
  · exact ((pairwise_append.mp h).2.2 commit hold last (mem_singleton.mpr rfl)).2
  · rw [mem_singleton.mp hnew]

/-! ### The invariant -/

/-- The index ascends, no commit is later than the last time given out, and history that
    is off keeps no times. -/
structure Ok (history : History) : Prop where
  ascends : Ascends history.times
  last : ∀ commit ∈ history.times, commit.2 ≤ history.lastTime
  on : history.on = decide (history.retention ≠ .off)
  off : history.on = false → history.times = []

theorem Ok.opened (retention : HistoryRetention) : Ok (History.opened retention) where
  ascends := .nil
  last := nofun
  on := rfl
  off _ := rfl

variable {history full : History} {millis : Nat} {timestamp : Int}

theorem Ok.nextTime (h : Ok history) (now : Nat) : Ok (history.nextTime now).2 :=
  { h with last := fun commit hcommit => (h.last commit hcommit).trans (le_max_left ..) }

/-- The time a commit is recorded with: never before the newest one. -/
def recordedMillis (history : History) (millis : Nat) : Nat :=
  history.times.getLast?.elim millis fun newest => max millis newest.2

section

variable (h : Ok history)
include h

theorem Ok.le_recordedMillis (millis : Nat) :
    ∀ commit ∈ history.times, commit.2 ≤ history.recordedMillis millis := by
  intro commit hcommit
  cases hlast : history.times.getLast? with
  | none =>
    rw [getLast?_eq_none_iff.mp hlast] at hcommit
    cases hcommit
  | some newest =>
    simp only [recordedMillis, hlast, elim_some]
    exact (h.ascends.le_last hlast hcommit).trans (le_max_right ..)

theorem Ok.record (epoch millis : Nat) : Ok (history.record epoch millis) := by
  simp only [History.record]
  split
  next hon =>
    refine ⟨?_, ?_, h.on, fun hoff => by rw [hon] at hoff; cases hoff⟩
    · show Ascends (if newestBefore history.times epoch then _ else _)
      split
      next hnewest => exact h.ascends.append hnewest (h.le_recordedMillis millis)
      · exact h.ascends
    · show ∀ commit ∈ (if newestBefore history.times epoch then _ else _), _
      intro commit hcommit
      have hold : ∀ commit ∈ history.times, commit.2 ≤
          max history.lastTime (history.recordedMillis millis) :=
        fun commit hcommit => (h.last commit hcommit).trans (le_max_left ..)
      split at hcommit
      · exact forall_mem_append.mpr ⟨hold, forall_mem_singleton.mpr (le_max_right ..)⟩ commit hcommit
      · exact hold commit hcommit
  · exact h

theorem Ok.anchor (published now : Nat) : Ok (history.anchor published now) := by
  simp only [History.anchor]
  split
  · exact (h.nextTime now).record ..
  · exact h

theorem Ok.setRetention (retention : HistoryRetention) (published now : Nat) :
    Ok (history.setRetention retention published now) := by
  cases retention with
  | off => exact ⟨.nil, forall_mem_nil _, rfl, fun _ => rfl⟩
  | _ =>
    simp only [History.setRetention]
    split
    · -- Turned on: the published epoch is recorded at a time no earlier than any before.
      split
      next hnewest =>
        have hnext := (h.nextTime now).last
        exact ⟨h.ascends.append hnewest hnext,
          forall_mem_append.mpr ⟨hnext, forall_mem_singleton.mpr le_rfl⟩, rfl, by simp⟩
      · exact ⟨h.ascends, (h.nextTime now).last, rfl, by simp⟩
    · exact ⟨h.ascends, h.last, rfl, by simp⟩

theorem Ok.collectedAt (horizon : Nat) : Ok (history.collectedAt horizon) := by
  simp only [History.collectedAt]
  split
  next hon =>
    refine ⟨Pairwise.sublist (drop_sublist ..) h.ascends, ?_, h.on, ?_⟩
    · exact fun commit hcommit => h.last commit (mem_of_mem_drop hcommit)
    · intro hoff
      rw [hon.1] at hoff
      cases hoff
  · exact { h with }

theorem Ok.restore (image : Image) : Ok (history.restore image) := by
  simp only [History.restore]
  split
  next hon =>
    refine ⟨image.ascends, fun commit hcommit => ?_, h.on, fun hoff => ?_⟩
    · show commit.2 ≤ image.times.getLast?.elim ..
      cases hlast : image.times.getLast? with
      | none =>
        rw [getLast?_eq_none_iff.mp hlast] at hcommit
        cases hcommit
      | some last =>
        exact (image.ascends.le_last hlast hcommit).trans (le_max_right ..)
    · rw [hon] at hoff
      cases hoff
  · exact { h with }

theorem Ok.apply (op : Op) : Ok (history.apply op) := by
  cases op with
  | nextTime now => exact h.nextTime now
  | record epoch millis => exact h.record epoch millis
  | collectedAt horizon => exact h.collectedAt horizon
  | setRetention retention published now => exact h.setRetention retention published now
  | anchor published now => exact h.anchor published now
  | restore image => exact h.restore image

theorem Ok.applyFull (op : Op) : Ok (history.applyFull op) := by
  have happly := h.apply op
  cases op with
  | collectedAt horizon => exact { h with }
  | nextTime | record | setRetention | anchor | restore => exact happly

end

/-! ### The trimmed index and the full one -/

/-- `history` is `full` with the commits `dropped` by collects: all of them before the
    floor, and never the newest. -/
structure Trims (full history : History) (dropped : List (Nat × Nat)) : Prop where
  on : history.on = full.on
  retention : history.retention = full.retention
  lastTime : history.lastTime = full.lastTime
  floor : history.floor = full.floor
  times : full.times = dropped ++ history.times
  before : ∀ commit ∈ dropped, commit.1 < history.floor
  newest : history.times = [] → dropped = []

variable {dropped : List (Nat × Nat)}

theorem Trims.refl (history : History) : Trims history history [] :=
  ⟨rfl, rfl, rfl, rfl, rfl, nofun, fun _ => rfl⟩

section

variable (h : Trims full history dropped)
include h

/-- Both have the same newest commit. -/
theorem Trims.getLast? : full.times.getLast? = history.times.getLast? := by
  rw [h.times]
  rcases eq_nil_or_concat' history.times with hnil | ⟨older, newest, hconcat⟩
  · rw [hnil, h.newest hnil]
    rfl
  · rw [hconcat, ← append_assoc]
    simp

theorem Trims.newestBefore (epoch : Nat) :
    newestBefore full.times epoch = newestBefore history.times epoch := by
  rw [History.newestBefore, History.newestBefore, h.getLast?]

theorem Trims.nextTime (now : Nat) : Trims (full.nextTime now).2 (history.nextTime now).2 dropped :=
  { h with lastTime := by simp [History.nextTime, h.lastTime] }

theorem Trims.record (epoch millis : Nat) :
    Trims (full.record epoch millis) (history.record epoch millis) dropped := by
  simp only [History.record, h.on, h.getLast?, h.newestBefore, h.lastTime]
  split
  · split
    · refine ⟨rfl, h.retention, rfl, h.floor, ?_, h.before, fun hnil => ?_⟩
      · simp [h.times]
      · simp at hnil
    · exact { h with on := rfl, lastTime := rfl }
  · exact h

theorem Trims.anchor (published now : Nat) :
    Trims (full.anchor published now) (history.anchor published now) dropped := by
  have htime : (history.nextTime now).1 = (full.nextTime now).1 := by
    simp [History.nextTime, h.lastTime]
  simp only [History.anchor, h.on, h.newestBefore, htime]
  split
  · exact (h.nextTime now).record ..
  · exact h

theorem Trims.setRetention (retention : HistoryRetention) (published now : Nat) :
    ∃ dropped, Trims (full.setRetention retention published now)
      (history.setRetention retention published now) dropped := by
  simp only [History.setRetention, h.retention, h.newestBefore, History.nextTime, h.lastTime]
  split
  · split
    · refine ⟨dropped, rfl, rfl, rfl, h.floor, ?_, h.before, fun hnil => ?_⟩
      · simp [h.times]
      · simp at hnil
    · exact ⟨dropped, { h with on := rfl, retention := rfl, lastTime := rfl }⟩
  · split
    · exact ⟨[], rfl, rfl, rfl, h.floor, rfl, forall_mem_nil _, fun _ => rfl⟩
    · exact ⟨dropped, { h with on := rfl, retention := rfl, lastTime := rfl }⟩

end

/-- What a collect keeps of an ascending index: the newest commit at or before the
    horizon and the later ones. -/
theorem Ascends.keptFrom {times : List (Nat × Nat)} (h : Ascends times) (horizon : Nat) :
    ∃ gone kept, times = gone ++ kept ∧
      times.drop ((times.takeWhile fun commit => commit.1 ≤ horizon).length - 1) = kept ∧
      (∀ commit ∈ gone, commit.1 < horizon) ∧ (kept = [] → gone = []) := by
  have hsplit := takeWhile_append_dropWhile (p := fun commit => decide (commit.1 ≤ horizon))
    (l := times)
  rcases eq_nil_or_concat' (times.takeWhile fun commit => commit.1 ≤ horizon) with
    hnil | ⟨gone, newest, hconcat⟩
  · exact ⟨[], times, rfl, by rw [hnil]; rfl, nofun, fun _ => rfl⟩
  rw [hconcat, append_assoc] at hsplit
  refine ⟨gone, _, hsplit.symm, ?_, fun commit hcommit => ?_, fun hnil => by simp at hnil⟩
  · rw [hconcat, length_append, length_singleton, Nat.add_sub_cancel]
    conv_lhs => rw [← hsplit]
    rw [drop_left]
  have hnewest : newest.1 ≤ horizon := by
    have hmem : newest ∈ times.takeWhile fun commit => decide (commit.1 ≤ horizon) := by
      rw [hconcat]
      simp
    simpa using mem_takeWhile_imp hmem
  rw [← hsplit] at h
  have hlt := (pairwise_append.mp h).2.2 commit hcommit newest (by simp)
  exact hlt.1.trans_le hnewest

theorem Trims.collectedAt (h : Trims full history dropped) (hok : Ok history) (horizon : Nat) :
    ∃ dropped, Trims (full.applyFull (.collectedAt horizon)) (history.collectedAt horizon)
      dropped := by
  have hfloor : max history.floor horizon = max full.floor horizon := by rw [h.floor]
  have hbefore : ∀ commit ∈ dropped, commit.1 < max history.floor horizon :=
    fun commit hcommit => (h.before commit hcommit).trans_le (le_max_left ..)
  simp only [History.collectedAt]
  split
  · obtain ⟨gone, kept, hsplit, hkept, hgone, hnewest⟩ := hok.ascends.keptFrom horizon
    refine ⟨dropped ++ gone, h.on, h.retention, h.lastTime, hfloor, ?_,
      forall_mem_append.mpr ⟨hbefore, fun commit hcommit =>
        (hgone commit hcommit).trans_le (le_max_right ..)⟩, ?_⟩
    · show full.times = dropped ++ gone ++ history.times.drop _
      rw [h.times, hkept, hsplit, append_assoc]
    · intro hnil
      have hnil : kept = [] := hkept.symm.trans hnil
      have htimes : history.times = [] := by rw [hsplit, hnil, hnewest hnil]; rfl
      rw [h.newest htimes, hnewest hnil]
      rfl
  · exact ⟨dropped, h.on, h.retention, h.lastTime, hfloor, h.times, hbefore, h.newest⟩

theorem Trims.restore (h : Trims full history dropped) (image : Image) :
    ∃ dropped, Trims (full.restore image) (history.restore image) dropped := by
  have hfloor : max history.floor image.floor = max full.floor image.floor := by rw [h.floor]
  simp only [History.restore, h.on, h.lastTime]
  split
  · exact ⟨[], rfl, h.retention, rfl, hfloor, rfl, nofun, fun _ => rfl⟩
  · exact ⟨dropped, rfl, h.retention, rfl, hfloor, h.times,
      fun commit hcommit => (h.before commit hcommit).trans_le (le_max_left ..),
      h.newest⟩

/-- One call: a collect drops more commits, and every other call does the same to both. -/
theorem Trims.apply (h : Trims full history dropped) (hok : Ok history) (op : Op) :
    ∃ dropped, Trims (full.applyFull op) (history.apply op) dropped := by
  cases op with
  | nextTime now => exact ⟨dropped, h.nextTime now⟩
  | record epoch millis => exact ⟨dropped, h.record epoch millis⟩
  | collectedAt horizon => exact h.collectedAt hok horizon
  | setRetention retention published now => exact h.setRetention retention published now
  | anchor published now => exact ⟨dropped, h.anchor published now⟩
  | restore image => exact h.restore image

/-- Every run: both keep their invariant, and the one is the other trimmed. -/
theorem trims_run (retention : HistoryRetention) (ops : List Op) :
    Ok (ops.foldl History.apply (opened retention)) ∧ Ok (ops.foldl applyFull (opened retention)) ∧
      ∃ dropped, Trims (ops.foldl applyFull (opened retention))
        (ops.foldl History.apply (opened retention)) dropped := by
  induction ops using reverseRecOn with
  | nil => exact ⟨Ok.opened retention, Ok.opened retention, [], Trims.refl _⟩
  | append_singleton ops op ih =>
    obtain ⟨hok, hfull, dropped, htrims⟩ := ih
    simp only [foldl_append, foldl_cons, foldl_nil]
    exact ⟨hok.apply op, hfull.applyFull op, htrims.apply hok op⟩

/-! ### Reads at a time -/

/-- The epochs of the commits of `recorded` at or before `timestamp`, which is in
    microseconds where commit times are in milliseconds. -/
def committedUntil (recorded : List (Nat × Nat)) (timestamp : Int) : Set Nat :=
  { epoch | ∃ millis : Nat, (epoch, millis) ∈ recorded ∧ (millis : Int) * 1000 ≤ timestamp }

theorem le_millisOf (h : (millis : Int) * 1000 ≤ timestamp) : millis ≤ millisOf timestamp := by
  have hnonneg : 0 ≤ timestamp := by omega
  rw [millisOf, Int.tdiv_eq_ediv_of_nonneg hnonneg]
  omega

theorem le_of_le_millisOf (hnonneg : 0 ≤ timestamp)
    (h : millis ≤ millisOf timestamp) : (millis : Int) * 1000 ≤ timestamp := by
  rw [millisOf, Int.tdiv_eq_ediv_of_nonneg hnonneg] at h
  omega

/-- The search finds a commit with the earlier ones before it and the later ones after
    the time. -/
theorem committedBy_split {earlier later : List (Nat × Nat)} {commit : Nat × Nat}
    (hearlier : ∀ other ∈ earlier, other.2 ≤ millis) (hcommit : commit.2 ≤ millis)
    (hlater : ∀ other ∈ later, millis < other.2) :
    committedBy (earlier ++ commit :: later) millis = earlier.length + 1 := by
  have hnil : later.takeWhile (fun other => decide (other.2 ≤ millis)) = [] := by
    cases later with
    | nil => rfl
    | cons other later =>
      refine takeWhile_cons_of_neg ?_
      simpa using hlater other mem_cons_self
  rw [committedBy, takeWhile_append_of_pos (by simpa using hearlier),
    takeWhile_cons_of_pos (by simpa using hcommit), hnil, length_append,
    length_singleton]

/-- A read at a time whose epoch is not before the floor finds it in the trimmed index. -/
theorem Trims.epochAt (h : Trims full history dropped) (hfull : Ok full)
    {epoch : Nat} (hgreatest : IsGreatest (committedUntil full.times timestamp) epoch)
    (hfloor : history.floor ≤ epoch) : history.epochAt timestamp = .ok epoch := by
  obtain ⟨⟨millis, hmem, hmillis⟩, hbound⟩ := hgreatest
  have hon : history.on = true := by
    cases hoff : history.on with
    | true => rfl
    | false =>
      rw [hfull.off (h.on.symm.trans hoff)] at hmem
      cases hmem
  -- What collects dropped is before the floor, so the commit is still in the index.
  have hkept : (epoch, millis) ∈ history.times := by
    rw [h.times] at hmem
    rcases mem_append.mp hmem with hgone | hkept
    · exact absurd (h.before _ hgone) (not_lt.mpr hfloor)
    · exact hkept
  obtain ⟨earlier, later, hsplit⟩ := append_of_mem hkept
  have hascends : Ascends (earlier ++ (epoch, millis) :: later) := by
    rw [← hsplit]
    have hall := hfull.ascends
    rw [h.times] at hall
    exact (pairwise_append.mp hall).2.1
  obtain ⟨-, hrest, hbefore⟩ := pairwise_append.mp hascends
  have hbefore : ∀ other ∈ earlier, other.2 ≤ millisOf timestamp := fun other hother =>
    (hbefore other hother _ mem_cons_self).2.trans (le_millisOf hmillis)
  -- A later commit has a greater epoch, so it is after the time.
  have hafter : ∀ other ∈ later, millisOf timestamp < other.2 := by
    intro other hother
    have hgreater := ((pairwise_cons.mp hrest).1 other hother).1
    by_contra hle
    have hsoon : (other.2 : Int) * 1000 ≤ timestamp :=
      le_of_le_millisOf (by omega) (le_of_not_gt hle)
    have hrecorded : (other.1, other.2) ∈ full.times := by
      rw [h.times, hsplit]
      simp [hother]
    exact not_lt.mpr (hbound ⟨other.2, hrecorded, hsoon⟩) hgreater
  have hcount : committedBy history.times (millisOf timestamp) = earlier.length + 1 := by
    rw [hsplit]
    exact committedBy_split hbefore (le_millisOf hmillis) hafter
  have hfound : history.times[earlier.length]? = some (epoch, millis) := by
    rw [hsplit]
    simp
  simp [History.epochAt, hon, hcount, hfound, not_lt.mpr hfloor]

/-- A read at a time depends on the index and the floor alone. -/
theorem epochAt_congr {other : History} (hon : history.on = other.on)
    (htimes : history.times = other.times) (hfloor : history.floor = other.floor)
    (timestamp : Int) : history.epochAt timestamp = other.epochAt timestamp := by
  unfold epochAt beforeFloor
  rw [hon, htimes, hfloor]

end History

/-- **A read at a time finds the last epoch committed by then.** After every sequence of
    commit times given out and recorded, collects, changes of the retention, anchors and
    restores, whatever the clock reads: the recorded pairs ascend strictly in their epochs
    and never go back in their times, the index is the end of them, a read at a time whose
    last recorded epoch is not before the floor returns that epoch, and no collect that
    leaves that epoch at or above the floor changes its answer. -/
theorem epochAt_run (retention : HistoryRetention) (ops : List History.Op) :
    let history := ops.foldl History.apply (History.opened retention)
    let recorded := (ops.foldl History.applyFull (History.opened retention)).times
    History.Ascends recorded ∧ history.times <:+ recorded ∧
      ∀ timestamp epoch, IsGreatest (History.committedUntil recorded timestamp) epoch →
        history.floor ≤ epoch →
        history.epochAt timestamp = .ok epoch ∧
          ∀ horizon, (history.collectedAt horizon).floor ≤ epoch →
            (history.collectedAt horizon).epochAt timestamp = history.epochAt timestamp := by
  intro history recorded
  obtain ⟨hok, hfull, dropped, htrims⟩ := History.trims_run retention ops
  refine ⟨hfull.ascends, ⟨dropped, htrims.times.symm⟩, fun timestamp epoch hgreatest hfloor => ?_⟩
  have hread := htrims.epochAt hfull hgreatest hfloor
  refine ⟨hread, fun horizon hhorizon => ?_⟩
  obtain ⟨more, hcollected⟩ := htrims.collectedAt hok horizon
  have hafter := hcollected.epochAt (hfull.applyFull _) hgreatest hhorizon
  exact hafter.trans hread.symm

/-- Two commits a second apart, the clock going back between them, and a collect at the
    first. -/
def collectedCommits : List History.Op :=
  [.anchor 0 500, .nextTime 1000, .record 1 1000, .record 3 900, .record 4 2000, .collectedAt 3]

/-- The collect drops the anchor and the first commit, and a read half a second after
    the second commit finds it before and after another collect. -/
theorem epochAt_run_collectedCommits :
    let history := collectedCommits.foldl History.apply (History.opened .forever)
    history.times = [(3, 1000), (4, 2000)] ∧ history.epochAt 1500000 = .ok 3 ∧
      (history.collectedAt 2).epochAt 1500000 = history.epochAt 1500000 := by
  intro history
  have hrecorded : (collectedCommits.foldl History.applyFull (History.opened .forever)).times =
      [(0, 500), (1, 1000), (3, 1000), (4, 2000)] := by decide
  have hgreatest : IsGreatest (History.committedUntil
      (collectedCommits.foldl History.applyFull (History.opened .forever)).times 1500000) 3 := by
    rw [hrecorded]
    refine ⟨⟨1000, by decide, by decide⟩, ?_⟩
    intro epoch hepoch
    obtain ⟨millis, hmem, hmillis⟩ := hepoch
    simp only [mem_cons, not_mem_nil, or_false, Prod.mk.injEq] at hmem
    omega
  obtain ⟨-, -, hread⟩ := epochAt_run .forever collectedCommits
  obtain ⟨hfound, hcollected⟩ := hread 1500000 3 hgreatest (by decide)
  exact ⟨by decide, hfound, hcollected 2 (by decide)⟩

end Grafeo.Transaction
