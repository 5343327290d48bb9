import Grafeo.RowGroup.VersionBits

/-!
# Grafeo.RowGroup.VersionShapes

**What a vector's shapes hold together.** The delete stamps of a few rows go up by row and
stand for exactly the rows with a delete bit; in a vector with a stamp per row every row that
exists is written. Every operation keeps both, so each shape reads and writes row by row,
and the two ways to collapse a vector are one (`collapseVector_eq`).

**The versions of a row group over any calls, and what a collect makes of them.**

Whatever creates, deletes, commits, loads, undos and earlier collects a row group met, its
vectors keep their shapes (`versions_ok`). So the collect of every vector, which reads every
row, and the collects of the vectors one by one, which read what was written, do the same,
and no reader at the horizon or later can tell (`collapses_agree`).

**The reads of many rows, a word at a time, are those of each row.** A flat vector answers a
word of rows with its bits, a vector whose rows share one version with its bits or with none,
any other a row at a time (`getLsbD_visibleWord`). So a scan finds exactly the rows a reader
sees, ascending, and the count is theirs.
-/

namespace Grafeo.RowGroup.Bits

open List Option Function Lib Bitset Versions

open Bitset (get_add_bit)

/-! ### Delete stamps -/

namespace DeleteStamps

variable {s : DeleteStamps} {row r : Nat}

/-- A list of a few stamps goes up by row. -/
def Sorted : DeleteStamps → Prop
  | few list => Ascending list
  | perRow _ => True

theorem get_few {list : List (Nat × Stamp)} (h : Ascending list) (row : Nat) :
    (few list).get row = list.lookup row := by
  cases hs : search list row with
  | ok place =>
    obtain ⟨stamp, hlookup, hplace⟩ := lookup_of_search_ok hs
    simp [get, hs, hlookup, hplace]
  | error place => simp [get, hs, lookup_of_search_error h hs]

/-- The stamps of a list written row by row are those the list holds. -/
theorem foldl_update_eq {list : List (Nat × Stamp)} (h : Ascending list)
    (stamps : Nat → Option Stamp) :
    (list.foldl (fun (stamps : Nat → Option Stamp) entry =>
        update stamps entry.1 (some entry.2)) stamps) r =
      (list.lookup r).or (stamps r) := by
  induction list generalizing stamps with
  | nil => rfl
  | cons entry list ih =>
    obtain ⟨hlt, hlist⟩ := ascending_cons.mp h
    rw [foldl_cons, ih hlist, lookup_cons]
    by_cases hr : r = entry.1
    · have hnone : list.lookup r = none :=
        lookup_eq_none fun x hx => by
          have := hlt x hx
          omega
      rw [hnone, hr]
      simp
    · have hbeq : (r == entry.1) = false := by simpa using hr
      rw [update_of_ne hr, hbeq]

/-- Setting a stamp keeps the others, whichever shape the stamps take. -/
theorem set_spec (h : s.Sorted) (row : Nat) (stamp : Option Stamp) : (s.set row stamp).Sorted ∧
      ∀ r, (s.set row stamp).get r = if r = row then stamp else s.get r := by
  cases s with
  | perRow stamps =>
    refine ⟨trivial, fun r => ?_⟩
    by_cases hr : r = row <;> simp [set, get, hr]
  | few list =>
    have hlist : Ascending list := h
    simp only [get_few hlist]
    cases hs : search list row with
    | ok place =>
      cases stamp with
      | none =>
        obtain ⟨hsorted, hlookup⟩ := eraseIdx_at hlist hs
        simp only [set, hs]
        exact ⟨hsorted, fun r => by rw [get_few hsorted, hlookup]⟩
      | some stamp =>
        obtain ⟨hsorted, hlookup⟩ := modify_at (fun _ => stamp) hlist hs
        obtain ⟨old, hold, -⟩ := lookup_of_search_ok hs
        simp only [set, hs]
        exact ⟨hsorted, fun r => by rw [get_few hsorted, hlookup, hold, map_some]⟩
    | error place =>
      have hnone := lookup_of_search_error hlist hs
      cases stamp with
      | none =>
        simp only [set, hs]
        refine ⟨hlist, fun r => ?_⟩
        rw [get_few hlist]
        split
        · next hr => rw [hr, hnone]
        · rfl
      | some stamp =>
        simp only [set, hs]
        split
        · obtain ⟨hsorted, hlookup⟩ := insertIdx_at stamp hlist hs
          exact ⟨hsorted, fun r => by rw [get_few hsorted, hlookup]⟩
        -- one row more than the list takes: every stamp moves to the array
        refine ⟨trivial, fun r => ?_⟩
        by_cases hr : r = row
        · subst hr
          simp [get]
        · rw [get, update_of_ne hr, foldl_update_eq hlist, if_neg hr, or_none]

end DeleteStamps

theorem word_lt {row : Nat} (h : row < vectorRows) : row / 64 < words := by
  unfold words vectorRows at *
  omega

theorem length_set_eq {present : Bitset} {row : Nat} (h : present.words.length = words)
    (hrow : row < vectorRows) : (present.set row).words.length = words := by
  rw [Bitset.length_set, h]
  exact max_eq_left (word_lt hrow)

namespace Deletes

variable {d : Deletes} {row r : Nat}

/-- The bits stand for the rows with a stamp. -/
structure Ok (d : Deletes) : Prop where
  length : d.rows.words.length = words
  sorted : d.stamps.Sorted
  marked : ∀ row, d.rows.get row = (d.stamps.get row).isSome

theorem get_noRows (row : Nat) : noRows.get row = false := by
  rw [get_eq, word, noRows, ← nil_append (replicate ..),
    getD_append_replicate]
  exact BitVec.getLsbD_zero

theorem ok_empty : ({} : Deletes).Ok where
  length := rfl
  sorted := ascending_nil
  marked row := by
    exact get_noRows row

variable (h : d.Ok)
include h

theorem Ok.get_eq (row : Nat) : d.get row = d.stamps.get row := by
  unfold get
  rw [h.marked]
  cases d.stamps.get row <;> simp

theorem Ok.marked_get (row : Nat) : d.rows.get row = (d.get row).isSome := by
  rw [h.get_eq, h.marked]

theorem Ok.set (hrow : row < vectorRows) (stamp : Option Stamp) : (d.set row stamp).Ok := by
  obtain ⟨hsorted, hget⟩ := DeleteStamps.set_spec h.sorted row stamp
  cases stamp with
  | none =>
    refine ⟨(length_clear ..).trans h.length, hsorted, fun r => ?_⟩
    simp only [Deletes.set, hget, if_true, get_clear, h.marked]
    by_cases hr : r = row <;> simp [hr]
  | some stamp =>
    refine ⟨length_set_eq h.length hrow, hsorted, fun r => ?_⟩
    simp only [Deletes.set, hget, reduceCtorEq, if_false, get_set, h.marked]
    by_cases hr : r = row <;> simp [hr]

theorem Ok.get_set (hrow : row < vectorRows) (stamp : Option Stamp) (r : Nat) :
    (d.set row stamp).get r = if r = row then stamp else d.get r := by
  rw [(h.set hrow stamp).get_eq, h.get_eq]
  exact (DeleteStamps.set_spec h.sorted row stamp).2 r

/-- The rows a pass over the deletes visits: those that exist and have a delete. -/
theorem Ok.of_eq (present : Bitset) :
    d.of present = ((range vectorRows).filter fun row =>
      present.get row && (d.get row).isSome).map fun row => (row, d.get row) := by
  have hlength : 64 * d.rows.words.length = vectorRows := by rw [h.length]; rfl
  rw [of, flatMap_and, hlength]
  exact congrArg (map _) (filter_congr fun row _ => by
    rw [h.marked_get, Bool.and_comm])

end Deletes

/-! ### Stamped vectors -/

namespace Inserts

/-- A stamp per row comes with a bit for every row that exists. -/
def Ok (present : Bitset) : Inserts → Prop
  | constant _ => True
  | perRow _ written =>
      written.words.length = words ∧ ∀ row, present.get row = true → written.get row = true

end Inserts

namespace Stamped

variable {s : Stamped} {row r horizon : Nat} {present : Bitset}

/-- The shape of a stamped vector: its rows are below 2,048, every row with a stamp of its own
is written, and its delete bits stand for its delete stamps. -/
structure Ok (s : Stamped) : Prop where
  length : s.present.words.length ≤ words
  created : s.created.Ok s.present
  deleted : ∀ deletes ∈ s.deleted, deletes.Ok

theorem ok_fromFlat (h : present.words.length ≤ words) : (fromFlat present).Ok where
  length := h
  created := trivial
  deleted _ hdeletes := nomatch hdeletes

theorem length_set_le (h : present.words.length ≤ words)
    (hrow : row < vectorRows) : (present.set row).words.length ≤ words := by
  have := word_lt hrow
  rw [Bitset.length_set]
  omega

theorem length_foldl_set {rows : List Nat} (h : present.words.length = words)
    (hrows : ∀ row ∈ rows, row < vectorRows) :
    (rows.foldl Bitset.set present).words.length = words := by
  induction rows generalizing present with
  | nil => exact h
  | cons row rows ih =>
    obtain ⟨hrow, hrows⟩ := forall_mem_cons.mp hrows
    exact ih (length_set_eq h hrow) hrows

/-- The words of a bitset of a vector, copied, are its rows. -/
theorem get_map_word (h : present.words.length ≤ words) (row : Nat) :
    (⟨(range words).map present.word⟩ : Bitset).get row = present.get row := by
  rw [get_map_range, ← get_eq]
  by_cases hi : row / 64 < words
  · rw [decide_eq_true hi, Bool.true_and]
  · rw [get_of_le (by omega), Bool.and_false]

theorem foldl_update_rows (rows : List Nat) (stamp : Stamp) (stamps : Nat → Option Stamp) :
    (rows.foldl (fun (stamps : Nat → Option Stamp) row =>
        update stamps row (some stamp)) stamps) r =
      if r ∈ rows then some stamp else stamps r := by
  induction rows generalizing stamps with
  | nil => simp
  | cons row rows ih =>
    rw [foldl_cons, ih]
    by_cases hr : r = row <;> simp [hr]

/-- The loop of a commit over its rows: each of them `source` created gets `target`. -/
theorem foldl_commitRow (source target : Stamp) (rows : List Nat) (hrows : rows.Nodup)
    (stamps : Nat → Option Stamp) (written : Bitset) (committed : List Nat) :
    rows.foldl (commitRow source target) (stamps, written, committed) =
      (fun r => if r ∈ rows ∧ stamps r = some source then some target else stamps r,
        (rows.filter fun r => stamps r == some source).foldl Bitset.set written,
        committed ++ rows.filter fun r => stamps r == some source) := by
  induction rows generalizing stamps written committed with
  | nil => simp
  | cons row rows ih =>
    obtain ⟨hrow, hrows⟩ := nodup_cons.mp hrows
    rw [foldl_cons]
    by_cases hs : stamps row = some source
    · -- no later row of the range is `row`, so what they hold is as it was
      have hfilter : rows.filter (fun r => update stamps row (some target) r ==
          some source) = rows.filter fun r => stamps r == some source := by
        refine filter_congr fun r hr => ?_
        rw [update_of_ne fun (h : r = row) => hrow (h ▸ hr)]
      have hstep : commitRow source target (stamps, written, committed) row =
          (update stamps row (some target), written.set row, committed ++ [row]) :=
        if_pos hs
      rw [hstep, ih hrows, hfilter, filter_cons_of_pos (by simpa using hs)]
      refine Prod.ext (funext fun r => ?_) (by simp)
      by_cases hr : r = row <;> simp [hr, hs, hrow]
    · have hstep : commitRow source target (stamps, written, committed) row =
          (stamps, written, committed) := if_neg hs
      rw [hstep, ih hrows, filter_cons_of_neg (by simpa using hs)]
      refine Prod.ext (funext fun r => ?_) rfl
      by_cases hr : r = row <;> simp [hr, hs]

variable (h : s.Ok)
include h

/-- A row that exists is a row of the vector. -/
theorem Ok.lt_of_get (hrow : s.present.get row = true) : row < vectorRows := by
  by_contra hlt
  have hlength := h.length
  rw [get_of_le (by unfold words vectorRows at *; omega)] at hrow
  cases hrow

theorem Ok.commitCreated {start stop : Nat} (hstop : stop ≤ vectorRows)
    (source target : Stamp) : (s.commitCreated start stop source target).1.Ok := by
  unfold Stamped.commitCreated
  cases hs : s.created with
  | constant constant =>
    dsimp only
    split
    · exact ⟨h.length, trivial, h.deleted⟩
    · exact h
  | perRow stamps written =>
    have hcreated := h.created
    rw [hs] at hcreated
    dsimp only
    rw [foldl_commitRow _ _ _ nodup_range']
    refine ⟨h.length, ⟨?_, fun r hr => ?_⟩, h.deleted⟩
    · refine length_foldl_set hcreated.1 fun r hr => ?_
      have := mem_range'_1.mp (mem_of_mem_filter hr)
      omega
    · rw [get_foldl_set, hcreated.2 r hr, Bool.or_true]

/-! ### Settled vectors -/

/-- A pass over the rows a create stamped reads every row that exists. -/
theorem Ok.settledByWritten_eq (horizon : Nat) :
    s.settledByWritten horizon = s.settledBy horizon := by
  have hcreated := h.created
  unfold settledByWritten settledBy
  cases hs : s.created with
  | constant constant => rfl
  | perRow stamps written =>
    rw [hs] at hcreated
    obtain ⟨hlength, hwritten⟩ := hcreated
    have hwords := congrArg (all · fun row => settled horizon (stamps row))
      (written.flatMap_and s.present)
    simp only [all_flatMap, List.all_map, comp_def] at hwords
    dsimp only
    rw [hwords]
    congr 1
    rw [Bool.eq_iff_iff, List.all_eq_true, List.all_eq_true]
    refine forall_congr' fun row => imp_congr_left ?_
    rw [mem_filter, mem_range, mem_rows, Bool.and_eq_true, hlength]
    constructor
    · exact fun hrow => hrow.2.2
    · intro hrow
      have := h.lt_of_get hrow
      exact ⟨by unfold words vectorRows at *; omega, hwritten row hrow, hrow⟩

/-- A vector is settled when every stamp of a row that exists is. -/
theorem Ok.settledBy_iff : s.settledBy horizon = true ↔
    ∀ row, s.present.get row = true → settled horizon (s.creator row) = true ∧
      (s.deleter row = none ∨ settled horizon (s.deleter row) = true) := by
  have hdeleted : s.deletesSettled horizon = true ↔ ∀ row, s.present.get row = true →
      (s.deleter row = none ∨ settled horizon (s.deleter row) = true) := by
    unfold deletesSettled deleter
    cases hs : s.deleted with
    | none => simp
    | some deletes =>
      simp only [(h.deleted deletes hs).of_eq, List.all_map, List.all_eq_true, mem_filter,
        mem_range, Bool.and_eq_true, comp_apply, Bool.or_eq_true,
        isNone_iff_eq_none]
      constructor
      · intro hall row hrow
        cases hget : deletes.get row with
        | none => exact .inl rfl
        | some stamp =>
          have := hall row ⟨h.lt_of_get hrow, hrow, by rw [hget]; rfl⟩
          rwa [hget] at this
      · intro hall row hrow
        exact hall row hrow.2.1
  rw [settledBy, Bool.and_eq_true, forall₂_and]
  refine and_congr ?_ hdeleted
  unfold creator
  cases s.created with
  | perRow stamps written => simp [mem_rows]
  | constant constant => simp [Bitset.isEmpty_iff, imp_iff_not_or, forall_or_right]

variable (hrow : row < vectorRows)
include hrow

theorem Ok.setCreated (stamp : Stamp) : (s.setCreated row stamp).Ok := by
  refine ⟨length_set_le h.length hrow, ?_, h.deleted⟩
  have hcreated := h.created
  have hwritten : ∀ {written : Bitset}, written.words.length = words →
      (∀ r, s.present.get r = true → written.get r = true) → ∀ stamps,
      (Inserts.perRow stamps (written.set row)).Ok (s.present.set row) := by
    intro written hlength hsub stamps
    refine ⟨length_set_eq hlength hrow, fun r hr => ?_⟩
    rw [get_set, Bool.or_eq_true, decide_eq_true_eq] at hr ⊢
    exact hr.imp_right (hsub r)
  change (s.insertsWith row stamp).Ok (s.present.set row)
  unfold insertsWith
  split
  next stamps written hs =>
    rw [hs] at hcreated
    exact hwritten hcreated.1 hcreated.2 _
  next constant hs =>
    split
    · trivial
    · exact hwritten (by simp) (fun r hr => (get_map_word h.length r).trans hr) _

theorem Ok.setDeleted (stamp : Option Stamp) : (s.setDeleted row stamp).Ok := by
  have hset : ∀ {deletes : Deletes}, deletes.Ok →
      ({ s with deleted := some (deletes.set row stamp) } : Stamped).Ok := by
    intro deletes hdeletes
    refine ⟨h.length, h.created, fun d hd => ?_⟩
    cases hd
    exact hdeletes.set hrow stamp
  unfold Stamped.setDeleted
  split
  · next deletes hs => exact hset (h.deleted deletes hs)
  · exact h
  · exact hset Deletes.ok_empty

theorem Ok.remove : (s.remove row).Ok := by
  refine ⟨by simpa [Stamped.remove] using h.length, ?_, fun d hd => ?_⟩
  · have hcreated := h.created
    unfold Stamped.remove
    cases hs : s.created with
    | constant constant => trivial
    | perRow stamps written =>
      rw [hs] at hcreated
      refine ⟨hcreated.1, fun r hr => hcreated.2 r ?_⟩
      rw [get_clear, Bool.and_eq_true] at hr
      exact hr.1
  · obtain ⟨deletes, hs, rfl⟩ := map_eq_some_iff.mp hd
    exact (h.deleted deletes hs).set hrow none

end Stamped

/-! ### Collapses -/

namespace VersionVector

variable {s : Stamped} {row horizon : Nat}

/-- The shape of a vector. -/
def Ok : VersionVector → Prop
  | flat present => present.words.length ≤ words
  | stamped stamps => stamps.Ok

/-- The rows a collapse takes out, ascending: those that exist and are deleted. -/
def deletedRows (s : Stamped) : List Nat :=
  (List.range vectorRows).filter fun row => s.present.get row && (s.deleter row).isSome

/-- The rows with a delete of both bitsets, listed word by word of the first. -/
theorem flatMap_deletedIn (deletes : Deletes) (a b : Bitset) : (a.words.zipIdx.flatMap fun entry =>
        (deletedIn deletes entry.2 (entry.1 &&& b.word entry.2)).map (entry.2 * 64 + ·)) =
      (range (64 * a.words.length)).filter fun row =>
        (a.get row && b.get row) && (deletes.get row).isSome := by
  have hfilter : ∀ (word : BitVec 64) (index : Nat),
      (deletedIn deletes index (word &&& b.word index)).map (index * 64 + ·) =
        ((takeBits 64 (word &&& b.word index)).map (index * 64 + ·)).filter fun row =>
          (deletes.get row).isSome := by
    intro word index
    rw [deletedIn, List.filter_map]
    rfl
  simp only [hfilter, ← filter_flatMap, flatMap_and, List.filter_filter]
  exact filter_congr fun row _ => Bool.and_comm ..

section

variable (h : s.Ok)
include h

/-- The rebuild of a vector's bits and its pass over the deletes find the same rows gone. -/
theorem flatMap_collapseWord :
    (s.present.words.zipIdx.flatMap fun entry => (collapseWord s.deleted entry.2 entry.1).2) =
      deletedRows s := by
  unfold deletedRows Stamped.deleter
  cases hs : s.deleted with
  | none => simp [collapseWord]
  | some deletes =>
    have hdeletes := h.deleted deletes hs
    have hrows := flatMap_deletedIn deletes s.present deletes.rows
    simp only [collapseWord, hrows]
    have hbits : (fun row => (s.present.get row && deletes.rows.get row) &&
        (deletes.get row).isSome) = fun row => s.present.get row && (deletes.get row).isSome := by
      funext row
      rw [hdeletes.marked_get, Bool.and_assoc, Bool.and_self]
    rw [hbits]
    have hlength := h.length
    refine (filter_range_of_le (by unfold words vectorRows at *; omega) fun r hr => ?_).symm
    rw [get_of_le hr, Bool.false_and]

/-- What is kept of a word: its rows that no one deleted. -/
theorem getLsbD_collapseWord (index bit : Nat) (hbit : bit < 64) :
    (collapseWord s.deleted index (s.present.word index)).1.getLsbD bit =
      (s.present.get (index * 64 + bit) && (s.deleter (index * 64 + bit)).isNone) := by
  unfold Stamped.deleter
  cases hs : s.deleted with
  | none => simp [collapseWord, get_add_bit _ _ _ hbit]
  | some deletes =>
    have hclear : ∀ (bits : List Nat) (word : BitVec 64),
        (bits.foldl (fun kept bit => kept &&& ~~~(1#64 <<< bit)) word).getLsbD bit =
          (word.getLsbD bit && decide (bit ∉ bits)) := by
      intro bits
      induction bits with
      | nil => simp
      | cons first bits ih =>
        intro word
        rw [foldl_cons, ih, BitVec.getLsbD_and, BitVec.getLsbD_not, getLsbD_one_shiftLeft hbit]
        by_cases hfirst : bit = first <;> simp [hfirst, hbit]
    have hmarked := (h.deleted deletes hs).marked_get (index * 64 + bit)
    have hrow : (deletes.rows.word index).getLsbD bit = (deletes.get (index * 64 + bit)).isSome := by
      rw [← hmarked, get_add_bit _ _ _ hbit]
    have hmem : bit ∈ deletedIn deletes index (s.present.word index &&& deletes.rows.word index) ↔
        (s.present.word index).getLsbD bit = true ∧
          (deletes.get (index * 64 + bit)).isSome = true := by
      rw [deletedIn, mem_filter, takeBits_eq, mem_ones, BitVec.getLsbD_and, hrow,
        Bool.and_eq_true, and_assoc, and_self]
    simp only [collapseWord, hclear, hmem]
    rw [get_add_bit _ _ _ hbit]
    cases (s.present.word index).getLsbD bit <;>
      cases deletes.get (index * 64 + bit) <;> rfl

/-- The pass over the deletes of a vector finds the rows gone. -/
theorem goneRows_eq : goneRows s = deletedRows s := by
  unfold goneRows deletedRows Stamped.deleter
  cases hs : s.deleted with
  | none => simp
  | some deletes =>
    have hdeletes := h.deleted deletes hs
    have hlength : 64 * deletes.rows.words.length = vectorRows := by rw [hdeletes.length]; rfl
    dsimp only
    rw [flatMap_deletedIn, hlength]
    refine filter_congr fun row _ => ?_
    rw [hdeletes.marked_get, Bool.and_comm _ (s.present.get row), Bool.and_assoc, Bool.and_self]

/-- A vector's bits without the rows gone. -/
def keptRows (s : Stamped) : Bitset := (deletedRows s).foldl Bitset.clear s.present

theorem get_keptRows (row : Nat) :
    (keptRows s).get row = (s.present.get row && (s.deleter row).isNone) := by
  rw [keptRows, get_foldl_clear]
  cases hrow : s.present.get row with
  | false => simp
  | true =>
    have hmem : row ∈ deletedRows s ↔ (s.deleter row).isSome = true := by
      rw [deletedRows, mem_filter, mem_range, hrow, Bool.true_and]
      exact and_iff_right (h.lt_of_get hrow)
    simp only [hmem, Bool.true_and]
    cases s.deleter row <;> rfl

/-- The rebuild leaves the bits of the rows that are not gone, trimmed. -/
theorem foldl_collapseStep :
    s.present.words.zipIdx.foldl (collapseStep s.deleted) ({}, []) =
      ((keptRows s).trim, deletedRows s) := by
  have hpair : ∀ (entries : List (BitVec 64 × Nat)) (built : Bitset × List Nat),
      entries.foldl (collapseStep s.deleted) built =
      (entries.foldl (fun present entry =>
          present.setWord entry.2 (collapseWord s.deleted entry.2 entry.1).1) built.1,
        built.2 ++ entries.flatMap fun entry => (collapseWord s.deleted entry.2 entry.1).2) := by
    intro entries
    induction entries with
    | nil => simp
    | cons entry entries ih =>
      intro built
      rw [foldl_cons, ih]
      simp [collapseStep]
  have hkept : (⟨s.present.words.mapIdx fun index word =>
      (collapseWord s.deleted index word).1⟩ : Bitset) = keptRows s := by
    refine ext_of_get ?_ fun row => ?_
    · rw [keptRows, length_foldl_clear, length_mapIdx]
    have hrow : row / 64 * 64 + row % 64 = row := by omega
    rw [get_mapIdx, getLsbD_collapseWord h _ _ (Nat.mod_lt _ (by decide)), hrow,
      get_keptRows h]
    by_cases hlt : row / 64 < s.present.words.length
    · simp [hlt]
    · have hnone : s.present.get row = false := get_of_le (by omega)
      simp [hlt, hnone]
  have hwords := s.present.foldl_setWord_map fun word index =>
    (collapseWord s.deleted index word).1
  rw [hpair, hwords, hkept, flatMap_collapseWord h, nil_append]

theorem collapseInto_stamped (horizon : Nat) :
    (stamped s).collapseInto horizon = if s.settledBy horizon then
      (.flat (keptRows s).trim, deletedRows s) else (.stamped s, []) := by
  unfold collapseInto
  dsimp only
  rw [foldl_collapseStep h]

end

variable {v : VersionVector} (h : v.Ok)
include h

/-- **The collapse of one vector in what its writes cost is the rebuild**: the same rows are
gone, and the bits left are the same. -/
theorem Ok.collapseVector_eq (horizon : Nat) :
    v.collapseVector horizon = v.collapseInto horizon := by
  cases v with
  | flat present => rfl
  | stamped stamps =>
    rw [collapseInto_stamped h, ← Stamped.Ok.settledByWritten_eq h, keptRows, ← goneRows_eq h]
    rfl

/-! ### Vectors keep their shape -/

theorem Ok.stampedOf : v.stampedOf.Ok := by
  cases v with
  | flat present => exact Stamped.ok_fromFlat h
  | stamped stamps => exact h

theorem Ok.setAlways (hrow : row < vectorRows) : (v.setAlways row).Ok := by
  cases v with
  | flat present => exact Stamped.length_set_le h hrow
  | stamped stamps => exact (Stamped.Ok.setCreated h hrow _).setDeleted hrow none

theorem Ok.remove (hrow : row < vectorRows) : (v.remove row).Ok := by
  cases v with
  | flat present => exact (length_clear present row).le.trans h
  | stamped stamps => exact Stamped.Ok.remove h hrow

theorem Ok.commitCreated {start stop : Nat} (hstop : stop ≤ vectorRows)
    (source target : Stamp) : (v.commitCreated start stop source target).1.Ok := by
  cases v with
  | flat present => exact h
  | stamped stamps => exact Stamped.Ok.commitCreated h hstop source target

theorem Ok.collapseInto (horizon : Nat) : (v.collapseInto horizon).1.Ok := by
  cases v with
  | flat present => exact h
  | stamped stamps =>
    rw [collapseInto_stamped h]
    split
    · refine (length_trim_le _).trans ?_
      rw [keptRows, length_foldl_clear]
      exact Stamped.Ok.length h
    · exact h

/-- Whether a collect at `horizon` collapses the vector: it has stamps, all committed by then. -/
def collapses (v : VersionVector) (horizon : Nat) : Bool :=
  match v with
  | flat _ => false
  | stamped stamps => stamps.settledBy horizon

/-- A collapse leaves every reader's version of the rows no one deleted. -/
theorem Ok.get_collapseInto (horizon row : Nat) : (v.collapseInto horizon).1.get row =
      if v.collapses horizon = true then (v.get row).collapse else v.get row := by
  cases v with
  | flat present => rfl
  | stamped stamps =>
    have hs : stamps.Ok := h
    rw [collapseInto_stamped hs, collapses]
    split
    · next hsettled =>
        simp only [get, get_trim, get_keptRows hs, Stamped.get, RowVersion.collapse]
        by_cases hrow : stamps.present.get row = true
        · have hsome : (stamps.creator row).isSome = true := by
            have hcreator := (hs.settledBy_iff.mp hsettled row hrow).1
            cases hc : stamps.creator row with
            | none => simp [hc, Stamped.settled] at hcreator
            | some stamp => rfl
          simp [hrow, hsome]
        · simp [hrow]
    · rfl

/-- The rows a collapse reports gone are the deleted ones of a vector that collapses. -/
theorem Ok.mem_collapseInto : row ∈ (v.collapseInto horizon).2 ↔
    v.collapses horizon = true ∧ (v.get row).deleted.isSome = true := by
  cases v with
  | flat present => simp [VersionVector.collapseInto, collapses]
  | stamped stamps =>
    have hs : stamps.Ok := h
    rw [collapseInto_stamped hs, collapses]
    by_cases hsettled : stamps.settledBy horizon = true
    · simp only [hsettled, if_true, deletedRows, mem_filter, mem_range, Bool.and_eq_true, get,
        Stamped.get, true_and]
      cases hrow : stamps.present.get row with
      | false => simp
      | true => simp [hs.lt_of_get hrow]
    · simp [hsettled]

theorem Ok.lt_of_mem_collapseInto (hrow : row ∈ (v.collapseInto horizon).2) : row < vectorRows := by
  cases v with
  | flat present => cases hrow
  | stamped stamps =>
    rw [collapseInto_stamped h] at hrow
    split at hrow
    · simp only [deletedRows, mem_filter, mem_range] at hrow
      exact hrow.1
    · cases hrow

/-- The versions of a vector that collapses are committed by the horizon. -/
theorem Ok.settledBy (hv : v.collapses horizon = true) (row : Nat) :
    (v.get row).SettledBy horizon := by
  cases v with
  | flat present => cases hv
  | stamped stamps =>
    have hall := (Stamped.Ok.settledBy_iff h).mp hv row
    simp only [get, Stamped.get]
    cases hrow : stamps.present.get row with
    | false => exact ⟨rfl, rfl⟩
    | true =>
      obtain ⟨hcreated, hdeleted⟩ := hall hrow
      refine ⟨?_, ?_⟩
      · cases hc : stamps.creator row with
        | none => rfl
        | some stamp => simpa [hc, Stamped.settled] using hcreated
      · cases hd : stamps.deleter row with
        | none => rfl
        | some stamp => simpa [hd, Stamped.settled] using hdeleted

end VersionVector

open Nat

/-- A call on the versions of a row group. -/
inductive Call where
  | setCreated (row : Nat) (stamp : Stamp)
  | setDeleted (row : Nat) (stamp : Option Stamp)
  | commitCreated (start stop : Nat) (source target : Stamp)
  | setAlways (row : Nat)
  | remove (row : Nat)
  | collapse (horizon : Nat)
  | collapseVector (index horizon : Nat)

namespace Versions

variable {vs : Versions} {row horizon : Nat} {read : Read}
  {collapsed : VersionVector → VersionVector × List Nat} {vectors : List VersionVector}

/-- The versions after a call. -/
def call (vs : Versions) : Call → Versions
  | .setCreated row stamp => vs.setCreated row stamp
  | .setDeleted row stamp => vs.setDeleted row stamp
  | .commitCreated start stop source target => (vs.commitCreated start stop source target).1
  | .setAlways row => vs.setAlways row
  | .remove row => vs.remove row
  | .collapse horizon => (vs.collapse horizon).1
  | .collapseVector index horizon => (vs.collapseVector index horizon).1

/-! ### The shapes of the vectors -/

/-- Every vector has its shape. -/
def Ok (vs : Versions) : Prop := ∀ v ∈ vs.vectors, v.Ok

theorem offset_lt (row : Nat) : row % vectorRows < vectorRows := mod_lt _ (by decide)

/-- A change of one vector that keeps its shape. -/
theorem ok_modify (h : ∀ v ∈ vectors, v.Ok) (index : Nat)
    {f : VersionVector → VersionVector} (hf : ∀ v, v.Ok → (f v).Ok) :
    (⟨vectors.modify index f⟩ : Versions).Ok := by
  intro v hv
  obtain ⟨i, hi⟩ := getElem?_of_mem hv
  rw [getElem?_modify] at hi
  obtain ⟨old, hold, rfl⟩ := map_eq_some_iff.mp hi
  have hok := h old (mem_of_getElem? hold)
  split
  · exact hf old hok
  · exact hok

theorem ok_set (h : ∀ v ∈ vectors, v.Ok) (index : Nat)
    {v : VersionVector} (hv : v.Ok) : (⟨vectors.set index v⟩ : Versions).Ok := by
  intro u hu
  obtain hu | rfl := mem_or_eq_of_mem_set hu
  · exact h u hu
  · exact hv

theorem Ok.commitLoop {stop : Nat} {source target : Stamp} (fuel : Nat) :
    ∀ {start : Nat} {vs : Versions} {committed : List (Nat × Nat)}, vs.Ok →
      (Versions.commitLoop stop source target fuel start vs committed).1.Ok := by
  induction fuel with
  | zero => exact fun h => h
  | succ fuel ih =>
    intro start vs committed h
    unfold Versions.commitLoop
    split
    · dsimp only
      split
      · exact ih h
      · next v hv =>
          refine ih (ok_set h _ ((h v (mem_of_getElem? hv)).commitCreated ?_ ..))
          omega
    · exact h

/-! ### The collect of every vector -/

theorem vectors_collapseAt (collapsed : VersionVector → VersionVector × List Nat) (vs : Versions)
    (index i : Nat) :
    (vs.collapseAt collapsed index).1.vectors[i]? =
      if i = index then vs.vectors[i]?.map fun v => (collapsed v).1 else vs.vectors[i]? := by
  unfold collapseAt
  split
  · next hnone =>
      split
      · next hi => rw [hi, hnone]; rfl
      · rfl
  next v hv =>
    have hlt : index < vs.vectors.length := (List.getElem?_eq_some_iff.mp hv).1
    rw [getElem?_set]
    by_cases hi : i = index
    · subst hi
      rw [if_pos rfl, if_pos hlt, if_pos rfl, hv]
      rfl
    · simp [hi, Ne.symm hi]

theorem mem_collapseAt {index : Nat}
    (hlt : ∀ v ∈ vs.vectors, ∀ r ∈ (collapsed v).2, r < vectorRows) :
    row ∈ (vs.collapseAt collapsed index).2 ↔ row / vectorRows = index ∧
      ∃ v, vs.vectors[index]? = some v ∧ row % vectorRows ∈ (collapsed v).2 := by
  unfold collapseAt
  split
  · next hnone => simp [hnone]
  next v hv =>
    simp only [List.mem_map, hv, some.injEq, exists_eq_left']
    constructor
    · rintro ⟨r, hr, rfl⟩
      have hr' := hlt v (mem_of_getElem? hv) r hr
      rw [mul_comm, mul_add_div (by decide), div_eq_of_lt hr', mul_add_mod, mod_eq_of_lt hr']
      exact ⟨rfl, hr⟩
    · rintro ⟨rfl, hr⟩
      exact ⟨_, hr, div_add_mod' row vectorRows⟩

/-- What collapses of vectors of `vs` made of it: `built` are the versions and the rows gone,
once the vectors `visits` names were visited. -/
structure CollapsedTo (vs : Versions) (visits : Nat → Prop) [DecidablePred visits] (horizon : Nat)
    (built : Versions × List Nat) : Prop where
  vectors : ∀ i, built.1.vectors[i]? =
    if visits i then vs.vectors[i]?.map fun v => (v.collapseInto horizon).1 else vs.vectors[i]?
  gone : ∀ row, row ∈ built.2 ↔ visits (row / vectorRows) ∧
    ∃ v, vs.vectors[row / vectorRows]? = some v ∧ row % vectorRows ∈ (v.collapseInto horizon).2

theorem CollapsedTo.ok {visits : Nat → Prop} [DecidablePred visits] {built : Versions × List Nat}
    (hbuilt : vs.CollapsedTo visits horizon built) (h : vs.Ok) : built.1.Ok := by
  intro v hv
  obtain ⟨i, hi⟩ := getElem?_of_mem hv
  rw [hbuilt.vectors] at hi
  split at hi
  · obtain ⟨old, hold, rfl⟩ := map_eq_some_iff.mp hi
    exact (h old (mem_of_getElem? hold)).collapseInto horizon
  · exact h v (mem_of_getElem? hi)

/-! ### Any calls -/

theorem visible_eq (v : VersionVector) (row : Nat) (read : Read) :
    v.visible row read = (v.get row).visible read := by
  cases v with
  | stamped stamps => rfl
  | flat present =>
    simp only [VersionVector.visible, VersionVector.get]
    cases present.get row with
    | false => rfl
    | true => simp [RowVersion.visible, always, Read.seesSome, Read.sees]

section

variable (h : vs.Ok)
include h

theorem Ok.grown (index : Nat) : ∀ v ∈ vs.grown index, v.Ok := by
  refine forall_mem_append.mpr ⟨h, fun v hv => ?_⟩
  rw [(mem_replicate.mp hv).2]
  exact zero_le _

/-- The two collapses of a vector are one. -/
theorem Ok.collapseVector_eq (index horizon : Nat) :
    vs.collapseVector index horizon = vs.collapseInto index horizon := by
  unfold collapseVector collapseInto collapseAt
  split
  · rfl
  · next v hv =>
      dsimp only
      rw [(h v (mem_of_getElem? hv)).collapseVector_eq]

theorem Ok.collapsedTo_one (index horizon : Nat) :
    vs.CollapsedTo (· = index) horizon (vs.collapseInto index horizon) where
  vectors i := vectors_collapseAt _ vs index i
  gone row := by
    rw [collapseInto, mem_collapseAt fun v hv r hr => (h v hv).lt_of_mem_collapseInto hr]
    exact and_congr_right fun hi => by rw [hi]

theorem Ok.collapseInto (index horizon : Nat) : (vs.collapseInto index horizon).1.Ok :=
  (h.collapsedTo_one index horizon).ok h

/-- One vector after the other: each is collapsed, and the rows gone are theirs. -/
theorem Ok.collapsedTo (horizon : Nat) :
    vs.CollapsedTo (· < vs.vectors.length) horizon (vs.collapse horizon) := by
  have hloop : ∀ count, vs.CollapsedTo (· < count) horizon
      ((range count).foldl (fun built index =>
        ((built.1.collapseInto index horizon).1,
          built.2 ++ (built.1.collapseInto index horizon).2)) (vs, [])) := by
    intro count
    induction count with
    | zero => exact ⟨fun i => by simp, fun row => by simp⟩
    | succ count ih =>
      rw [range_succ, foldl_append, foldl_cons, foldl_nil]
      generalize (range count).foldl _ (vs, []) = built at ih ⊢
      have hsame : built.1.vectors[count]? = vs.vectors[count]? := by
        rw [ih.vectors, if_neg (lt_irrefl count)]
      have hlt : ∀ v ∈ built.1.vectors, ∀ r ∈ (v.collapseInto horizon).2, r < vectorRows :=
        fun v hv r hr => (ih.ok h v hv).lt_of_mem_collapseInto hr
      refine ⟨fun i => ?_, fun row => ?_⟩
      · rw [Versions.collapseInto, vectors_collapseAt, ih.vectors]
        by_cases hi : i = count
        · subst hi
          simp
        · have : i < count + 1 ↔ i < count := by omega
          simp [hi, this]
      · rw [mem_append, ih.gone, Versions.collapseInto, mem_collapseAt hlt, hsame]
        constructor
        · rintro (⟨hrow, hgone⟩ | ⟨rfl, hgone⟩)
          · exact ⟨by omega, hgone⟩
          · exact ⟨by omega, hgone⟩
        · rintro ⟨hrow, hgone⟩
          by_cases hcount : row / vectorRows = count
          · exact .inr ⟨hcount, hcount ▸ hgone⟩
          · exact .inl ⟨by omega, hgone⟩
  exact hloop vs.vectors.length

/-- A call keeps the shapes. -/
theorem Ok.call (c : Call) : (vs.call c).Ok := by
  cases c with
  | setCreated row stamp =>
    exact ok_modify (h.grown _) _ fun v hv => hv.stampedOf.setCreated (offset_lt row) stamp
  | setDeleted row stamp =>
    exact ok_modify (h.grown _) _ fun v hv => hv.stampedOf.setDeleted (offset_lt row) stamp
  | commitCreated start stop source target => exact Ok.commitLoop _ h
  | setAlways row => exact ok_modify (h.grown _) _ fun v hv => hv.setAlways (offset_lt row)
  | remove row => exact ok_modify h _ fun v hv => hv.remove (offset_lt row)
  | collapse horizon => exact (h.collapsedTo horizon).ok h
  | collapseVector index horizon =>
    rw [Versions.call, h.collapseVector_eq]
    exact h.collapseInto index horizon

/-- The collapse of every vector, one by one in what each one's writes cost. -/
theorem Ok.collapseEach_eq (horizon : Nat) :
    (vs.collapseEach fun vs index => vs.collapseVector index horizon) = vs.collapse horizon := by
  have hloop : ∀ (indexes : List Nat) (built : Versions × List Nat), built.1.Ok →
      indexes.foldl (fun built index => ((built.1.collapseVector index horizon).1,
        built.2 ++ (built.1.collapseVector index horizon).2)) built =
      indexes.foldl (fun built index => ((built.1.collapseInto index horizon).1,
        built.2 ++ (built.1.collapseInto index horizon).2)) built := by
    intro indexes
    induction indexes with
    | nil => exact fun _ _ => rfl
    | cons index indexes ih =>
      intro built hbuilt
      rw [foldl_cons, foldl_cons, hbuilt.collapseVector_eq]
      exact ih _ (hbuilt.collapseInto index horizon)
  exact hloop _ (vs, []) h

/-- No reader at the horizon or later sees the rows gone, nor a change of another. -/
theorem visible_collapse (hread : horizon ≤ read.epochOf) (row : Nat) :
    (row ∉ (vs.collapse horizon).2 →
      (vs.collapse horizon).1.visible row read = vs.visible row read) ∧
    (row ∈ (vs.collapse horizon).2 → vs.visible row read = false) := by
  have hcollapsed := h.collapsedTo horizon
  rw [hcollapsed.gone]
  unfold visible
  rw [hcollapsed.vectors]
  cases hv : vs.vectors[row / vectorRows]? with
  | none => simp
  | some v =>
    have hok : v.Ok := h v (mem_of_getElem? hv)
    have hlt : row / vectorRows < vs.vectors.length := (List.getElem?_eq_some_iff.mp hv).1
    simp only [hlt, if_true, map_some, visible_eq, hok.get_collapseInto, true_and,
      some.injEq, exists_eq_left', hok.mem_collapseInto]
    by_cases hc : v.collapses horizon = true
    · have hsettled := hok.settledBy hc (row % vectorRows)
      simp only [hc, if_true, true_and]
      refine ⟨fun _ => RowVersion.visible_collapse hsettled hread, fun hdeleted => ?_⟩
      obtain ⟨stamp, hstamp⟩ := isSome_iff_exists.mp hdeleted
      have hcommitted := hsettled.2
      rw [hstamp] at hcommitted
      exact RowVersion.visible_of_deleted (hstamp ▸ hcommitted) hread
    · simp [hc]

end

/-- Any calls from no rows keep the shapes. -/
theorem versions_ok (calls : List Call) : (calls.foldl call {}).Ok := by
  have hempty : ({} : Versions).Ok := nofun
  exact foldlRecOn calls call hempty fun _ h c _ => h.call c

/-! ### What readers see of a collect -/

/-- **The two collects agree, and no reader at the horizon or later can tell.** After any calls,
the collect of every vector and the collects of the vectors one by one leave the same versions
and report the same rows gone, as whether a vector is settled is answered alike; a row that
is not gone is visible as before to every reader at the horizon or later, and a row that is
gone was visible to none of them. -/
theorem collapses_agree (calls : List Call) (horizon : Nat) : let vs := calls.foldl call {}
    (vs.collapseEach fun vs index => vs.collapseVector index horizon) = vs.collapse horizon ∧
    (∀ stamps, .stamped stamps ∈ vs.vectors →
      stamps.settledByWritten horizon = stamps.settledBy horizon) ∧
    ∀ read : Read, horizon ≤ read.epochOf → ∀ row, (row ∉ (vs.collapse horizon).2 →
        (vs.collapse horizon).1.visible row read = vs.visible row read) ∧
      (row ∈ (vs.collapse horizon).2 → vs.visible row read = false) := by
  intro vs
  have hok : vs.Ok := versions_ok calls
  refine ⟨hok.collapseEach_eq horizon, fun stamps hstamps => ?_, fun read hread row => ?_⟩
  · exact Stamped.Ok.settledByWritten_eq (hok _ hstamps) horizon
  · exact visible_collapse hok hread row

/-- Rows 3 and 70 of two creators, row 3 deleted at epoch 4: a collect at 4 takes row 3 out, and
a reader at 6 sees row 70 as before. -/
theorem collapses_agree_deletedRow :
    let calls := [.setCreated 3 (.epoch 2), .setCreated 70 (.pending 9),
      .commitCreated 70 71 (.pending 9) (.epoch 3), .setDeleted 3 (some (.epoch 4))]
    let vs := calls.foldl call {}
    (vs.collapse 4).2 = [3] ∧ vs.visible 3 (.atEpoch 6) = false ∧
      (vs.collapse 4).1.visible 70 (.atEpoch 6) = vs.visible 70 (.atEpoch 6) := by
  intro calls vs
  have hgone : (vs.collapse 4).2 = [3] := by decide +kernel
  have hagree := collapses_agree calls 4
  have hread := hagree.2.2 (.atEpoch 6) (by decide)
  exact ⟨hgone, (hread 3).2 (by rw [hgone]; decide), (hread 70).1 (by rw [hgone]; decide)⟩

end Versions

namespace VersionVector

variable (v : VersionVector) (read : Read)

/-- A word built bit by bit, from the bits of `bits` that satisfy `p`. -/
theorem getLsbD_foldl_or (bits : List Nat) (p : Nat → Bool) (seen : BitVec 64) {i : Nat}
    (hi : i < 64) :
    (bits.foldl (fun seen bit => if p bit then seen ||| 1#64 <<< bit else seen) seen).getLsbD i =
      (seen.getLsbD i || decide (i ∈ bits) && p i) := by
  induction bits generalizing seen with
  | nil => simp
  | cons bit bits ih =>
    rw [foldl_cons, ih]
    by_cases hbit : i = bit
    · subst hbit
      cases p i <;> simp [getLsbD_one_shiftLeft hi]
    · cases p bit <;> simp [getLsbD_one_shiftLeft hi, hbit]

/-- A row of a vector whose rows share one version. -/
theorem get_of_uniform {s : Stamped} {version : RowVersion} (h : s.uniform = some version)
    (row : Nat) : s.get row = if s.present.get row then version else {} := by
  unfold Stamped.uniform at h
  split at h
  · next created hcreated hdeleted =>
      cases h
      simp [Stamped.get, Stamped.creator, Stamped.deleter, hcreated, hdeleted]
  · cases h

/-- The rows of a word, read at once, are those each row's version shows. -/
theorem getLsbD_visibleWord (index : Nat) (asked : BitVec 64) {bit : Nat} (hbit : bit < 64) :
    (v.visibleWord index asked read).getLsbD bit =
      (asked.getLsbD bit && v.visible (index * 64 + bit) read) := by
  cases v with
  | flat present =>
    rw [visibleWord, visible, BitVec.getLsbD_and, get_add_bit _ _ _ hbit]
  | stamped stamps =>
    simp only [visibleWord, visible]
    split
    · next version huniform =>
        rw [get_of_uniform huniform, get_add_bit _ _ _ hbit, apply_ite (BitVec.getLsbD · bit),
          BitVec.getLsbD_and]
        cases (stamps.present.word index).getLsbD bit with
        | false => simp [RowVersion.visible, Read.seesSome]
        | true => by_cases hvisible : version.visible read <;> simp [hvisible]
    · -- a row at a time: the rows asked for that exist and are seen
      rw [getLsbD_foldl_or _ (fun bit => (stamps.get (index * 64 + bit)).visible read) _ hbit,
        takeBits_eq]
      simp only [mem_ones, BitVec.getLsbD_and, ← get_add_bit _ _ _ hbit]
      cases hrow : stamps.present.get (index * 64 + bit) with
      | false => simp [Stamped.get, hrow, RowVersion.visible, Read.seesSome]
      | true => simp

end VersionVector

namespace Versions

variable (vs : Versions) (read : Read)

/-- **A word of rows is read as each of its rows is.** -/
theorem getLsbD_visibleWord (index : Nat) (asked : BitVec 64) {bit : Nat} (hbit : bit < 64) :
    (vs.visibleWord index asked read).getLsbD bit =
      (asked.getLsbD bit && vs.visible (index * 64 + bit) read) := by
  have hvector : (index * 64 + bit) / vectorRows = index / words := by
    unfold words vectorRows
    omega
  have hoffset : (index * 64 + bit) % vectorRows = index % words * 64 + bit := by
    unfold words vectorRows
    omega
  unfold visibleWord visible
  rw [hvector, hoffset]
  split
  · next hasked =>
      rw [hasked]
      simp
  · cases vs.vectors[index / words]? with
    | none => simp
    | some v => exact v.getLsbD_visibleWord read _ asked hbit

/-- **A scan of the rows asked for finds those the reader sees.** -/
theorem forEachVisible_eq (rows : Bitset) :
    vs.forEachVisible rows read = rows.rows.filter (vs.visible · read) := by
  rw [forEachVisible, flatMap_words rows fun asked index => vs.visibleWord index asked read,
    rows_eq, List.filter_filter]
  refine filter_congr fun r _ => ?_
  rw [getLsbD_visibleWord _ _ _ _ (mod_lt _ (by decide)), div_add_mod', get_eq,
    Bool.and_comm]

/-- **A scan of every row finds those the reader sees.** -/
theorem forEachVisibleRow_eq : vs.forEachVisibleRow read =
      (range (vs.vectors.length * vectorRows)).filter (vs.visible · read) := by
  have hrows : 64 * (vs.vectors.length * words) = vs.vectors.length * vectorRows := by
    unfold words vectorRows
    omega
  rw [forEachVisibleRow]
  simp only [takeBits_eq]
  rw [flatMap_ones (fun index => vs.visibleWord index (BitVec.allOnes 64) read), hrows]
  refine filter_congr fun r _ => ?_
  have hbit : r % 64 < 64 := mod_lt _ (by decide)
  rw [getLsbD_visibleWord _ _ _ _ hbit, div_add_mod', BitVec.getLsbD_allOnes,
    decide_eq_true hbit, Bool.true_and]

/-- No reader sees a row past the last vector. -/
theorem visible_of_le {row : Nat} (h : vs.vectors.length * vectorRows ≤ row) :
    vs.visible row read = false := by
  have hnone : vs.vectors[row / vectorRows]? = none :=
    getElem?_eq_none ((le_div_iff_mul_le (by decide)).mpr h)
  rw [visible, hnone]

/-- **The count is of the rows a scan finds.** -/
theorem countVisible_eq : vs.countVisible read = (vs.forEachVisibleRow read).length := by
  rw [countVisible, forEachVisibleRow, length_flatMap]
  simp [takeBits_eq, toNat_cpop_eq]

end Versions

end Grafeo.RowGroup.Bits
