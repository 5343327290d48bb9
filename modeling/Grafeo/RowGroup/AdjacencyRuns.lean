import Grafeo.Lib.Ascending
import Grafeo.Lib.Transition
import Grafeo.RowGroup.Adjacency

/-!
# Grafeo.RowGroup.AdjacencyRuns

An adjacency through **every sequence of its writes**. `Pushed` keeps beside it the edges
that were pushed and not since removed or cleared, which is what its reads have to list,
and every edge id that was ever pushed: ids are never reused, so no id is pushed twice.

A merge may come at any push. It changes no row's listing but for its order
(`Stored.merge`), so the listings are followed through the other writes only.
-/

namespace Grafeo.RowGroup

open Lib List Option Nat

/-- A write of an adjacency. -/
inductive AdjacencyOp where
  | push (row : Nat) (adjacent : Adjacent Nat)
  | remove (row edge : Nat)
  | clear (row : Nat)
  | merge
  | pushSorted (row : Nat) (list : List (Adjacent Nat))

/-- An adjacency with the edges it has to list, each with its row, and every edge id that
    was pushed. -/
structure Pushed where
  adjacency : Adjacency := {}
  live : List (Nat × Adjacent Nat) := []
  seen : List Nat := []

namespace Pushed

def applyOp (adjacency : Adjacency) : AdjacencyOp → Option Adjacency
  | .push row adjacent => adjacency.push row adjacent
  | .remove row edge => adjacency.remove row edge
  | .clear row => adjacency.clear row
  | .merge => adjacency.merge
  | .pushSorted row list => some (adjacency.pushSorted row list)

def liveAfter (live : List (Nat × Adjacent Nat)) : AdjacencyOp → List (Nat × Adjacent Nat)
  | .push row adjacent => (row, adjacent) :: live
  | .remove row edge => live.filter fun entry => ¬ (entry.1 = row ∧ entry.2.edge = edge)
  | .clear row => live.filter fun entry => entry.1 ≠ row
  | .merge => live
  | .pushSorted row list => list.map (row, ·) ++ live

def seenAfter (seen : List Nat) : AdjacencyOp → List Nat
  | .push _ adjacent => adjacent.edge :: seen
  | .pushSorted _ list => list.map Adjacent.edge ++ seen
  | _ => seen

/-- What a caller promises: no edge id is pushed twice, and a sorted list comes in order
    and after the rows set before it. -/
def allowed (s : Pushed) : AdjacencyOp → Bool
  | .push _ adjacent => adjacent.edge ∉ s.seen
  | .pushSorted row list =>
      s.adjacency.offsets.length ≤ row + 1 ∧ (list.Pairwise fun a b => a.le b = true) ∧
        (list.map Adjacent.edge).Nodup ∧ ∀ adjacent ∈ list, adjacent.edge ∉ s.seen
  | _ => true

def step (s : Pushed) (op : AdjacencyOp) : Option Pushed :=
  (applyOp s.adjacency op).map fun adjacency =>
    { adjacency, live := liveAfter s.live op, seen := seenAfter s.seen op }

end Pushed

/-! ### Distinct ids -/

/-- The entries of the rows have distinct ids, all of them seen. -/
structure Distinct (entries : Nat → List (Adjacent Nat)) (seen : List Nat) : Prop where
  nodup : ∀ row, ((entries row).map Adjacent.edge).Nodup
  apart : ∀ row other, ∀ a ∈ entries row, ∀ b ∈ entries other, a.edge = b.edge → row = other
  seen : ∀ row, ∀ a ∈ entries row, a.edge ∈ seen

section Distinct

variable {entries entries' : Nat → List (Adjacent Nat)} {seen : List Nat} {row : Nat}
  {target : Adjacent Nat}

/-- Two entries with one id are one entry of one row. -/
theorem Distinct.eq (h : Distinct entries seen) {row other : Nat} {a b : Adjacent Nat}
    (ha : a ∈ entries row) (hb : b ∈ entries other) (hedge : a.edge = b.edge) :
    row = other ∧ a = b := by
  obtain rfl := h.apart row other a ha b hb hedge
  exact ⟨rfl, inj_on_of_nodup_map (h.nodup row) ha hb hedge⟩

/-- Entries that go, or change their order. -/
theorem Distinct.shrink (h : Distinct entries seen)
    (hsub : ∀ row, Subperm (entries' row) (entries row)) : Distinct entries' seen where
  nodup row := by
    obtain ⟨l, hperm, hl⟩ := hsub row
    exact (hperm.map _).nodup_iff.mp ((h.nodup row).sublist (hl.map _))
  apart row other a ha b hb := h.apart row other a ((hsub row).subset ha) b
    ((hsub other).subset hb)
  seen row a ha := h.seen row a ((hsub row).subset ha)

/-- New entries of one row, with ids not seen before. -/
theorem Distinct.grow (h : Distinct entries seen) (row : Nat) (new : List (Adjacent Nat))
    (hnodup : (new.map Adjacent.edge).Nodup) (hnew : ∀ a ∈ new, a.edge ∉ seen)
    (hrow : (entries' row).Perm (new ++ entries row))
    (hother : ∀ other, other ≠ row → entries' other = entries other) :
    Distinct entries' (new.map Adjacent.edge ++ seen) := by
  -- An entry is new and of the row, or was there.
  have hcases : ∀ {r : Nat} {a : Adjacent Nat}, a ∈ entries' r → r = row ∧ a ∈ new ∨ a ∈ entries r := by
    intro r a ha
    by_cases hr : r = row
    · subst hr
      rcases mem_append.mp (hrow.subset ha) with ha | ha
      · exact .inl ⟨rfl, ha⟩
      · exact .inr ha
    · exact .inr (hother r hr ▸ ha)
  refine ⟨fun r => ?_, fun r r' a ha b hb hedge => ?_, fun r a ha => ?_⟩
  · by_cases hr : r = row
    · subst hr
      rw [(hrow.map _).nodup_iff, map_append, nodup_append]
      refine ⟨hnodup, h.nodup r, fun e he e' he' heq => ?_⟩
      obtain ⟨a, ha, rfl⟩ := mem_map.mp he
      obtain ⟨b, hb, rfl⟩ := mem_map.mp he'
      exact hnew a ha (heq ▸ h.seen r b hb)
    · rw [hother r hr]
      exact h.nodup r
  · rcases hcases ha with ⟨rfl, hnewA⟩ | holdA
    · rcases hcases hb with ⟨rfl, -⟩ | holdB
      · rfl
      · exact absurd (hedge ▸ h.seen r' b holdB) (hnew a hnewA)
    · rcases hcases hb with ⟨rfl, hnewB⟩ | holdB
      · exact absurd (hedge ▸ h.seen r a holdA) (hnew b hnewB)
      · exact h.apart r r' a holdA b holdB hedge
  · rcases hcases ha with ⟨-, hnewA⟩ | hold
    · exact mem_append_left _ (mem_map_of_mem hnewA)
    · exact mem_append_right _ (h.seen r a hold)

end Distinct

/-! ### The invariant -/

namespace Adjacency

/-- All a row holds, removed edges included. -/
def entries (adjacency : Adjacency) (lists : List (List (Adjacent Nat))) (row : Nat) :
    List (Adjacent Nat) :=
  listAt lists row ++ adjacency.deltaAt row

variable {adjacency after : Adjacency} {lists : List (List (Adjacent Nat))}

theorem listing_sublist (row : Nat) :
    (adjacency.listing lists row).Sublist (adjacency.entries lists row) :=
  filter_sublist.append_right _

theorem mem_listing {a : Adjacent Nat} : a ∈ adjacency.listing lists row ↔
      a ∈ listAt lists row ∧ a.edge ∉ adjacency.removed ∨ a ∈ adjacency.deltaAt row := by
  simp [listing]

end Adjacency

open Adjacency

/-- `lists` are the rows' sorted lists, every id is in one place, and the rows list the
    live edges. -/
structure Pushed.Holds (s : Pushed) (lists : List (List (Adjacent Nat))) : Prop where
  stored : Stored s.adjacency lists
  distinct : Distinct (s.adjacency.entries lists) s.seen
  removed : ∀ edge ∈ s.adjacency.removed, edge ∈ s.seen
  live : ∀ row a, a ∈ s.adjacency.listing lists row ↔ (row, a) ∈ s.live

variable {adjacency after : Adjacency} {lists : List (List (Adjacent Nat))} {s : Pushed}
  {list : List (Adjacent Nat)}

namespace Adjacency

/-! ### The deltas -/

/-- One row of a merge, in order. -/
def mergedList (adjacency : Adjacency) (lists : List (List (Adjacent Nat))) (row : Nat) :
    List (Adjacent Nat) :=
  ((listAt lists row).filter fun adjacent => adjacent.edge ∉ adjacency.removed).merge
    ((adjacency.deltaAt row).mergeSort Adjacent.le) Adjacent.le

/-- The rows after a sorted list was set for `row`. -/
def setLists (lists : List (List (Adjacent Nat))) (row : Nat) (list : List (Adjacent Nat)) :
    List (List (Adjacent Nat)) :=
  (lists ++ List.replicate (row - lists.length) []) ++ [list]

/-- The first part of a clear: the row has no delta. -/
def clearDelta (adjacency : Adjacency) (row : Nat) : Adjacency :=
  match adjacency.delta.lookup row with
  | some list => { adjacency.dropDelta row with deltaLen := adjacency.deltaLen - list.length }
  | none => adjacency

theorem listAt_setLists (hrow : lists.length ≤ row) (list : List (Adjacent Nat))
    (r : Nat) : listAt (setLists lists row list) r = if r = row then list else listAt lists r := by
  have hlength : (lists ++ replicate (row - lists.length) []).length = row := by
    rw [length_append, length_replicate]
    omega
  have hpadded := getD_append_replicate lists [] (row - lists.length) r
  rw [getD_eq_getElem?_getD, getD_eq_getElem?_getD] at hpadded
  rw [listAt, setLists, getElem?_append, hlength, listAt]
  rcases lt_trichotomy r row with hlt | rfl | hgt
  · rw [if_pos hlt, if_neg hlt.ne, hpadded]
  · simp
  · rw [if_neg hgt.not_gt, if_neg hgt.ne', getElem?_eq_none (by simp; omega),
      getElem?_eq_none (by omega)]

/-- The edge is in the row's delta, at a position. -/
theorem deltaPosition_eq_some {row edge index : Nat}
    (h : adjacency.deltaPosition row edge = some (list, index)) :
    adjacency.delta.lookup row = some list ∧
      ∃ target, list[index]? = some target ∧ target.edge = edge := by
  simp only [deltaPosition, bind_eq_bind, bind_eq_some_iff, Option.pure_def,
    some.injEq, Prod.mk.injEq] at h
  obtain ⟨found, hfound, position, hposition, rfl, rfl⟩ := h
  obtain ⟨hlt, hedge, -⟩ := findIdx?_eq_some_iff_getElem.mp hposition
  exact ⟨hfound, _, getElem?_eq_getElem hlt, of_decide_eq_true hedge⟩

/-- The edge is not in the row's delta. -/
theorem deltaPosition_eq_none {row edge : Nat} (h : adjacency.deltaPosition row edge = none) :
    ∀ a ∈ adjacency.deltaAt row, a.edge ≠ edge := by
  intro a ha hedge
  rw [deltaAt] at ha
  cases hlist : adjacency.delta.lookup row with
  | none =>
    rw [hlist] at ha
    cases ha
  | some list =>
    rw [hlist, getD_some] at ha
    simp only [deltaPosition, hlist, bind_eq_bind, bind_some, bind_eq_none_iff] at h
    cases hindex : list.findIdx? fun adjacent => decide (adjacent.edge = edge) with
    | none => simpa [hedge] using findIdx?_eq_none_iff.mp hindex a ha
    | some index => cases h index hindex

/-- The edges of a list join the removed ones. -/
theorem mem_foldl_insert {edge : Nat} {removed : List Nat} :
    edge ∈ list.foldl (fun removed adjacent => removed.insert adjacent.edge) removed ↔
      edge ∈ removed ∨ ∃ a ∈ list, a.edge = edge := by
  induction list generalizing removed with
  | nil => simp
  | cons a list ih =>
    rw [foldl_cons, ih, mem_insert_iff]
    simp only [mem_cons, exists_eq_or_imp, eq_comm (a := a.edge)]
    tauto

section

variable (adjacency)

theorem deltaAt_pushDelta (row r : Nat) (adjacent : Adjacent Nat) :
    (adjacency.pushDelta row adjacent).deltaAt r =
      if r = row then adjacency.deltaAt row ++ [adjacent] else adjacency.deltaAt r := by
  rw [deltaAt, pushDelta, lookup_upsert]
  split <;> rfl

theorem lookup_dropDelta (row r : Nat) :
    (adjacency.dropDelta row).delta.lookup r =
      if r = row then none else adjacency.delta.lookup r :=
  lookup_eraseKey row r adjacency.delta

theorem deltaAt_dropDelta (row r : Nat) :
    (adjacency.dropDelta row).deltaAt r = if r = row then [] else adjacency.deltaAt r := by
  rw [deltaAt, lookup_dropDelta]
  split <;> rfl

theorem deltaAt_removeDelta (row r : Nat) (list : List (Adjacent Nat)) (index : Nat) :
    (adjacency.removeDelta row list index).deltaAt r =
      if r = row then list.eraseIdx index else adjacency.deltaAt r := by
  rw [removeDelta]
  by_cases hempty : (list.eraseIdx index).isEmpty = true
  · rw [if_pos hempty, deltaAt_dropDelta, isEmpty_iff.mp hempty]
    by_cases hr : r = row
    · rw [if_pos hr, if_pos hr]
    · rw [if_neg hr, if_neg hr, deltaAt, lookup_upsert, if_neg hr, deltaAt]
  · rw [if_neg hempty, deltaAt, lookup_upsert]
    split <;> rfl

theorem clear_eq (row : Nat) :
    adjacency.clear row = ((adjacency.clearDelta row).sortedOf row).map fun sorted =>
      { adjacency.clearDelta row with
        removed := sorted.foldl (fun removed adjacent => removed.insert adjacent.edge)
          (adjacency.clearDelta row).removed } := by
  rw [clear, clearDelta]
  cases adjacency.delta.lookup row with
  | none => cases adjacency.sortedOf row <;> rfl
  | some list =>
    cases Adjacency.sortedOf { adjacency.dropDelta row with
      deltaLen := adjacency.deltaLen - list.length } row <;> rfl

theorem deltaAt_clearDelta (row r : Nat) :
    (adjacency.clearDelta row).deltaAt r = if r = row then [] else adjacency.deltaAt r := by
  rw [clearDelta]
  cases hlist : adjacency.delta.lookup row with
  | some list => exact deltaAt_dropDelta adjacency row r
  | none =>
    by_cases hr : r = row
    · rw [if_pos hr, hr, deltaAt, hlist]
      rfl
    · rw [if_neg hr]

theorem removed_clearDelta (row : Nat) :
    (adjacency.clearDelta row).removed = adjacency.removed := by
  rw [clearDelta]
  split <;> rfl

end

/-- The rows with a delta after one was dropped. -/
theorem mem_deltaRows_dropDelta {row r : Nat}
    (h : r ∈ adjacency.deltaRows ↔ (adjacency.delta.lookup r).isSome = true) :
    r ∈ (adjacency.dropDelta row).deltaRows ↔
      ((adjacency.dropDelta row).delta.lookup r).isSome = true := by
  rw [lookup_dropDelta, dropDelta, mem_filter, h]
  by_cases hr : r = row <;> simp [hr]

/-! ### The lists, stored -/

variable (h : Stored adjacency lists)
include h

theorem Stored.mergedList_ordered (row : Nat) : Ordered (adjacency.mergedList lists row) := by
  have htrans : ∀ a b c : Adjacent Nat, a.le b = true → b.le c = true → a.le c = true :=
    fun _ _ _ => Adjacent.le_trans
  exact pairwise_merge htrans Adjacent.le_total _ _
    (Pairwise.filter _ (h.ordered_listAt row))
    (pairwise_mergeSort htrans Adjacent.le_total _)

theorem Stored.mergedRow_eq (row : Nat) :
    adjacency.mergedRow row = some (adjacency.mergedList lists row) := by
  simp [mergedRow, h.sortedOf_eq, mergedList, deltaAt]

/-- The merge lays the merged rows one after the other. -/
theorem Stored.foldlM_mergedRow (rows : List Nat) (laid : List (List (Adjacent Nat))) :
    rows.foldlM (fun (built : List Nat × List (Adjacent Nat)) row => do
      let merged ← adjacency.mergedRow row
      let sorted := built.2 ++ merged
      return (built.1 ++ [sorted.length], sorted)) (offsetsFrom 0 laid, laid.flatten) =
    some (offsetsFrom 0 (laid ++ rows.map (adjacency.mergedList lists)),
      (laid ++ rows.map (adjacency.mergedList lists)).flatten) := by
  induction rows generalizing laid with
  | nil => simp
  | cons row rows ih =>
    have hlaid := ih (laid ++ [adjacency.mergedList lists row])
    rw [offsetsFrom_concat, zero_add, flatten_concat, append_assoc] at hlaid
    rw [foldlM_cons, h.mergedRow_eq]
    exact hlaid

/-- Past the rows of a merge, a row lists nothing. -/
theorem Stored.listing_eq_nil (hsorted : adjacency.offsets.length - 1 ≤ row)
    (hdelta : ((adjacency.delta.map Prod.fst).max?).elim 0 (· + 1) ≤ row) :
    adjacency.listing lists row = [] := by
  have hlist : listAt lists row = [] := by
    rw [listAt, getElem?_eq_none]
    · rfl
    · rcases h.offsets with hoffsets | ⟨-, rfl⟩
      · rw [hoffsets, length_offsetsFrom] at hsorted
        omega
      · exact zero_le _
  have hnone : adjacency.delta.lookup row = none := by
    rw [← not_isSome_iff_eq_none, lookup_isSome]
    intro hmem
    obtain ⟨newest, hmax⟩ := ne_none_iff_exists'.mp fun hnone =>
      (ne_nil_of_mem hmem) (max?_eq_none_iff.mp hnone)
    rw [hmax, elim_some] at hdelta
    have hle := (max?_le_iff hmax).mp le_rfl row hmem
    omega
  rw [listing, hlist, deltaAt, hnone]
  rfl

/-- **A merge keeps every row's listing**, in order, with nothing left to merge. -/
theorem Stored.merge : ∃ merged lists', adjacency.merge = some merged ∧ Stored merged lists' ∧
      merged.removed = [] ∧ merged.delta = [] ∧ merged.deltaRows = [] ∧ merged.deltaLen = 0 ∧
      ∀ row, (listAt lists' row).Perm (adjacency.listing lists row) := by
  generalize hrows : max (adjacency.offsets.length - 1)
    (((adjacency.delta.map Prod.fst).max?).elim 0 (· + 1)) = rows
  have hfold := h.foldlM_mergedRow (range rows) []
  refine ⟨{ offsets := offsetsFrom 0 ((range rows).map (adjacency.mergedList lists)),
            sorted := ((range rows).map (adjacency.mergedList lists)).flatten },
    (range rows).map (adjacency.mergedList lists), ?_, ?_, rfl, rfl, rfl, rfl, ?_⟩
  · simp only [Adjacency.merge, hrows]
    simp only [offsetsFrom, flatten_nil, nil_append, bind_eq_bind] at hfold ⊢
    rw [hfold]
    rfl
  · refine ⟨rfl, .inl rfl, fun l hl => ?_, fun row => by simp, nodup_nil, rfl⟩
    obtain ⟨row, -, rfl⟩ := mem_map.mp hl
    exact h.mergedList_ordered row
  intro row
  by_cases hrow : row < rows
  · have hat : listAt ((range rows).map (adjacency.mergedList lists)) row =
        adjacency.mergedList lists row := by
      simp [listAt, hrow]
    rw [hat]
    exact (merge_perm_append _).trans ((mergeSort_perm ..).append_left _)
  · rw [h.listing_eq_nil (by omega) (by omega), listAt, getElem?_eq_none (by simpa using hrow)]
    exact .refl _

theorem Stored.pushDelta (row : Nat) (adjacent : Adjacent Nat) :
    Stored (adjacency.pushDelta row adjacent) lists where
  sorted := h.sorted
  offsets := h.offsets
  ordered := h.ordered
  deltaRows r := by
    rw [Adjacency.pushDelta, lookup_upsert, mem_insert_iff, h.deltaRows]
    by_cases hr : r = row <;> simp [hr]
  keys := nodup_upsert h.keys
  deltaLen := by
    have hweigh := @weigh_upsert Nat (List (Adjacent Nat)) _ length [] (· ++ [adjacent])
      adjacency.delta row rfl
    rw [length_append, length_singleton] at hweigh
    show adjacency.deltaLen + 1 = _
    rw [h.deltaLen]
    simp only [Adjacency.pushDelta]
    omega

theorem Stored.length_le (hrow : adjacency.offsets.length ≤ row + 1) : lists.length ≤ row := by
  rcases h.offsets with hoffsets | ⟨-, rfl⟩
  · rw [hoffsets, length_offsetsFrom] at hrow
    omega
  · exact zero_le _

theorem Stored.pushSorted (hlist : Ordered list) :
    Stored (adjacency.pushSorted row list) (setLists lists row list) where
  sorted := by
    show adjacency.sorted ++ list = _
    rw [h.sorted, setLists, flatten_concat, flatten_append]
    simp
  offsets := by
    have hbase : (if adjacency.offsets.isEmpty then [0] else adjacency.offsets) =
        offsetsFrom 0 lists := by
      rcases h.offsets with hoffsets | ⟨hoffsets, rfl⟩
      · rw [hoffsets, if_neg]
        cases lists <;> simp [offsetsFrom]
      · rw [hoffsets]
        rfl
    refine .inl ?_
    simp only [Adjacency.pushSorted, hbase, length_offsetsFrom, setLists]
    rw [offsetsFrom_concat, offsetsFrom_replicate, h.sorted, zero_add, zero_add,
      Nat.add_sub_add_right, flatten_concat, flatten_append]
    simp
  ordered l hl := by
    simp only [setLists, mem_append, mem_singleton, mem_replicate] at hl
    rcases hl with (hl | ⟨-, rfl⟩) | rfl
    · exact h.ordered l hl
    · exact .nil
    · exact hlist
  deltaRows := h.deltaRows
  keys := h.keys
  deltaLen := h.deltaLen

/-- A changed delta, with its count: the lists and the removed edges are as they were. -/
theorem Stored.of_delta (hsorted : after.sorted = adjacency.sorted)
    (hoffsets : after.offsets = adjacency.offsets)
    (hrows : ∀ row, row ∈ after.deltaRows ↔ (after.delta.lookup row).isSome = true)
    (hkeys : (after.delta.map Prod.fst).Nodup)
    (hlen : after.deltaLen = weigh length after.delta) : Stored after lists where
  sorted := hsorted.trans h.sorted
  offsets := by rw [hoffsets]; exact h.offsets
  ordered := h.ordered
  deltaRows := hrows
  keys := hkeys
  deltaLen := hlen

theorem Stored.removeDelta {row index : Nat} (hlist : adjacency.delta.lookup row = some list)
    (hindex : index < list.length) : Stored (adjacency.removeDelta row list index) lists := by
  generalize hrest : list.eraseIdx index = rest
  have hlen : rest.length + 1 = list.length := by
    rw [← hrest, length_eraseIdx_of_lt hindex]
    omega
  have hweigh := @weigh_upsert Nat (List (Adjacent Nat)) _ length [] (fun _ => rest)
    adjacency.delta row rfl
  rw [hlist, getD_some] at hweigh
  -- The row with the rest of its delta, which may be empty.
  have hput : Stored { adjacency with
      delta := upsert row [] (fun _ => rest) adjacency.delta
      deltaLen := adjacency.deltaLen - 1 } lists := by
    refine h.of_delta rfl rfl (fun r => ?_) (nodup_upsert h.keys) ?_
    · show r ∈ adjacency.deltaRows ↔ _
      rw [h.deltaRows, lookup_upsert]
      by_cases hr : r = row
      · simp [hr, hlist]
      · simp [hr]
    · show adjacency.deltaLen - 1 = weigh length (upsert row [] (fun _ => rest) adjacency.delta)
      rw [h.deltaLen]
      omega
  rw [Adjacency.removeDelta, hrest]
  by_cases hempty : rest.isEmpty = true
  · rw [if_pos hempty]
    refine hput.of_delta rfl rfl (fun r => mem_deltaRows_dropDelta (hput.deltaRows r))
      (nodup_eraseKey hput.keys) ?_
    have hfound : (upsert row [] (fun _ => rest) adjacency.delta).lookup row = some rest := by
      rw [lookup_upsert, if_pos rfl]
    have herase := @weigh_eraseKey Nat (List (Adjacent Nat)) _ _ row length rest
      hput.keys hfound
    rw [isEmpty_iff.mp hempty, length_nil, add_zero] at herase
    rw [isEmpty_iff.mp hempty] at hput ⊢
    exact hput.deltaLen.trans herase.symm
  · rw [if_neg hempty]
    exact hput

theorem Stored.clearDelta (row : Nat) : Stored (adjacency.clearDelta row) lists := by
  rw [Adjacency.clearDelta]
  cases hlist : adjacency.delta.lookup row with
  | none => exact h
  | some list =>
    refine h.of_delta rfl rfl (fun r => mem_deltaRows_dropDelta (h.deltaRows r))
      (nodup_eraseKey h.keys) ?_
    have herase := @weigh_eraseKey Nat (List (Adjacent Nat)) _ _ row length list h.keys hlist
    show adjacency.deltaLen - list.length = weigh length (eraseKey row adjacency.delta)
    rw [h.deltaLen]
    omega

end Adjacency

/-! ### The operations -/

namespace Pushed.Holds

variable (h : s.Holds lists)
include h

/-- A merge leaves the same edges live. -/
theorem merge : ∃ merged lists', s.adjacency.merge = some merged ∧
      Pushed.Holds { s with adjacency := merged } lists' := by
  obtain ⟨merged, lists', hmerge, hstored, hremoved, hdelta, -, -, hperm⟩ := h.stored.merge
  have hat : ∀ row, merged.deltaAt row = [] := fun row => by rw [deltaAt, hdelta]; rfl
  have hentries : ∀ row, merged.entries lists' row = listAt lists' row := fun row => by
    rw [entries, hat, append_nil]
  refine ⟨merged, lists', hmerge, hstored, h.distinct.shrink fun row => ?_, ?_, fun row a => ?_⟩
  · show Subperm (merged.entries lists' row) _
    rw [hentries]
    exact ⟨_, (hperm row).symm, listing_sublist row⟩
  · intro edge hedge
    rw [show merged.removed = [] from hremoved] at hedge
    cases hedge
  · rw [← h.live row a, mem_listing]
    simp only [hremoved, hat, not_mem_nil, not_false_eq_true, and_true, or_false]
    exact (hperm row).mem_iff

theorem pushDelta (row : Nat) {adjacent : Adjacent Nat} (hnew : adjacent.edge ∉ s.seen) :
    Pushed.Holds { adjacency := s.adjacency.pushDelta row adjacent
                   live := (row, adjacent) :: s.live
                   seen := adjacent.edge :: s.seen } lists where
  stored := h.stored.pushDelta row adjacent
  distinct := by
    refine h.distinct.grow row [adjacent] (by simp) (by simpa using hnew) ?_ ?_
    · rw [entries, deltaAt_pushDelta, if_pos rfl, ← append_assoc]
      exact perm_append_comm
    · intro r hr
      rw [entries, deltaAt_pushDelta, if_neg hr, entries]
  removed edge hedge := mem_cons_of_mem _ (h.removed edge hedge)
  live r a := by
    rw [mem_listing, deltaAt_pushDelta, mem_cons, ← h.live r a, mem_listing]
    by_cases hr : r = row
    · subst hr
      simp only [if_true, mem_append, mem_singleton, Prod.mk.injEq, true_and, Adjacency.pushDelta]
      tauto
    · simp [hr, Adjacency.pushDelta]

theorem pushSorted (hrow : s.adjacency.offsets.length ≤ row + 1) (hlist : Ordered list)
    (hnodup : (list.map Adjacent.edge).Nodup) (hnew : ∀ a ∈ list, a.edge ∉ s.seen) :
    Pushed.Holds { adjacency := s.adjacency.pushSorted row list
                   live := list.map (row, ·) ++ s.live
                   seen := list.map Adjacent.edge ++ s.seen } (setLists lists row list) := by
  have hlength := h.stored.length_le hrow
  have hempty : listAt lists row = [] := by
    rw [listAt, getElem?_eq_none hlength]
    rfl
  have hdelta : ∀ r, (s.adjacency.pushSorted row list).deltaAt r = s.adjacency.deltaAt r :=
    fun r => rfl
  refine ⟨h.stored.pushSorted hlist, ?_, ?_, fun r a => ?_⟩
  · refine h.distinct.grow row list hnodup hnew ?_ ?_
    · rw [entries, listAt_setLists hlength, if_pos rfl, hdelta, entries, hempty, nil_append]
    · intro r hr
      rw [entries, listAt_setLists hlength, if_neg hr, hdelta, entries]
  · exact fun edge hedge => mem_append_right _ (h.removed edge hedge)
  have hkept : ∀ b ∈ list, b.edge ∉ s.adjacency.removed :=
    fun b hb hremoved => hnew b hb (h.removed _ hremoved)
  rw [mem_listing, listAt_setLists hlength, hdelta, mem_append, ← h.live r a, mem_listing]
  by_cases hr : r = row
  · subst hr
    simp only [if_true, hempty, not_mem_nil, false_and, false_or, List.mem_map,
      Prod.mk.injEq, true_and, exists_eq_right]
    tauto
  have hne : (r, a) ∉ list.map (row, ·) := by
    intro hmem
    obtain ⟨b, -, heq⟩ := mem_map.mp hmem
    exact hr (congrArg Prod.fst heq).symm
  simp only [if_neg hr, hne, false_or]
  exact .rfl

/-- An edge taken out of the row's delta is in no other place. -/
theorem removeDelta {row index edge : Nat}
    (hlist : s.adjacency.delta.lookup row = some list) (htarget : list[index]? = some target)
    (hedge : target.edge = edge) :
    Pushed.Holds { s with
      adjacency := s.adjacency.removeDelta row list index
      live := s.live.filter fun entry => ¬ (entry.1 = row ∧ entry.2.edge = edge) } lists := by
  obtain ⟨hindex, -⟩ := List.getElem?_eq_some_iff.mp htarget
  obtain ⟨earlier, later, rfl, rfl⟩ := split_at htarget
  have hat : s.adjacency.deltaAt row = earlier ++ target :: later := by rw [deltaAt, hlist]; rfl
  have hremoved : ∀ r, (s.adjacency.removeDelta row (earlier ++ target :: later)
      earlier.length).deltaAt r = if r = row then earlier ++ later else s.adjacency.deltaAt r := by
    intro r
    rw [deltaAt_removeDelta, eraseIdx_length]
  have hsame : (s.adjacency.removeDelta row (earlier ++ target :: later) earlier.length).removed =
      s.adjacency.removed := by
    rw [Adjacency.removeDelta]
    split <;> rfl
  -- The row's ids are distinct, so what is left does not hold the edge's.
  have hnodup := h.distinct.nodup row
  have hgone : ∀ a ∈ listAt lists row ++ (earlier ++ later), a.edge ≠ target.edge := by
    rw [entries, hat] at hnodup
    have hperm : (listAt lists row ++ (earlier ++ target :: later)).Perm
        (target :: (listAt lists row ++ (earlier ++ later))) := by
      rw [← append_assoc, ← append_assoc]
      exact perm_middle
    rw [(hperm.map _).nodup_iff, map_cons, nodup_cons] at hnodup
    exact fun a ha heq => hnodup.1 (heq ▸ mem_map_of_mem ha)
  refine ⟨h.stored.removeDelta hlist hindex, ?_, ?_, ?_⟩
  · refine h.distinct.shrink fun r => ?_
    rw [entries, hremoved, entries]
    by_cases hr : r = row
    · subst hr
      rw [if_pos rfl, hat]
      exact ((Sublist.refl _).append ((Sublist.refl _).append (sublist_cons_self ..))).subperm
    · rw [if_neg hr]
  · rw [hsame]
    exact h.removed
  · intro r a
    rw [mem_listing, hremoved, hsame, mem_filter, ← h.live r a, mem_listing, decide_eq_true_eq]
    by_cases hr : r = row
    · subst hr
      rw [if_pos rfl, hat, ← hedge]
      have hleft := hgone a
      simp only [mem_append, mem_cons] at hleft ⊢
      constructor
      · intro hin
        refine ⟨by tauto, fun hboth => hleft (by tauto) hboth.2⟩
      · rintro ⟨hin, hne⟩
        tauto
    · simp [hr]

/-- An edge of a row's sorted list joins the removed ones. -/
theorem removeSorted {row edge : Nat} (hdelta : ∀ a ∈ s.adjacency.deltaAt row, a.edge ≠ edge)
    (htarget : target ∈ listAt lists row) (hedge : target.edge = edge) :
    Pushed.Holds { s with
      adjacency := { s.adjacency with removed := s.adjacency.removed.insert edge }
      live := s.live.filter fun entry => ¬ (entry.1 = row ∧ entry.2.edge = edge) } lists := by
  have hmem : target ∈ s.adjacency.entries lists row := mem_append_left _ htarget
  refine ⟨h.stored.of_delta rfl rfl h.stored.deltaRows h.stored.keys h.stored.deltaLen,
    h.distinct, ?_, ?_⟩
  · intro e he
    rcases mem_insert_iff.mp he with rfl | he
    · rw [← hedge]
      exact h.distinct.seen row target hmem
    · exact h.removed e he
  · intro r a
    rw [mem_filter, ← h.live r a, mem_listing, mem_listing, decide_eq_true_eq]
    show a ∈ listAt lists r ∧ a.edge ∉ s.adjacency.removed.insert edge ∨ a ∈ s.adjacency.deltaAt r ↔ _
    rw [mem_insert_iff]
    -- An entry with the edge's id is the target, which is not in the delta.
    have hlisted : a ∈ listAt lists r → a.edge = edge → r = row := fun ha he =>
      (h.distinct.eq (mem_append_left _ ha) hmem (he.trans hedge.symm)).1
    have hadded : a ∈ s.adjacency.deltaAt r → r = row → a.edge ≠ edge := by
      rintro ha rfl
      exact hdelta a ha
    tauto

/-- No entry of the row has the id. -/
theorem removeNone {row edge : Nat} (hnone : ∀ a ∈ s.adjacency.entries lists row, a.edge ≠ edge) :
    Pushed.Holds { s with
      live := s.live.filter fun entry => ¬ (entry.1 = row ∧ entry.2.edge = edge) } lists := by
  refine ⟨h.stored, h.distinct, h.removed, fun r a => ?_⟩
  rw [mem_filter, ← h.live r a, decide_eq_true_eq]
  refine ⟨fun ha => ⟨ha, ?_⟩, fun ha => ha.1⟩
  rintro ⟨rfl, hedge⟩
  exact hnone a ((listing_sublist r).subset ha) hedge

theorem remove (row edge : Nat) :
    ∃ after, s.adjacency.remove row edge = some after ∧ Pushed.Holds { s with
        adjacency := after
        live := s.live.filter fun entry => ¬ (entry.1 = row ∧ entry.2.edge = edge) } lists := by
  cases hposition : s.adjacency.deltaPosition row edge with
  | some found =>
    obtain ⟨hlist, target, htarget, hedge⟩ := deltaPosition_eq_some hposition
    refine ⟨_, ?_, h.removeDelta hlist htarget hedge⟩
    rw [Adjacency.remove, hposition]
  | none =>
    have hdelta := deltaPosition_eq_none hposition
    simp only [Adjacency.remove, hposition, h.stored.sortedOf_eq, bind_eq_bind,
      bind_some, Option.pure_def]
    by_cases hany : ((listAt lists row).any fun adjacent => decide (adjacent.edge = edge)) = true
    · obtain ⟨target, htarget, hedge⟩ := any_eq_true.mp hany
      exact ⟨_, if_pos hany, h.removeSorted hdelta htarget (of_decide_eq_true hedge)⟩
    · refine ⟨_, if_neg hany, h.removeNone fun a ha hedge => ?_⟩
      rcases mem_append.mp ha with ha | ha
      · exact hany (any_eq_true.mpr ⟨a, ha, decide_eq_true hedge⟩)
      · exact hdelta a ha hedge

theorem clear (row : Nat) :
    ∃ after, s.adjacency.clear row = some after ∧ Pushed.Holds { s with
        adjacency := after
        live := s.live.filter fun entry => entry.1 ≠ row } lists := by
  have hstored := h.stored.clearDelta row
  rw [clear_eq, hstored.sortedOf_eq]
  refine ⟨_, rfl, hstored.of_delta rfl rfl hstored.deltaRows hstored.keys hstored.deltaLen,
    ?_, ?_, ?_⟩
  · refine h.distinct.shrink fun r => ?_
    show Subperm (listAt lists r ++ (s.adjacency.clearDelta row).deltaAt r) _
    rw [deltaAt_clearDelta, entries]
    split
    · rw [append_nil]
      exact (sublist_append_left ..).subperm
    · exact Subperm.refl _
  · intro edge hedge
    rw [mem_foldl_insert, removed_clearDelta] at hedge
    rcases hedge with hedge | ⟨a, ha, rfl⟩
    · exact h.removed edge hedge
    · exact h.distinct.seen row a (mem_append_left _ ha)
  · intro r a
    rw [mem_filter, ← h.live r a, mem_listing, mem_listing, decide_eq_true_eq]
    show a ∈ listAt lists r ∧ a.edge ∉ _ ∨ a ∈ (s.adjacency.clearDelta row).deltaAt r ↔ _
    rw [mem_foldl_insert, removed_clearDelta, deltaAt_clearDelta]
    by_cases hr : r = row
    · subst hr
      simp only [if_true, not_mem_nil, or_false, ne_eq, not_true_eq_false, and_false,
        iff_false, not_and, not_not]
      exact fun ha => .inr ⟨a, ha, rfl⟩
    -- The ids of another row's list are not this row's.
    have hapart : a ∈ listAt lists r → ¬ ∃ b ∈ listAt lists row, b.edge = a.edge := by
      rintro ha ⟨b, hb, hedge⟩
      exact hr (h.distinct.eq (mem_append_left _ ha) (mem_append_left _ hb) hedge.symm).1
    simp only [hr, if_false, ne_eq, not_false_eq_true, and_true]
    by_cases ha : a ∈ listAt lists r
    · simp [ha, hapart ha]
    · simp [ha]

end Pushed.Holds

/-! ### Runs -/

namespace Pushed

/-- Some lists are the rows'. -/
def Ok (s : Pushed) : Prop := ∃ lists, s.Holds lists

theorem Ok.init : Ok {} := by
  refine ⟨[], ⟨rfl, .inr ⟨rfl, rfl⟩, nofun, fun _ => by simp, nodup_nil, rfl⟩,
    ⟨fun _ => nodup_nil, fun _ _ => nofun, fun _ => nofun⟩, nofun,
    fun _ _ => by simp [listing, listAt, deltaAt]⟩

theorem step_eq {op : AdjacencyOp} (h : applyOp s.adjacency op = some after) :
    s.step op = some { adjacency := after, live := liveAfter s.live op,
                       seen := seenAfter s.seen op } := by
  rw [Pushed.step, h]
  rfl

/-- **Every write a caller may make returns**, and keeps the invariant. -/
theorem Ok.step {op : AdjacencyOp} (h : Ok s) (hallowed : s.allowed op = true) :
    ∃ after, s.step op = some after ∧ Ok after := by
  obtain ⟨lists, h⟩ := h
  cases op with
  | push row adjacent =>
    have hpushed := h.pushDelta row (of_decide_eq_true hallowed)
    by_cases hmerge : (s.adjacency.pushDelta row adjacent).deltaLen >
        max mergeMin ((s.adjacency.pushDelta row adjacent).sorted.length / 2)
    · obtain ⟨merged, lists', hmerged, hholds⟩ := hpushed.merge
      exact ⟨_, step_eq ((if_pos hmerge).trans hmerged), lists', hholds⟩
    · exact ⟨_, step_eq (if_neg hmerge), lists, hpushed⟩
  | remove row edge =>
    obtain ⟨after, hafter, hholds⟩ := h.remove row edge
    exact ⟨_, step_eq hafter, lists, hholds⟩
  | clear row =>
    obtain ⟨after, hafter, hholds⟩ := h.clear row
    exact ⟨_, step_eq hafter, lists, hholds⟩
  | merge =>
    obtain ⟨merged, lists', hmerged, hholds⟩ := h.merge
    exact ⟨_, step_eq hmerged, lists', hholds⟩
  | pushSorted row list =>
    obtain ⟨hrow, hordered, hnodup, hnew⟩ := of_decide_eq_true hallowed
    exact ⟨_, rfl, _, h.pushSorted hrow hordered hnodup hnew⟩

theorem ok_run {ops : List AdjacencyOp} (hrun : run (restrict allowed step) {} ops = some s) :
    Ok s := by
  refine run_invariant Ok (fun r op r' h hstep => ?_) Ok.init hrun
  obtain ⟨hallowed, hstep⟩ := restrict_eq_some.mp hstep
  obtain ⟨after, hafter, hok⟩ := h.step hallowed
  cases hstep.symm.trans hafter
  exact hok

end Pushed

/-- `list` holds exactly the edges `p` picks, each once. -/
def Lists (list : List (Adjacent Nat)) (p : Adjacent Nat → Prop) : Prop :=
  (list.map Adjacent.edge).Nodup ∧ ∀ a, a ∈ list ↔ p a

/-- **An adjacency lists the edges pushed to it and not since removed or cleared.** After
    every sequence of pushes, removals, clears, merges and sorted lists in which no edge id
    is pushed twice: a row's edges, those of one type and those to one node are exactly the
    live ones, each once; no call a caller may make fails; and a merge leaves every row's
    sorted list in order, with an empty delta and no removed edge. -/
theorem adjacency_lists_pushed {ops : List AdjacencyOp} {s : Pushed}
    (hrun : run (restrict Pushed.allowed Pushed.step) {} ops = some s) :
    (∀ row, ∃ list, s.adjacency.of row = some list ∧ Lists list fun a => (row, a) ∈ s.live) ∧
    (∀ row edgeType, ∃ list, s.adjacency.ofType row edgeType = some list ∧
      Lists list fun a => (row, a) ∈ s.live ∧ a.edgeType = edgeType) ∧
    (∀ row other, ∃ list, s.adjacency.toOther row other = some list ∧
      Lists list fun a => (row, a) ∈ s.live ∧ a.other = other) ∧
    (∀ op, s.allowed op = true → (s.step op).isSome = true) ∧
    ∃ merged, s.adjacency.merge = some merged ∧ merged.delta = [] ∧ merged.removed = [] ∧
      merged.isMerged = true ∧
      ∀ row, ∃ list, merged.sortedOf row = some list ∧ list.Pairwise fun a b => a.le b = true := by
  have hok := Pushed.ok_run hrun
  obtain ⟨lists, h⟩ := hok
  have hnodup : ∀ row, ((s.adjacency.listing lists row).map Adjacent.edge).Nodup := fun row =>
    (h.distinct.nodup row).sublist ((listing_sublist row).map _)
  have hfilter : ∀ (row : Nat) (p : Adjacent Nat → Bool),
      Lists ((s.adjacency.listing lists row).filter p) fun a => (row, a) ∈ s.live ∧ p a = true := by
    intro row p
    refine ⟨(hnodup row).sublist (filter_sublist.map _), fun a => ?_⟩
    rw [mem_filter, h.live row a]
  refine ⟨fun row => ⟨_, h.stored.of_eq row, hnodup row, h.live row⟩, fun row edgeType => ?_,
    fun row other => ?_, fun op hallowed => ?_, ?_⟩
  · refine ⟨_, h.stored.ofType_eq row edgeType, ?_⟩
    simpa using hfilter row fun a => a.edgeType = edgeType
  · refine ⟨_, h.stored.toOther_eq row other, ?_⟩
    simpa using hfilter row fun a => a.other = other
  · obtain ⟨after, hafter, -⟩ := Pushed.Ok.step ⟨lists, h⟩ hallowed
    rw [hafter]
    rfl
  · obtain ⟨merged, lists', hmerged, hstored, hremoved, hdelta, -, hlen, -⟩ := h.stored.merge
    refine ⟨merged, hmerged, hdelta, hremoved, ?_, fun row =>
      ⟨_, hstored.sortedOf_eq row, hstored.ordered_listAt row⟩⟩
    simp [isMerged, hlen, hremoved]

/-- A loaded row, edges pushed to two rows, and one of the loaded edges removed. -/
def loadedRow : List AdjacencyOp :=
  [.pushSorted 0 [⟨1, 5, 10⟩, ⟨2, 3, 11⟩], .push 0 ⟨1, 4, 12⟩, .push 2 ⟨1, 0, 13⟩, .remove 0 11]

/-- The row lists the loaded edge that is left and the pushed one. -/
theorem adjacency_lists_pushed_loadedRow :
    ∃ s list, run (restrict Pushed.allowed Pushed.step) {} loadedRow = some s ∧
      s.adjacency.of 0 = some list ∧ Lists list fun a => a = ⟨1, 5, 10⟩ ∨ a = ⟨1, 4, 12⟩ := by
  have hsome : (run (restrict Pushed.allowed Pushed.step) {} loadedRow).map Pushed.live =
      some [(2, ⟨1, 0, 13⟩), (0, ⟨1, 4, 12⟩), (0, ⟨1, 5, 10⟩)] := by decide +kernel
  obtain ⟨s, hrun, hlive⟩ := map_eq_some_iff.mp hsome
  obtain ⟨hof, -⟩ := adjacency_lists_pushed hrun
  obtain ⟨list, hlist, hnodup, hmem⟩ := hof 0
  refine ⟨s, list, hrun, hlist, hnodup, fun a => ?_⟩
  rw [hmem a, hlive]
  simp only [mem_cons, not_mem_nil, or_false, Prod.mk.injEq, true_and]
  tauto

end Grafeo.RowGroup
