import Grafeo.RowGroup.VersionShapes

/-!
# Grafeo.RowGroup.VersionRefines

**The shapes a row group keeps its versions in refine the versions the store reads.**

A vector in its shape *shows* a vector of `Grafeo.RowGroup.Versions` when both are flat or
both stamped, with the same rows, the same kind of creators and the same deletes. Every
operation of the one shows that of the other and returns the same rows, so what is proved of
the versions row by row holds of the words and lists they are kept in.
-/

namespace Grafeo.RowGroup.Bits

open List Function Bool Lib

/-- The creators in their shape, and as the store reads them. -/
def Inserts.Shows : Inserts → RowGroup.Inserts → Prop
  | constant stamp, .constant stamp' => stamp = stamp'
  | perRow stamps written, .perRow stamps' written' =>
      (∀ row : Fin vectorRows, stamps row = stamps' row) ∧
        ∀ row : Fin vectorRows, written.get row = written' row
  | _, _ => False

/-- A stamped vector in its shape, and as the store reads it. -/
structure Stamped.Shows (s : Stamped) (t : RowGroup.Stamped) : Prop where
  ok : s.Ok
  present : ∀ row : Fin vectorRows, s.present.get row = t.present row
  created : s.created.Shows t.created
  deleted : ∀ row : Fin vectorRows, s.deleter row = t.deleted row

namespace Stamped

variable {s : Stamped} {t : RowGroup.Stamped} {row : Fin vectorRows}
  {rows : Fin vectorRows → Bool} {stamp : Option Stamp}

theorem Shows.creator (h : s.Shows t) (row : Fin vectorRows) :
    s.creator row = t.created.creator row := by
  have hcreated := h.created
  unfold Stamped.creator
  cases hs : s.created <;> cases ht : t.created <;> rw [hs, ht] at hcreated
  case constant.constant => exact congrArg some hcreated
  case perRow.perRow => exact hcreated.1 row
  all_goals exact hcreated.elim

/-- Both give a row the same version. -/
theorem Shows.get (h : s.Shows t) (row : Fin vectorRows) : s.get row = t.get row := by
  unfold Stamped.get RowGroup.Stamped.get
  rw [h.present, h.creator, h.deleted]

/-- The rows that exist, listed, are those the store reads. -/
theorem Shows.rows_eq (h : s.Shows t) :
    s.present.rows = ((finRange vectorRows).filter t.present).map Fin.val := by
  have hlength := h.ok.length
  rw [map_filter_finRange (q := s.present.get) fun row => (h.present row).symm, Bitset.rows_eq]
  exact (filter_range_of_le (by unfold words vectorRows at *; omega)
    fun r hr => Bitset.get_of_le hr).symm

theorem Shows.othersCreatedBy (h : s.Shows t) {constant : Stamp}
    (hs : s.created = .constant constant) (row : Fin vectorRows) (stamp : Stamp) :
    s.othersCreatedBy row stamp = t.othersCreatedBy constant row stamp := by
  unfold Stamped.othersCreatedBy RowGroup.Stamped.othersCreatedBy
  rw [hs]
  dsimp only
  rw [h.rows_eq, all_map, all_filter]
  congr 2
  funext r
  have hbeq : ((r : Nat) == row) = (r == row) := by
    rw [Bool.eq_iff_iff, beq_iff_eq, beq_iff_eq, Fin.ext_iff]
  exact congrArg (!t.present r || ·) hbeq

theorem update_coe {α : Type} (f : Nat → α) (g : Fin vectorRows → α)
    (h : ∀ r : Fin vectorRows, f r = g r) (row : Fin vectorRows) (x : α) (r : Fin vectorRows) :
    update f row x r = update g row x r := by
  rw [update_apply_of_injective f Fin.val_injective, funext h]

theorem get_set_coe (b : Bitset) (g : Fin vectorRows → Bool)
    (h : ∀ r : Fin vectorRows, b.get r = g r) (row r : Fin vectorRows) :
    (b.set row).get r = update g row true r := by
  rw [Bitset.get_set, ← update_coe _ _ h, update_apply]
  by_cases hr : (r : Nat) = row <;> simp [hr]

theorem Shows.setCreated (h : s.Shows t) (row : Fin vectorRows) (stamp : Stamp) :
    (s.setCreated row stamp).Shows (t.setCreated row stamp) where
  ok := h.ok.setCreated row.isLt stamp
  present := get_set_coe s.present t.present h.present row
  created := by
    have hcreated := h.created
    change (s.insertsWith row stamp).Shows (t.insertsWith row stamp)
    unfold Stamped.insertsWith RowGroup.Stamped.insertsWith
    cases hs : s.created <;> cases ht : t.created <;> rw [hs, ht] at hcreated
    case perRow.perRow =>
      exact ⟨update_coe _ _ hcreated.1 row _, get_set_coe _ _ hcreated.2 row⟩
    case constant.constant constant constant' =>
      obtain rfl : constant = constant' := hcreated
      dsimp only
      rw [h.othersCreatedBy hs]
      split
      · rfl
      · refine ⟨update_coe _ _ (fun r => ?_) row _, get_set_coe _ _ (fun r => ?_) row⟩
        · simp [perRowOf, foldl_update_rows, Bitset.mem_rows, h.present]
          rfl
        · rw [perRowOf, get_map_word h.ok.length, h.present]
    all_goals exact hcreated.elim
  deleted := h.deleted

/-- Who deleted each row, once `row`'s delete is set. -/
theorem Ok.deleter_setDeleted (h : s.Ok) {row : Nat} (hrow : row < vectorRows)
    (stamp : Option Stamp) (r : Nat) :
    (s.setDeleted row stamp).deleter r = if r = row then stamp else s.deleter r := by
  cases hs : s.deleted with
  | some deletes =>
    simp only [Stamped.setDeleted, hs, deleter]
    exact (h.deleted deletes hs).get_set hrow stamp r
  | none =>
    cases stamp with
    | none => simp [Stamped.setDeleted, hs, deleter]
    | some stamp =>
      simp only [Stamped.setDeleted, hs, deleter]
      rw [Deletes.ok_empty.get_set hrow]
      have hnone : ({} : Deletes).get r = none := by
        rw [Deletes.get, Deletes.get_noRows]
        rfl
      rw [hnone]

theorem setDeleted_present (s : Stamped) (row : Nat) (stamp : Option Stamp) :
    (s.setDeleted row stamp).present = s.present ∧
      (s.setDeleted row stamp).created = s.created := by
  unfold Stamped.setDeleted
  split <;> exact ⟨rfl, rfl⟩

theorem Shows.setDeleted (h : s.Shows t) (hrow : t.present row = true) (stamp : Option Stamp) :
    (s.setDeleted row stamp).Shows (t.setDeleted row stamp) where
  ok := h.ok.setDeleted row.isLt stamp
  present r := by
    rw [(setDeleted_present s row stamp).1]
    exact h.present r
  created := by
    rw [(setDeleted_present s row stamp).2]
    exact h.created
  deleted r := by
    have hset : (t.setDeleted row stamp).deleted = update t.deleted row stamp := if_pos hrow
    rw [h.ok.deleter_setDeleted row.isLt, hset, ← update_coe _ _ h.deleted, update_apply]

theorem get_clear_coe (b : Bitset) (g : Fin vectorRows → Bool)
    (h : ∀ r : Fin vectorRows, b.get r = g r) (row r : Fin vectorRows) :
    (b.clear row).get r = update g row false r := by
  rw [Bitset.get_clear, ← update_coe _ _ h, update_apply]
  by_cases hr : (r : Nat) = row <;> simp [hr]

theorem Shows.remove (h : s.Shows t) (row : Fin vectorRows) :
    (s.remove row).Shows (t.remove row) where
  ok := h.ok.remove row.isLt
  present := get_clear_coe s.present t.present h.present row
  created := by
    have hcreated := h.created
    obtain ⟨present, created, deleted⟩ := s
    obtain ⟨present', created', deleted', hsome, hwithin, habsent⟩ := t
    cases created <;> cases created'
    case constant.constant => exact hcreated
    case perRow.perRow => exact ⟨update_coe _ _ hcreated.1 row _, hcreated.2⟩
    all_goals exact hcreated.elim
  deleted r := by
    refine Eq.trans ?_ (update_coe _ _ h.deleted row none r)
    rw [update_apply]
    unfold Stamped.deleter Stamped.remove
    cases hs : s.deleted with
    | none => simp
    | some deletes => exact (h.ok.deleted deletes hs).get_set row.isLt none r

/-- A commit shows the store's, and returns the same rows. -/
theorem Shows.commitCreated (h : s.Shows t) {start stop : Nat} (hstop : stop ≤ vectorRows)
    (hrows : ∀ r : Fin vectorRows, rows r = (decide (start ≤ (r : Nat)) && decide ((r : Nat) < stop)))
    (source target : Stamp) :
    (s.commitCreated start stop source target).1.Shows (t.commitCreated rows source target).1 ∧
      (s.commitCreated start stop source target).2 =
        (t.commitCreated rows source target).2.map Fin.val := by
  have hcreated := h.created
  have hok : (s.commitCreated start stop source target).1.Ok :=
    h.ok.commitCreated hstop source target
  cases hs : s.created <;> cases ht : t.created <;> rw [hs, ht] at hcreated <;>
    simp [RowGroup.Stamped.commitCreated, RowGroup.Stamped.commitInserts, RowGroup.Stamped.committedRows, ht]
  case constant.perRow => exact hcreated.elim
  case perRow.constant => exact hcreated.elim
  case constant.constant constant constant' =>
    obtain rfl : constant = constant' := hcreated
    by_cases hc : constant = source ∨ constant = target
    · have hcommit : s.commitCreated start stop source target =
          ({ s with created := .constant target },
            s.present.rows.filter fun row => decide (start ≤ row ∧ row < stop)) := by
        simp [Stamped.commitCreated, hs, if_pos hc]
      rw [hcommit] at hok ⊢
      refine ⟨⟨hok, h.present, ?_, h.deleted⟩, ?_⟩
      · change target = if constant = source then target else constant
        split
        · rfl
        · next hne => exact (hc.resolve_left hne).symm
      · simp only [if_pos hc]
        rw [h.rows_eq, filter_map, filter_filter]
        refine congrArg (map _) (filter_congr fun r _ => ?_)
        rw [comp_apply, hrows, Bool.and_comm, decide_and]
    · have hcommit : s.commitCreated start stop source target = (s, []) := by
        simp [Stamped.commitCreated, hs, if_neg hc]
      rw [hcommit]
      refine ⟨⟨h.ok, h.present, ?_, h.deleted⟩, ?_⟩
      · rw [hs]
        change constant = if constant = source then target else constant
        rw [if_neg fun hsource => hc (.inl hsource)]
      · rw [if_neg hc]
        rfl
  case perRow.perRow stamps written stamps' written' =>
    obtain ⟨hstamps, hwritten⟩ := hcreated
    have hmem : ∀ r, r ∈ range' start (stop - start) ↔ start ≤ r ∧ r < stop := by
      intro r
      rw [mem_range'_1]
      omega
    have hcommit : s.commitCreated start stop source target = ({ s with
            created := .perRow
              (fun r => if r ∈ range' start (stop - start) ∧ stamps r = some source then
                some target else stamps r)
              (((range' start (stop - start)).filter fun r =>
                stamps r == some source).foldl Bitset.set written) },
          (range' start (stop - start)).filter fun r => stamps r == some source) := by
      simp [Stamped.commitCreated, hs, foldl_commitRow source target _ nodup_range']
    rw [hcommit] at hok ⊢
    refine ⟨⟨hok, h.present, ?_, h.deleted⟩, ?_⟩
    · refine ⟨fun r => ?_, fun r => ?_⟩
      · simp [hmem, hstamps, hrows]
      · simp only [Bitset.get_foldl_set, hwritten, hrows, mem_filter, hmem, hstamps, beq_iff_eq,
          decide_and]
        exact or_comm ..
    · dsimp only
      rw [range'_eq_filter hstop, filter_filter]
      refine (map_filter_finRange fun r => ?_).symm
      rw [hrows, hstamps, Bool.and_comm]

theorem settled_iff {horizon : Nat} : settled horizon stamp = true ↔
      stamp.isSome = true ∧ stamp.all (Stamp.committedBy horizon) = true := by
  cases stamp <;> simp [settled]

theorem none_or_settled_iff {horizon : Nat} : stamp = none ∨ settled horizon stamp = true ↔
      stamp.all (Stamp.committedBy horizon) = true := by
  cases stamp <;> simp [settled]

end Stamped

/-! ### Vectors -/

/-- A vector in its shape, and as the store reads it. -/
def VersionVector.Shows : VersionVector → RowGroup.VersionVector → Prop
  | flat present, .flat present' =>
      present.words.length ≤ words ∧ ∀ row : Fin vectorRows, present.get row = present' row
  | stamped stamps, .stamped stamps' => stamps.Shows stamps'
  | _, _ => False

namespace VersionVector

variable {v : VersionVector} {u : RowGroup.VersionVector} {row : Fin vectorRows}

section

variable (h : v.Shows u)
include h

theorem Shows.ok : v.Ok := by
  cases v <;> cases u
  case flat.flat => exact h.1
  case stamped.stamped => exact Stamped.Shows.ok h
  all_goals exact h.elim

theorem Shows.get (row : Fin vectorRows) : v.get row = u.get row := by
  cases v <;> cases u
  case flat.flat =>
    simp [VersionVector.get, RowGroup.VersionVector.get, h.2]
  case stamped.stamped => exact Stamped.Shows.get h row
  all_goals exact h.elim

theorem Shows.stampedOf : v.stampedOf.Shows u.stampedOf := by
  cases v <;> cases u
  case flat.flat => exact ⟨Stamped.ok_fromFlat h.1, h.2, rfl, fun _ => rfl⟩
  case stamped.stamped => exact h
  all_goals exact h.elim

theorem Shows.remove (row : Fin vectorRows) : (v.remove row).Shows (u.remove row) := by
  cases v <;> cases u
  case flat.flat =>
    exact ⟨(Bitset.length_clear ..).le.trans h.1, Stamped.get_clear_coe _ _ h.2 row⟩
  case stamped.stamped => exact Stamped.Shows.remove h row
  all_goals exact h.elim

theorem Shows.commitCreated {start stop : Nat} (hstop : stop ≤ vectorRows)
    (hrows : ∀ r : Fin vectorRows, rows r = (decide (start ≤ (r : Nat)) && decide ((r : Nat) < stop)))
    (source target : Stamp) :
    (v.commitCreated start stop source target).1.Shows (u.commitCreated rows source target).1 ∧
      (v.commitCreated start stop source target).2 =
        (u.commitCreated rows source target).2.map Fin.val := by
  cases v <;> cases u
  case flat.flat => exact ⟨h, rfl⟩
  case stamped.stamped => exact Stamped.Shows.commitCreated h hstop hrows source target
  all_goals exact h.elim

/-- A vector is settled when the store's is. -/
theorem Shows.collapses (horizon : Nat) : v.collapses horizon = u.collapses horizon := by
  cases v <;> cases u
  case flat.flat => rfl
  case stamped.stamped s t =>
    have hs : s.Shows t := h
    rw [Bool.eq_iff_iff]
    change s.settledBy horizon = true ↔ t.settledBy horizon = true
    rw [hs.ok.settledBy_iff, t.settledBy_iff]
    constructor
    · intro hall row hrow
      obtain ⟨hcreated, hdeleted⟩ := hall row ((hs.present row).trans hrow)
      rw [hs.creator] at hcreated
      rw [hs.deleted] at hdeleted
      exact ⟨(Stamped.settled_iff.mp hcreated).2, Stamped.none_or_settled_iff.mp hdeleted⟩
    · intro hall row hrow
      -- a row that exists is one of the vector's
      obtain ⟨row, rfl⟩ : ∃ r : Fin vectorRows, (r : Nat) = row := ⟨⟨row, hs.ok.lt_of_get hrow⟩, rfl⟩
      rw [hs.present] at hrow
      obtain ⟨hcreated, hdeleted⟩ := hall row hrow
      rw [hs.creator, hs.deleted]
      exact ⟨Stamped.settled_iff.mpr ⟨t.created_of_present row hrow, hcreated⟩,
        Stamped.none_or_settled_iff.mpr hdeleted⟩
  all_goals exact h.elim

/-- A collapse shows the store's, and the same rows are gone. -/
theorem Shows.collapseInto (horizon : Nat) :
    (v.collapseInto horizon).1.Shows (u.collapse horizon).1 ∧
      (v.collapseInto horizon).2 = (u.collapse horizon).2.map Fin.val := by
  have hcollapses := h.collapses horizon
  cases v <;> cases u
  case flat.flat => exact ⟨h, rfl⟩
  case stamped.stamped s t =>
    have hs : s.Shows t := h
    have hsettled : s.settledBy horizon = t.settledBy horizon := hcollapses
    unfold VersionVector.collapseInto RowGroup.VersionVector.collapse
    dsimp only
    rw [hsettled]
    split
    · rw [foldl_collapseStep hs.ok]
      refine ⟨⟨?_, fun row => ?_⟩, ?_⟩
      · exact (Bitset.length_trim_le _).trans
          ((Bitset.length_foldl_clear ..).le.trans hs.ok.length)
      · rw [Bitset.get_trim, get_keptRows hs.ok, hs.present, hs.deleted]
      · have hrows : ∀ row : Fin vectorRows, (t.present row && (t.deleted row).isSome) =
            (s.present.get row && (s.deleter row).isSome) := fun row => by
          rw [hs.present, hs.deleted]
        rw [deletedRows, map_filter_finRange
          (q := fun row => s.present.get row && (s.deleter row).isSome) hrows]
    · exact ⟨h, rfl⟩
  all_goals exact h.elim

end

end VersionVector

end Grafeo.RowGroup.Bits
