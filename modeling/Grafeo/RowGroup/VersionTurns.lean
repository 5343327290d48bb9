import Grafeo.RowGroup.VersionRefines

/-!
# Grafeo.RowGroup.VersionTurns

**A vector against a plain map of its rows' versions.**

Between commits a vector's rows are those of the map (`Exact`). During a commit a vector of
one creator takes the commit's epoch whole, at the first of its rows a call names, so its rows
that no call named yet stand at the epoch already (`Agrees`); once every row of the committing
transaction was named, the vector is exact again.
-/

namespace Grafeo.RowGroup

open List Option Function

instance (version : RowVersion) (horizon : Nat) : Decidable (version.SettledBy horizon) :=
  inferInstanceAs (Decidable (_ ∧ _))

namespace VersionVector

variable {u : VersionVector} {m : Fin vectorRows → RowVersion} {source target : Stamp}
  {row r : Fin vectorRows} {horizon : Nat} {stamps : Stamped} {present : Fin vectorRows → Bool}
  {rows : Fin vectorRows → Bool}

/-- The vector's rows have the versions of the map. -/
def Exact (u : VersionVector) (m : Fin vectorRows → RowVersion) : Prop :=
  ∀ row, u.get row = m row

/-- Every row of the vector was created by `stamp`. -/
def OneCreator (u : VersionVector) (stamp : Stamp) : Prop :=
  ∃ stamps, u = stamped stamps ∧ stamps.created = .constant stamp

/-- The version of a row that stands at the commit's epoch before a call named it. -/
def early (target : Stamp) (version : RowVersion) : RowVersion :=
  { version with created := some target }

/-- The vector's rows have the versions of the map, or stand at the commit's epoch early. -/
def Agrees (source target : Stamp) (u : VersionVector) (m : Fin vectorRows → RowVersion) : Prop :=
  ∀ row, u.get row = m row ∨
    u.OneCreator target ∧ (m row).created = some source ∧ u.get row = early target (m row)

/-- Once no row is left to name, the vector is exact. -/
theorem Agrees.exact (h : u.Agrees source target m)
    (hnone : ∀ row, (m row).created ≠ some source) : u.Exact m :=
  fun row => (h row).resolve_right fun hearly => hnone row hearly.2.1

/-! ### Commits -/

/-- The map once `source`'s creates among `rows` are committed at `target`. -/
def committed (rows : Fin vectorRows → Bool) (source target : Stamp)
    (m : Fin vectorRows → RowVersion) (row : Fin vectorRows) : RowVersion :=
  if rows row = true ∧ (m row).created = some source then early target (m row) else m row

/-- What a call of a commit for `rows` leaves agrees with the map in which they are committed, and
it returns those of the committing transaction. -/
def CommitAgrees (rows : Fin vectorRows → Bool) (source target : Stamp)
    (m : Fin vectorRows → RowVersion) (result : VersionVector × List (Fin vectorRows)) : Prop :=
  result.1.Agrees source target (committed rows source target m) ∧
    result.2 = (finRange vectorRows).filter fun row => rows row && decide ((m row).created = some source)

/-- A row of a vector of one creator. -/
theorem get_constant {constant : Stamp}
    (hs : stamps.created = .constant constant) (row : Fin vectorRows) :
    (stamped stamps).get row =
      if stamps.present row then { created := some constant, deleted := stamps.deleted row }
      else {} := by
  simp [get, Stamped.get, hs, Inserts.creator]

theorem not_oneCreator_flat {stamp : Stamp} : ¬(flat present).OneCreator stamp := by
  rintro ⟨stamps, hu, -⟩
  cases hu

theorem oneCreator_constant {constant stamp : Stamp} (hs : stamps.created = .constant constant) :
    (stamped stamps).OneCreator stamp ↔ constant = stamp := by
  constructor
  · rintro ⟨stamps', hu, hstamp⟩
    cases hu
    rw [hs, Inserts.constant.injEq] at hstamp
    exact hstamp
  · rintro rfl
    exact ⟨stamps, rfl, hs⟩

/-- A call of a commit on a vector without stamps: it has no row of an open transaction. -/
theorem Agrees.commitCreated_flat
    (h : (flat present).Agrees source target m) (hsource : source ≠ .epoch 0)
    (rows : Fin vectorRows → Bool) : CommitAgrees rows source target m (flat present, []) := by
  have hget : ∀ row, (flat present).get row = m row := fun row =>
    (h row).resolve_right fun hearly => not_oneCreator_flat hearly.1
  have hne : ∀ row, (m row).created ≠ some source := fun row => by
    rw [← hget]
    exact get_flat_ne present hsource
  refine ⟨fun row => .inl ?_, ?_⟩
  · rw [committed, if_neg fun hrow => hne row hrow.2]
    exact hget row
  · simp [hne]

/-- A call of a commit on a vector of one creator. -/
theorem Agrees.commitCreated_constant {constant : Stamp}
    (hs : stamps.created = .constant constant) (h : (stamped stamps).Agrees source target m)
    (hrows : ∀ row, rows row = true → (m row).created ≠ some target) :
    CommitAgrees rows source target m ((stamped stamps).commitCreated rows source target) := by
  have hs' : (stamps.commitCreated rows source target).1.created =
      .constant (if constant = source then target else constant) := by
    simp [Stamped.commitCreated, Stamped.commitInserts, hs]
  have hone : ((stamped stamps).commitCreated rows source target).1.OneCreator target ↔ _ :=
    oneCreator_constant hs'
  have hget : ∀ row, ((stamped stamps).commitCreated rows source target).1.get row =
      if stamps.present row then
        { created := some (if constant = source then target else constant),
          deleted := stamps.deleted row }
      else {} := get_constant hs'
  have hreturned : ((stamped stamps).commitCreated rows source target).2 =
      if constant = source ∨ constant = target then
        (finRange vectorRows).filter fun row => stamps.present row && rows row
      else [] := by
    simp [VersionVector.commitCreated, Stamped.commitCreated, Stamped.committedRows, hs]
  -- in the map a row has the vector's creator, or the committing one if an earlier call of the
  -- commit stamped the vector
  have hm : ∀ row, ∃ creator, (creator = constant ∨ creator = source ∧ constant = target) ∧
      m row = if stamps.present row then
        { created := some creator, deleted := stamps.deleted row } else {} := fun row => by
    obtain heq | ⟨htarget, hcreated, hearly⟩ := h row
    · exact ⟨constant, .inl rfl, by rw [← heq, get_constant hs]⟩
    · refine ⟨source, .inr ⟨rfl, (oneCreator_constant hs).mp htarget⟩, ?_⟩
      rw [get_constant hs] at hearly
      split at hearly
      · next hpresent =>
        rw [if_pos hpresent]
        exact RowVersion.ext hcreated (congrArg RowVersion.deleted hearly).symm
      · cases congrArg RowVersion.created hearly
  refine ⟨fun row => ?_, ?_⟩
  · obtain ⟨creator, hcreator, hrow⟩ := hm row
    have hnamed := hrows row
    rw [hget, committed, hone]
    rw [hrow] at hnamed ⊢
    cases hpresent : stamps.present row <;> simp [hpresent, early] at hnamed ⊢
    grind
  · rw [hreturned]
    split
    · refine filter_congr fun row _ => ?_
      obtain ⟨creator, hcreator, hrow⟩ := hm row
      have hnamed := hrows row
      rw [hrow] at hnamed ⊢
      cases hpresent : stamps.present row <;> simp [hpresent] at hnamed ⊢
      grind
    · refine (filter_eq_nil_iff.mpr fun row _ => ?_).symm
      obtain ⟨creator, hcreator, hrow⟩ := hm row
      rw [hrow]
      grind

/-- A call of a commit on a vector with a stamp per row: its rows are always exact. -/
theorem Agrees.commitCreated_perRow {created : Fin vectorRows → Option Stamp}
    {written rows : Fin vectorRows → Bool} (hs : stamps.created = .perRow created written)
    (h : (stamped stamps).Agrees source target m) :
    CommitAgrees rows source target m ((stamped stamps).commitCreated rows source target) := by
  have heq : ∀ row, (stamped stamps).get row = m row := fun row =>
    (h row).resolve_right fun hearly => by
      obtain ⟨⟨stamps', hu, hstamp⟩, -⟩ := hearly
      cases hu
      rw [hs] at hstamp
      cases hstamp
  have hm : ∀ row, m row =
      if stamps.present row then { created := created row, deleted := stamps.deleted row }
      else {} := fun row => by
    rw [← heq]
    simp [get, Stamped.get, hs, Inserts.creator]
  have hcreated : ∀ row, (m row).created = created row := fun row => by
    rw [hm]
    cases hrow : stamps.present row with
    | true => rfl
    | false =>
      have hwithin := stamps.created_within
      rw [hs] at hwithin
      exact (hwithin.1 row hrow).symm
  refine ⟨fun row => .inl ?_, ?_⟩
  · have hget' : ((stamped stamps).commitCreated rows source target).1.get row =
        if stamps.present row then
          { created := if rows row ∧ created row = some source then some target else created row,
            deleted := stamps.deleted row }
        else {} := by
      simp [get, Stamped.get, VersionVector.commitCreated, Stamped.commitCreated,
        Stamped.commitInserts, hs, Inserts.creator]
    rw [hget', committed, hcreated, early]
    cases hrow : stamps.present row with
    | false =>
      have hnone : created row = none := by
        rw [← hcreated, hm, hrow]
        rfl
      simp [hm, hrow, hnone]
    | true =>
      by_cases hnamed : rows row = true ∧ created row = some source <;> simp [hnamed, hm, hrow]
  · simp only [VersionVector.commitCreated, Stamped.commitCreated, Stamped.committedRows, hs]
    refine filter_congr fun row _ => ?_
    rw [hcreated, Bool.beq_eq_decide_eq]

/-- **A call of a commit** names rows none of which is at the commit's epoch in the map. -/
theorem Agrees.commitCreated (h : u.Agrees source target m) (hsource : source ≠ .epoch 0)
    (hrows : ∀ row, rows row = true → (m row).created ≠ some target) :
    CommitAgrees rows source target m (u.commitCreated rows source target) := by
  cases u with
  | flat present => exact h.commitCreated_flat hsource rows
  | stamped stamps =>
    cases hs : stamps.created with
    | constant constant => exact h.commitCreated_constant hs hrows
    | perRow created written => exact h.commitCreated_perRow hs

/-! ### The other calls -/

/-- The vector against the map: exact, or with `turn`'s commit under way. -/
def Tracks (turn : Option (Stamp × Stamp)) (u : VersionVector) (m : Fin vectorRows → RowVersion) :
    Prop :=
  match turn with
  | none => u.Exact m
  | some (source, target) => u.Agrees source target m

theorem Exact.setCreated (h : u.Exact m) (row : Fin vectorRows) (stamp : Stamp) :
    (stamped (u.stampedOf.setCreated row stamp)).Exact
      (update m row { m row with created := some stamp }) := by
  intro r
  rw [get, Stamped.get_setCreated, get_stampedOf, get_stampedOf, h row, h r, update_apply]

theorem present_stampedOf (u : VersionVector) (row : Fin vectorRows) :
    u.stampedOf.present row = (u.get row).created.isSome := by
  rw [← Stamped.created_get, get_stampedOf]

theorem get_setDeleted (u : VersionVector) {row : Fin vectorRows}
    (hrow : (u.get row).created.isSome = true) (stamp : Option Stamp) :
    (stamped (u.stampedOf.setDeleted row stamp)).get r =
      if r = row then { u.get row with deleted := stamp } else u.get r := by
  rw [get, Stamped.get_setDeleted _ _ ((u.present_stampedOf row).trans hrow), get_stampedOf,
    get_stampedOf]

theorem OneCreator.setDeleted {stamp' : Stamp} (h : u.OneCreator stamp') (row : Fin vectorRows)
    (stamp : Option Stamp) : (stamped (u.stampedOf.setDeleted row stamp)).OneCreator stamp' := by
  obtain ⟨stamps, rfl, hs⟩ := h
  exact ⟨_, rfl, hs⟩

/-- A delete changes the deleted stamp alone, during a commit or not. -/
theorem Tracks.setDeleted {turn : Option (Stamp × Stamp)} (h : u.Tracks turn m)
    (hrow : (m row).created.isSome = true) (stamp : Option Stamp) :
    (u.get row).created.isSome = true ∧ (stamped (u.stampedOf.setDeleted row stamp)).Tracks turn
        (update m row { m row with deleted := stamp }) := by
  cases turn with
  | none =>
    have hexact : u.Exact m := h
    have hcreated : (u.get row).created.isSome = true := by rw [hexact row, hrow]
    refine ⟨hcreated, fun r => ?_⟩
    rw [u.get_setDeleted hcreated, hexact row, hexact r, update_apply]
  | some commit =>
    have hagrees : u.Agrees commit.1 commit.2 m := h
    have hcreated : (u.get row).created.isSome = true := by
      obtain heq | ⟨-, -, hearly⟩ := hagrees row
      · rw [heq, hrow]
      · rw [hearly]
        rfl
    refine ⟨hcreated, fun r => ?_⟩
    rw [u.get_setDeleted hcreated]
    by_cases hr : r = row
    · subst hr
      rw [if_pos rfl, update_self]
      refine (hagrees r).imp (fun heq => by rw [heq]) fun hearly => ?_
      exact ⟨hearly.1.setDeleted r stamp, hearly.2.1, by rw [hearly.2.2]; rfl⟩
    · rw [if_neg hr, update_of_ne hr]
      exact (hagrees r).imp_right fun hearly =>
        ⟨hearly.1.setDeleted row stamp, hearly.2.1, hearly.2.2⟩

theorem Exact.remove (h : u.Exact m) (row : Fin vectorRows) :
    (u.remove row).Exact (update m row {}) := by
  intro r
  rw [get_remove, h r, update_apply]

/-- The map of a vector's rows after a collect at `horizon`: if every version is committed by
then, the rows deleted are gone and the others are every reader's. -/
def collapsed (horizon : Nat) (m : Fin vectorRows → RowVersion) (row : Fin vectorRows) :
    RowVersion :=
  if ∀ r, (m r).SettledBy horizon then (m row).collapse else m row

theorem Exact.settled_iff (h : u.Exact m) : u.Settled horizon ↔ ∀ row, (m row).SettledBy horizon :=
  forall_congr' fun row => by rw [h row]

/-- A vector without stamps is what a collect leaves. -/
theorem collapse_get_flat (present : Fin vectorRows → Bool) (row : Fin vectorRows) :
    ((flat present).get row).collapse = (flat present).get row := by
  by_cases hrow : present row = true <;> simp [get, hrow, RowVersion.collapse, always]

theorem collapses_iff (u : VersionVector) (horizon : Nat) :
    u.collapses horizon = true ↔ (∃ stamps, u = stamped stamps) ∧ u.Settled horizon := by
  cases u with
  | flat present => simp [collapses]
  | stamped stamps => simp [collapses, settledBy_stamped_iff]

theorem Exact.collapse (h : u.Exact m) (horizon : Nat) :
    (u.collapse horizon).1.Exact (collapsed horizon m) := by
  intro row
  rw [get_collapse, collapsed, ← h row]
  cases u with
  | flat present =>
    rw [if_neg (by simp [collapses]), collapse_get_flat, ite_self]
  | stamped stamps =>
    refine if_congr ?_ rfl rfl
    rw [collapses_iff, h.settled_iff]
    exact and_iff_right ⟨stamps, rfl⟩

/-- The rows a collect reports gone are the deleted ones of the map's settled vector. -/
theorem Exact.mem_collapse (h : u.Exact m) : r ∈ (u.collapse horizon).2 ↔
    (∀ row, (m row).SettledBy horizon) ∧ (m r).deleted.isSome = true := by
  rw [VersionVector.mem_collapse, collapses_iff, h.settled_iff, ← h r]
  cases u with
  | flat present =>
    have hnone : ((flat present).get r).deleted = none := by
      by_cases hrow : present r = true <;> simp [get, hrow, always]
    simp [hnone]
  | stamped stamps => simp

end VersionVector

end Grafeo.RowGroup
