import Grafeo.RowGroup.Updates
import Mathlib.Data.List.Nodup
import Mathlib.Order.Fin.Basic

/-!
# Grafeo.RowGroup.Versions

**Who created and who deleted each row** (`graph/rowgroup/versions.rs`), a vector of
2,048 rows at a time.

A vector every reader sees alike holds one bit per row. The first create or delete
that some reader must not see gives it stamps: one stamp for all its rows while they
have one creator, a stamp per row after that. A commit gives a vector of one creator
its epoch whole, at the first row it names; a collect turns a vector whose stamps are
all committed by the horizon back into bits.

Every operation is described by what it does to the **version of a row** (`get`), so
that the store is read and written row by row.
-/

namespace Grafeo.RowGroup

open List Option Function

/-- The version of a row every reader sees. -/
def always : RowVersion := { created := some (.epoch 0) }

/-- Whether every stamp of the version is a commit at or before `horizon`. -/
def RowVersion.SettledBy (version : RowVersion) (horizon : Nat) : Prop :=
  version.created.all (Stamp.committedBy horizon) = true ∧
    version.deleted.all (Stamp.committedBy horizon) = true

/-- What the version of a row becomes when its vector collapses: gone if it was deleted, every
reader's otherwise. -/
def RowVersion.collapse (version : RowVersion) : RowVersion :=
  if version.created.isSome ∧ version.deleted = none then always else {}

/-- No reader at or after the horizon sees a row a delete committed by then took out. -/
theorem RowVersion.visible_of_deleted {version : RowVersion} {horizon : Nat} {read : Read}
    (h : version.deleted.any (Stamp.committedBy horizon) = true) (hread : horizon ≤ read.epochOf) :
    version.visible read = false := by
  cases hd : version.deleted with
  | none =>
    rw [hd] at h
    cases h
  | some stamp =>
    rw [hd, any_some] at h
    simp [visible, hd, Read.seesSome, Read.sees_of_committedBy h hread]

/-- A collapse takes out what no reader at or after the horizon sees. -/
theorem RowVersion.visible_collapse {version : RowVersion} {horizon : Nat} {read : Read}
    (h : version.SettledBy horizon) (hread : horizon ≤ read.epochOf) :
    version.collapse.visible read = version.visible read := by
  obtain ⟨created, deleted⟩ := version
  cases deleted with
  | some stamp =>
    have hgone : visible ⟨created, some stamp⟩ read = false := visible_of_deleted h.2 hread
    rw [hgone]
    simp [collapse, visible, Read.seesSome]
  | none =>
    cases created with
    | none => rfl
    | some stamp =>
      simp [collapse, visible, always, Read.seesSome, Read.sees_of_committedBy h.1 hread]

/-- Who created the rows of a stamped vector: one creator, or a stamp per row, with the rows
that had one when the vector took them or got one since (`written`). -/
inductive Inserts where
  | constant (stamp : Stamp)
  | perRow (stamps : Fin vectorRows → Option Stamp) (written : Fin vectorRows → Bool)

namespace Inserts

/-- Who created `row`, a row that exists. -/
def creator : Inserts → Fin vectorRows → Option Stamp
  | constant stamp, _ => some stamp
  | perRow stamps _, row => stamps row

/-- A stamp per row stands for no row outside `present`, and every row of it is written. -/
def Within (present : Fin vectorRows → Bool) : Inserts → Prop
  | constant _ => True
  | perRow stamps written =>
      (∀ row, present row = false → stamps row = none) ∧
        ∀ row, present row = true → written row = true

/-- The stamps of rows that all have one creator. -/
def spread (present : Fin vectorRows → Bool) (stamp : Stamp) : Fin vectorRows → Option Stamp :=
  fun row => if present row then some stamp else none

end Inserts

/-- The stamps of a vector's rows: which rows exist, who created them, and who deleted
them. A row that exists has a creator, and only a row that exists is deleted. -/
structure Stamped where
  present : Fin vectorRows → Bool
  created : Inserts
  deleted : Fin vectorRows → Option Stamp
  created_of_present : ∀ row, present row = true → (created.creator row).isSome = true
  created_within : created.Within present
  deleted_of_absent : ∀ row, present row = false → deleted row = none

namespace Stamped

variable (s : Stamped) {row r : Fin vectorRows} {horizon : Nat}

theorem update_eq_not {rows : Fin vectorRows → Bool} {b : Bool} :
    update rows row b r = !b ↔ r ≠ row ∧ rows r = !b := by
  by_cases h : r = row <;> simp [h]

/-- The stamps of the rows of a vector without stamps. -/
def fromFlat (present : Fin vectorRows → Bool) : Stamped where
  present := present
  created := .constant (.epoch 0)
  deleted := fun _ => none
  created_of_present := fun _ _ => rfl
  created_within := trivial
  deleted_of_absent := fun _ _ => rfl

/-- The version of `row`. -/
def get (s : Stamped) (row : Fin vectorRows) : RowVersion :=
  if s.present row then { created := s.created.creator row, deleted := s.deleted row } else {}

theorem created_get (row : Fin vectorRows) : (s.get row).created.isSome = s.present row := by
  unfold get
  cases h : s.present row with
  | false => rfl
  | true => exact s.created_of_present row h

theorem deleted_get (row : Fin vectorRows) : (s.get row).deleted = s.deleted row := by
  unfold get
  cases h : s.present row with
  | false => exact (s.deleted_of_absent row h).symm
  | true => rfl

/-- Whether every row that exists, `row` aside, was created by `stamp`, when the rows have
the one creator `constant`. -/
def othersCreatedBy (s : Stamped) (constant : Stamp) (row : Fin vectorRows) (stamp : Stamp) :
    Bool :=
  decide (constant = stamp) || (finRange vectorRows).all fun r => !s.present r || r == row

/-- The creators once `stamp` created `row`: rows of two creators have a stamp each. -/
def insertsWith (s : Stamped) (row : Fin vectorRows) (stamp : Stamp) : Inserts :=
  match s.created with
  | .perRow stamps written =>
      .perRow (update stamps row (some stamp)) (update written row true)
  | .constant constant =>
      if s.othersCreatedBy constant row stamp then .constant stamp
      else
        .perRow (update (Inserts.spread s.present constant) row (some stamp))
          (update s.present row true)

/-- The row created is its creator's. -/
theorem creator_insertsWith_self (stamp : Stamp) :
    (s.insertsWith row stamp).creator row = some stamp := by
  unfold insertsWith
  split
  · simp [Inserts.creator]
  · split <;> simp [Inserts.creator]

/-- The other rows keep their creator. -/
theorem creator_insertsWith_of_ne (stamp : Stamp) (hne : r ≠ row)
    (hr : s.present r = true) : (s.insertsWith row stamp).creator r = s.created.creator r := by
  unfold insertsWith
  split
  next stamps written hcreated => simp [Inserts.creator, hcreated, hne]
  next constant hcreated =>
    rw [hcreated]
    split
    next hothers =>
      -- There is another row, so it has the new creator already.
      simp only [othersCreatedBy, Bool.or_eq_true, decide_eq_true_eq, List.all_eq_true,
        mem_finRange, forall_const] at hothers
      obtain heq | hall := hothers
      · simp [Inserts.creator, heq]
      · have hrow := hall r
        simp [hr, hne] at hrow
    next => simp [Inserts.creator, Inserts.spread, hne, hr]

theorem insertsWith_within (stamp : Stamp) :
    (s.insertsWith row stamp).Within (update s.present row true) := by
  have hwithin := s.created_within
  unfold insertsWith
  split
  next stamps written hcreated =>
    rw [hcreated] at hwithin
    refine ⟨fun r hr => ?_, fun r hr => ?_⟩
    · obtain ⟨hne, hr⟩ := update_eq_not.mp hr
      rw [update_of_ne hne]
      exact hwithin.1 r hr
    · by_cases h : r = row
      · rw [h, update_self]
      · rw [update_of_ne h] at hr ⊢
        exact hwithin.2 r hr
  next constant hcreated =>
    split
    · trivial
    · refine ⟨fun r hr => ?_, fun r hr => hr⟩
      obtain ⟨hne, hr⟩ := update_eq_not.mp hr
      rw [update_of_ne hne]
      simp [Inserts.spread, hr]

/-- Sets who created `row`, which exists from then on. -/
def setCreated (s : Stamped) (row : Fin vectorRows) (stamp : Stamp) : Stamped where
  present := update s.present row true
  created := s.insertsWith row stamp
  deleted := s.deleted
  created_of_present := by
    intro r hr
    by_cases h : r = row
    · rw [h, creator_insertsWith_self]
      rfl
    · rw [update_of_ne h] at hr
      rw [creator_insertsWith_of_ne s stamp h hr]
      exact s.created_of_present r hr
  created_within := s.insertsWith_within stamp
  deleted_of_absent r hr := s.deleted_of_absent r (update_eq_not.mp hr).2

theorem get_setCreated (stamp : Stamp) : (s.setCreated row stamp).get r =
      if r = row then { created := some stamp, deleted := (s.get row).deleted } else s.get r := by
  by_cases h : r = row
  · subst h
    rw [if_pos rfl, deleted_get]
    simp [get, setCreated, creator_insertsWith_self]
  · rw [if_neg h]
    unfold get
    cases hr : s.present r with
    | false => simp [setCreated, update_of_ne h, hr]
    | true => simp [setCreated, update_of_ne h, hr, creator_insertsWith_of_ne s stamp h hr]

/-- Sets who deleted `row`, a row that exists (`none`: no one). -/
def setDeleted (s : Stamped) (row : Fin vectorRows) (stamp : Option Stamp) : Stamped where
  present := s.present
  created := s.created
  deleted := if s.present row then update s.deleted row stamp else s.deleted
  created_of_present := s.created_of_present
  created_within := s.created_within
  deleted_of_absent := by
    intro r hr
    split
    next hrow =>
      have hne : r ≠ row := fun h => by simp [h, hrow] at hr
      rw [update_of_ne hne]
      exact s.deleted_of_absent r hr
    next => exact s.deleted_of_absent r hr

theorem get_setDeleted (stamp : Option Stamp) (hrow : s.present row = true) :
    (s.setDeleted row stamp).get r =
      if r = row then { s.get row with deleted := stamp } else s.get r := by
  by_cases h : r = row <;> simp [get, setDeleted, hrow, h]

/-- Takes `row` out: it no longer exists for any reader. -/
def remove (s : Stamped) (row : Fin vectorRows) : Stamped where
  present := update s.present row false
  created :=
    match s.created with
    | .perRow stamps written => .perRow (update stamps row none) written
    | .constant constant => .constant constant
  deleted := update s.deleted row none
  created_of_present := by
    intro r hr
    obtain ⟨hne, hr⟩ := update_eq_not.mp hr
    have hcreated := s.created_of_present r hr
    cases hs : s.created with
    | constant constant => rfl
    | perRow stamps written =>
        rw [hs] at hcreated
        simpa [Inserts.creator, hne] using hcreated
  created_within := by
    have hwithin := s.created_within
    cases hs : s.created with
    | constant constant => trivial
    | perRow stamps written =>
        rw [hs] at hwithin
        refine ⟨fun r hr => ?_, fun r hr => ?_⟩
        · by_cases h : r = row
          · rw [h, update_self]
          · rw [update_of_ne h] at hr ⊢
            exact hwithin.1 r hr
        · exact hwithin.2 r (update_eq_not.mp hr).2
  deleted_of_absent := by
    intro r hr
    by_cases h : r = row
    · rw [h, update_self]
    · rw [update_of_ne h] at hr ⊢
      exact s.deleted_of_absent r hr

theorem get_remove : (s.remove row).get r = if r = row then {} else s.get r := by
  by_cases h : r = row
  · subst h
    simp [get, remove]
  · cases hs : s.created <;> simp [get, remove, h, hs, Inserts.creator]

/-! ### Commits -/

/-- The creators once `source`'s creates among `rows` are committed at `target`. One creator
`source` becomes `target` for the whole vector, as the transaction's whole commit stamps
in one turn. -/
def commitInserts (rows : Fin vectorRows → Bool) (source target : Stamp) : Inserts → Inserts
  | .constant constant => .constant (if constant = source then target else constant)
  | .perRow stamps written =>
      .perRow
        (fun row => if rows row ∧ stamps row = some source then some target else stamps row)
        fun row => written row || (rows row && decide (stamps row = some source))

theorem isSome_commitInserts (rows : Fin vectorRows → Bool) (source target : Stamp)
    {inserts : Inserts} (h : (inserts.creator row).isSome = true) :
    ((commitInserts rows source target inserts).creator row).isSome = true := by
  cases inserts with
  | constant constant => rfl
  | perRow stamps written =>
    unfold commitInserts Inserts.creator
    dsimp only
    split
    · rfl
    · exact h

theorem commitInserts_within (rows : Fin vectorRows → Bool) (source target : Stamp)
    {present : Fin vectorRows → Bool} {inserts : Inserts} (h : inserts.Within present) :
    (commitInserts rows source target inserts).Within present := by
  cases inserts with
  | constant constant => trivial
  | perRow stamps written =>
    refine ⟨fun r hr => ?_, fun r hr => ?_⟩
    · have hnone : stamps r = none := h.1 r hr
      simp [hnone]
    · have hwritten : written r = true := h.2 r hr
      simp [hwritten]

/-- The rows of `rows` that `source` created, ascending. In a vector of one creator an earlier
call of the commit stamped, they are found at `target`. -/
def committedRows (s : Stamped) (rows : Fin vectorRows → Bool) (source target : Stamp) :
    List (Fin vectorRows) :=
  match s.created with
  | .constant constant =>
      if constant = source ∨ constant = target then
        (finRange vectorRows).filter fun row => s.present row && rows row
      else []
  | .perRow stamps _ =>
      (finRange vectorRows).filter fun row => rows row && stamps row == some source

/-- Commits `source`'s creates among `rows` at `target`; returns the rows of `rows` that
`source` created. -/
def commitCreated (s : Stamped) (rows : Fin vectorRows → Bool) (source target : Stamp) :
    Stamped × List (Fin vectorRows) :=
  ({ present := s.present
     created := commitInserts rows source target s.created
     deleted := s.deleted
     created_of_present := fun row hrow =>
       isSome_commitInserts rows source target (s.created_of_present row hrow)
     created_within := commitInserts_within rows source target s.created_within
     deleted_of_absent := s.deleted_of_absent },
    s.committedRows rows source target)

/-! ### Collects -/

/-- Whether every stamp of a row that exists is a commit at or before `horizon`. -/
def settledBy (s : Stamped) (horizon : Nat) : Bool :=
  (match s.created with
    | .constant constant =>
        ((finRange vectorRows).all fun row => !s.present row) || constant.committedBy horizon
    | .perRow stamps _ =>
        (finRange vectorRows).all fun row =>
          !s.present row || (stamps row).all (Stamp.committedBy horizon)) &&
    (finRange vectorRows).all fun row =>
      !s.present row || (s.deleted row).all (Stamp.committedBy horizon)

/-- `settledBy`, read of the rows a create stamped since the vector took a stamp per row and of
the rows with a delete alone. -/
def settledByWritten (s : Stamped) (horizon : Nat) : Bool :=
  (match s.created with
    | .constant constant =>
        ((finRange vectorRows).all fun row => !s.present row) || constant.committedBy horizon
    | .perRow stamps written =>
        (finRange vectorRows).all fun row =>
          !(written row && s.present row) || (stamps row).all (Stamp.committedBy horizon)) &&
    (finRange vectorRows).all fun row =>
      !s.present row || (s.deleted row).all (Stamp.committedBy horizon)

/-- Both answer alike: every row of a vector with a stamp per row is written. -/
theorem settledByWritten_eq (horizon : Nat) : s.settledByWritten horizon = s.settledBy horizon := by
  have hwithin := s.created_within
  unfold settledByWritten settledBy
  cases hs : s.created with
  | constant constant => rfl
  | perRow stamps written =>
    rw [hs] at hwithin
    have hrows (row : Fin vectorRows) : (written row && s.present row) = s.present row := by
      cases hrow : s.present row with
      | false => simp
      | true => simp [hwithin.2 row hrow]
    simp only [hrows]

theorem settledBy_iff (horizon : Nat) :
    s.settledBy horizon = true ↔ ∀ row, s.present row = true →
      (s.created.creator row).all (Stamp.committedBy horizon) = true ∧
        (s.deleted row).all (Stamp.committedBy horizon) = true := by
  unfold settledBy
  rw [Bool.and_eq_true, forall₂_and]
  refine and_congr ?_ (by simp [imp_iff_not_or])
  cases s.created with
  | constant constant => simp [Inserts.creator, imp_iff_not_or, forall_or_right]
  | perRow stamps written => simp [Inserts.creator, imp_iff_not_or]

end Stamped

/-- The versions of a vector's rows: a bit per row, or stamps. -/
inductive VersionVector where
  | flat (present : Fin vectorRows → Bool)
  | stamped (stamps : Stamped)

namespace VersionVector

variable (v : VersionVector) {row r : Fin vectorRows}

/-- The version of `row`: no version for a row that does not exist. -/
def get : VersionVector → Fin vectorRows → RowVersion
  | flat present, row => if present row then always else {}
  | stamped stamps, row => stamps.get row

/-- The stamps of the vector, stamping it if it has none. -/
def stampedOf : VersionVector → Stamped
  | flat present => .fromFlat present
  | stamped stamps => stamps

theorem get_stampedOf : v.stampedOf.get row = v.get row := by
  cases v with
  | stamped | flat => rfl

/-- `commitCreated` of a vector that holds stamps. -/
def commitCreated (v : VersionVector) (rows : Fin vectorRows → Bool) (source target : Stamp) :
    VersionVector × List (Fin vectorRows) :=
  match v with
  | flat present => (flat present, [])
  | stamped stamps =>
      let (stamps, committed) := stamps.commitCreated rows source target
      (stamped stamps, committed)

/-- Takes `row` out. A vector without stamps stays so. -/
def remove (v : VersionVector) (row : Fin vectorRows) : VersionVector :=
  match v with
  | flat present => flat (update present row false)
  | stamped stamps => stamped (stamps.remove row)

theorem get_remove : (v.remove row).get r = if r = row then {} else v.get r := by
  cases v with
  | stamped stamps => exact stamps.get_remove
  | flat present =>
    by_cases h : r = row <;> simp [remove, get, h]

/-- Collapses the vector if its stamps are all committed at or before `horizon`: its rows
deleted by then are gone, the others become rows every reader sees. Returns the rows that
are gone, ascending. -/
def collapse (v : VersionVector) (horizon : Nat) : VersionVector × List (Fin vectorRows) :=
  match v with
  | flat present => (flat present, [])
  | stamped stamps =>
      if stamps.settledBy horizon then
        (flat fun row => stamps.present row && (stamps.deleted row).isNone,
          (finRange vectorRows).filter fun row =>
            stamps.present row && (stamps.deleted row).isSome)
      else (stamped stamps, [])

/-- `collapse` in what the vector's writes cost: whether it is settled reads the rows they
stamped, and the rows deleted leave its bits. -/
def collapseWritten (v : VersionVector) (horizon : Nat) : VersionVector × List (Fin vectorRows) :=
  match v with
  | flat present => (flat present, [])
  | stamped stamps =>
      if stamps.settledByWritten horizon then
        let gone := (finRange vectorRows).filter fun row =>
          stamps.present row && (stamps.deleted row).isSome
        (flat (gone.foldl (fun present row => update present row false) stamps.present),
          gone)
      else (stamped stamps, [])

theorem foldl_update_false (gone : List (Fin vectorRows)) (present : Fin vectorRows → Bool) :
    gone.foldl (fun present row => update present row false) present =
      fun row => present row && !decide (row ∈ gone) := by
  induction gone generalizing present with
  | nil => simp
  | cons row gone ih =>
    rw [foldl_cons, ih]
    funext r
    by_cases h : r = row <;> simp [h]

/-- **The collapse of one vector is that of the reference.** -/
theorem collapseWritten_eq (horizon : Nat) : v.collapseWritten horizon = v.collapse horizon := by
  cases v with
  | flat present => rfl
  | stamped stamps =>
    -- the rows cleared are the rows deleted, so the bits left are those of the rebuild
    have hgone : ∀ row, (row ∈ (finRange vectorRows).filter fun row =>
        stamps.present row && (stamps.deleted row).isSome) ↔
        stamps.present row = true ∧ (stamps.deleted row).isSome = true := fun row => by
      rw [mem_filter, Bool.and_eq_true]
      exact and_iff_right (mem_finRange row)
    have hbits : ∀ row, (stamps.present row && !decide (stamps.present row = true ∧
        (stamps.deleted row).isSome = true)) =
        (stamps.present row && (stamps.deleted row).isNone) := fun row => by
      cases stamps.present row <;> cases stamps.deleted row <;> rfl
    simp only [collapseWritten, collapse, Stamped.settledByWritten_eq, foldl_update_false, hgone,
      hbits]

/-- Whether every version of the vector is committed by `horizon`. -/
def Settled (v : VersionVector) (horizon : Nat) : Prop :=
  ∀ row, (v.get row).SettledBy horizon

theorem settledBy_stamped_iff {stamps : Stamped} :
    stamps.settledBy horizon = true ↔ (stamped stamps).Settled horizon := by
  rw [Stamped.settledBy_iff]
  refine forall_congr' fun row => ?_
  by_cases hrow : stamps.present row = true <;> simp [get, Stamped.get, hrow, RowVersion.SettledBy]

/-- Whether a collect at `horizon` collapses the vector: it has stamps, all committed by then. -/
def collapses (v : VersionVector) (horizon : Nat) : Bool :=
  match v with
  | flat _ => false
  | stamped stamps => stamps.settledBy horizon

theorem settled_of_collapses {v : VersionVector} (h : v.collapses horizon = true) :
    v.Settled horizon := by
  cases v with
  | flat present => cases h
  | stamped stamps => exact settledBy_stamped_iff.mp h

theorem get_collapse (horizon : Nat) (r : Fin vectorRows) :
    (v.collapse horizon).1.get r =
      if v.collapses horizon = true then (v.get r).collapse else v.get r := by
  cases v with
  | flat present => rfl
  | stamped stamps =>
    by_cases h : stamps.settledBy horizon = true
    · simp [collapse, collapses, h, get, RowVersion.collapse, Stamped.created_get, Stamped.deleted_get]
    · simp [collapse, collapses, h]

/-- The rows that are gone are the deleted ones of a vector that collapses. -/
theorem mem_collapse {v : VersionVector} : r ∈ (v.collapse horizon).2 ↔
    v.collapses horizon = true ∧ (v.get r).deleted.isSome = true := by
  cases v with
  | flat present => simp [collapse, collapses]
  | stamped stamps =>
    simp only [collapse, collapses]
    split
    next h =>
      simp only [h, true_and, get, Stamped.deleted_get, mem_filter, mem_finRange,
        Bool.and_eq_true, and_iff_right_iff_imp]
      intro hdeleted
      by_contra hr
      rw [stamps.deleted_of_absent r (by simpa using hr)] at hdeleted
      cases hdeleted
    next h => simp [h]

/-- What became of the creators of a vector once a commit at `target` stamped `source`'s
creates among the rows `done`. -/
def CommittedTo (source target : Stamp) (done : Fin vectorRows → Prop) (base v : VersionVector) :
    Prop :=
  match base with
  | flat present => v = flat present
  | stamped b => ∃ stamps, v = stamped stamps ∧ stamps.present = b.present ∧
      match b.created with
      | .constant constant => ∃ touched : Bool, (∀ row, done row → touched = true) ∧
          stamps.created =
            .constant (if constant = source ∧ touched = true then target else constant)
      | .perRow created _ => ∃ created' written', stamps.created = .perRow created' written' ∧
          ∀ row, (done row → created' row = if created row = some source then some target
              else created row) ∧ (¬done row → created' row = created row)

variable {source target : Stamp} {done rows : Fin vectorRows → Prop} {base v : VersionVector}

theorem get_flat_ne (present : Fin vectorRows → Bool) (hsource : source ≠ .epoch 0) :
    ((flat present).get row).created ≠ some source := by
  intro h
  by_cases hrow : present row = true
  · simp only [get, hrow, if_true, always, some.injEq] at h
    exact hsource h.symm
  · simp [get, hrow] at h

theorem CommittedTo.refl (source target : Stamp) (base : VersionVector) :
    CommittedTo source target (fun _ => False) base base := by
  cases base with
  | flat present => rfl
  | stamped b =>
    refine ⟨b, rfl, rfl, ?_⟩
    cases hb : b.created with
    | constant constant => exact ⟨false, fun _ h => h.elim, by simp⟩
    | perRow created written =>
      exact ⟨created, written, rfl, fun row => ⟨fun h => h.elim, fun _ => rfl⟩⟩

section

variable (h : CommittedTo source target done base v)
include h

/-- The creator of a row during a commit: the commit's epoch once a row of the committing
transaction was named, its own otherwise. -/
theorem CommittedTo.creator (row : Fin vectorRows) :
    ∃ named : Bool, (source ≠ .epoch 0 → done row → named = true) ∧
      (v.get row).created = if (base.get row).created = some source ∧ named = true then some target
        else (base.get row).created := by
  cases base with
  | flat present =>
    rw [show v = flat present from h]
    refine ⟨decide (source ≠ .epoch 0), fun hflat _ => by simp [hflat], ?_⟩
    rw [if_neg]
    intro ⟨hcreated, hflat⟩
    exact get_flat_ne present (of_decide_eq_true hflat) hcreated
  | stamped b =>
    obtain ⟨stamps, rfl, hpresent, hcreated⟩ := h
    simp only [get, Stamped.get, hpresent]
    by_cases hrow : b.present row = true
    · simp only [hrow, if_true]
      cases hb : b.created with
      | constant constant =>
        rw [hb] at hcreated
        obtain ⟨touched, htouched, hs⟩ := hcreated
        refine ⟨touched, fun _ => htouched row, ?_⟩
        by_cases hsource : constant = source ∧ touched = true <;>
          simp [hs, Inserts.creator, hsource]
      | perRow created written =>
        rw [hb] at hcreated
        obtain ⟨created', written', hs, hrows⟩ := hcreated
        rw [hs]
        by_cases hdone : done row
        · exact ⟨true, fun _ _ => rfl, by simp [Inserts.creator, (hrows row).1 hdone]⟩
        · exact ⟨false, fun _ h => absurd h hdone, by
            simp [Inserts.creator, (hrows row).2 hdone]⟩
    · exact ⟨true, fun _ _ => rfl, by simp [hrow]⟩

/-- One more call of the commit, for rows none of which was named before: it returns the
rows of the committing transaction among them, and names them. -/
theorem CommittedTo.commitCreated (more : Fin vectorRows → Bool) (hflat : source ≠ .epoch 0)
    (hfresh : ∀ row, (base.get row).created ≠ some target)
    (hdone : ∀ row, more row = true → ¬done row) :
    CommittedTo source target (fun row => done row ∨ more row = true) base
        (v.commitCreated more source target).1 ∧
      ∀ row, row ∈ (v.commitCreated more source target).2 ↔
        more row = true ∧ (base.get row).created = some source := by
  cases base with
  | flat present =>
    rw [show v = flat present from h]
    refine ⟨rfl, fun row => ?_⟩
    simp only [VersionVector.commitCreated, not_mem_nil, false_iff, not_and]
    exact fun _ => get_flat_ne present hflat
  | stamped b =>
    obtain ⟨stamps, rfl, hpresent, hcreated⟩ := h
    simp only [VersionVector.commitCreated, Stamped.commitCreated, Stamped.committedRows]
    cases hb : b.created with
    | constant constant =>
      rw [hb] at hcreated
      obtain ⟨touched, htouched, hs⟩ := hcreated
      refine ⟨⟨(stamps.commitCreated more source target).1, rfl, hpresent, ?_⟩, fun row => ?_⟩
      · rw [hb]
        refine ⟨true, fun _ _ => rfl, ?_⟩
        simp only [Stamped.commitCreated, Stamped.commitInserts, hs, Inserts.constant.injEq]
        by_cases hsource : constant = source
        · cases touched <;> simp [hsource]
        · simp [hsource]
      · rw [hs]
        simp only [get, Stamped.get, hb, Inserts.creator]
        by_cases hrow : b.present row = true
        · have htarget : constant ≠ target := by
            have := hfresh row
            simpa [get, Stamped.get, hrow, hb, Inserts.creator] using this
          by_cases hsource : constant = source
          · cases touched <;> simp [hsource, hpresent, hrow]
          · simp [hsource, htarget, hrow]
        · simp only [hrow, if_false, reduceCtorEq, and_false, iff_false]
          simp [hpresent, hrow]
    | perRow created written =>
      rw [hb] at hcreated
      obtain ⟨created', written', hs, hrows⟩ := hcreated
      refine ⟨⟨(stamps.commitCreated more source target).1, rfl, hpresent, ?_⟩, fun row => ?_⟩
      · rw [hb]
        refine ⟨_, _, by simp only [Stamped.commitCreated, Stamped.commitInserts, hs]; rfl,
          fun row => ⟨fun h => ?_, fun h => ?_⟩⟩
        · by_cases hmore : more row = true
          · rw [(hrows row).2 (hdone row hmore)]
            simp [hmore]
          · rw [(hrows row).1 (h.resolve_right hmore)]
            simp [hmore]
        · rw [not_or] at h
          rw [(hrows row).2 h.1]
          simp [h.2]
      · rw [hs]
        simp only [mem_filter, mem_finRange, true_and, Bool.and_eq_true, beq_iff_eq,
          get, Stamped.get, hb, Inserts.creator]
        refine and_congr_right fun hmore => ?_
        rw [(hrows row).2 (hdone row hmore)]
        by_cases hrow : b.present row = true
        · simp [hrow]
        · have hwithin := b.created_within
          rw [hb] at hwithin
          simp [hrow, hwithin.1 row (by simpa using hrow)]

end

end VersionVector

/-! ### The versions of a table -/

/-- The versions of a table's rows, a vector at a time. -/
structure Versions where
  vectors : Nat → VersionVector

namespace Versions

variable (vs : Versions) {raw r : Nat}

/-- The place of a row in its vector. -/
def place (raw : Nat) : Fin vectorRows := ⟨raw % vectorRows, Nat.mod_lt _ (by decide)⟩

theorem eq_iff_place : r = raw ↔ vectorOf r = vectorOf raw ∧ place r = place raw := by
  simp only [vectorOf, place, Fin.mk.injEq, vectorRows]
  omega

/-- The id of a row of a vector. -/
def idOf (vector : Nat) (row : Fin vectorRows) : Nat := vector * vectorRows + row

theorem idOf_place (raw : Nat) : idOf (vectorOf raw) (place raw) = raw := by
  simp only [vectorOf, place, idOf, vectorRows]
  omega

theorem vectorOf_idOf (vector : Nat) (row : Fin vectorRows) :
    vectorOf (idOf vector row) = vector := by
  simp only [vectorOf, idOf, vectorRows] at *
  omega

theorem place_idOf (vector : Nat) (row : Fin vectorRows) : place (idOf vector row) = row := by
  apply Fin.ext
  simp only [place, idOf, vectorRows] at *
  omega

/-- No row exists. -/
def empty : Versions := ⟨fun _ => .flat fun _ => false⟩

/-- The version of row `raw`: no version for a row that does not exist. -/
def get (vs : Versions) (raw : Nat) : RowVersion := (vs.vectors (vectorOf raw)).get (place raw)

/-- Whether the row exists in any reader's view: created, by anyone, and not undone. -/
def has (vs : Versions) (raw : Nat) : Bool := (vs.get raw).created.isSome

/-- Puts `vector` in place of the vector of `raw`. -/
def put (vs : Versions) (raw : Nat) (vector : VersionVector) : Versions :=
  ⟨update vs.vectors (vectorOf raw) vector⟩

/-- Sets who created `raw`: its vector holds stamps from then on. -/
def setCreated (vs : Versions) (raw : Nat) (stamp : Stamp) : Versions :=
  vs.put raw (.stamped ((vs.vectors (vectorOf raw)).stampedOf.setCreated (place raw) stamp))

/-- Sets who deleted `raw`, a row that exists (`none`: no one). -/
def setDeleted (vs : Versions) (raw : Nat) (stamp : Option Stamp) : Versions :=
  vs.put raw (.stamped ((vs.vectors (vectorOf raw)).stampedOf.setDeleted (place raw) stamp))

/-- Takes `raw` out: it no longer exists for any reader. -/
def remove (vs : Versions) (raw : Nat) : Versions :=
  vs.put raw ((vs.vectors (vectorOf raw)).remove (place raw))

/-- Whether a row of a vector is among the ids from `start` to before `stop`. -/
def inRange (start stop vector : Nat) (row : Fin vectorRows) : Bool :=
  decide (start ≤ idOf vector row) && decide (idOf vector row < stop)

/-- The vectors the ids from `start` to before `stop` are in, ascending. -/
def vectorsOf (start stop : Nat) : List Nat :=
  if start < stop then
    range' (vectorOf start) (vectorOf (stop - 1) + 1 - vectorOf start)
  else []

/-- Commits `source`'s creates among the ids from `start` to before `stop` at `target`, a
vector at a time; returns the ids `source` created, ascending. -/
def commitCreated (vs : Versions) (start stop : Nat) (source target : Stamp) :
    Versions × List Nat :=
  (⟨fun vector =>
      if vector ∈ vectorsOf start stop then
        ((vs.vectors vector).commitCreated (inRange start stop vector) source target).1
      else vs.vectors vector⟩,
    (vectorsOf start stop).flatMap fun vector =>
      ((vs.vectors vector).commitCreated (inRange start stop vector) source target).2.map (idOf vector))

/-- Collapses vector `vector` if its stamps are all committed at or before `horizon`; returns
the ids of its rows that are gone. -/
def collapseVector (vs : Versions) (vector horizon : Nat) : Versions × List Nat :=
  (⟨update vs.vectors vector ((vs.vectors vector).collapseWritten horizon).1⟩,
    ((vs.vectors vector).collapseWritten horizon).2.map (idOf vector))

/-- Collapses every vector of row group `group` whose stamps are all committed at or before
`horizon`; returns the ids of the rows that are gone. -/
def collapse (vs : Versions) (group horizon : Nat) : Versions × List Nat :=
  (⟨fun vector => if vector / RowGroup.vectors = group then
      ((vs.vectors vector).collapse horizon).1 else vs.vectors vector⟩,
    (range' (group * RowGroup.vectors) RowGroup.vectors).flatMap fun vector =>
      ((vs.vectors vector).collapse horizon).2.map (idOf vector))

theorem get_put (vector : VersionVector) : (vs.put raw vector).get r =
      if vectorOf r = vectorOf raw then vector.get (place r) else vs.get r := by
  unfold put get
  by_cases h : vectorOf r = vectorOf raw <;> simp [h]

/-- A vector whose rows are those of `raw`'s but for `raw` itself, put in its place. -/
theorem get_put_of {vs : Versions} {vector : VersionVector} {version : RowVersion}
    (h : ∀ row, vector.get row =
      if row = place raw then version else (vs.vectors (vectorOf raw)).get row) :
    (vs.put raw vector).get r = if r = raw then version else vs.get r := by
  rw [get_put]
  by_cases hr : r = raw
  · rw [if_pos (by rw [hr]), if_pos hr, h, if_pos (by rw [hr])]
  · rw [if_neg hr]
    by_cases hv : vectorOf r = vectorOf raw
    · have hplace : place r ≠ place raw := fun hp => hr (eq_iff_place.mpr ⟨hv, hp⟩)
      rw [if_pos hv, h, if_neg hplace, get, hv]
    · rw [if_neg hv]

theorem get_setCreated (stamp : Stamp) : (vs.setCreated raw stamp).get r =
      if r = raw then { created := some stamp, deleted := (vs.get raw).deleted }
      else vs.get r := by
  refine get_put_of fun row => ?_
  rw [VersionVector.get, Stamped.get_setCreated]
  simp only [VersionVector.get_stampedOf]
  rfl

theorem get_setDeleted (stamp : Option Stamp) (hrow : vs.has raw = true) :
    (vs.setDeleted raw stamp).get r =
      if r = raw then { vs.get raw with deleted := stamp } else vs.get r := by
  refine get_put_of fun row => ?_
  have hpresent : (vs.vectors (vectorOf raw)).stampedOf.present (place raw) = true := by
    rw [← Stamped.created_get, VersionVector.get_stampedOf]
    exact hrow
  rw [VersionVector.get, Stamped.get_setDeleted _ _ hpresent]
  simp only [VersionVector.get_stampedOf]
  rfl

theorem get_remove : (vs.remove raw).get r = if r = raw then {} else vs.get r :=
  get_put_of fun _ => VersionVector.get_remove _

theorem has_eq_false {vs : Versions} : vs.has raw = false ↔ vs.get raw = {} := by
  refine ⟨fun h => ?_, fun h => by simp [has, h]⟩
  rw [get, ← VersionVector.get_stampedOf, Stamped.get, if_neg]
  rw [← Stamped.created_get, VersionVector.get_stampedOf]
  exact Bool.eq_false_iff.mp h

/-! ### The commit of a table -/

/-- What became of the creators of a table's rows once a commit at `target` stamped `source`'s
creates among the ids `done`. -/
def CommittedTo (source target : Stamp) (done : Nat → Prop) (base vs : Versions) : Prop :=
  ∀ vector, VersionVector.CommittedTo source target (fun row => done (idOf vector row))
    (base.vectors vector) (vs.vectors vector)

variable {source target : Stamp} {done : Nat → Prop} {base vs : Versions}

theorem CommittedTo.refl (source target : Stamp) (base : Versions) :
    CommittedTo source target (fun _ => False) base base :=
  fun vector => VersionVector.CommittedTo.refl source target (base.vectors vector)

theorem mem_map_idOf {vector : Nat} {rows : List (Fin vectorRows)} :
    raw ∈ rows.map (idOf vector) ↔ vectorOf raw = vector ∧ place raw ∈ rows := by
  rw [List.mem_map]
  constructor
  · rintro ⟨row, hrow, rfl⟩
    rw [vectorOf_idOf, place_idOf]
    exact ⟨rfl, hrow⟩
  · rintro ⟨rfl, hrow⟩
    exact ⟨place raw, hrow, idOf_place raw⟩

theorem mem_vectorsOf {start stop : Nat} (hstart : start ≤ raw) (hstop : raw < stop) :
    vectorOf raw ∈ vectorsOf start stop := by
  have hlt : start < stop := hstart.trans_lt hstop
  rw [vectorsOf, if_pos hlt, mem_range'_1]
  unfold vectorOf vectorRows
  omega

section

variable (h : CommittedTo source target done base vs)
include h

theorem CommittedTo.creator (raw : Nat) :
    ∃ named : Bool, (source ≠ .epoch 0 → done raw → named = true) ∧
      (vs.get raw).created = if (base.get raw).created = some source ∧ named = true then some target
        else (base.get raw).created := by
  have hcreator := (h (vectorOf raw)).creator (place raw)
  rwa [idOf_place] at hcreator

theorem CommittedTo.created (raw : Nat) :
    (vs.get raw).created = (base.get raw).created ∨
      (base.get raw).created = some source ∧ (vs.get raw).created = some target := by
  obtain ⟨named, -, hcreated⟩ := h.creator raw
  split at hcreated
  next hsource => exact .inr ⟨hsource.1, hcreated⟩
  · exact .inl hcreated

theorem CommittedTo.has (raw : Nat) : vs.has raw = base.has raw := by
  unfold Versions.has
  obtain heq | ⟨hbase, hv⟩ := h.created raw
  · rw [heq]
  · rw [hbase, hv]
    rfl

/-- One more call of the commit, for ids none of which was named before: it returns the ids
among them the committing transaction created, and names them. -/
theorem CommittedTo.commitCreated {start stop : Nat} (hflat : source ≠ .epoch 0)
    (hfresh : ∀ raw, (base.get raw).created ≠ some target)
    (hdone : ∀ raw, start ≤ raw → raw < stop → ¬done raw) :
    CommittedTo source target (fun raw => done raw ∨ start ≤ raw ∧ raw < stop) base
        (vs.commitCreated start stop source target).1 ∧
      ∀ raw, raw ∈ (vs.commitCreated start stop source target).2 ↔
        (start ≤ raw ∧ raw < stop) ∧ (base.get raw).created = some source := by
  have hvector : ∀ vector, _ := fun vector =>
    (h vector).commitCreated (inRange start stop vector) hflat
      (fun row => by
        have := hfresh (idOf vector row)
        rwa [get, vectorOf_idOf, place_idOf] at this)
      (fun row hrow => by
        simp only [inRange, Bool.and_eq_true, decide_eq_true_eq] at hrow
        exact hdone _ hrow.1 hrow.2)
  constructor
  · intro vector
    by_cases hmem : vector ∈ vectorsOf start stop
    · simpa only [Versions.commitCreated, if_pos hmem, inRange, Bool.and_eq_true,
        decide_eq_true_eq] using (hvector vector).1
    -- The call names no row of the vector.
    have hnone : (fun row => done (idOf vector row) ∨
        start ≤ idOf vector row ∧ idOf vector row < stop) =
        fun row => done (idOf vector row) := by
      funext row
      refine propext (or_iff_left fun hrow => hmem ?_)
      rw [← vectorOf_idOf vector row]
      exact mem_vectorsOf hrow.1 hrow.2
    simp only [Versions.commitCreated, if_neg hmem, hnone]
    exact h vector
  · intro raw
    simp only [Versions.commitCreated, mem_flatMap, mem_map_idOf, (hvector _).2, inRange,
      Bool.and_eq_true, decide_eq_true_eq]
    constructor
    · rintro ⟨vector, -, rfl, hrow⟩
      rwa [idOf_place] at hrow
    · intro hrow
      refine ⟨vectorOf raw, mem_vectorsOf hrow.1.1 hrow.1.2, rfl, ?_⟩
      rwa [idOf_place]

/-- A commit that stamps a delete changes no creator. -/
theorem CommittedTo.setDeleted (hdeleted : (vs.get raw).deleted.isSome = true)
    (stamp : Option Stamp) :
    CommittedTo source target done base (vs.setDeleted raw stamp) := by
  intro vector
  by_cases hv : vector = vectorOf raw
  · subst hv
    have hvector := h (vectorOf raw)
    -- The vector has stamps already: one of its rows is deleted.
    cases hstamps : vs.vectors (vectorOf raw) with
    | flat present =>
      simp only [get, hstamps, VersionVector.get, always] at hdeleted
      split at hdeleted <;> cases hdeleted
    | stamped stamps =>
      rw [hstamps] at hvector
      cases hbase : base.vectors (vectorOf raw) with
      | flat present =>
        rw [hbase] at hvector
        cases hvector
      | stamped b =>
        rw [hbase] at hvector
        obtain ⟨stamps', heq, hpresent, hcreated⟩ := hvector
        cases heq
        refine ⟨stamps.setDeleted (place raw) stamp, ?_, hpresent, hcreated⟩
        simp [Versions.setDeleted, put, hstamps, VersionVector.stampedOf]
  · simp only [Versions.setDeleted, put, update_of_ne hv]
    exact h vector

end

theorem deleted_commitCreated (vs : Versions) (start stop : Nat) (source target : Stamp)
    (raw : Nat) :
    ((vs.commitCreated start stop source target).1.get raw).deleted = (vs.get raw).deleted := by
  unfold get
  simp only [Versions.commitCreated]
  split
  · cases vs.vectors (vectorOf raw) with
    | flat present => rfl
    | stamped stamps => simp [VersionVector.commitCreated, VersionVector.get, Stamped.deleted_get,
        Stamped.commitCreated]
  · rfl

/-- The ids a commit returns are returned once. -/
theorem nodup_commitCreated (vs : Versions) (start stop : Nat) (source target : Stamp) :
    (vs.commitCreated start stop source target).2.Nodup := by
  have hrows : ∀ vector, ((vs.vectors vector).commitCreated
      (inRange start stop vector) source target).2.Nodup := by
    intro vector
    unfold VersionVector.commitCreated Stamped.commitCreated Stamped.committedRows
    split
    · exact nodup_nil
    dsimp only
    split
    · split
      · exact (nodup_finRange vectorRows).filter _
      · exact nodup_nil
    · exact (nodup_finRange vectorRows).filter _
  refine nodup_flatMap.mpr ⟨fun vector _ => ?_, ?_⟩
  · refine (hrows vector).map fun row row' heq => ?_
    rw [← place_idOf vector row, heq, place_idOf]
  have hnodup : (vectorsOf start stop).Nodup := by
    unfold vectorsOf
    split
    · exact nodup_range'
    · exact nodup_nil
  refine hnodup.imp fun {vector vector'} hne raw hraw hraw' => hne ?_
  exact (mem_map_idOf.mp hraw).1.symm.trans (mem_map_idOf.mp hraw').1

/-! ### The collects of a table -/

/-- What a collapse of the vectors `visits` names does: `gone` are the ids of the rows that are
gone. -/
structure Collapses (vs : Versions) (visits : Nat → Bool) (horizon : Nat) (vs' : Versions)
    (gone : List Nat) : Prop where
  vectors : ∀ v, vs'.vectors v =
    if visits v = true then ((vs.vectors v).collapse horizon).1 else vs.vectors v
  gone : ∀ raw, raw ∈ gone ↔ visits (vectorOf raw) = true ∧
    place raw ∈ ((vs.vectors (vectorOf raw)).collapse horizon).2

variable {visits : Nat → Bool} {horizon : Nat} {vs' : Versions} {gone : List Nat}

theorem Collapses.get (h : vs.Collapses visits horizon vs' gone) (raw : Nat) : vs'.get raw =
      if visits (vectorOf raw) = true ∧ (vs.vectors (vectorOf raw)).collapses horizon = true then
        (vs.get raw).collapse
      else vs.get raw := by
  unfold Versions.get
  rw [h.vectors]
  by_cases hv : visits (vectorOf raw) = true
  · simp only [hv, if_true, true_and]
    exact VersionVector.get_collapse ..
  · simp [hv]

theorem Collapses.mem_gone (h : vs.Collapses visits horizon vs' gone) (raw : Nat) :
    raw ∈ gone ↔ visits (vectorOf raw) = true ∧
      (vs.vectors (vectorOf raw)).collapses horizon = true ∧
        (vs.get raw).deleted.isSome = true := by
  rw [h.gone, VersionVector.mem_collapse]
  rfl

theorem collapseVector_collapses (vs : Versions) (vector horizon : Nat) :
    vs.Collapses (fun v => decide (v = vector)) horizon (vs.collapseVector vector horizon).1
      (vs.collapseVector vector horizon).2 := by
  simp only [collapseVector, VersionVector.collapseWritten_eq]
  refine ⟨fun v => ?_, fun raw => ?_⟩
  · by_cases hv : v = vector <;> simp [hv]
  · rw [mem_map_idOf, decide_eq_true_eq]
    exact and_congr_right fun hv => by rw [hv]

theorem collapse_collapses (vs : Versions) (group horizon : Nat) :
    vs.Collapses (fun v => decide (v / RowGroup.vectors = group)) horizon
      (vs.collapse group horizon).1 (vs.collapse group horizon).2 := by
  refine ⟨fun v => by simp [collapse], fun raw => ?_⟩
  simp only [collapse, mem_flatMap, mem_map_idOf, mem_range'_1, decide_eq_true_eq]
  constructor
  · rintro ⟨vector, hvector, rfl, hrow⟩
    refine ⟨?_, hrow⟩
    unfold RowGroup.vectors at *
    omega
  · rintro ⟨hgroup, hrow⟩
    refine ⟨_, ?_, rfl, hrow⟩
    unfold RowGroup.vectors at *
    omega

end Versions

end Grafeo.RowGroup
