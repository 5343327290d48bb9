import Grafeo.RowGroup.VersionTurns

/-!
# Grafeo.RowGroup.VersionPlain

**A row group's versions against a plain map of its rows.**

`Plain` keeps a version per row and nothing else: a call changes the rows it names. Every
call on the versions a row group keeps in bits, constants, lists and arrays changes them as
it changes the map (`Tracks`), vector by vector; a commit, whose loop goes over the vectors
its range meets, returns the runs of the rows it names that the transaction created
(`Tracks.commitCreated`).

**A row group's versions over whole runs.**

The versions are run beside the plain map given the same calls. What the store keeps of its
calls is kept here (`Allowed`): a delete names a row that exists, and the calls that commit a
transaction's creates come in one turn, with nothing but deletes in between, until every row
of the transaction was named, none of them at the commit's epoch before.

In every state reached (`versions_track_plain`) the bulk reads are those of each row, the
versions are those of the map, and a call of a commit returns exactly the runs of the rows it
names that the transaction created. Only during a turn may a row that was not named yet stand
at the epoch early: a vector of one creator takes the epoch whole, as a commit of a part of
its rows shows (`commitCreated_stamps_past_range`).
-/

namespace Grafeo.RowGroup.Bits

open List Option Function Lib Versions RowGroup Nat
open RowGroup.Versions (place idOf vectorOf_idOf place_idOf idOf_place)

/-- A version per row, and nothing else. -/
abbrev Plain := Nat → RowVersion

namespace Plain

/-- The rows of vector `index`. -/
def vector (m : Plain) (index : Nat) (row : Fin vectorRows) : RowVersion :=
  m (Versions.idOf index row)

/-- Whether every version of vector `index` is committed by `horizon`. -/
def Settled (m : Plain) (index horizon : Nat) : Prop :=
  ∀ row, (m.vector index row).SettledBy horizon

instance (m : Plain) (index horizon : Nat) : Decidable (m.Settled index horizon) :=
  inferInstanceAs (Decidable (∀ _, _))

/-- The map after a call. -/
def call (m : Plain) : Call → Plain
  | .setCreated row stamp => Function.update m row { m row with created := some stamp }
  | .setDeleted row stamp => Function.update m row { m row with deleted := stamp }
  | .commitCreated start stop source target => fun row =>
      if (start ≤ row ∧ row < stop) ∧ (m row).created = some source then
        { m row with created := some target }
      else m row
  | .setAlways row => Function.update m row always
  | .remove row => Function.update m row {}
  | .collapse horizon => fun row =>
      if m.Settled (vectorOf row) horizon then (m row).collapse else m row
  | .collapseVector index horizon => fun row =>
      if vectorOf row = index ∧ m.Settled index horizon then (m row).collapse else m row

theorem idOf_eq_iff {index row : Nat} {r : Fin vectorRows} :
    idOf index r = row ↔ index = vectorOf row ∧ r = place row := by
  rw [Versions.eq_iff_place, vectorOf_idOf, place_idOf]

/-- A change of one row is a change of its vector alone. -/
theorem vector_update (m : Plain) (row : Nat) (version : RowVersion) (index : Nat) :
    vector (update m row version) index =
      if index = vectorOf row then
        update (m.vector index) (place row) version
      else m.vector index := by
  funext r
  by_cases hindex : index = vectorOf row <;> simp [vector, update_apply, idOf_eq_iff, hindex]

theorem vector_vectorOf (m : Plain) (row : Nat) : m.vector (vectorOf row) (place row) = m row := by
  rw [vector, idOf_place]

end Plain

/-! ### One vector of a row group -/

/-- A row made every reader's, in either kind of vector. -/
theorem VersionVector.Shows.setAlways {v : VersionVector} {u : RowGroup.VersionVector}
    {m : Fin vectorRows → RowVersion} (h : v.Shows u) (hexact : u.Exact m) (row : Fin vectorRows) :
    ∃ u', (v.setAlways row).Shows u' ∧ u'.Exact (update m row always) := by
  cases v <;> cases u
  case flat.flat present present' =>
    refine ⟨.flat (update present' row true),
      ⟨Stamped.length_set_le h.1 row.isLt, Stamped.get_set_coe _ _ h.2 row⟩, fun r => ?_⟩
    by_cases hr : r = row
    · subst hr
      simp [RowGroup.VersionVector.get]
    · rw [update_of_ne hr, ← hexact r]
      simp [RowGroup.VersionVector.get, hr]
  case stamped.stamped s t =>
    have hs : s.Shows t := h
    have hcreated := hs.setCreated row (.epoch 0)
    have hpresent : (t.setCreated row (.epoch 0)).present row = true := by
      simp [RowGroup.Stamped.setCreated]
    refine ⟨.stamped _, hcreated.setDeleted hpresent none, fun r => ?_⟩
    rw [RowGroup.VersionVector.get, RowGroup.Stamped.get_setDeleted _ _ hpresent,
      Stamped.get_setCreated, Stamped.get_setCreated]
    by_cases hr : r = row
    · subst hr
      simp [always]
    · rw [if_neg hr, if_neg hr, update_of_ne hr, ← hexact r]
      rfl
  all_goals exact h.elim

namespace Versions

variable {vs : Versions} {m : Plain} {turn : Option (Stamp × Stamp)} {index : Nat} {row : Nat}
  {built : Versions × List Nat} {visits : Nat → Prop} {source target : Stamp}

/-- Vector `index`, flat and without rows past the last. -/
def vectorAt (vs : Versions) (index : Nat) : VersionVector := vs.vectors.getD index (.flat {})

theorem get_eq (vs : Versions) (row : Nat) :
    vs.get row = (vs.vectorAt (vectorOf row)).get (place row) := by
  unfold get vectorAt
  rw [getD_eq_getElem?_getD, show row / vectorRows = vectorOf row from rfl]
  cases vs.vectors[vectorOf row]? with
  | none | some => rfl

theorem vectorAt_of_le (h : vs.vectors.length ≤ index) :
    vs.vectorAt index = .flat {} := getD_eq_default _ _ h

theorem vectorAt_grown (vs : Versions) (index i : Nat) :
    (⟨vs.grown index⟩ : Versions).vectorAt i = vs.vectorAt i :=
  getD_append_replicate _ _ _ i

theorem vectorAt_modify {vectors : List VersionVector}
    (hindex : index < vectors.length) (f : VersionVector → VersionVector) (i : Nat) :
    (⟨vectors.modify index f⟩ : Versions).vectorAt i =
      if i = index then f ((⟨vectors⟩ : Versions).vectorAt i)
      else (⟨vectors⟩ : Versions).vectorAt i :=
  getD_modify hindex f _ i

theorem length_grown (vs : Versions) (index : Nat) : index < (vs.grown index).length := by
  simp only [grown, length_append, length_replicate]
  omega

/-- A vector changed, the vectors grown to it. -/
theorem vectorAt_modify_grown (vs : Versions) (index : Nat) (f : VersionVector → VersionVector)
    (i : Nat) :
    (⟨(vs.grown index).modify index f⟩ : Versions).vectorAt i =
      if i = index then f (vs.vectorAt i) else vs.vectorAt i := by
  rw [vectorAt_modify (vs.length_grown index), vectorAt_grown]

/-- Every vector of the row group shows one that tracks the map. -/
def Tracks (turn : Option (Stamp × Stamp)) (vs : Versions) (m : Plain) : Prop :=
  ∀ index, ∃ u, (vs.vectorAt index).Shows u ∧ u.Tracks turn (m.vector index)

/-- A change of one row, by what it does to its vector. -/
theorem Tracks.update (f : VersionVector → VersionVector) {vs' : Versions}
    {version : RowVersion} (h : vs.Tracks turn m) (hvs' : ∀ i, vs'.vectorAt i =
      if i = vectorOf row then f (vs.vectorAt i) else vs.vectorAt i)
    (hrow : ∀ u, (vs.vectorAt (vectorOf row)).Shows u → u.Tracks turn (m.vector (vectorOf row)) →
      ∃ u', (f (vs.vectorAt (vectorOf row))).Shows u' ∧
        u'.Tracks turn (update (m.vector (vectorOf row)) (place row) version)) :
    vs'.Tracks turn (update m row version) := by
  intro index
  obtain ⟨u, hshows, htracks⟩ := h index
  rw [hvs', Plain.vector_update]
  by_cases hindex : index = vectorOf row
  · subst hindex
    rw [if_pos rfl, if_pos rfl]
    exact hrow u hshows htracks
  · rw [if_neg hindex, if_neg hindex]
    exact ⟨u, hshows, htracks⟩

theorem Tracks.setDeleted (h : vs.Tracks turn m)
    (hrow : (m row).created.isSome = true) (stamp : Option Stamp) :
    (vs.setDeleted row stamp).Tracks turn (m.call (.setDeleted row stamp)) := by
  refine Tracks.update
    (fun v => .stamped (v.stampedOf.setDeleted (row % vectorRows) stamp)) h
    (vs.vectorAt_modify_grown _ _) fun u hshows htracks => ?_
  rw [← Plain.vector_vectorOf m row] at hrow ⊢
  obtain ⟨hcreated, htracks'⟩ := htracks.setDeleted hrow stamp
  exact ⟨.stamped _, hshows.stampedOf.setDeleted ((u.present_stampedOf _).trans hcreated) stamp,
    htracks'⟩

theorem Tracks.ok (h : vs.Tracks turn m) : vs.Ok := by
  intro v hv
  obtain ⟨i, hi⟩ := getElem?_of_mem hv
  obtain ⟨u, hshows, -⟩ := h i
  have hat : vs.vectorAt i = v := by rw [vectorAt, getD_eq_getElem?_getD, hi, getD_some]
  exact (hat ▸ hshows).ok

/-- The map after a collect of the vectors `visits` names. -/
def collapsedPlain (m : Plain) (visits : Nat → Prop) [DecidablePred visits] (horizon : Nat) : Plain :=
  fun row =>
    if visits (vectorOf row) ∧ m.Settled (vectorOf row) horizon then (m row).collapse else m row

section

variable (h : vs.Tracks none m)
include h

theorem Tracks.get (row : Nat) : vs.get row = m row := by
  obtain ⟨u, hshows, hexact⟩ := h (vectorOf row)
  rw [get_eq, hshows.get, show u.get _ = _ from hexact (place row),
    Plain.vector_vectorOf]

theorem Tracks.setCreated (row : Nat) (stamp : Stamp) :
    (vs.setCreated row stamp).Tracks none (m.call (.setCreated row stamp)) := by
  refine Tracks.update
    (fun v => .stamped (v.stampedOf.setCreated (row % vectorRows) stamp)) h
    (vs.vectorAt_modify_grown _ _) fun u hshows hexact => ?_
  refine ⟨.stamped _, hshows.stampedOf.setCreated (place row) stamp, ?_⟩
  rw [← Plain.vector_vectorOf m row]
  exact VersionVector.Exact.setCreated hexact _ stamp

theorem Tracks.setAlways (row : Nat) :
    (vs.setAlways row).Tracks none (m.call (.setAlways row)) := by
  refine Tracks.update (fun v => v.setAlways (row % vectorRows)) h
    (vs.vectorAt_modify_grown _ _) fun u hshows hexact => ?_
  exact hshows.setAlways hexact (place row)

theorem Tracks.remove (row : Nat) : (vs.remove row).Tracks none (m.call (.remove row)) := by
  refine Tracks.update (fun v => v.remove (row % vectorRows)) h (fun i => ?_)
    fun u hshows hexact => ?_
  · by_cases hlt : vectorOf row < vs.vectors.length
    · exact vectorAt_modify hlt _ i
    -- past the last vector there is no row to take out
    have hle : vs.vectors.length ≤ row / vectorRows := le_of_not_gt hlt
    have hat : vs.vectorAt (vectorOf row) = .flat {} := vectorAt_of_le hle
    rw [Versions.remove, modify_eq_self hle]
    split
    · next hi =>
        change vs.vectorAt i = _
        rw [hi, hat]
        simp [VersionVector.remove, Bitset.clear]
    · rfl
  · exact ⟨_, hshows.remove (place row),
      VersionVector.Exact.remove hexact _⟩

theorem CollapsedTo.tracks [DecidablePred visits] {horizon : Nat}
    (hbuilt : vs.CollapsedTo visits horizon built) :
    built.1.Tracks none (collapsedPlain m visits horizon) := by
  intro index
  obtain ⟨u, hshows, hexact⟩ := h index
  have hat : built.1.vectorAt index =
      if visits index then ((vs.vectorAt index).collapseInto horizon).1 else vs.vectorAt index := by
    unfold vectorAt
    rw [getD_eq_getElem?_getD, hbuilt.vectors, getD_eq_getElem?_getD]
    by_cases hvisits : visits index
    · rw [if_pos hvisits, if_pos hvisits]
      cases vs.vectors[index]? <;> rfl
    · rw [if_neg hvisits, if_neg hvisits]
  rw [hat]
  by_cases hvisits : visits index
  · rw [if_pos hvisits]
    refine ⟨_, (hshows.collapseInto horizon).1, fun row => ?_⟩
    rw [show _ = _ from VersionVector.Exact.collapse hexact horizon row]
    simp only [Plain.vector, collapsedPlain, vectorOf_idOf, hvisits, true_and]
    rfl
  · rw [if_neg hvisits]
    refine ⟨u, hshows, fun row => ?_⟩
    rw [show _ = _ from hexact row]
    simp [Plain.vector, collapsedPlain, vectorOf_idOf, hvisits]

/-- The rows a collect reports gone are the deleted ones of the map's settled vectors. -/
theorem CollapsedTo.mem_gone [DecidablePred visits] {horizon : Nat}
    (hbuilt : vs.CollapsedTo visits horizon built) (row : Nat) : row ∈ built.2 ↔
      visits (vectorOf row) ∧ m.Settled (vectorOf row) horizon ∧ (m row).deleted.isSome = true := by
  obtain ⟨u, hshows, hexact⟩ := h (vectorOf row)
  have hgone : place row ∈ (u.collapse horizon).2 ↔
      m.Settled (vectorOf row) horizon ∧ (m row).deleted.isSome = true := by
    rw [VersionVector.Exact.mem_collapse hexact, Plain.vector_vectorOf]
    rfl
  rw [hbuilt.gone, ← hgone]
  refine and_congr_right fun _ => ?_
  have hrows := (hshows.collapseInto horizon).2
  have hmem : (place row : Nat) ∈
      ((vs.vectorAt (vectorOf row)).collapseInto horizon).2 ↔
        place row ∈ (u.collapse horizon).2 := by
    rw [hrows]
    exact mem_map_of_injective Fin.val_injective
  rw [← hmem, vectorAt, getD_eq_getElem?_getD]
  change (∃ v, vs.vectors[vectorOf row]? = some v ∧ _) ↔ _
  cases vs.vectors[vectorOf row]? with
  | none => simp [VersionVector.collapseInto]
  | some v => simp [place]

theorem Tracks.collapse (horizon : Nat) :
    (vs.collapse horizon).1.Tracks none (m.call (.collapse horizon)) := by
  have htracks := (h.ok.collapsedTo horizon).tracks h
  have heq : collapsedPlain m (· < vs.vectors.length) horizon = m.call (.collapse horizon) := by
    funext row
    unfold collapsedPlain
    by_cases hlt : vectorOf row < vs.vectors.length
    · simp [hlt, Plain.call]
    · -- past the last vector no row exists
      have hnone : m row = {} := by
        rw [← h.get, get_eq, vectorAt_of_le (le_of_not_gt hlt)]
        rfl
      simp [hlt, Plain.call, hnone, RowVersion.collapse]
  rwa [heq] at htracks

/-- The rows a collect of every vector reports gone. -/
theorem Tracks.mem_collapse (horizon row : Nat) :
    row ∈ (vs.collapse horizon).2 ↔
      m.Settled (vectorOf row) horizon ∧ (m row).deleted.isSome = true := by
  rw [(h.ok.collapsedTo horizon).mem_gone h, and_iff_right_iff_imp]
  rintro ⟨-, hdeleted⟩
  by_contra hlt
  rw [← h.get, get_eq, vectorAt_of_le (le_of_not_gt hlt)] at hdeleted
  simp [VersionVector.get] at hdeleted

theorem Tracks.collapseVector (index horizon : Nat) :
    (vs.collapseVector index horizon).1.Tracks none (m.call (.collapseVector index horizon)) := by
  have htracks := (h.ok.collapsedTo_one index horizon).tracks h
  rw [h.ok.collapseVector_eq]
  have heq : collapsedPlain m (· = index) horizon = m.call (.collapseVector index horizon) := by
    funext row
    unfold collapsedPlain
    by_cases hindex : vectorOf row = index <;> simp [hindex, Plain.call]
  rwa [heq] at htracks

end

/-! ### Commits, a vector at a time -/

/-- What a commit of the rows from `start` to before `stop` makes of vector `index`. -/
def committedVector (vs : Versions) (start stop : Nat) (source target : Stamp) (index : Nat) :
    VersionVector × List Nat :=
  (vs.vectorAt index).commitCreated (start - index * vectorRows)
    (min stop (index * vectorRows + vectorRows) - index * vectorRows) source target

theorem vectorAt_set (vs : Versions) {v : VersionVector}
    (hindex : index < vs.vectors.length) (i : Nat) :
    (⟨vs.vectors.set index v⟩ : Versions).vectorAt i =
      if i = index then v else vs.vectorAt i := by
  unfold vectorAt
  by_cases hi : i = index
  · subst hi
    simp [hindex]
  · simp [hi, Ne.symm hi]

/-- One turn of the loop commits the first vector the range meets. -/
theorem commitLoop_succ {stop start : Nat} (hlt : start < stop)
    (fuel : Nat) (vs : Versions) (committed : List (Nat × Nat)) :
    ∃ vs' : Versions, commitLoop stop source target (fuel + 1) start vs committed =
      commitLoop stop source target fuel (min stop (vectorOf start * vectorRows + vectorRows)) vs'
        (((vs.committedVector start stop source target (vectorOf start)).2.map
          (vectorOf start * vectorRows + ·)).foldl pushRow committed) ∧
      ∀ index, vs'.vectorAt index =
        if index = vectorOf start then (vs.committedVector start stop source target index).1
        else vs.vectorAt index := by
  rw [commitLoop, if_pos hlt]
  dsimp only
  rw [show start / vectorRows = vectorOf start from rfl]
  unfold committedVector
  cases hv : vs.vectors[vectorOf start]? with
  | none =>
    have hat : vs.vectorAt (vectorOf start) = .flat {} :=
      vectorAt_of_le (getElem?_eq_none_iff.mp hv)
    refine ⟨vs, by rw [hat]; rfl, fun index => ?_⟩
    split
    · next hi =>
        rw [hi, hat]
        rfl
    · rfl
  | some v =>
    have hat : vs.vectorAt (vectorOf start) = v := by
      rw [vectorAt, getD_eq_getElem?_getD, hv, getD_some]
    refine ⟨_, by rw [hat], fun index => ?_⟩
    rw [vectorAt_set vs (List.getElem?_eq_some_iff.mp hv).1]
    split
    · next hi => rw [hi, hat]
    · rfl

/-- The rows of a vector from `first` to before `last`. -/
def rowsBetween (first last : Nat) (row : Fin vectorRows) : Bool :=
  decide (first ≤ (row : Nat)) && decide ((row : Nat) < last)

/-- The commit of rows of one vector, against the map. -/
theorem Tracks.commitVector (h : vs.Tracks (some (source, target)) m)
    (hsource : source ≠ .epoch 0) {index first last : Nat} (hlast : last ≤ vectorRows)
    (hrows : ∀ row, rowsBetween first last row = true →
      (m.vector index row).created ≠ some target) :
    (∃ u, ((vs.vectorAt index).commitCreated first last source target).1.Shows u ∧
      u.Tracks (some (source, target))
        (RowGroup.VersionVector.committed (rowsBetween first last) source target
          (m.vector index))) ∧ ((vs.vectorAt index).commitCreated first last source target).2 =
      (range' first (last - first)).filter fun row =>
        decide ((m (index * vectorRows + row)).created = some source) := by
  obtain ⟨u, hshows, htracks⟩ := h index
  have hagrees : u.Agrees source target (m.vector index) := htracks
  obtain ⟨hshows', hreturned⟩ :=
    hshows.commitCreated hlast (fun r => (rfl : rowsBetween first last r = _)) source target
  obtain ⟨hagrees', hreturned'⟩ := hagrees.commitCreated hsource hrows
  refine ⟨⟨_, hshows', hagrees'⟩, ?_⟩
  rw [hreturned, hreturned', range'_eq_filter hlast, List.filter_filter]
  exact map_filter_finRange fun row => Bool.and_comm ..

/-- The rows of one vector named by a commit, in the map. -/
theorem vector_commitCreated (m : Plain) {start stop index : Nat} (source target : Stamp)
    (hstart : index * vectorRows ≤ start) (hstop : stop ≤ index * vectorRows + vectorRows) (i : Nat) :
    (m.call (.commitCreated start stop source target)).vector i =
      if i = index then RowGroup.VersionVector.committed
          (rowsBetween (start - index * vectorRows) (stop - index * vectorRows)) source target
          (m.vector index)
      else m.vector i := by
  funext row
  split
  · next hi =>
    subst hi
    refine if_congr (and_congr_left' ?_) rfl rfl
    simp only [rowsBetween, Bool.and_eq_true, decide_eq_true_eq, idOf]
    omega
  · next hi =>
    refine if_neg fun hnamed => hi ?_
    unfold idOf vectorRows at *
    omega

/-- **The loop of a commit**, a vector a turn: it commits the rows the range names, and returns
the runs of those the transaction created. -/
theorem Tracks.commitLoop {stop : Nat} (hsource : source ≠ .epoch 0)
    (fuel : Nat) : ∀ (start : Nat) {vs : Versions} {m : Plain} (committed : List (Nat × Nat)),
      stop - start ≤ fuel → vs.Tracks (some (source, target)) m →
      (∀ row, start ≤ row → row < stop → (m row).created ≠ some target) →
      (Versions.commitLoop stop source target fuel start vs committed).1.Tracks
          (some (source, target)) (m.call (.commitCreated start stop source target)) ∧
        (Versions.commitLoop stop source target fuel start vs committed).2 =
          ((range' start (stop - start)).filter fun row =>
            decide ((m row).created = some source)).foldl pushRow committed := by
  have hnone : ∀ {start : Nat} {vs : Versions} {m : Plain}, ¬start < stop →
      vs.Tracks (some (source, target)) m →
      vs.Tracks (some (source, target)) (m.call (.commitCreated start stop source target)) := by
    intro start vs m hlt h
    rwa [show m.call (.commitCreated start stop source target) = m from
      funext fun row => if_neg fun hrow => hlt (hrow.1.1.trans_lt hrow.1.2)]
  induction fuel with
  | zero =>
    intro start vs m committed hfuel h _
    refine ⟨hnone (by omega) h, ?_⟩
    rw [le_zero.mp hfuel]
    rfl
  | succ fuel ih =>
    intro start vs m committed hfuel h hrows
    by_cases hlt : start < stop
    · obtain ⟨vs', hloop, hvs'⟩ := commitLoop_succ hlt fuel vs committed
      have hstart : vectorOf start * vectorRows ≤ start := by
        unfold vectorOf vectorRows
        omega
      have hnext : start < vectorOf start * vectorRows + vectorRows := by
        unfold vectorOf vectorRows
        omega
      unfold committedVector at hloop hvs'
      generalize hlast : min stop (vectorOf start * vectorRows + vectorRows) = last at hloop
      -- the first vector of the range, then the rest of it
      have hnamed : ∀ row, rowsBetween (start - vectorOf start * vectorRows)
          (last - vectorOf start * vectorRows) row = true →
          (m.vector (vectorOf start) row).created ≠ some target := fun row hrow => by
        simp only [rowsBetween, Bool.and_eq_true, decide_eq_true_eq] at hrow
        exact hrows _ (by unfold idOf; omega) (by
          unfold idOf; omega)
      obtain ⟨hvector, hreturned⟩ := h.commitVector hsource (by omega) hnamed
      have hrange : range' start (last - start) = (range' (start - vectorOf start * vectorRows)
          (last - vectorOf start * vectorRows - (start - vectorOf start * vectorRows))).map
            (vectorOf start * vectorRows + ·) := by
        rw [map_add_range', add_sub_of_le hstart, Nat.sub_sub_sub_cancel_right hstart]
      have hfirst : vs'.Tracks (some (source, target))
          (m.call (.commitCreated start last source target)) := by
        intro index
        rw [hvs', vector_commitCreated m source target hstart (by omega)]
        split
        · next hi =>
          subst hi
          rw [hlast]
          exact hvector
        · exact h index
      have hafter : ∀ row, last ≤ row →
          m.call (.commitCreated start last source target) row = m row :=
        fun row hrow => if_neg (by omega)
      have hcall : (m.call (.commitCreated start last source target)).call
          (.commitCreated last stop source target) =
          m.call (.commitCreated start stop source target) := funext fun row => by
        by_cases hrow : last ≤ row
        · have hsame := hafter row hrow
          simp only [Plain.call] at hsame ⊢
          rw [hsame]
          exact if_congr (and_congr_left' (by omega)) rfl rfl
        · exact (if_neg (by omega)).trans (if_congr (and_congr_left' (by omega)) rfl rfl)
      have hrest := fun committed => ih last committed (by omega) hfirst fun row hrow hstop => by
        rw [hafter row hrow]
        exact hrows row (by omega) hstop
      rw [hloop, ← hcall]
      refine ⟨(hrest _).1, (hrest _).2.trans ?_⟩
      have hlater : ∀ row ∈ range' last (stop - last),
          decide ((m.call (.commitCreated start last source target) row).created = some source) =
            decide ((m row).created = some source) := fun row hrow => by
        rw [hafter row (mem_range'_1.mp hrow).1]
      rw [hreturned, filter_congr hlater, show stop - start = (last - start) + (stop - last) by omega, ← range'_append_1,
        add_sub_of_le (by omega), filter_append, foldl_append, hrange, List.filter_map]
      rfl
    · rw [Versions.commitLoop, if_neg hlt, Nat.sub_eq_zero_of_le (le_of_not_gt hlt)]
      exact ⟨hnone hlt h, rfl⟩

/-- **A call of a commit** returns the runs of the rows it names that the transaction created,
and every vector tracks the map in which they are committed. -/
theorem Tracks.commitCreated (h : vs.Tracks (some (source, target)) m)
    (hsource : source ≠ .epoch 0) {start stop : Nat}
    (hrows : ∀ row, start ≤ row → row < stop → (m row).created ≠ some target) :
    (vs.commitCreated start stop source target).1.Tracks (some (source, target))
        (m.call (.commitCreated start stop source target)) ∧
      (vs.commitCreated start stop source target).2 =
        ((range' start (stop - start)).filter fun row =>
          decide ((m row).created = some source)).foldl pushRow [] :=
  Tracks.commitLoop hsource _ start [] le_rfl h hrows

/-! ### Runs -/

/-- `runs` are the runs of `rows`: they hold those rows in order, none is empty, and no two of
them touch. -/
structure RunsOf (rows : List Nat) (runs : List (Nat × Nat)) : Prop where
  rows_eq : (runs.flatMap fun run => List.range' run.1 (run.2 - run.1)) = rows
  nonempty : ∀ run ∈ runs, run.1 < run.2
  apart : runs.Pairwise fun run next => run.2 < next.1

/-- A row behind the last run grows it or starts one. -/
theorem RunsOf.pushRow {rows : List Nat} {runs : List (Nat × Nat)} (h : RunsOf rows runs)
    (hrow : ∀ r ∈ rows, r < row) : RunsOf (rows ++ [row]) (pushRow runs row) := by
  have hbelow : ∀ run ∈ runs, run.2 ≤ row := by
    intro run hrun
    have hlt := h.nonempty run hrun
    have hmem : run.2 - 1 ∈ rows := by
      rw [← h.rows_eq, mem_flatMap]
      exact ⟨run, hrun, mem_range'_1.mpr (by omega)⟩
    have := hrow _ hmem
    omega
  have hnew : (∀ run ∈ runs, run.2 < row) → RunsOf (rows ++ [row]) (runs ++ [(row, row + 1)]) := by
    intro hgap
    refine ⟨?_, forall_mem_concat.mpr ⟨h.nonempty, lt_succ_self row⟩,
      pairwise_concat.mpr ⟨h.apart, hgap⟩⟩
    rw [flatMap_append, h.rows_eq]
    simp
  unfold Versions.pushRow
  obtain rfl | ⟨init, last, rfl⟩ := eq_nil_or_concat' runs
  · exact hnew nofun
  rw [getLast?_concat, dropLast_concat]
  dsimp only
  obtain ⟨hinit, -, hapart⟩ := pairwise_append.mp h.apart
  have hlast := h.nonempty last (by simp)
  split
  · next heq =>
      refine ⟨?_, forall_mem_concat.mpr ⟨fun run hrun => h.nonempty run
        (mem_append_left _ hrun), by omega⟩, pairwise_concat.mpr
        ⟨hinit, fun run hrun => hapart run hrun last (by simp)⟩⟩
      rw [← h.rows_eq, flatMap_append, flatMap_append, append_assoc]
      simp only [flatMap_singleton]
      rw [show last.2 + 1 - last.1 = (last.2 - last.1) + 1 by omega, range'_concat,
        show last.1 + 1 * (last.2 - last.1) = row by omega]
  · next hne =>
      have hend := hbelow last (by simp)
      refine hnew (forall_mem_concat.mpr ⟨fun run hrun => ?_, by omega⟩)
      have hgap := hapart run hrun last (by simp)
      omega

/-- The rows pushed one by one are kept as their runs. -/
theorem runsOf_foldl {rows : List Nat} (h : rows.Pairwise (· < ·)) :
    RunsOf rows (rows.foldl Versions.pushRow []) := by
  induction rows using reverseRecOn with
  | nil => exact ⟨rfl, nofun, .nil⟩
  | append_singleton rows row ih =>
    obtain ⟨hrows, -, hlt⟩ := pairwise_append.mp h
    rw [foldl_append]
    exact (ih hrows).pushRow fun r hr => hlt r hr row (by simp)

end Versions

/-- The versions, the map given the same calls, and the commit under way: its transaction's
stamp and its epoch. -/
structure Tracked where
  versions : Versions := {}
  plain : Plain := fun _ => {}
  turn : Option (Stamp × Stamp) := none

namespace Tracked

variable {s : Tracked}

/-- No row is left for the commit under way to name. -/
def TurnOver (s : Tracked) : Prop :=
  ∀ source target, s.turn = some (source, target) → ∀ row, (s.plain row).created ≠ some source

/-- What the store keeps of its calls. -/
def Allowed (s : Tracked) : Call → Prop
  | .setDeleted row _ => (s.plain row).created.isSome = true
  | .commitCreated start stop source target =>
      source.isPending = true ∧
        (∀ row, start ≤ row → row < stop → (s.plain row).created ≠ some target) ∧
        (s.turn = some (source, target) ∨ s.TurnOver)
  | _ => s.TurnOver

/-- The state after a call. -/
def step (s : Tracked) (c : Call) : Tracked where
  versions := s.versions.call c
  plain := s.plain.call c
  turn :=
    match c with
    | .setDeleted _ _ => s.turn
    | .commitCreated _ _ source target => some (source, target)
    | _ => none

/-- The states reached from no rows by calls the store makes. -/
inductive Reachable : Tracked → Prop
  | empty : Reachable {}
  | step {s : Tracked} (c : Call) (hs : Reachable s) (hc : s.Allowed c) : Reachable (s.step c)

/-- The versions track the map. -/
def Ok (s : Tracked) : Prop := s.versions.Tracks s.turn s.plain

theorem Ok.idle (h : s.Ok) (hover : s.TurnOver) : s.versions.Tracks none s.plain := by
  unfold Ok at h
  cases hturn : s.turn <;> rw [hturn] at h
  case none => exact h
  case some turn =>
    intro index
    obtain ⟨u, hshows, hagrees⟩ := h index
    exact ⟨u, hshows, VersionVector.Agrees.exact hagrees fun row =>
      hover turn.1 turn.2 hturn _⟩

/-- A turn starts at the map. -/
theorem Ok.turn {source target : Stamp} (h : s.Ok)
    (hturn : s.turn = some (source, target) ∨ s.TurnOver) :
    s.versions.Tracks (some (source, target)) s.plain := by
  obtain hturn | hover := hturn
  · unfold Ok at h
    rwa [hturn] at h
  · intro index
    obtain ⟨u, hshows, hexact⟩ := h.idle hover index
    exact ⟨u, hshows, fun row => .inl (hexact row)⟩

theorem ne_epoch_of_isPending {source : Stamp} (h : source.isPending = true) :
    source ≠ .epoch 0 := by
  rintro rfl
  cases h

theorem ok_empty : ({} : Tracked).Ok := fun _ =>
  ⟨.flat fun _ => false, ⟨zero_le _, fun _ => rfl⟩, fun _ => rfl⟩

/-- A call the store makes keeps the versions at the map. -/
theorem Ok.step (h : s.Ok) {c : Call} (hc : s.Allowed c) : (s.step c).Ok := by
  cases c with
  | setCreated row stamp => exact (h.idle hc).setCreated row stamp
  | setDeleted row stamp => exact Tracks.setDeleted h hc stamp
  | commitCreated start stop source target =>
    obtain ⟨hsource, hrows, hturn⟩ := hc
    exact ((h.turn hturn).commitCreated (ne_epoch_of_isPending hsource) hrows).1
  | setAlways row => exact (h.idle hc).setAlways row
  | remove row => exact (h.idle hc).remove row
  | collapse horizon =>
    simp only [Ok, Tracked.step, call]
    exact (h.idle hc).collapse horizon
  | collapseVector index horizon =>
    exact (h.idle hc).collapseVector index horizon

theorem Reachable.ok (h : Reachable s) : s.Ok := by
  induction h with
  | empty => exact ok_empty
  | step c _ hc ih => exact ih.step hc

/-- The bulk reads of the versions are those of each row. -/
structure ReadsAgree (vs : Versions) (read : Read) : Prop where
  visibleWord : ∀ index (asked : BitVec 64) bit, bit < 64 →
    (vs.visibleWord index asked read).getLsbD bit =
      (asked.getLsbD bit && vs.visible (index * 64 + bit) read)
  forEachVisible : ∀ rows : Bitset,
    vs.forEachVisible rows read = rows.rows.filter (vs.visible · read)
  countVisible : ∀ count, vs.vectors.length * vectorRows ≤ count →
    vs.countVisible read = ((List.range count).filter (vs.visible · read)).length

theorem readsAgree (vs : Versions) (read : Read) : ReadsAgree vs read where
  visibleWord index asked _ hbit := vs.getLsbD_visibleWord read index asked hbit
  forEachVisible rows := vs.forEachVisible_eq read rows
  countVisible count hcount := by
    rw [vs.countVisible_eq, vs.forEachVisibleRow_eq]
    exact congrArg length
      (filter_range_of_le hcount fun _ hrow => vs.visible_of_le read hrow).symm

/-- A row against the map: its version, or during a turn the commit's epoch early. -/
theorem Ok.get (h : s.Ok) (row : Nat) :
    s.versions.get row = s.plain row ∨ ∃ source target, s.turn = some (source, target) ∧
      (s.plain row).created = some source ∧
      s.versions.get row = { s.plain row with created := some target } := by
  unfold Ok at h
  cases hturn : s.turn <;> rw [hturn] at h
  case none => exact .inl (h.get row)
  case some turn =>
    obtain ⟨u, hshows, hagrees⟩ := h (vectorOf row)
    rw [get_eq, hshows.get, ← Plain.vector_vectorOf s.plain row]
    refine (hagrees (place row)).imp_right fun hearly => ?_
    exact ⟨turn.1, turn.2, rfl, hearly.2.1, hearly.2.2⟩

/-- **A row group's versions are those of the plain map**, in every state the store's calls
reach: the bulk reads agree with each row's, every row has the map's version (during a
commit's turn a row of it that was not named may stand at its epoch early), the next call of
a commit returns exactly the runs of the rows it names that the transaction created, and a
collect reports gone the deleted rows of the vectors whose versions are all committed. -/
theorem versions_track_plain (h : s.Reachable) : (∀ read, ReadsAgree s.versions read) ∧
    (∀ row, s.versions.get row = s.plain row ∨ ∃ source target, s.turn = some (source, target) ∧
      (s.plain row).created = some source ∧
      s.versions.get row = { s.plain row with created := some target }) ∧
    (s.TurnOver → ∀ row, s.versions.get row = s.plain row) ∧
    (∀ start stop source target, s.Allowed (.commitCreated start stop source target) →
      Versions.RunsOf
        ((List.range' start (stop - start)).filter fun row =>
          decide ((s.plain row).created = some source))
        (s.versions.commitCreated start stop source target).2) ∧
    ∀ horizon, s.Allowed (.collapse horizon) → ∀ row, row ∈ (s.versions.collapse horizon).2 ↔
        s.plain.Settled (vectorOf row) horizon ∧ (s.plain row).deleted.isSome = true := by
  have hok : s.Ok := h.ok
  refine ⟨readsAgree s.versions, hok.get, fun hover row => (hok.idle hover).get row, ?_, ?_⟩
  · intro start stop source target hc
    obtain ⟨hsource, hrows, hturn⟩ := hc
    rw [((hok.turn hturn).commitCreated (ne_epoch_of_isPending hsource) hrows).2]
    exact runsOf_foldl (List.Pairwise.filter _ pairwise_lt_range')
  · intro horizon hover row
    have htracks := hok.idle hover
    exact htracks.mem_collapse horizon row

/-- Rows 0 and 1 of a transaction, row 0 committed: in the middle of the turn the call for row 1
returns its run. -/
theorem versions_track_plain_halfCommitted :
    let s := ((({} : Tracked).step (.setCreated 0 (.pending 19))).step
      (.setCreated 1 (.pending 19))).step (.commitCreated 0 1 (.pending 19) (.epoch 5))
    s.Reachable ∧ (∀ read, ReadsAgree s.versions read) ∧ RunsOf
        ((List.range' 1 1).filter fun row => decide ((s.plain row).created = some (.pending 19)))
        (s.versions.commitCreated 1 2 (.pending 19) (.epoch 5)).2 := by
  intro s
  have hreach : s.Reachable := by
    refine .step _ (.step _ (.step _ .empty ?_) ?_) ⟨rfl, fun row _ hrow => ?_, .inr ?_⟩
    · exact nofun
    · exact nofun
    · obtain rfl : row = 0 := by omega
      decide
    · exact nofun
  obtain ⟨hreads, -, -, hruns, -⟩ := versions_track_plain hreach
  refine ⟨hreach, hreads, hruns 1 2 _ _ ⟨rfl, fun row hrow hlt => ?_, .inl rfl⟩⟩
  obtain rfl : row = 1 := by omega
  decide

/-- A commit of row 0 alone of a vector whose rows 0 and 1 one transaction created stamps row 1
as well, which it does not name. -/
theorem commitCreated_stamps_past_range :
    let calls := [Call.setCreated 0 (.pending 19), .setCreated 1 (.pending 19),
      .commitCreated 0 1 (.pending 19) (.epoch 5)]
    (calls.foldl call {}).get 1 ≠ (calls.foldl Plain.call fun _ => {}) 1 := by
  decide +kernel

end Tracked

end Grafeo.RowGroup.Bits
