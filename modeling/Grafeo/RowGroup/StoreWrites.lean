import Grafeo.RowGroup.Apply
import Grafeo.RowGroup.Counters

/-!
# Grafeo.RowGroup.StoreWrites

**What one write does to the store**: it changes nothing, or it puts its row
(`Store.Written`). Of everything else a write touches, this module keeps apart what the
later ones use: the indexes and the adjacency are named and nothing more, the counts move
by what the row weighs, and the rest of the store stays (`Store.SameFrame`).
-/

namespace Grafeo.RowGroup

open Tables Row DataOp

variable {Name Value : Type} {op : DataOp Name Value} {properties : Properties Name Value}
  {writer : Writer} {applied : Applied Name Value} {created : Option Stamp} {value : Option Value}
  {labels : List Name} {error : ApplyError}

/-- Whether `apply` lists the op's vector once it returned this. -/
def Applied.lists : Applied Name Value → Bool
  | unchanged => false
  | _ => true

/-- The fields of the store that no write of a row touches. -/
structure Store.SameFrame (s s' : Store Name Value) : Prop where
  listed : s'.listed = s.listed
  keepsIncoming : s'.keepsIncoming = s.keepsIncoming
  history : s'.history = s.history
  nextNodeId : s'.nextNodeId = s.nextNodeId
  nextEdgeId : s'.nextEdgeId = s.nextEdgeId
  epoch : s'.epoch = s.epoch
  floor : s'.floor = s.floor

namespace Store.SameFrame

variable {s s' s'' : Store Name Value}

theorem set (s : Store Name Value) (toTables : Tables Name Value) (counts : Counts Name)
    (outgoing incoming : Nat → List (Adjacent Name)) (indexes : Indexes Name Value) :
    s.SameFrame { s with toTables, counts, outgoing, incoming, indexes } :=
  ⟨rfl, rfl, rfl, rfl, rfl, rfl, rfl⟩

theorem trans (h : s.SameFrame s') (h' : s'.SameFrame s'') : s.SameFrame s'' :=
  ⟨h'.listed.trans h.listed, h'.keepsIncoming.trans h.keepsIncoming, h'.history.trans h.history,
    h'.nextNodeId.trans h.nextNodeId, h'.nextEdgeId.trans h.nextEdgeId, h'.epoch.trans h.epoch,
    h'.floor.trans h.floor⟩

end Store.SameFrame

variable [DecidableEq Name] [DecidableEq Value]

namespace Store

variable {s s' : Store Name Value}

/-! ### The parts of a write -/

section

variable (s)

theorem indexLabels_eq (raw : Nat) (label : Option Name) :
    s.indexLabels raw label = { s with indexes := (s.indexLabels raw label).indexes } := by
  unfold indexLabels
  split <;> rfl

theorem indexCreated_eq (raw : Nat) :
    s.indexCreated raw = { s with indexes := (s.indexCreated raw).indexes } := by
  unfold indexCreated
  split <;> rfl

theorem unindex_eq (raw : Nat) : s.unindex raw = { s with indexes := (s.unindex raw).indexes } := by
  unfold unindex
  split <;> rfl

theorem indexWritten_eq (entity : Entity) (key : Name) (old : Option Value) :
    s.indexWritten entity key old =
      { s with indexes := (s.indexWritten entity key old).indexes } := by
  cases entity with
  | node id =>
    simp only [indexWritten, indexValue]
    split <;> rfl
  | edge id => rfl

theorem linkEdge_eq (edge : Nat) (ends : Ends Name) :
    s.linkEdge edge ends = { s with
      outgoing := (s.linkEdge edge ends).outgoing
      incoming := (s.linkEdge edge ends).incoming } := by
  unfold linkEdge
  generalize s.keptEnds ends.src ends.dst = kept
  induction kept generalizing s with
  | nil => rfl
  | cons first kept ih =>
    obtain ⟨node, other, out⟩ := first
    refine (ih _).trans ?_
    cases out <;> rfl

omit [DecidableEq Value] in
/-- An edge that has ends is counted by its type. -/
theorem countEdge_eq {edge : Nat} {ends : Ends Name} (h : s.ends edge = some ends) (delta : Int) :
    s.countEdge edge delta = { s with counts := s.counts.edge ends.edgeType delta } := by
  simp [countEdge, h]

end

/-! ### What a successful write did, op by op -/

theorem noOp_ok (h : (writer.noOp error : Except ApplyError (Applied Name Value)) = .ok applied) :
    applied = .unchanged := by
  cases writer <;> simp_all [Writer.noOp]

/-- A write that changes nothing. -/
theorem map_noOp_ok
    (h : (writer.noOp error : Except ApplyError (Applied Name Value)).map (fun a => (s, a)) =
      .ok (s', applied)) : s' = s ∧ applied = .unchanged := by
  cases hno : (writer.noOp error : Except ApplyError (Applied Name Value)) with
  | error e => simp [hno, Except.map] at h
  | ok a =>
    obtain rfl := noOp_ok hno
    rw [hno] at h
    cases h
    exact ⟨rfl, rfl⟩

variable {mode : Mode} {applied : Applied Name Value} {id : Nat}

theorem createNode_cases (h : s.createNode id labels properties mode = .ok (s', applied)) :
    s.has (.node id) = false ∧ applied = mode.applied .absent .created ∧ s' = { s with
        toTables := s.insertNode id mode.stamp labels.toFinset properties
        counts := if mode.stamped then s.counts.node labels.toFinset 1 else s.counts
        : Store Name Value }.indexCreated id := by
  simp only [createNode] at h
  split at h
  · cases h
  next hnew =>
    cases h
    refine ⟨by simpa using hnew, rfl, ?_⟩
    cases mode.stamped <;> rfl

theorem createEdge_cases {src dst : Nat} {edgeType : Name}
    (h : s.createEdge id src dst edgeType properties mode = .ok (s', applied)) :
    s.has (.edge id) = false ∧ s.nodeVisible src mode.read = true ∧
      s.nodeVisible dst mode.read = true ∧ applied = mode.applied .absent .created ∧
      s' = { { s with toTables := s.insertEdge id mode.stamp { src, dst, edgeType } properties
               : Store Name Value }.linkEdge id { src, dst, edgeType } with
        counts := if mode.stamped then s.counts.edge edgeType 1 else s.counts } := by
  simp only [createEdge] at h
  split at h
  · cases h
  rename_i hnew
  split at h
  · cases h
  rename_i hsrc
  split at h
  · cases h
  rename_i hdst
  cases h
  refine ⟨by simpa using hnew, by simpa using hsrc, by simpa using hdst, rfl, ?_⟩
  cases mode.stamped with
  | false => rw [linkEdge_eq]; rfl
  | true =>
    rw [linkEdge_eq]
    simp [countEdge, insertEdge]

theorem deleteNode_cases (h : s.deleteNode id mode = .ok (s', applied)) :
    s' = s ∧ applied = .unchanged ∨
      (s.version (.node id)).visible mode.read = true ∧ (s.version (.node id)).deleted = none ∧
        s.seesAnEdgeOf id mode.read = false ∧
        applied = mode.applied (.node (s.nodeImage id))
          (mode.versionOf (s.version (.node id)).created) ∧
        s' = { s with
          toTables := s.setDeleted (.node id) (some mode.stamp)
          counts := if mode.stamped then s.counts.node (s.labels.values id) (-1)
            else s.counts } := by
  simp only [deleteNode] at h
  split at h
  · exact .inl (map_noOp_ok h)
  rename_i hseen
  split at h
  · cases h
  rename_i hdeleted
  split at h
  · cases h
  rename_i hedges
  cases h
  refine .inr ⟨by simpa using hseen, by simpa using hdeleted, by simpa using hedges, rfl, ?_⟩
  cases mode.stamped <;> rfl

theorem deleteEdge_cases (h : s.deleteEdge id mode = .ok (s', applied)) :
    s' = s ∧ applied = .unchanged ∨ ∃ ends, s.ends id = some ends ∧
        (s.version (.edge id)).visible mode.read = true ∧
        (s.version (.edge id)).deleted = none ∧
        applied = mode.applied
          (.edge { src := ends.src, dst := ends.dst, edgeType := ends.edgeType,
                   properties := s.edges.image id })
          (mode.versionOf (s.version (.edge id)).created) ∧
        s' = { s with
          toTables := s.setDeleted (.edge id) (some mode.stamp)
          counts := if mode.stamped then s.counts.edge ends.edgeType (-1) else s.counts } := by
  simp only [deleteEdge] at h
  split at h
  · exact .inl (map_noOp_ok h)
  rename_i hseen
  split at h
  · cases h
  rename_i hdeleted
  unfold edgeImage at h
  cases hends : s.ends id with
  | none => simp [hends] at h
  | some ends =>
    rw [hends] at h
    cases h
    refine .inr ⟨ends, rfl, by simpa using hseen, by simpa using hdeleted, rfl, ?_⟩
    cases mode.stamped with
    | false => rfl
    | true =>
      have hends' : ({ s with toTables := s.setDeleted (.edge id) (some mode.stamp)
          : Store Name Value }).ends id = some ends := by
        simpa [setDeleted] using hends
      simp [countEdge_eq _ hends']

theorem writeValue_cases {entity : Entity} {key : Name} {isSet : Bool}
    (h : s.writeValue entity key value isSet mode = .ok (s', applied)) :
    s' = s ∧ (applied = .unchanged ∨ applied = .committed ∧ ∃ e, mode.writer = .replay e) ∨
      (s.version entity).visible mode.read = true ∧
        (value.isSome = true ∨ ((s.row entity).values key).value.isSome = true) ∧
        applied = mode.applied (.value ((s.row entity).values key).value)
          (s.setValue entity key value (mode.keeps (s.version entity).created)).2 ∧
        s' = { s with
          toTables := (s.setValue entity key value (mode.keeps (s.version entity).created)).1
          : Store Name Value }.indexWritten entity key ((s.row entity).values key).value := by
  simp only [writeValue] at h
  split at h
  · exact .inl ((map_noOp_ok h).imp_right .inl)
  rename_i hseen
  split at h
  · refine .inl ?_
    unfold absentValue at h
    split at h
    next e hwriter =>
      cases isSet with
      | true =>
        cases h
        exact ⟨rfl, .inr ⟨rfl, e, hwriter⟩⟩
      | false => exact (map_noOp_ok h).imp_right .inl
    · exact (map_noOp_ok h).imp_right .inl
  next hsome =>
    cases h
    refine .inr ⟨by simpa using hseen, ?_, ?_, ?_⟩
    · have hvalue : ((s.row entity).values key).value =
          ((s.rows entity.table).columns key).values entity.raw := by
        rw [values_row]
        rfl
      rw [hvalue]
      cases value with
      | some v => exact .inl rfl
      | none => exact .inr (Option.isSome_iff_ne_none.mpr (by simpa using hsome))
    · rw [values_row]
      rfl
    · rw [values_row]
      rfl

theorem writeLabel_cases {label : Name} {add : Bool}
    (h : s.writeLabel id label add mode = .ok (s', applied)) :
    s' = s ∧ applied = .unchanged ∨ (s.version (.node id)).visible mode.read = true ∧
        (label ∈ (s.row (.node id)).labels.value ↔ add = false) ∧
        applied = mode.applied (.labels (s.row (.node id)).labels.value)
          (s.setLabels id (withLabel label add (s.row (.node id)).labels.value)
            (mode.keeps (s.version (.node id)).created)).2 ∧
        s' = { s with
          toTables := (s.setLabels id (withLabel label add (s.row (.node id)).labels.value)
            (mode.keeps (s.version (.node id)).created)).1
          counts := if mode.stamped then s.counts.label label (if add then 1 else -1)
            else s.counts
          : Store Name Value }.indexLabels id (some label) := by
  simp only [writeLabel] at h
  split at h
  · exact .inl (map_noOp_ok h)
  rename_i hseen
  split at h
  · exact .inl (map_noOp_ok h)
  cases h
  refine .inr ⟨by simpa using hseen, ?_, rfl, ?_⟩
  · have hvalue : (s.row (.node id)).labels.value = s.labels.values id := rfl
    cases add <;> simp_all
  · cases mode.stamped <;> rfl

/-! ### Every write in one form -/

/-- A write that changed something: it was let through, it put its row, keeping what it replaced
under `pushed`, and it moved the counts by what the row weighs more when it is stamped at
once. -/
structure Written (s : Store Name Value) (op : DataOp Name Value) (mode : Mode)
    (pushed : Option Stamp) (version : PendingVersion) (s' : Store Name Value) : Prop where
  fresh : op.isCreate = true → s.has op.entity = false
  seen : op.isCreate = false → (s.version op.entity).visible mode.read = true
  undeleted : op.isDelete = true → (s.version op.entity).deleted = none
  changes : (s.row op.entity).Changes op.rowOp
  puts : s.Puts op.entity ((s.row op.entity).put mode.stamp pushed op.rowOp) s'.toTables
  sound : s'.Sound
  /-- What a transaction keeps: a version of its own, unless it has one or created the row. -/
  exact : ∀ t snapshot, mode.writer = .transaction t snapshot → mode.stamp = .pending t →
    mode.epoch = none → s.Searched (.pending t) snapshot →
      pushed = (s.row op.entity).pushedBy t op.rowOp ∧
        version = (s.row op.entity).versionOf t op.rowOp
  pushed : ∀ stamp ∈ pushed, stamp = mode.stamp ∧ (s.version op.entity).created ≠ some mode.stamp ∧
      mode.lists op = some (op.entity.table, op.entity.raw)
  stamps : ∀ c group vector, s'.stampsOf c group vector = s.stampsOf c group vector ∨
    s'.stampsOf c group vector = s.stampsOf c group vector ++ [mode.stamp]
  counts : (s.version op.entity).deleted = none → ∀ counter, s'.counts.at counter =
    s.counts.at counter + if mode.stamped then
      (s'.row op.entity).weight counter op.entity - (s.row op.entity).weight counter op.entity
    else 0
  frame : s.SameFrame s'

/-- What a reader sees exists. -/
theorem isSome_of_visible {version : RowVersion} {read : Read} (h : version.visible read = true) :
    version.created.isSome = true := by
  cases hcreated : version.created with
  | none => simp [RowVersion.visible, hcreated, Read.seesSome] at h
  | some stamp => rfl

omit [DecidableEq Name] [DecidableEq Value] in
theorem has_of_visible {entity : Entity} {read : Read}
    (h : (s.version entity).visible read = true) : s.has entity = true := by
  exact isSome_of_visible h

variable {read : Read}

/-- What a value or label write of a row keeps is under the mode's stamp, and never of a row the
mode's stamp created. -/
theorem keeps_eq {stamp : Stamp} {snapshot : Nat}
    (h : mode.keeps created = some (stamp, snapshot)) :
    stamp = mode.stamp ∧ created ≠ some mode.stamp := by
  unfold Mode.keeps at h
  split at h
  · cases h
  rename_i hne
  refine ⟨?_, hne⟩
  split at h
  · cases h; rfl
  · cases h; rfl
  · split at h
    · cases h; rfl
    · cases h

/-- A mode that keeps anything lists the vector of every op. -/
theorem lists_of_keeps {kept : Stamp × Nat}
    (h : mode.keeps created = some kept) (op : DataOp Name Value) :
    mode.lists op = some (op.entity.table, op.entity.raw) := by
  unfold Mode.keeps at h
  unfold Mode.lists
  split at h
  · cases h
  split at h
  next hwriter => cases op <;> simp [hwriter, entity, Entity.table, Entity.raw]
  next hwriter => cases op <;> simp [hwriter, entity, Entity.table, Entity.raw]
  next hwriter =>
    split at h
    next hhistory => cases op <;> simp [hwriter, hhistory, entity, Entity.table, Entity.raw]
    · cases h

/-- What a transaction's write of a cell keeps and reports, once it is known whether the cell
keeps a version of the transaction. -/
theorem kept_exact {T : Type} {row : Row Name Value} {cell : Cell T} {t snapshot : Nat}
    {pushed : Option Stamp} {version : PendingVersion} {searched : Stamp → Nat → Prop}
    (hwriter : mode.writer = .transaction t snapshot) (hstamp : mode.stamp = .pending t)
    (hkept : Keeps (mode.keeps row.version.created) cell searched pushed version)
    (hsearched : searched (.pending t) snapshot) :
    pushed = row.pushes t cell ∧ version = row.cellVersion t cell := by
  by_cases hcreated : row.version.created = some (.pending t)
  · have hkeeps : mode.keeps row.version.created = none := by simp [Mode.keeps, hcreated, hstamp]
    have hnone : pushed = none := by
      cases hp : pushed with
      | none => rfl
      | some stamp =>
        obtain ⟨_, hk⟩ := hkept.asked stamp (by simp [hp])
        rw [hkeeps] at hk
        cases hk
    refine ⟨by simp [hnone, pushes, hcreated], ?_⟩
    rw [hkept.reported, hkeeps]
    simp [cellVersion, hcreated, PendingVersion.ofKept]
  · have hkeeps : mode.keeps row.version.created = some (.pending t, snapshot) := by
      simp [Mode.keeps, hcreated, hstamp, hwriter]
    have hversion := hkept.reported
    have hp := hkept.exact _ _ hkeeps hsearched
    subst hp
    cases hheld : cell.heldBy (.pending t) with
    | true | false => simp [hversion, hkeeps, pushes, cellVersion, hcreated, hheld,
        PendingVersion.ofKept]

section

variable (hs : s.Sound)
include hs

theorem createNode_written (h : s.createNode id labels properties mode = .ok (s', applied)) :
    Written s (.createNode id labels properties) mode none .created s' := by
  obtain ⟨hnew, -, rfl⟩ := createNode_cases h
  obtain ⟨hputs, hsound, hstamps⟩ := insertNode_spec hs hnew mode.stamp labels.toFinset
    properties
  rw [indexCreated_eq]
  have hrow := hputs (.node id)
  refine
    { fresh _ := hnew
      seen := nofun
      undeleted := nofun
      changes := hs.blank hnew
      puts := hputs
      sound := hsound
      exact _ _ _ _ _ _ := ⟨rfl, rfl⟩
      pushed := nofun
      stamps c group vector := .inl (by rw [hstamps])
      counts _ counter := ?_
      frame := .set .. }
  cases mode.stamped with
  | false => simp
  | true =>
    simp only [entity, hrow, hs.blank hnew, if_true, weight_empty]
    rw [weight_of_live rfl rfl, Counts.at_node s.counts counter labels.toFinset 1 id none]
    simp [put]

theorem createEdge_written {src dst : Nat} {edgeType : Name}
    (h : s.createEdge id src dst edgeType properties mode = .ok (s', applied)) :
    Written s (.createEdge id src dst edgeType properties) mode none .created s' := by
  obtain ⟨hnew, -, -, -, rfl⟩ := createEdge_cases h
  obtain ⟨hputs, hsound, hstamps⟩ := insertEdge_spec hs hnew mode.stamp
    { src, dst, edgeType } properties
  rw [linkEdge_eq]
  have hrow := hputs (.edge id)
  refine
    { fresh _ := hnew
      seen := nofun
      undeleted := nofun
      changes := hs.blank hnew
      puts := hputs
      sound := hsound
      exact _ _ _ _ _ _ := ⟨rfl, rfl⟩
      pushed := nofun
      stamps c group vector := .inl (by rw [hstamps])
      counts _ counter := ?_
      frame := .set .. }
  cases mode.stamped with
  | false => simp
  | true =>
    simp only [entity, hrow, hs.blank hnew, if_true, weight_empty]
    have hcount := Counts.at_edge s.counts counter { src, dst, edgeType } 1 id ∅
    rw [weight_of_live rfl rfl, hcount]
    simp [put]

theorem deleteNode_written (h : s.deleteNode id mode = .ok (s', applied)) :
    s' = s ∧ applied = .unchanged ∨ applied = mode.applied ((s.row (.node id)).before .delete)
          (mode.versionOf (s.version (.node id)).created) ∧
        Written s (.deleteNode id) mode none (mode.versionOf (s.version (.node id)).created)
          s' := by
  rcases deleteNode_cases h with hsame | ⟨hseen, hdeleted, -, happlied, rfl⟩
  · exact .inl hsame
  have hrow := has_of_visible hseen
  obtain ⟨hputs, hsound, hstamps⟩ := setDeleted_spec hs hrow (some mode.stamp)
  have hafter := hputs (.node id)
  refine .inr ⟨happlied,
    { fresh := nofun
      seen _ := hseen
      undeleted _ := hdeleted
      changes := trivial
      puts := hputs
      sound := hsound
      exact t snapshot _ hstamp hepoch _ := ⟨rfl, ?_⟩
      pushed := nofun
      stamps c group vector := .inl (by rw [hstamps])
      counts _ counter := ?_
      frame := .set .. }⟩
  · simp [Mode.versionOf, Mode.stamped, hepoch, hstamp, versionOf, rowOp, entity]
  cases mode.stamped with
  | false => simp
  | true =>
    have hcreated := isSome_of_visible hseen
    simp only [entity, if_true]
    rw [hafter, weight_of_deleted (by simp), weight_of_live hcreated hdeleted,
      Counts.at_node s.counts counter (s.labels.values id) (-1) id
        (s.row (.node id)).ends]
    have hvalue : (s.row (.node id)).labels.value = s.labels.values id := rfl
    rw [hvalue]
    omega

theorem deleteEdge_written (h : s.deleteEdge id mode = .ok (s', applied)) :
    s' = s ∧ applied = .unchanged ∨ applied = mode.applied ((s.row (.edge id)).before .delete)
          (mode.versionOf (s.version (.edge id)).created) ∧
        Written s (.deleteEdge id) mode none (mode.versionOf (s.version (.edge id)).created)
          s' := by
  rcases deleteEdge_cases h with hsame | ⟨ends, hends, hseen, hdeleted, happlied, rfl⟩
  · exact .inl hsame
  have hrow := has_of_visible hseen
  obtain ⟨hputs, hsound, hstamps⟩ := setDeleted_spec hs hrow (some mode.stamp)
  have hafter := hputs (.edge id)
  have hrowends : (s.row (.edge id)).ends = some ends := by
    have hhas : s.edges.versions.has id = true := hrow
    simp [row, hhas, hends]
  refine .inr ⟨?_,
    { fresh h := by cases h
      seen _ := hseen
      undeleted _ := hdeleted
      changes := trivial
      puts := hputs
      sound := hsound
      exact t snapshot _ hstamp hepoch _ := ⟨rfl, ?_⟩
      pushed _ h := by cases h
      stamps c group vector := .inl (by rw [hstamps])
      counts _ counter := ?_
      frame := .set .. }⟩
  · rw [happlied]
    simp only [before, image, hrowends]
    rfl
  · simp [Mode.versionOf, Mode.stamped, hepoch, hstamp, versionOf, rowOp, entity]
  cases mode.stamped with
  | false => simp
  | true =>
    have hcreated := isSome_of_visible hseen
    simp only [entity, if_true]
    rw [hafter, weight_of_deleted (by simp), weight_of_live hcreated hdeleted, hrowends,
      Counts.at_edge s.counts counter ends (-1) id (s.row (.edge id)).labels.value]
    omega

theorem writeValue_written {key : Name} {isSet : Bool} (hop : op.rowOp = .value key value)
    (hcreate : op.isCreate = false) (hdelete : op.isDelete = false)
    (h : s.writeValue op.entity key value isSet mode = .ok (s', applied)) :
    s' = s ∧ (applied = .unchanged ∨ applied = .committed ∧ ∃ e, mode.writer = .replay e) ∨
      ∃ pushed version, applied = mode.applied ((s.row op.entity).before op.rowOp) version ∧
          Written s op mode pushed version s' := by
  rcases writeValue_cases h with hsame | ⟨hseen, hchanges, happlied, rfl⟩
  · exact .inl hsame
  have hrow := has_of_visible hseen
  obtain ⟨after, version, pushed, hset, hputs, hsound, hkept, hstamps⟩ :=
    setValue_spec hs hrow key value (mode.keeps (s.version op.entity).created)
  rw [hset] at happlied ⊢
  rw [indexWritten_eq]
  have hafter := hputs mode.stamp op.entity
  rw [if_pos rfl] at hafter
  refine .inr ⟨pushed, version, by rw [happlied, hop]; rfl,
    { fresh h := by rw [hcreate] at h; cases h
      seen _ := hseen
      undeleted h := by rw [hdelete] at h; cases h
      changes := by rw [hop]; exact hchanges
      puts := by rw [hop]; exact hputs mode.stamp
      sound := hsound
      exact t snapshot hwriter hstamp hepoch hsearched := ?_
      pushed stamp h := ?_
      stamps c group vector := ?_
      counts hdeleted counter := ?_
      frame := .set .. }⟩
  · rw [← version_row] at hkept
    rw [hop]
    exact kept_exact hwriter hstamp hkept hsearched
  · obtain ⟨snapshot, hkeeps⟩ := hkept.asked stamp h
    exact ⟨(keeps_eq hkeeps).1, (keeps_eq hkeeps).2, lists_of_keeps hkeeps op⟩
  · rcases hstamps c group vector with hsame | ⟨stamp, snapshot, hkeeps, hpush⟩
    · exact .inl hsame
    · rw [(keeps_eq hkeeps).1] at hpush
      exact .inr hpush
  -- The labels, the type and the versions stay.
  have hcreated := isSome_of_visible hseen
  rw [← version_row] at hcreated hdeleted
  have hweight : (after.row op.entity).weight counter op.entity =
      (s.row op.entity).weight counter op.entity := by
    rw [hafter, weight_of_live hcreated hdeleted,
      weight_of_live (by exact hcreated) (by exact hdeleted)]
    rfl
  simp only [hweight]
  split <;> omega

theorem writeLabel_written {label : Name} {add : Bool} (hop : op.rowOp = .label label add)
    (hentity : op.entity = .node id) (hcreate : op.isCreate = false) (hdelete : op.isDelete = false)
    (h : s.writeLabel id label add mode = .ok (s', applied)) :
    s' = s ∧ applied = .unchanged ∨ ∃ pushed version,
        applied = mode.applied ((s.row op.entity).before op.rowOp) version ∧
          Written s op mode pushed version s' := by
  rcases writeLabel_cases h with hsame | ⟨hseen, hchanges, happlied, rfl⟩
  · exact .inl hsame
  have hrow := has_of_visible hseen
  obtain ⟨after, version, pushed, hset, hputs, hsound, hkept, hstamps⟩ :=
    setLabels_spec hs hrow (withLabel label add (s.row (.node id)).labels.value)
      (mode.keeps (s.version (.node id)).created)
  rw [hset] at happlied ⊢
  rw [indexLabels_eq]
  have hafter := hputs (.node id)
  rw [if_pos rfl] at hafter
  refine .inr ⟨pushed, version, by rw [happlied, hop, hentity]; rfl,
    { fresh h := by rw [hcreate] at h; cases h
      seen _ := by rw [hentity]; exact hseen
      undeleted h := by rw [hdelete] at h; cases h
      changes := by rw [hop, hentity]; exact hchanges
      puts := by rw [hop, hentity]; exact hputs
      sound := hsound
      exact t snapshot hwriter hstamp hepoch hsearched := ?_
      pushed stamp h := ?_
      stamps c group vector := ?_
      counts hdeleted counter := ?_
      frame := .set .. }⟩
  · rw [hop, hentity]
    exact kept_exact hwriter hstamp hkept hsearched
  · obtain ⟨snapshot, hkeeps⟩ := hkept.asked stamp h
    exact ⟨(keeps_eq hkeeps).1, by rw [hentity]; exact (keeps_eq hkeeps).2, lists_of_keeps hkeeps op⟩
  · rcases hstamps c group vector with hsame | ⟨stamp, snapshot, hkeeps, hpush⟩
    · exact .inl hsame
    · rw [(keeps_eq hkeeps).1] at hpush
      exact .inr hpush
  rw [hentity] at hdeleted ⊢
  have hcreated := isSome_of_visible hseen
  have hweight : (after.row (.node id)).weight counter (.node id) =
      (s.row (.node id)).weight counter (.node id) +
        if counter = .label label then (if add then 1 else -1) else 0 := by
    rw [hafter, weight_of_live hcreated hdeleted,
      weight_of_live (by exact hcreated) (by exact hdeleted)]
    exact counter.weight_withLabel hchanges
  cases mode.stamped with
  | false => simp
  | true =>
    simp only [if_true, Counts.at_label]
    omega

/-- **Every write in one form.** A successful write changes nothing, or it is `Written` and says
what it replaced. -/
theorem applyOp_cases (h : s.applyOp op mode = .ok (s', applied)) :
    s' = s ∧ (applied = .unchanged ∨ applied = .committed ∧ ∃ e, mode.writer = .replay e) ∨
      ∃ pushed version, applied = mode.applied ((s.row op.entity).before op.rowOp) version ∧
          Written s op mode pushed version s' := by
  cases op with
  | createNode id labels properties =>
    exact .inr ⟨none, .created, (createNode_cases h).2.1, createNode_written hs h⟩
  | createEdge id src dst edgeType properties =>
    exact .inr ⟨none, .created, (createEdge_cases h).2.2.2.1, createEdge_written hs h⟩
  | deleteNode id =>
    rcases deleteNode_written hs h with ⟨hsame, happlied⟩ | ⟨happlied, hwritten⟩
    · exact .inl ⟨hsame, .inl happlied⟩
    · exact .inr ⟨_, _, happlied, hwritten⟩
  | deleteEdge id =>
    rcases deleteEdge_written hs h with ⟨hsame, happlied⟩ | ⟨happlied, hwritten⟩
    · exact .inl ⟨hsame, .inl happlied⟩
    · exact .inr ⟨_, _, happlied, hwritten⟩
  | addNodeLabel | removeNodeLabel =>
    exact (writeLabel_written hs rfl rfl rfl rfl h).imp_left fun h => ⟨h.1, .inl h.2⟩
  | setNodeProperty | removeNodeProperty | setEdgeProperty | removeEdgeProperty =>
    exact writeValue_written hs rfl rfl rfl h

end

/-! ### Apply -/

/-- What `apply` does around a write: the vectors listed (if `lists`), the epoch and the next ids
move, the rest stays. -/
structure Settles (s : Store Name Value) (op : DataOp Name Value) (mode : Mode) (lists : Bool)
    (s' : Store Name Value) : Prop where
  toTables : s'.toTables = s.toTables
  outgoing : s'.outgoing = s.outgoing
  incoming : s'.incoming = s.incoming
  counts : s'.counts = s.counts
  indexes : s'.indexes = s.indexes
  keepsIncoming : s'.keepsIncoming = s.keepsIncoming
  history : s'.history = s.history
  floor : s'.floor = s.floor
  listed : s'.listed = if lists then (s.listOp mode op).listed else s.listed
  epoch : s'.epoch = max s.epoch (mode.epoch.getD 0)
  nextNodeId : s'.nextNodeId = (s.passId op).nextNodeId
  nextEdgeId : s'.nextEdgeId = (s.passId op).nextEdgeId

theorem listOp_eq (s : Store Name Value) (mode : Mode) (op : DataOp Name Value) :
    s.listOp mode op = { s with listed := (s.listOp mode op).listed } := by
  unfold listOp
  split
  · unfold list
    split <;> rfl
  · rfl

theorem le_passId (s : Store Name Value) (op : DataOp Name Value) :
    s.nextNodeId ≤ (s.passId op).nextNodeId ∧ s.nextEdgeId ≤ (s.passId op).nextEdgeId := by
  cases op <;> simp [passId]

theorem settles_passId (s : Store Name Value) (op : DataOp Name Value) (mode : Mode)
    (lists : Bool) :
    s.Settles op mode lists
      ((match mode.epoch with
        | some epoch => (if lists then s.listOp mode op else s).syncEpoch epoch
        | none => if lists then s.listOp mode op else s).passId op) := by
  have hlisted : (if lists then s.listOp mode op else s) =
      { s with listed := if lists then (s.listOp mode op).listed else s.listed } := by
    cases lists with
    | true => exact s.listOp_eq mode op
    | false => rfl
  rw [hlisted]
  cases hepoch : mode.epoch with
  | none =>
    cases op <;>
      exact ⟨rfl, rfl, rfl, rfl, rfl, rfl, rfl, rfl, rfl, by simp [passId, hepoch], rfl, rfl⟩
  | some epoch =>
    cases op <;>
      exact ⟨rfl, rfl, rfl, rfl, rfl, rfl, rfl, rfl, rfl, by simp [passId, syncEpoch, hepoch],
        rfl, rfl⟩

/-- **What `apply` did**: it failed and at most listed the op's vector, or the op was done and
the store settled. -/
theorem apply_cases [DecidableEq Name]
    {result : Except ApplyError (Applied Name Value)} (h : s.apply op writer = (s', result)) :
    (∃ listed error, s' = { s with listed } ∧ result = .error error ∧
      (listed = s.listed ∨ ∃ mode, listed = (s.listOp mode op).listed)) ∨
      ∃ mode s₁ applied, Mode.of writer s.history = .ok mode ∧ result = .ok applied ∧
        s.applyOp op mode = .ok (s₁, applied) ∧ s₁.Settles op mode applied.lists s' := by
  unfold apply at h
  cases hmode : Mode.of writer s.history with
  | error error =>
    rw [hmode] at h
    cases h
    exact .inl ⟨s.listed, error, rfl, rfl, .inl rfl⟩
  | ok mode =>
    simp only [hmode] at h
    split at h
    · cases h
      exact .inl ⟨s.listed, _, rfl, rfl, .inl rfl⟩
    cases hop : s.applyOp op mode with
    | error error =>
      rw [hop] at h
      cases h
      exact .inl ⟨_, error, s.listOp_eq mode op, rfl, .inr ⟨mode, rfl⟩⟩
    | ok done =>
      obtain ⟨s₁, applied⟩ := done
      rw [hop] at h
      cases h
      refine .inr ⟨mode, s₁, applied, rfl, rfl, hop, ?_⟩
      have hsettles := s₁.settles_passId op mode applied.lists
      cases applied <;> exact hsettles

end Store

end Grafeo.RowGroup
