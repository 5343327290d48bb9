import Grafeo.RowGroup.StoreUndo

/-!
# Grafeo.RowGroup.StoreCollects

**What a collect does to the rows**: of each vector it visits it drops what readers at the
horizon see past, and where every create and delete of the vector is committed by then, it
forgets them and takes the deleted rows out. The vectors are taken one by one and none is
touched by another's turn.

**Which vectors hold version stamps.** A create and a delete stamp the vector of their row;
no other write does, and no commit, rollback or collect. A commit of a delete and its rollback
write a stamp over one. The keys with a column stay.
-/

namespace Grafeo.RowGroup

open List Tables

variable {Name Value : Type}

namespace Tables

variable {tables : Tables Name Value} {table : Table} {horizon : Nat} {vs : List Nat}

/-- `items` collected in turn, and the rows that are gone. -/
def collectEach (tables : Tables Name Value) (collect : Store.Collector Name Value) :
    List Nat → Tables Name Value × List Nat
  | [] => (tables, [])
  | item :: items =>
      let first := collect tables item
      let rest := first.1.collectEach collect items
      (rest.1, first.2 ++ rest.2)

/-- What `collect` does for an item is to collect the vectors `of item` names. -/
def Collects (collect : Store.Collector Name Value) (table : Table) (horizon : Nat)
    (of : Nat → Nat → Bool) : Prop :=
  ∀ tables : Tables Name Value, tables.Sound → ∀ item,
    tables.Collecting table horizon (of item) (collect tables item).2 (collect tables item).1

/-- **Items listed once, collected in turn**: no vector is of two of them. -/
theorem Collects.each {collect : Store.Collector Name Value} {key : Nat → Nat}
    (hcollect : Collects collect table horizon fun item v => decide (key v = item))
    (h : tables.Sound) {items : List Nat} (hnodup : items.Nodup) :
    tables.Collecting table horizon (fun v => decide (key v ∈ items))
      (tables.collectEach collect items).2 (tables.collectEach collect items).1 := by
  induction items generalizing tables with
  | nil =>
    simp only [not_mem_nil, decide_false]
    exact .refl h table horizon
  | cons item items ih =>
    obtain ⟨hitem, hnodup⟩ := nodup_cons.mp hnodup
    have hfirst := hcollect tables h item
    have hall := hfirst.trans (ih hfirst.sound hnodup) fun v hv => by
      rw [decide_eq_true_eq] at hv
      exact decide_eq_false fun heq => hitem (heq ▸ hv)
    simp only [mem_cons, Bool.decide_or]
    exact hall

/-- The collect of the edge table leaves the node table's vectors. -/
theorem Collecting.collapses_nodes {edges : Nat → Bool} {gone : List Nat}
    {after : Tables Name Value} (h : tables.Collecting .edges horizon edges gone after) (v : Nat) :
    after.collapses .nodes horizon v = tables.collapses .nodes horizon v := by
  unfold Tables.collapses
  rw [h.vectors, if_neg fun h => by cases h.1]

/-- The collect of both tables: a row is of one table, and its vector is collected in that
table's turn. -/
theorem Collecting.row_trans {edges nodes : Nat → Bool} {goneEdges goneNodes : List Nat}
    {mid after : Tables Name Value} (hedges : tables.Collecting .edges horizon edges goneEdges mid)
    (hnodes : mid.Collecting .nodes horizon nodes goneNodes after) (e : Entity) :
    after.row e =
      if (match e.table with | .nodes => nodes | .edges => edges) (vectorOf e.raw) = true then
        (tables.row e).collect horizon (tables.collapses e.table horizon (vectorOf e.raw))
      else tables.row e := by
  rw [hnodes.row]
  cases htable : e.table with
  | nodes =>
    have hsame : mid.row e = tables.row e := by
      rw [hedges.row, if_neg fun h => by rw [htable] at h; cases h.1]
    simp [hsame, hedges.collapses_nodes]
  | edges =>
    rw [if_neg (by simp), hedges.row, htable]
    simp

end Tables

namespace Store

variable [DecidableEq Name] [DecidableEq Value] {s s' : Store Name Value}

/-! ### The parts of a collect -/

section

variable (s)

theorem unindexCollected_eq (horizon raw : Nat) :
    s.unindexCollected horizon raw =
      { s with indexes := (s.unindexCollected horizon raw).indexes } := by
  unfold unindexCollected
  split
  · exact s.unindex_eq raw
  · rfl

theorem unindexNodes_eq (horizon : Nat) (raws : List Nat) :
    s.unindexNodes horizon raws = { s with indexes := (s.unindexNodes horizon raws).indexes } := by
  unfold unindexNodes
  split
  · rfl
  rename_i hindexed
  clear hindexed
  induction raws generalizing s with
  | nil => rfl
  | cons raw raws ih =>
    rw [foldl_cons, unindexCollected_eq]
    exact ih _

variable {collect : Collector Name Value}

theorem collectEdges_eq (collect : Collector Name Value) (items : List Nat) :
    s.collectEdges collect items =
      ({ s with toTables := (s.collectEach collect items).1 }, (s.collectEach collect items).2) := by
  have hfold : ∀ (s : Store Name Value) (gone : List Nat),
      items.foldl (fun (acc : Store Name Value × List Nat) item =>
        ({ acc.1 with toTables := (collect acc.1.toTables item).1 },
          acc.2 ++ (collect acc.1.toTables item).2)) (s, gone) =
        ({ s with toTables := (s.collectEach collect items).1 },
          gone ++ (s.collectEach collect items).2) := by
    induction items with
    | nil =>
      intro s gone
      simp [collectEach]
    | cons item items ih =>
      intro s gone
      rw [foldl_cons, ih]
      simp [collectEach]
  have hall := hfold s []
  exact hall

/-- Whether the entry is of an edge of `gone`, in the adjacency of the node `other` names as the
edge's end. -/
def isGone (s : Store Name Value) (gone : List Nat) (end_ : Ends Name → Nat) (node : Nat)
    (adjacent : Adjacent Name) : Bool :=
  decide (adjacent.edge ∈ gone) && decide ((s.ends adjacent.edge).map end_ = some node)

/-- An edge leaves the outgoing edges of its source, and the incoming ones of its target where
they are kept. -/
theorem unlinkEdge_adjacency (edge : Nat) : s.unlinkEdge edge = { s with
      outgoing node :=
        (s.outgoing node).filter fun adjacent => !s.isGone [edge] Ends.src node adjacent
      incoming node := (s.incoming node).filter fun adjacent =>
        !(s.keepsIncoming && s.isGone [edge] Ends.dst node adjacent) } := by
  have hedge : ∀ (end_ : Ends Name → Nat) node adjacent,
      s.isGone [edge] end_ node adjacent = (decide (adjacent.edge = edge) &&
        decide ((s.ends edge).map end_ = some node)) := by
    intro end_ node adjacent
    by_cases h : adjacent.edge = edge <;> simp [isGone, h]
  simp only [hedge]
  unfold unlinkEdge
  cases hends : s.ends edge with
  | none => simp
  | some ends =>
    have hupdate : ∀ (adjacency : Nat → List (Adjacent Name)) (at_ : Nat),
        Function.update adjacency at_
          ((adjacency at_).filter fun adjacent => !decide (adjacent.edge = edge)) =
        fun node => (adjacency node).filter fun adjacent =>
          !decide (adjacent.edge = edge) || !decide (at_ = node) := by
      intro adjacency at_
      funext node
      by_cases hnode : node = at_
      · subst hnode
        simp
      · rw [Function.update_of_ne hnode]
        simp [Ne.symm hnode]
    cases hkeeps : s.keepsIncoming with
    | false | true => simp [keptEnds, unlink, hkeeps, hupdate]

theorem isGone_cons (edge : Nat) (gone : List Nat) (end_ : Ends Name → Nat) (node : Nat)
    (adjacent : Adjacent Name) :
    s.isGone (edge :: gone) end_ node adjacent =
      (s.isGone gone end_ node adjacent || s.isGone [edge] end_ node adjacent) := by
  by_cases h : adjacent.edge = edge
  · by_cases h' : edge ∈ gone <;> simp [isGone, h, h']
  · simp [isGone, h]

theorem foldl_unlinkEdge_eq (gone : List Nat) :
    gone.foldl unlinkEdge s = { s with
      outgoing node :=
        (s.outgoing node).filter fun adjacent => !s.isGone gone Ends.src node adjacent
      incoming node := (s.incoming node).filter fun adjacent =>
        !(s.keepsIncoming && s.isGone gone Ends.dst node adjacent) } := by
  induction gone generalizing s with
  | nil => simp [isGone]
  | cons edge gone ih =>
    rw [foldl_cons, ih, unlinkEdge_adjacency]
    simp only [filter_filter, s.isGone_cons edge gone, Bool.and_or_distrib_left, Bool.not_or]
    rfl

theorem foldl_unlinkNode_eq (gone : List Nat) : gone.foldl unlinkNode s =
      { s with
        outgoing node := if node ∈ gone then [] else s.outgoing node
        incoming node := if node ∈ gone then [] else s.incoming node } := by
  induction gone generalizing s with
  | nil => simp
  | cons id gone ih =>
    rw [foldl_cons, ih]
    simp only [unlinkNode, mem_cons]
    congr 1 <;>
    · funext node
      by_cases hnode : node = id <;> simp [hnode]

theorem collectNodes_eq (collect : Collector Name Value) (items : List Nat) :
    s.collectNodes collect items = { s with
        toTables := (s.collectEach collect items).1
        outgoing node :=
          if node ∈ (s.collectEach collect items).2 then [] else s.outgoing node
        incoming node :=
          if node ∈ (s.collectEach collect items).2 then [] else s.incoming node } := by
  have hfold : s.collectNodes collect items = items.foldl (fun s item =>
      (collect s.toTables item).2.foldl unlinkNode
        { s with toTables := (collect s.toTables item).1 }) s := rfl
  rw [hfold]
  clear hfold
  induction items generalizing s with
  | nil => simp [collectEach]
  | cons item items ih =>
    rw [foldl_cons, foldl_unlinkNode_eq, ih]
    simp only [collectEach, mem_append]
    congr 1 <;>
    · funext node
      by_cases hfirst : node ∈ (collect s.toTables item).2 <;> simp [hfirst]

end

/-! ### The collect -/

/-- What a collect at `horizon` does: `collapsed` says of which vectors the version info
collapsed. -/
structure Collects (s : Store Name Value) (horizon : Nat) (collapsed : Table → Nat → Bool)
    (s' : Store Name Value) : Prop where
  sound : s'.Sound
  settled : ∀ e : Entity, (e.table, vectorOf e.raw) ∈ s.listed →
    collapsed e.table (vectorOf e.raw) = true → (s.version e).SettledBy horizon
  row : ∀ e : Entity, s'.row e =
    if (e.table, vectorOf e.raw) ∈ s.listed then
      (s.row e).collect horizon (collapsed e.table (vectorOf e.raw))
    else s.row e
  stamps : ∀ c group v, (s'.stampsOf c group v).Sublist (s.stampsOf c group v)
  ends : s'.ends = s.ends
  keys : ∀ table, (s'.rows table).keys = (s.rows table).keys
  vectors : ∀ table v, (s'.rows table).versions.vectors v =
    if (table, v) ∈ s.listed then (((s.rows table).versions.vectors v).collapse horizon).1
    else (s.rows table).versions.vectors v
  counts : s'.counts = s.counts
  indexes : s'.indexes =
    if s.listed.isEmpty then s.indexes else (s.unindexNodes horizon s.listedNodes).indexes
  listed : s'.listed = s.listed.filter fun listed => s'.unsettled listed.1 listed.2
  keepsIncoming : s'.keepsIncoming = s.keepsIncoming
  history : s'.history = s.history
  nextNodeId : s'.nextNodeId = s.nextNodeId
  nextEdgeId : s'.nextEdgeId = s.nextEdgeId
  epoch : s'.epoch = s.epoch
  floor : s'.floor = max s.floor (if s.listed.isEmpty then 0 else horizon)

theorem mem_listedVectors {table : Table} {vector : Nat} :
    vector ∈ s.listedVectors table ↔ (table, vector) ∈ s.listed := by
  simp only [listedVectors, mem_map, mem_filter, decide_eq_true_eq]
  constructor
  · rintro ⟨⟨table', vector'⟩, ⟨hmem, rfl⟩, rfl⟩
    exact hmem
  · intro hmem
    exact ⟨(table, vector), ⟨hmem, rfl⟩, rfl⟩

theorem nodup_listedVectors (h : s.listed.Nodup) (table : Table) :
    (s.listedVectors table).Nodup := by
  refine Nodup.map_on (fun x hx y hy hsnd => ?_) (h.filter _)
  have hx := (mem_filter.mp hx).2
  have hy := (mem_filter.mp hy).2
  simp only [decide_eq_true_eq] at hx hy
  exact Prod.ext (hx.trans hy.symm) hsnd

/-- Whether a collect of the vectors `visits` names takes the row out: its vector collapses, and
the row is deleted. -/
def takesOut (s : Store Name Value) (horizon : Nat) (visits : Table → Nat → Bool) (e : Entity) :
    Bool :=
  visits e.table (vectorOf e.raw) && s.collapses e.table horizon (vectorOf e.raw) &&
    (s.version e).deleted.isSome

/-- What a collect that takes out the rows of `gone` leaves of one direction of a node's
adjacency, if it is kept: nothing for a node that is gone, and no edge that is. -/
def adjacencyWithout (s : Store Name Value) (gone : Entity → Bool) (kept : Bool)
    (end_ : Ends Name → Nat) (adjacency : Nat → List (Adjacent Name)) (node : Nat) :
    List (Adjacent Name) :=
  if gone (.node node) then []
  else (adjacency node).filter fun adjacent =>
    !(kept && (gone (.edge adjacent.edge) && decide ((s.ends adjacent.edge).map end_ = some node)))

/-- What the phases of a collect leave that visits the vectors `visits` names and takes index
entries of nodes `raws` out. -/
structure CollectedBy (s : Store Name Value) (horizon : Nat) (visits : Table → Nat → Bool)
    (raws : List Nat) (s' : Store Name Value) : Prop where
  sound : s'.Sound
  ends : s'.ends = s.ends
  keys : ∀ table, (s'.rows table).keys = (s.rows table).keys
  vectors : ∀ table v, (s'.rows table).versions.vectors v =
    if visits table v = true then (((s.rows table).versions.vectors v).collapse horizon).1
    else (s.rows table).versions.vectors v
  row : ∀ e : Entity, s'.row e =
    if visits e.table (vectorOf e.raw) = true then
      (s.row e).collect horizon (s.collapses e.table horizon (vectorOf e.raw))
    else s.row e
  stamps : ∀ c group v, (s'.stampsOf c group v).Sublist (s.stampsOf c group v)
  frame : s' = { s with
    toTables := s'.toTables
    outgoing := s.adjacencyWithout (s.takesOut horizon visits) true Ends.src s.outgoing
    incoming := s.adjacencyWithout (s.takesOut horizon visits) s.keepsIncoming Ends.dst s.incoming
    indexes := (s.unindexNodes horizon raws).indexes }

/-- **The phases of a collect**: the edge table's vectors, then the node table's. -/
theorem collectTables_spec {horizon : Nat} {collect : Table → Collector Name Value}
    (visits : Table → Nat → Bool) (raws : List Nat) {edges nodes : List Nat}
    {t : Tables Name Value} (ht : (s.collectEach (collect .edges) edges).1 = t)
    (hedges : s.Collecting .edges horizon (visits .edges) (s.collectEach (collect .edges) edges).2 t)
    (hnodes : t.Collecting .nodes horizon (visits .nodes) (t.collectEach (collect .nodes) nodes).2
      (t.collectEach (collect .nodes) nodes).1) :
    s.CollectedBy horizon visits raws (s.collectTables horizon collect raws edges nodes) := by
  have hgoneEdge : ∀ edge, decide (edge ∈ (s.collectEach (collect .edges) edges).2) =
      s.takesOut horizon visits (.edge edge) := fun edge => by
    rw [Bool.eq_iff_iff, decide_eq_true_eq, hedges.gone]
    simp only [takesOut, Bool.and_eq_true, and_assoc]
    rfl
  have hgoneNode : ∀ node, node ∈ (t.collectEach (collect .nodes) nodes).2 ↔
      s.takesOut horizon visits (.node node) = true := fun node => by
    rw [hnodes.gone, hedges.collapses_nodes]
    have hversion : t.version (.node node) = s.version (.node node) := by
      rw [← version_row, hedges.row, if_neg fun h => (by cases h.1), version_row]
    simp only [takesOut, Bool.and_eq_true, and_assoc]
    exact and_congr_right fun _ => and_congr_right fun _ => by
      rw [show entityOf .nodes node = .node node from rfl, hversion]
  unfold collectTables
  rw [unindexNodes_eq]
  simp only [collectEdges_eq, foldl_unlinkEdge_eq, collectNodes_eq, isGone, ht, hedges.ends,
    hgoneNode, hgoneEdge]
  exact
    { sound := hnodes.sound
      ends := hnodes.ends.trans hedges.ends
      keys table := (hnodes.keys table).trans (hedges.keys table)
      vectors table v := by
        refine (hnodes.vectors table v).trans ?_
        rw [hedges.vectors]
        cases table <;> simp
      row e := by
        refine (hedges.row_trans hnodes e).trans ?_
        cases e.table <;> rfl
      stamps c group v := (hnodes.stamps c group v).trans (hedges.stamps c group v)
      frame := rfl }

/-- The collect of the listed vectors, before the list is brought up to date. -/
theorem collectedBy_listed (hs : s.Sound) (hnodup : s.listed.Nodup) (horizon : Nat) :
    s.CollectedBy horizon (fun table v => decide ((table, v) ∈ s.listed)) s.listedNodes
      (s.collectTables horizon (fun table tables v => tables.collectVector table v horizon)
        s.listedNodes (s.listedVectors .edges) (s.listedVectors .nodes)) := by
  have heach (table : Table) {tables : Tables Name Value} (h : tables.Sound) :=
    Collects.each (fun tables h v => collectVector_collecting h table v horizon) h
      (nodup_listedVectors hnodup table)
  have hedges := heach .edges hs
  have hnodes := heach .nodes hedges.sound
  simp only [mem_listedVectors] at hedges hnodes
  exact collectTables_spec _ s.listedNodes rfl hedges hnodes

/-- **A collect**, vector by vector. -/
theorem collect_spec (hs : s.Sound) (hnodup : s.listed.Nodup) (horizon : Nat) :
    ∃ collapsed, s.Collects horizon collapsed (s.collect horizon) := by
  unfold collect
  cases hempty : s.listed.isEmpty with
  | true =>
    have hnil : s.listed = [] := by simpa using hempty
    exact ⟨fun _ _ => false,
      { sound := hs
        settled := by simp [hnil]
        row := by simp [hnil]
        stamps _ _ _ := .refl _
        ends := rfl
        keys _ := rfl
        vectors := by simp [hnil]
        counts := rfl
        indexes := by simp [hempty]
        listed := by simp [hnil]
        keepsIncoming := rfl
        history := rfl
        nextNodeId := rfl
        nextEdgeId := rfl
        epoch := rfl
        floor := by simp [hempty] }⟩
  | false =>
    have h := collectedBy_listed hs hnodup horizon
    simp only [Bool.false_eq_true, if_false, collectListed]
    exact ⟨fun table => s.collapses table horizon,
      { sound := h.sound
        settled _ _ hcollapsed := settledBy_of_collapses hcollapsed
        row e := (h.row e).trans (by simp only [decide_eq_true_eq])
        stamps := h.stamps
        ends := h.ends
        keys := h.keys
        vectors table v := (h.vectors table v).trans (by simp only [decide_eq_true_eq])
        counts := by rw [h.frame]
        indexes := by
          rw [h.frame, hempty]
          rfl
        listed := by rw [h.frame]
        keepsIncoming := by rw [h.frame]
        history := by rw [h.frame]
        nextNodeId := by rw [h.frame]
        nextEdgeId := by rw [h.frame]
        epoch := by rw [h.frame]
        floor := by
          rw [h.frame]
          simp [hempty] }⟩

end Store

namespace Tables

/-- Whether a vector of a table holds version stamps. -/
def stamped (tables : Tables Name Value) (table : Table) (vector : Nat) : Bool :=
  ((tables.rows table).versions.vectors vector).isStamped

/-- From `before` to `after`, vectors of `new` alone got stamps, and every key kept its column. -/
structure StampsAt (before after : Tables Name Value) (new : Table → Nat → Prop) : Prop where
  stamped : ∀ table vector, after.stamped table vector = true →
    before.stamped table vector = true ∨ new table vector
  keys : ∀ table, (before.rows table).keys ⊆ (after.rows table).keys

/-- No vector got stamps. -/
abbrev Unstamped (before after : Tables Name Value) : Prop :=
  before.StampsAt after fun _ _ => False

namespace StampsAt

variable {first second third before after : Tables Name Value} {new : Table → Nat → Prop}

theorem refl (tables : Tables Name Value) (new : Table → Nat → Prop) : tables.StampsAt tables new :=
  ⟨fun _ _ => .inl, fun _ => Subset.refl _⟩

theorem trans (h : first.StampsAt second new) (h' : second.StampsAt third new) :
    first.StampsAt third new where
  stamped table vector hstamped := by
    rcases h'.stamped table vector hstamped with hsecond | hnew
    · exact h.stamped table vector hsecond
    · exact .inr hnew
  keys table := Subset.trans (h.keys table) (h'.keys table)

theorem mono {more : Table → Nat → Prop} (h : before.StampsAt after new)
    (hmore : ∀ table vector, new table vector → more table vector) : before.StampsAt after more :=
  ⟨fun table vector hstamped => (h.stamped table vector hstamped).imp_right (hmore table vector),
    h.keys⟩

end StampsAt

/-- The vector of `entity`. -/
def vectorAt (entity : Entity) (table : Table) (vector : Nat) : Prop :=
  table = entity.table ∧ vector = vectorOf entity.raw

variable {tables : Tables Name Value} {entity : Entity}

/-- Other rows of one table. -/
theorem setRows_stampsAt {table : Table} {rows : Rows Name Value} {new : Table → Nat → Prop}
    (hstamped : ∀ vector, (rows.versions.vectors vector).isStamped = true →
      tables.stamped table vector = true ∨ new table vector)
    (hkeys : (tables.rows table).keys ⊆ rows.keys) :
    tables.StampsAt (tables.setRows table rows) new where
  stamped t vector h := by
    by_cases ht : t = table
    · subst ht
      rw [stamped, rows_setRows] at h
      exact hstamped vector h
    · rw [stamped, rows_setRows_of_ne ht] at h
      exact .inl h
  keys t := by
    by_cases ht : t = table
    · subst ht
      rwa [rows_setRows]
    · rw [rows_setRows_of_ne ht]
      exact Subset.refl _

/-- Versions that stamp no vector but the one of a row. -/
theorem isStamped_put {versions : Versions} {raw vector : Nat} {v : VersionVector}
    (h : ((versions.put raw v).vectors vector).isStamped = true) :
    vector = vectorOf raw ∧ v.isStamped = true ∨ (versions.vectors vector).isStamped = true := by
  by_cases hv : vector = vectorOf raw
  · subst hv
    refine .inl ⟨rfl, ?_⟩
    simpa [Versions.put] using h
  · refine .inr ?_
    simpa [Versions.put, hv] using h

theorem isStamped_of_not_flat {v : VersionVector} (h : ∀ present, v ≠ .flat present) :
    v.isStamped = true := by
  cases v with
  | stamped stamps => rfl
  | flat present => exact absurd rfl (h present)

/-- A row with a delete is in a stamped vector. -/
theorem stamped_of_deleted {stamp : Stamp} (h : (tables.version entity).deleted = some stamp) :
    tables.stamped entity.table (vectorOf entity.raw) = true := by
  refine isStamped_of_not_flat fun present hv => ?_
  rw [version, Versions.get, hv, VersionVector.get] at h
  split at h <;> cases h

/-! ### Each operation on the tables -/

theorem setDeleted_stampsAt (tables : Tables Name Value) (entity : Entity) (stamp : Option Stamp) :
    tables.StampsAt (tables.setDeleted entity stamp) (vectorAt entity) := by
  refine setRows_stampsAt (fun vector hstamped => ?_) (Subset.refl _)
  rcases isStamped_put hstamped with ⟨hvector, -⟩ | hold
  · exact .inr ⟨rfl, hvector⟩
  · exact .inl hold

/-- A delete written over, or taken back, is in a stamped vector already. -/
theorem setDeleted_unstamped {stamp : Stamp}
    (hdeleted : (tables.version entity).deleted = some stamp) (new : Option Stamp) :
    tables.Unstamped (tables.setDeleted entity new) := by
  refine ⟨fun table vector hstamped => ?_, (setDeleted_stampsAt tables entity new).keys⟩
  rcases (setDeleted_stampsAt tables entity new).stamped table vector hstamped with hold | ⟨rfl, rfl⟩
  · exact .inl hold
  · exact .inl (stamped_of_deleted hdeleted)

theorem commitCreated_unstamped (tables : Tables Name Value) (table : Table) (start stop : Nat)
    (pending : Stamp) (epoch : Nat) :
    tables.Unstamped (tables.commitCreated table start stop pending epoch).1 := by
  refine setRows_stampsAt (fun vector hstamped => .inl ?_) (Subset.refl _)
  simp only [Rows.setVersions] at hstamped
  split at hstamped
  · refine isStamped_of_not_flat fun present hv => ?_
    rw [hv] at hstamped
    cases hstamped
  · exact hstamped

theorem clear_unstamped (entity : Entity) : tables.Unstamped (tables.clear entity) := by
  cases entity <;>
    exact ⟨fun table _ h => .inl (by cases table <;> exact h), fun table => by
      cases table <;> exact Subset.refl _⟩

theorem remove_unstamped (entity : Entity) : tables.Unstamped (tables.remove entity) := by
  have hversions : tables.Unstamped (tables.setRows entity.table
      ((tables.rows entity.table).setVersions
        ((tables.rows entity.table).versions.remove entity.raw))) := by
    refine setRows_stampsAt (fun vector hstamped => .inl ?_) (by exact Subset.refl _)
    rcases isStamped_put hstamped with ⟨rfl, hnew⟩ | hold
    · refine isStamped_of_not_flat fun present hv => ?_
      rw [hv] at hnew
      cases hnew
    · exact hold
  exact hversions.trans (clear_unstamped entity)

variable [DecidableEq Name]

/-- Another column of a key. -/
theorem setColumn_unstamped (table : Table) (key : Name) (column : Cells (Option Value)) :
    tables.Unstamped (tables.setRows table ((tables.rows table).setColumn key column)) :=
  setRows_stampsAt (fun _ => .inl) fun _ hmem => mem_insert_of_mem hmem

/-- Another column of labels. -/
theorem setLabelColumn_unstamped (labels : Cells (Finset Name)) :
    tables.Unstamped { tables with labels } :=
  ⟨fun table _ h => .inl (by cases table <;> exact h), fun table => by
    cases table <;> exact Subset.refl _⟩

theorem setValues_versions (rows : Rows Name Value) (raw : Nat)
    (properties : Properties Name Value) :
    (rows.setValues raw properties).versions = rows.versions ∧
      rows.keys ⊆ (rows.setValues raw properties).keys := by
  induction properties generalizing rows with
  | nil => exact ⟨rfl, Subset.refl _⟩
  | cons property properties ih =>
    obtain ⟨key, value⟩ := property
    cases value with
    | none => exact ih rows
    | some value =>
      have hnext := ih (rows.setColumn key ((rows.columns key).set raw (some value)))
      exact ⟨hnext.1, fun k hk => hnext.2 (mem_insert_of_mem hk)⟩

theorem insert_stamped (rows : Rows Name Value) (raw : Nat) (stamp : Stamp)
    (properties : Properties Name Value) :
    (∀ vector, (((rows.insert raw stamp properties).versions).vectors vector).isStamped = true →
      (rows.versions.vectors vector).isStamped = true ∨ vector = vectorOf raw) ∧
      rows.keys ⊆ (rows.insert raw stamp properties).keys := by
  obtain ⟨hversions, hkeys⟩ :=
    setValues_versions (rows.setVersions (rows.versions.setCreated raw stamp)) raw properties
  refine ⟨fun vector hstamped => ?_, hkeys⟩
  rw [Rows.insert, hversions] at hstamped
  rcases isStamped_put hstamped with ⟨rfl, -⟩ | hold
  · exact .inr rfl
  · exact .inl hold

theorem insertNode_stampsAt (id : Nat) (stamp : Stamp) (labels : Finset Name)
    (properties : Properties Name Value) :
    tables.StampsAt (tables.insertNode id stamp labels properties) (vectorAt (.node id)) := by
  obtain ⟨hstamped, hkeys⟩ := insert_stamped tables.nodes id stamp properties
  refine ⟨fun table vector h => ?_, fun table => ?_⟩
  · cases table with
    | nodes => exact (hstamped vector h).imp_right fun hv => ⟨rfl, hv⟩
    | edges => exact .inl h
  · cases table with
    | nodes => exact hkeys
    | edges => exact Subset.refl _

theorem insertEdge_stampsAt (id : Nat) (stamp : Stamp) (ends : Ends Name)
    (properties : Properties Name Value) :
    tables.StampsAt (tables.insertEdge id stamp ends properties) (vectorAt (.edge id)) := by
  obtain ⟨hstamped, hkeys⟩ := insert_stamped tables.edges id stamp properties
  refine ⟨fun table vector h => ?_, fun table => ?_⟩
  · cases table with
    | nodes => exact .inl h
    | edges => exact (hstamped vector h).imp_right fun hv => ⟨rfl, hv⟩
  · cases table with
    | nodes => exact Subset.refl _
    | edges => exact hkeys

end Tables

/-! ### The calls of the store -/

namespace Store

variable [DecidableEq Name] [DecidableEq Value] {s s' : Store Name Value} {mode : Mode}
  {applied : Applied Name Value} {entity : Entity} {key : Name} {id : Nat} {pending : Stamp}

theorem writeValue_unstamped {value : Option Value} {isSet : Bool}
    (h : s.writeValue entity key value isSet mode = .ok (s', applied)) :
    s.Unstamped s'.toTables ∧ (s' = s ∨ key ∈ (s'.rows entity.table).keys) := by
  rcases writeValue_cases h with ⟨rfl, -⟩ | ⟨-, -, -, rfl⟩
  · exact ⟨.refl .., .inl rfl⟩
  · rw [indexWritten_eq]
    refine ⟨setColumn_unstamped entity.table key _, .inr ?_⟩
    simp [setValue, Rows.setColumn]

theorem writeLabel_unstamped {label : Name} {add : Bool}
    (h : s.writeLabel id label add mode = .ok (s', applied)) : s.Unstamped s'.toTables := by
  rcases writeLabel_cases h with ⟨rfl, -⟩ | ⟨-, -, -, rfl⟩
  · exact .refl ..
  · rw [indexLabels_eq]
    exact setLabelColumn_unstamped _

/-- **A create and a delete stamp the vector of their row**, and no other op stamps any. A value
write has a column for its key after. -/
theorem applyOp_stampsAt {op : DataOp Name Value} (h : s.applyOp op mode = .ok (s', applied)) :
    s.StampsAt s'.toTables (fun table vector =>
        (op.isCreate = true ∨ op.isDelete = true) ∧ Tables.vectorAt op.entity table vector) ∧
      ∀ key value, op.rowOp = .value key value → s' = s ∨ key ∈ (s'.rows op.entity.table).keys := by
  have hvalue : ∀ {entity key value isSet},
      s.writeValue entity key value isSet mode = .ok (s', applied) →
      ∀ new, s.StampsAt s'.toTables new ∧ ∀ k v, RowOp.value key value = RowOp.value k v →
        s' = s ∨ k ∈ (s'.rows entity.table).keys := by
    intro entity key value isSet h new
    refine ⟨(writeValue_unstamped h).1.mono fun _ _ => False.elim, fun k v heq => ?_⟩
    cases heq
    exact (writeValue_unstamped h).2
  have hlabel : ∀ {id label add}, s.writeLabel id label add mode = .ok (s', applied) →
      ∀ new, s.StampsAt s'.toTables new :=
    fun h new => (writeLabel_unstamped h).mono fun _ _ => False.elim
  cases op with
  | createNode id labels properties =>
    obtain ⟨-, -, rfl⟩ := createNode_cases h
    rw [indexCreated_eq]
    exact ⟨(insertNode_stampsAt id mode.stamp labels.toFinset properties).mono
      fun _ _ hat => ⟨.inl rfl, hat⟩, nofun⟩
  | createEdge id src dst edgeType properties =>
    obtain ⟨-, -, -, -, rfl⟩ := createEdge_cases h
    rw [linkEdge_eq]
    exact ⟨(insertEdge_stampsAt id mode.stamp _ properties).mono
      fun _ _ hat => ⟨.inl rfl, hat⟩, nofun⟩
  | deleteNode id =>
    refine ⟨?_, nofun⟩
    rcases deleteNode_cases h with ⟨rfl, -⟩ | ⟨-, -, -, -, rfl⟩
    · exact .refl ..
    · have hdeleted := s.setDeleted_stampsAt (.node id) (some mode.stamp)
      exact hdeleted.mono fun _ _ hat => ⟨.inr rfl, hat⟩
  | deleteEdge id =>
    refine ⟨?_, nofun⟩
    rcases deleteEdge_cases h with ⟨rfl, -⟩ | ⟨ends, -, -, -, -, rfl⟩
    · exact .refl ..
    · have hdeleted := s.setDeleted_stampsAt (.edge id) (some mode.stamp)
      exact hdeleted.mono fun _ _ hat => ⟨.inr rfl, hat⟩
  | setNodeProperty | removeNodeProperty | setEdgeProperty | removeEdgeProperty => exact hvalue h _
  | addNodeLabel | removeNodeLabel => exact ⟨hlabel h _, nofun⟩

/-! ### Commits -/

theorem countEdge_tables (s : Store Name Value) (edge : Nat) (delta : Int) :
    (s.countEdge edge delta).toTables = s.toTables := by
  unfold countEdge
  split <;> rfl

theorem stampValueOf_unstamped (epoch : Nat) :
    s.Unstamped (s.stampValueOf entity key pending epoch).1.toTables := by
  unfold stampValueOf
  split
  · exact setColumn_unstamped entity.table key _
  · exact .refl ..

theorem stampLabelOf_unstamped {label : Name} {delta : Int} (epoch : Nat) :
    s.Unstamped (s.stampLabelOf id label delta pending epoch).1.toTables := by
  simp only [stampLabelOf]
  split
  · split <;> exact setLabelColumn_unstamped _
  · exact .refl ..

theorem stampOp_unstamped (op : DataOp Name Value) (before : Before Name Value) (epoch : Nat) :
    s.Unstamped (s.stampOp op before pending epoch).1.toTables := by
  cases op with
  | createNode id labels properties =>
    simp only [stampOp]
    split
    · exact .refl ..
    · exact s.commitCreated_unstamped .nodes id (id + 1) pending epoch
  | createEdge id src dst edgeType properties =>
    simp only [stampOp]
    split
    · exact .refl ..
    · rw [countEdge_tables]
      exact s.commitCreated_unstamped .edges id (id + 1) pending epoch
  | deleteNode id =>
    simp only [stampOp]
    split
    · split
      next hdeleted => exact setDeleted_unstamped hdeleted _
      · exact .refl ..
    · exact .refl ..
  | deleteEdge id =>
    simp only [stampOp]
    split
    next hdeleted =>
      rw [countEdge_tables]
      exact setDeleted_unstamped hdeleted _
    · exact .refl ..
  | setNodeProperty | removeNodeProperty | setEdgeProperty | removeEdgeProperty =>
    exact stampValueOf_unstamped epoch
  | addNodeLabel | removeNodeLabel => exact stampLabelOf_unstamped epoch

theorem stampBulk_unstamped (range : BulkRange) (epoch : Nat) :
    s.Unstamped (s.stampBulk range pending epoch).toTables := by
  have hfold : ∀ (count : Store Name Value → Nat → Store Name Value) (created : List Nat)
      (s : Store Name Value), (∀ s id, (count s id).toTables = s.toTables) →
      (created.foldl count s).toTables = s.toTables := by
    intro count created s hcount
    induction created generalizing s with
    | nil => rfl
    | cons id created ih => exact (ih _).trans (hcount s id)
  have hcreated := s.commitCreated_unstamped range.table range.start range.stop pending epoch
  simp only [stampBulk]
  split
  · rw [hfold (fun s id => s.countNode (s.labels.values id) 1) _ _ fun _ _ => rfl]
    exact hcreated
  · rw [hfold (fun s id => s.countEdge id 1) _ _ fun s id => countEdge_tables s id 1]
    exact hcreated

/-- **A commit stamps no vector that was not stamped.** -/
theorem stampAll_unstamped (log : List (Change Name Value)) (epoch : Nat) :
    s.Unstamped (s.stampAll pending epoch log).1.toTables := by
  induction log generalizing s with
  | nil => exact .refl ..
  | cons change log ih =>
    have hchange : s.Unstamped (s.stampChange change pending epoch).1.toTables := by
      cases change with
      | data op before version => exact stampOp_unstamped op before epoch
      | bulk range before => exact stampBulk_unstamped range epoch
    simp only [stampAll]
    split
    next next heq =>
      rw [heq] at hchange
      exact hchange.trans ih
    next next error heq =>
      rw [heq] at hchange
      exact hchange

/-! ### Rollbacks -/

theorem removeRow_unstamped (entity : Entity) : s.Unstamped (s.removeRow entity).toTables := by
  rw [removeRow_eq]
  exact remove_unstamped entity

theorem undoOp_unstamped {op : DataOp Name Value} {before : Before Name Value}
    {version : PendingVersion} (h : s.undoOp op before version pending = .ok s') :
    s.Unstamped s'.toTables := by
  rcases undoOp_cases h with ⟨-, -, rfl⟩ | ⟨-, hdeleted, rfl⟩ | ⟨key, value, column, -, -, rfl⟩ |
    ⟨id, label, add, labels, -, -, -, rfl⟩
  · exact removeRow_unstamped op.entity
  · exact setDeleted_unstamped hdeleted none
  · rw [indexWritten_eq]
    exact setColumn_unstamped op.entity.table key column
  · rw [indexLabels_eq]
    exact setLabelColumn_unstamped labels

theorem undoBulk_unstamped (range : BulkRange) : s.Unstamped (s.undoBulk range pending).toTables := by
  unfold undoBulk
  generalize (range' range.start (range.stop - range.start)).reverse = raws
  induction raws generalizing s with
  | nil => exact .refl ..
  | cons raw raws ih =>
    refine StampsAt.trans ?_ ih
    dsimp only
    split
    · exact removeRow_unstamped _
    · exact .refl ..

/-- **A rollback stamps no vector that was not stamped.** -/
theorem undoAll_unstamped (log : List (Change Name Value)) :
    s.Unstamped (s.undoAll pending log).1.toTables := by
  induction log generalizing s with
  | nil => exact .refl ..
  | cons change log ih =>
    simp only [undoAll]
    split
    next next hchange =>
      refine StampsAt.trans ?_ ih
      cases change with
      | data op before version => exact undoOp_unstamped hchange
      | bulk range before =>
        cases hchange
        exact undoBulk_unstamped range
    · exact .refl ..

/-! ### Collects -/

/-- **A collect stamps no vector that was not stamped**: it leaves each as it is, or collapsed. -/
theorem unstamped_of_collapse {horizon : Nat} {visits : Table → Nat → Prop}
    [∀ table v, Decidable (visits table v)]
    (hvectors : ∀ table v, (s'.rows table).versions.vectors v =
      if visits table v then (((s.rows table).versions.vectors v).collapse horizon).1
      else (s.rows table).versions.vectors v)
    (hkeys : ∀ table, (s'.rows table).keys = (s.rows table).keys) : s.Unstamped s'.toTables := by
  refine ⟨fun table vector hstamped => .inl ?_, fun table => ?_⟩
  · unfold stamped at hstamped ⊢
    rw [hvectors] at hstamped
    split at hstamped
    · refine isStamped_of_not_flat fun present hvector => ?_
      rw [hvector] at hstamped
      cases hstamped
    · exact hstamped
  · rw [hkeys]
    exact Subset.refl _

end Store

end Grafeo.RowGroup
