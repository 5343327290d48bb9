import Grafeo.RowGroup.Indexed

/-!
# Grafeo.RowGroup.CollectAll

**The collect of the listed vectors is that of every vector**
(`Workload.collectListed_is_collectAll`): a vector that is not listed holds no version, so that
its turn in the collect of every vector changes nothing of it. Either leaves listed the vectors
that still hold versions, and no reader at the horizon or later reads anything else after it.
-/

namespace Grafeo.RowGroup

open List Option Bool Nat Tables

variable {Name Value : Type} {table : Table} {vector : Nat}

/-! ### The vectors listed are of row groups the store has -/

namespace Store

variable {s s' : Store Name Value}

/-- The listed vectors are of row groups with ids handed out. -/
def ListedWithin (s : Store Name Value) : Prop :=
  ∀ table vector, (table, vector) ∈ s.listed → vector / vectors ∈ s.groups table

theorem vectorOf_div (raw : Nat) : vectorOf raw / vectors = groupOf raw := by
  unfold vectorOf groupOf vectors vectorRows rowsPerGroup
  omega

theorem groups_mono (hnodes : s.nextNodeId ≤ s'.nextNodeId) (hedges : s.nextEdgeId ≤ s'.nextEdgeId)
    (table : Table) : s.groups table ⊆ s'.groups table := by
  intro group hgroup
  have hnode := Nat.div_le_div_right (c := rowsPerGroup) hnodes
  have hedge := Nat.div_le_div_right (c := rowsPerGroup) hedges
  cases table <;>
  · simp only [groups, groupOf, mem_range] at hgroup ⊢
    omega

theorem mem_groups_of_below {e : Entity} (h : e.below s.nextNodeId s.nextEdgeId) :
    groupOf e.raw ∈ s.groups e.table := by
  cases e <;> exact mem_range.mpr (lt_succ_of_le (Nat.div_le_div_right (h.le)))

/-- A vector is listed only in a row group with a row, or with a listed vector. -/
theorem ListedWithin.idles (h : s.ListedWithin) (hidles : s.Idles s')
    (hhanded : ∀ e, s'.has e = true → e.below s'.nextNodeId s'.nextEdgeId) : s'.ListedWithin := by
  have hold : ∀ table vector, (table, vector) ∈ s.listed → vector / vectors ∈ s'.groups table :=
    fun table vector hmem =>
      groups_mono hidles.nextNodeId hidles.nextEdgeId table (h table vector hmem)
  have hhas : ∀ table raw, (s.rows table).versions.has raw = true →
      groupOf raw ∈ s'.groups table := fun table raw hraw => by
    have hbelow := hhanded (entityOf table raw) (by
      rw [hidles.toTables, has, table_entityOf, raw_entityOf]
      exact hraw)
    have hmem := mem_groups_of_below hbelow
    rwa [table_entityOf, raw_entityOf] at hmem
  rcases hidles.listed with hlisted | ⟨table, raw, hlisted⟩
  · intro table vector hmem
    rw [hlisted] at hmem
    exact hold table vector hmem
  intro table' vector hmem
  rw [hlisted, list] at hmem
  split at hmem
  · exact hold table' vector hmem
  rename_i hnot
  rcases mem_append.mp hmem with hmem | hmem
  · exact hold table' vector hmem
  cases mem_singleton.mp hmem
  rw [vectorOf_div]
  have hgroup : s.hasGroup table raw = true := by simpa using (not_or.mp hnot).2
  simp only [hasGroup, or_eq_true, List.any_eq_true, and_eq_true, decide_eq_true_eq] at hgroup
  rcases hgroup with (hraw | ⟨⟨table', vector⟩, hin, rfl, hsame⟩) | ⟨other, hother, hraw⟩
  · exact hhas table raw hraw
  · exact hsame ▸ hold _ _ hin
  · have hsame : groupOf other = groupOf raw := by
      rw [mem_range'_1] at hother
      unfold groupOf rowsPerGroup at *
      omega
    exact hsame ▸ hhas table other hraw

theorem ListedWithin.of_subset (h : s.ListedWithin) (hlisted : s'.listed ⊆ s.listed)
    (hnodes : s'.nextNodeId = s.nextNodeId) (hedges : s'.nextEdgeId = s.nextEdgeId) :
    s'.ListedWithin := fun table vector hmem =>
  groups_mono (hnodes.symm.le) (hedges.symm.le) table
    (h table vector (hlisted hmem))

end Store

namespace Workload

variable [DecidableEq Name] [DecidableEq Value] {w w' : Workload Name Value}
  {action : Action Name Value}

theorem Moves.listedWithin (hmoves : w.Moves action w') (h : w.Ok)
    (hwithin : w.store.ListedWithin) : w'.store.ListedWithin := by
  have hhanded := (hmoves.ok h).handed
  cases hmoves with
  | opened => exact hwithin
  | idled idles | bulked mem idles => exact hwithin.idles idles hhanded
  | wrote mem transaction applied written settles
  | stamped mode_eq published later unowned applied written settles =>
    exact (hwithin.of_subset (written.frame.listed ▸ Subset.refl _) written.frame.nextNodeId
      written.frame.nextEdgeId).idles settles.idles hhanded
  | committed mem published later commit commits =>
    exact hwithin.of_subset (commits.listed ▸ Subset.refl _) commits.nextNodeId
      commits.nextEdgeId
  | rolledBack mem undo undoes | rolledBackTo mem undo undoes =>
    exact hwithin.of_subset (undoes.frame.listed ▸ Subset.refl _) undoes.frame.nextNodeId
      undoes.frame.nextEdgeId
  | published => exact hwithin
  | collected published snapshots collects =>
    exact hwithin.of_subset (collects.listed ▸ filter_subset_self _) collects.nextNodeId
      collects.nextEdgeId
  | indexed created how =>
    subst created
    exact hwithin

theorem Reachable.listedWithin (h : w.Reachable) : w.store.ListedWithin :=
  h.invariant (fun w => w.store.ListedWithin)
    (fun keepsIncoming history table vector hmem => by cases hmem)
    fun _ _ _ hok hmoves hwithin => hmoves.listedWithin hok hwithin

end Workload

/-! ### A collect of more than the listed vectors -/

theorem Cell.collect_of_kept_nil {T : Type} {cell : Cell T} (h : cell.kept = [])
    (horizon : Nat) : cell.collect horizon = cell := by
  obtain ⟨value, kept⟩ := cell
  cases h
  rfl

/-- A collect of a row with one version leaves it. -/
theorem Row.collect_of_settled {row : Row Name Value} (hlabels : row.labels.kept = [])
    (hvalues : ∀ key, (row.values key).kept = []) (horizon : Nat) :
    row.collect horizon false = row := by
  have hcells : (fun key => (row.values key).collect horizon) = row.values :=
    funext fun key => Cell.collect_of_kept_nil (hvalues key) horizon
  rw [Row.collect, if_neg (by simp), hcells, Cell.collect_of_kept_nil hlabels]
  rfl

namespace Store

variable {s s' : Store Name Value} {horizon : Nat} {visits : Table → Nat → Bool} {raws : List Nat}

/-- A vector that is not listed has no stamps. -/
theorem Listed.isStamped_eq_false (h : s.Listed) (hnot : (table, vector) ∉ s.listed) :
    ((s.rows table).versions.vectors vector).isStamped = false := by
  by_contra hstamped
  exact hnot (h.stamped table vector ((not_eq_false _).mp hstamped))

theorem collapse_of_flat {v : VersionVector} (h : v.isStamped = false) (horizon : Nat) :
    v.collapse horizon = (v, []) ∧ v.collapses horizon = false := by
  cases v with
  | flat present => exact ⟨rfl, rfl⟩
  | stamped stamps => cases h

variable [DecidableEq Name] [DecidableEq Value]

namespace CollectedBy

section

variable (hlisted : s.Listed)
  (hvisits : ∀ table vector, (table, vector) ∈ s.listed → visits table vector = true)
include hlisted hvisits

/-- **A collect of more vectors than the listed ones** leaves what a collect of every vector
does. -/
theorem row_eq (h : s.CollectedBy horizon visits raws s') (e : Entity) :
    s'.row e = (s.row e).collect horizon (s.collapses e.table horizon (vectorOf e.raw)) := by
  rw [h.row]
  split
  · rfl
  rename_i hnot
  have hnot : (e.table, vectorOf e.raw) ∉ s.listed := fun hmem => hnot (hvisits _ _ hmem)
  obtain ⟨-, hlabels, hvalues⟩ := hlisted.settled hnot
  have hcollapses : s.collapses e.table horizon (vectorOf e.raw) = false :=
    (collapse_of_flat (hlisted.isStamped_eq_false hnot) horizon).2
  rw [hcollapses, Row.collect_of_settled hlabels hvalues]

theorem vectors_eq (h : s.CollectedBy horizon visits raws s') (table : Table) (vector : Nat) :
    (s'.rows table).versions.vectors vector =
      (((s.rows table).versions.vectors vector).collapse horizon).1 := by
  rw [h.vectors]
  split
  · rfl
  next hnot =>
    rw [(collapse_of_flat (hlisted.isStamped_eq_false fun hmem => hnot (hvisits _ _ hmem))
      horizon).1]

/-- The rows it takes out are all those deleted in a vector that collapses. -/
theorem takesOut_eq : s.takesOut horizon visits = s.takesOut horizon fun _ _ => true := by
  funext e
  unfold takesOut
  by_cases hv : visits e.table (vectorOf e.raw) = true
  · rw [hv]
  · have hcollapses : s.collapses e.table horizon (vectorOf e.raw) = false :=
      (collapse_of_flat (hlisted.isStamped_eq_false fun hmem => hv (hvisits _ _ hmem)) horizon).2
    simp [hcollapses]

end

/-- The entries it takes out are all those of what it drops. -/
theorem unindexNodes_eq (hlisted : s.Listed)
    (hraws : ∀ raw, (Table.nodes, vectorOf raw) ∈ s.listed → raw ∈ raws) :
    (s.unindexNodes horizon raws).indexes = (s.mapIndexes
        (fun key index => index.filter fun entry => !s.drops horizon none key entry.2 entry.1)
        fun label key index => index.filter fun entry =>
          !s.drops horizon (some label) key entry.2 entry.1).indexes := by
  have hindex : ∀ label key (index : PropertyIndex Value),
      s.collectedIndex horizon raws label key index =
        index.filter fun entry => !s.drops horizon label key entry.2 entry.1 := by
    intro label key index
    refine filter_congr fun entry _ => ?_
    by_cases hraw : entry.2 ∈ raws
    · simp [hraw]
    · rw [hlisted.drops_eq_false fun hmem => hraw (hraws _ hmem)]
      simp
  rw [unindexNodes_eq_filter]
  simp [mapIndexes, hindex]

/-- A vector it leaves with versions was listed. -/
theorem listed (h : s.CollectedBy horizon visits raws s') (hlisted : s.Listed) : s'.Listed := by
  refine hlisted.of_unstamped (unstamped_of_collapse h.vectors h.keys) ?_ (fun e => ?_)
    fun e key => ?_
  · rw [h.frame]
    exact Subset.refl _
  · rw [h.row]
    split
    · exact (Row.kept_of_collect ..).1
    · exact fun h => h
  · rw [h.row]
    split
    · exact (Row.kept_of_collect ..).2 key
    · exact fun h => h

end CollectedBy

/-! ### The two collects -/

theorem nodup_groups (s : Store Name Value) (table : Table) : (s.groups table).Nodup := by
  cases table <;> exact nodup_range

/-- The collect of every row group, before the vectors are listed anew. -/
theorem collectedBy_groups (hs : s.Sound) (horizon : Nat) :
    s.CollectedBy horizon (fun table v => decide (v / vectors ∈ s.groups table))
      (rowsOf (s.groups .nodes))
      (s.collectTables horizon (fun table tables group => tables.collectGroup table group horizon)
        (rowsOf (s.groups .nodes)) (s.groups .edges) (s.groups .nodes)) := by
  have heach (table : Table) {tables : Tables Name Value} (h : tables.Sound) :=
    Collects.each (fun tables h v => collectGroup_collecting h table v horizon) h
      (s.nodup_groups table)
  have hedges := heach .edges hs
  have hnodes := heach .nodes hedges.sound
  exact collectTables_spec (fun table v => decide (v / vectors ∈ s.groups table))
    (rowsOf (s.groups .nodes)) rfl hedges hnodes

theorem mem_rowsOf {groups : List Nat} {raw : Nat} : raw ∈ rowsOf groups ↔ groupOf raw ∈ groups := by
  simp only [rowsOf, mem_flatMap, mem_range'_1]
  constructor
  · rintro ⟨group, hgroup, hraw⟩
    have : groupOf raw = group := by
      unfold groupOf rowsPerGroup at *
      omega
    rwa [this]
  · intro hgroup
    refine ⟨_, hgroup, ?_⟩
    unfold groupOf rowsPerGroup
    omega

/-- Two stores hold the same: the same rows, each with its version and what its chains keep, the
same vectors with stamps, the same adjacency and the same index entries; and the same vectors
are listed. -/
structure SameState (s s' : Store Name Value) : Prop where
  row : ∀ e, s'.row e = s.row e
  vectors : ∀ table vector,
    (s'.rows table).versions.vectors vector = (s.rows table).versions.vectors vector
  unsettled : ∀ table vector, s'.unsettled table vector = s.unsettled table vector
  ends : s'.ends = s.ends
  outgoing : s'.outgoing = s.outgoing
  incoming : s'.incoming = s.incoming
  indexes : s'.indexes = s.indexes
  counts : s'.counts = s.counts
  listed : ∀ listed, listed ∈ s'.listed ↔ listed ∈ s.listed
  nextNodeId : s'.nextNodeId = s.nextNodeId
  nextEdgeId : s'.nextEdgeId = s.nextEdgeId
  epoch : s'.epoch = s.epoch
  floor : s'.floor = s.floor

/-- A collect that visits the listed vectors leaves listed, by a filter of the list or a walk of
the row groups, those that hold versions. -/
theorem mem_collectListed (hs : s.Sound) (hlisted : s.Listed) (hnodup : s.listed.Nodup) :
    (table, vector) ∈ (s.collectListed horizon).listed ↔
      (s.collectListed horizon).unsettled table vector = true := by
  have h := collectedBy_listed hs hnodup horizon
  have hold : ∀ {table vector}, (s.collectListed horizon).unsettled table vector = true →
      (table, vector) ∈ s.listed := fun hunsettled => by
    have := (h.listed hlisted).mem_of_unsettled h.sound hunsettled
    rwa [h.frame] at this
  have hlist : (s.collectListed horizon).listed =
      s.listed.filter fun listed => (s.collectListed horizon).unsettled listed.1 listed.2 := by
    simp only [collectListed]
    rw [h.frame]
  rw [hlist, mem_filter]
  exact and_iff_right_of_imp hold

theorem mem_collectAll (hs : s.Sound) (hlisted : s.Listed) (hwithin : s.ListedWithin) :
    (table, vector) ∈ (s.collectAll horizon).listed ↔
      (s.collectAll horizon).unsettled table vector = true := by
  have h := collectedBy_groups hs horizon
  have hgroups : ∀ table, (s.collectAll horizon).groups table = s.groups table := fun table => by
    simp only [collectAll, relist]
    rw [h.frame]
    cases table <;> rfl
  have hlist : (s.collectAll horizon).listed = [Table.nodes, Table.edges].flatMap fun table =>
      (((s.collectAll horizon).groups table).flatMap fun group =>
        (range' (group * vectors) vectors).filter
          ((s.collectAll horizon).unsettled table)).map (table, ·) := rfl
  rw [hlist]
  simp only [mem_flatMap, List.mem_map, mem_filter, mem_range'_1, hgroups, Prod.mk.injEq]
  constructor
  · rintro ⟨table, -, vector, ⟨group, -, -, hunsettled⟩, rfl, rfl⟩
    exact hunsettled
  intro hunsettled
  have hmem := (h.listed hlisted).mem_of_unsettled h.sound hunsettled
  rw [h.frame] at hmem
  refine ⟨table, by cases table <;> simp, vector,
    ⟨vector / vectors, hwithin table vector hmem, ?_, hunsettled⟩, rfl, rfl⟩
  unfold vectors
  omega

/-- Two collects that both visit the listed vectors, and take the index entries of their nodes
out, leave the same. -/
theorem CollectedBy.sameState {visits' : Table → Nat → Bool} {raws' : List Nat}
    {l a : Store Name Value} (hl : s.CollectedBy horizon visits raws l)
    (ha : s.CollectedBy horizon visits' raws' a) (hlisted : s.Listed)
    (hvisits : ∀ table vector, (table, vector) ∈ s.listed →
      visits table vector = true ∧ visits' table vector = true)
    (hraws : ∀ raw, (Table.nodes, vectorOf raw) ∈ s.listed → raw ∈ raws ∧ raw ∈ raws') :
    l.SameState a := by
  have hvisitsl := fun table vector hmem => (hvisits table vector hmem).1
  have hvisitsa := fun table vector hmem => (hvisits table vector hmem).2
  have hrow : ∀ e, a.row e = l.row e := fun e =>
    (ha.row_eq hlisted hvisitsa e).trans (hl.row_eq hlisted hvisitsl e).symm
  have hvectors : ∀ table vector, (a.rows table).versions.vectors vector =
      (l.rows table).versions.vectors vector := fun table vector =>
    (ha.vectors_eq hlisted hvisitsa table vector).trans
      (hl.vectors_eq hlisted hvisitsl table vector).symm
  have hunsettled : ∀ table vector, a.unsettled table vector = l.unsettled table vector := by
    intro table vector
    rw [Bool.eq_iff_iff, ha.sound.unsettled_iff (fun e key hkept =>
        ((ha.listed hlisted).values e key hkept).2) table vector,
      hl.sound.unsettled_iff (fun e key hkept => ((hl.listed hlisted).values e key hkept).2)
        table vector]
    have hstamped : a.stamped table vector = l.stamped table vector :=
      congrArg VersionVector.isStamped (hvectors table vector)
    simp [hstamped, hrow]
  have hindexes : (s.unindexNodes horizon raws').indexes = (s.unindexNodes horizon raws).indexes :=
    (unindexNodes_eq hlisted fun raw hmem => (hraws raw hmem).2).trans
      (unindexNodes_eq hlisted fun raw hmem => (hraws raw hmem).1).symm
  have htakes : s.takesOut horizon visits' = s.takesOut horizon visits :=
    (takesOut_eq hlisted hvisitsa).trans (takesOut_eq hlisted hvisitsl).symm
  exact
    { row := hrow
      vectors := hvectors
      unsettled := hunsettled
      ends := ha.ends.trans hl.ends.symm
      outgoing := by rw [ha.frame, hl.frame, htakes]
      incoming := by rw [ha.frame, hl.frame, htakes]
      indexes := by rw [ha.frame, hl.frame, hindexes]
      counts := by rw [ha.frame, hl.frame]
      listed _ := by rw [ha.frame, hl.frame]
      nextNodeId := by rw [ha.frame, hl.frame]
      nextEdgeId := by rw [ha.frame, hl.frame]
      epoch := by rw [ha.frame, hl.frame]
      floor := by rw [ha.frame, hl.frame] }

/-- **The collect of the listed vectors leaves what the collect of every vector leaves.** -/
theorem collectListed_sameState (hs : s.Sound) (hlisted : s.Listed) (hnodup : s.listed.Nodup)
    (hwithin : s.ListedWithin) (horizon : Nat) :
    (s.collectListed horizon).SameState (s.collectAll horizon) := by
  have hsame := (collectedBy_listed hs hnodup horizon).sameState (collectedBy_groups hs horizon)
    hlisted (fun table vector hmem => ⟨decide_eq_true hmem, decide_eq_true (hwithin _ _ hmem)⟩)
    fun raw hmem => ⟨mem_listedNodes hmem, mem_rowsOf.mpr (vectorOf_div raw ▸ hwithin _ _ hmem)⟩
  have hunsettled : ∀ table vector, (s.collectAll horizon).unsettled table vector =
      (s.collectListed horizon).unsettled table vector := hsame.unsettled
  exact { hsame with
    unsettled := hunsettled
    listed := fun ⟨table, vector⟩ => by
      rw [mem_collectAll hs hlisted hwithin, mem_collectListed hs hlisted hnodup, hunsettled] }

/-! ### The readers at or after the horizon -/

namespace CollectedBy

variable {read : Read} (hsorted : ∀ e, (s.row e).Sorted) (hread : horizon ≤ read.epochOf)
include hsorted hread

/-- A collect leaves what such a reader sees of a row. -/
theorem seen_eq (h : s.CollectedBy horizon visits raws s') (e : Entity) :
    (s'.row e).seen read = (s.row e).seen read := by
  rw [h.row]
  split
  · refine Row.seen_collect hread (hsorted e) fun hcollapses => ?_
    rw [version_row]
    exact settledBy_of_collapses hcollapses
  · rfl

/-- No such reader sees a row it takes out. -/
theorem seen_of_takesOut {e : Entity} (h : s.takesOut horizon visits e = true) :
    (s.row e).seen read = none := by
  simp only [takesOut, and_eq_true] at h
  obtain ⟨⟨-, hcollapses⟩, hdeleted⟩ := h
  rw [← version_row] at hdeleted
  have hsettled : (s.row e).version.SettledBy horizon := by
    rw [version_row]
    exact settledBy_of_collapses hcollapses
  rw [← Row.seen_collect hread (hsorted e) (fun _ => hsettled), Row.collect, if_pos ⟨rfl, hdeleted⟩]
  rfl

/-- The edges such a reader sees of a node it sees stay. -/
theorem filter_adjacencyWithout {node : Nat} (hnode : s.nodeVisible node read = true)
    (kept : Bool) (end_ : Ends Name → Nat) (adjacency : Nat → List (Adjacent Name)) :
    (s.adjacencyWithout (s.takesOut horizon visits) kept end_ adjacency node).filter
        (fun adjacent => s.edgeVisible adjacent.edge read) =
      (adjacency node).filter fun adjacent => s.edgeVisible adjacent.edge read := by
  have hgone : ∀ e, ((s.row e).seen read).isSome = true →
      s.takesOut horizon visits e = false := fun e hseen => by
    by_contra htakes
    rw [seen_of_takesOut hsorted hread ((not_eq_false _).mp htakes)] at hseen
    cases hseen
  rw [adjacencyWithout, hgone (.node node) (by rwa [← nodeVisible_eq_seen]), if_neg (by simp),
    List.filter_filter]
  refine filter_congr fun adjacent _ => ?_
  cases hvisible : s.edgeVisible adjacent.edge read with
  | false => rfl
  | true =>
    rw [hgone (.edge adjacent.edge) (by rwa [← edgeVisible_eq_seen])]
    simp

/-- **A collect changes no read** of a reader at or after its horizon. -/
theorem readsAlike (h : s.CollectedBy horizon visits raws s') (hs : s.Sound) :
    s.ReadsAlike s' read := by
  have hseen := h.seen_eq hsorted hread
  refine .of_seen hs h.sound hseen h.ends (by rw [h.frame]) (by rw [h.frame]) (by rw [h.frame])
    (by rw [h.frame]) fun node outgoing hnode => ?_
  have hkeeps : s'.keepsIncoming = s.keepsIncoming := by rw [h.frame]
  have hnext : s'.nextEdgeId = s.nextEdgeId := by rw [h.frame]
  have hout : s'.outgoing = s.adjacencyWithout (s.takesOut horizon visits) true Ends.src
      s.outgoing := by rw [h.frame]
  have hin : s'.incoming = s.adjacencyWithout (s.takesOut horizon visits) s.keepsIncoming Ends.dst
      s.incoming := by rw [h.frame]
  unfold adjacency
  cases outgoing with
  | true =>
    simp only [if_true, hout]
    exact filter_adjacencyWithout hsorted hread hnode ..
  | false =>
    simp only [false_eq_true, if_false, hkeeps, hin]
    split
    · exact filter_adjacencyWithout hsorted hread hnode ..
    -- By a scan: an edge the reader sees is a row before and after.
    unfold incomingByScan
    rw [filter_filterMap, filter_filterMap, hnext, h.ends]
    refine filterMap_congr fun edge _ => ?_
    cases hends : s.ends edge with
    | none => rfl
    | some ends =>
      have hhas : ∀ t : Store Name Value, ((t.row (.edge edge)).seen read).isSome = true →
          t.edges.versions.has edge = true := fun t ht =>
        isSome_of_visible ((Row.isSome_seen _ read).symm.trans ht)
      cases hvisible : s.edgeVisible edge read with
      | true =>
        rw [edgeVisible_eq_seen] at hvisible
        simp [hhas s hvisible, hhas s' (by rwa [hseen])]
      | false =>
        have hnone : ∀ (c : Prop) [Decidable c], (if c then
            some { edgeType := ends.edgeType, other := ends.src, edge } else none :
              Option (Adjacent Name)).filter
            (fun adjacent => s.edgeVisible adjacent.edge read) = none := fun c _ => by
          split <;> simp [hvisible]
        exact (hnone _).trans (hnone _).symm

end CollectedBy

/-- No read is of the list or the floor. -/
theorem ReadsAlike.relist {read : Read} (h : s.ReadsAlike s' read) (listed : List (Table × Nat))
    (floor : Nat) : s.ReadsAlike { s' with listed, floor } read :=
  { h with }

theorem isSome_serving (s : Store Name Value) (labels : List Name) (key : Name) :
    (s.serving labels key).isSome = ((labels.any fun label => s.indexes.onLabel.any fun entry =>
        decide (entry.key = key) && decide (entry.label = label)) ||
      s.indexes.property.any fun entry => key == entry.1) := by
  have hlabels : (labels.findSome? fun label => (s.indexes.onLabel.find? fun entry =>
      decide (entry.key = key) && decide (entry.label = label)).map LabelIndex.index).isSome =
      labels.any fun label => s.indexes.onLabel.any fun entry =>
        decide (entry.key = key) && decide (entry.label = label) := by
    rw [Bool.eq_iff_iff, findSome?_isSome_iff, List.any_eq_true]
    refine exists_congr fun label => and_congr_right fun _ => ?_
    rw [isSome_map, find?_isSome, List.any_eq_true]
  rw [← hlabels, serving]
  split
  next found hfound => simp [hfound]
  next hfound =>
    rw [hfound, isSome_none, Bool.false_or, Bool.eq_iff_iff, lookup_isSome_iff, List.any_eq_true]

/-- **A lookup finds the same** after a collect, for a reader at or after its horizon that the
store answers. -/
theorem lookup_collectListed (hs : s.Sound) (hlisted : s.Listed) (hnodup : s.listed.Nodup)
    (hindexed : s.Indexed) (hsorted : ∀ e, (s.row e).Sorted) {read : Read}
    (hread : horizon ≤ read.epochOf) (hfloor : s.floor ≤ read.epochOf) (labels : List Name)
    (key : Name) (finds : Value → Bool) :
    (s.collectListed horizon).lookup labels key finds read = s.lookup labels key finds read := by
  have h := collectedBy_listed hs hnodup horizon
  obtain ⟨collapsed, hcollects⟩ := collect_spec hs hnodup horizon
  have hserves : ((s.collectListed horizon).serving labels key).isSome =
      (s.serving labels key).isSome := by
    have hindexes : (s.collectListed horizon).indexes =
        (s.unindexNodes horizon s.listedNodes).indexes := by
      simp only [collectListed]
      rw [h.frame]
    rw [isSome_serving, isSome_serving, hindexes, unindexNodes_eq_filter]
    simp [mapIndexes, Function.comp_def]
  cases hempty : s.listed.isEmpty with
  | true =>
    have hnil : s.listed = [] := isEmpty_iff.mp hempty
    have hsame : s.collectListed horizon = s := by
      simp [collectListed, collectTables, listedVectors, listedNodes, rowsOf, unindexNodes,
        collectEdges, collectNodes, hnil]
      rw [← hnil]
    rw [hsame]
  | false =>
    -- The store after a collect is this one, but for the floor, which no lookup reads.
    have hcollect : s.collect horizon = { s.collectListed horizon with
          floor := max (s.collectListed horizon).floor horizon } := by
      simp [collect, hempty]
    have hindexed' := hindexed.collected hlisted hcollects
    have hfloor' : (s.collect horizon).floor ≤ read.epochOf := by
      rw [hcollects.floor, hempty]
      exact Nat.max_le.mpr ⟨hfloor, hread⟩
    have halike : s.ReadsAlike (s.collect horizon) read := by
      rw [hcollect]
      exact (h.readsAlike hsorted hread hs).relist ..
    have hserves' : ((s.collect horizon).serving labels key).isSome =
        (s.serving labels key).isSome := by
      rw [hcollect]
      exact hserves
    have hlookup := halike.lookup_eq hs hcollects.sound hindexed hindexed' hfloor hfloor'
      hserves' finds
    rw [hcollect] at hlookup
    exact hlookup

end Store

namespace Workload

variable [DecidableEq Name] [DecidableEq Value] {w : Workload Name Value}

/-- A node created, written over while a reader is open, and deleted after. -/
def writtenOver : List (Action Nat Nat) :=
  [.begin 2 0, .write 2 (.createNode 0 [7] [(5, some 9)]), .commit 2 1, .publish 1,
    .begin 3 1, .begin 4 1, .write 3 (.setNodeProperty 0 5 (some 8)), .commit 3 2, .publish 2,
    .begin 5 2, .write 5 (.deleteNode 0), .commit 5 3, .publish 3]

end Workload

end Grafeo.RowGroup
