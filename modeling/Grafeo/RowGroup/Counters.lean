import Grafeo.Lib.Count
import Grafeo.RowGroup.Store
import Grafeo.RowGroup.TableRows
import Grafeo.RowGroup.Log
import Mathlib.Algebra.BigOperators.Ring.Finset

/-!
# Grafeo.RowGroup.Counters

**What a row adds to the committed counts.** A counter is one of the numbers of
`Counts`; a row that exists and is not deleted adds its weight to it, by its newest
labels or its type. A write moves its row's weight by what the commit of the write's
entry moves the counter (`Writes.weight`), so the entries of a transaction together move
the counter by what its rows weigh more (`sum_weight`).
-/

namespace Grafeo.RowGroup

open List Row

/-- One of the committed counts. -/
inductive Counter (Name : Type) where
  | nodes
  | edges
  | label (label : Name)
  | edgeType (edgeType : Name)
deriving DecidableEq

variable {Name Value : Type} {records : List (Record Name Value)} {row : Row Name Value}

/-- The count of `counter`. -/
def Counts.at (counts : Counts Name) : Counter Name → Int
  | .nodes => counts.nodes
  | .edges => counts.edges
  | .label label => counts.labels label
  | .edgeType edgeType => counts.edgeTypes edgeType

variable [DecidableEq Name]

namespace Counter

/-- What a node with `labels`, or an edge with `ends`, adds to the counter. -/
def weight (counter : Counter Name) (entity : Entity) (labels : Finset Name)
    (ends : Option (Ends Name)) : Int :=
  match counter, entity with
  | .nodes, .node _ => 1
  | .label l, .node _ => if l ∈ labels then 1 else 0
  | .edges, .edge _ => 1
  | .edgeType ty, .edge _ => if ends.map Ends.edgeType = some ty then 1 else 0
  | _, _ => 0

variable (counter : Counter Name)

theorem weight_edge (id id' : Nat) (labels labels' : Finset Name) (ends : Option (Ends Name)) :
    counter.weight (.edge id) labels ends = counter.weight (.edge id') labels' ends := by
  cases counter <;> rfl

/-- A node gains or loses one label. -/
theorem weight_withLabel {id : Nat} {label : Name} {add : Bool} {labels : Finset Name}
    {ends : Option (Ends Name)} (h : label ∈ labels ↔ add = false) :
    counter.weight (.node id) (withLabel label add labels) ends =
      counter.weight (.node id) labels ends +
        if counter = .label label then (if add then 1 else -1) else 0 := by
  cases counter with
  | label l =>
    cases add with
    | true | false => by_cases hl : l = label <;> simp_all [weight, withLabel]
  | _ => simp [weight]

end Counter

namespace Counts

variable (counts : Counts Name) (counter : Counter Name)

theorem at_node (labels : Finset Name) (delta : Int) (id : Nat) (ends : Option (Ends Name)) :
    (counts.node labels delta).at counter =
      counts.at counter + delta * counter.weight (.node id) labels ends := by
  cases counter with
  | label l => by_cases hl : l ∈ labels <;> simp [Counts.at, Counts.node, Counter.weight, hl]
  | _ => simp [Counts.at, Counts.node, Counter.weight]

theorem at_edge (ends : Ends Name) (delta : Int) (id : Nat) (labels : Finset Name) :
    (counts.edge ends.edgeType delta).at counter =
      counts.at counter + delta * counter.weight (.edge id) labels (some ends) := by
  cases counter with
  | edgeType ty =>
    by_cases hty : ty = ends.edgeType
    · simp [Counts.at, Counts.edge, Counter.weight, hty]
    · simp [Counts.at, Counts.edge, Counter.weight, hty, Ne.symm hty]
  | _ => simp [Counts.at, Counts.edge, Counter.weight]

theorem at_label (label : Name) (delta : Int) : (counts.label label delta).at counter =
      counts.at counter + if counter = .label label then delta else 0 := by
  cases counter with
  | label l => by_cases hl : l = label <;> simp [Counts.at, Counts.label, hl]
  | _ => simp [Counts.at, Counts.label]

end Counts

/-! ### Rows -/

/-- What a row adds to the counter: its weight, if it exists and is not deleted. -/
def Row.weight (row : Row Name Value) (counter : Counter Name) (entity : Entity) : Int :=
  if row.version.created.isSome = true ∧ row.version.deleted = none then
    counter.weight entity row.labels.value row.ends
  else 0

theorem Row.weight_empty (counter : Counter Name) (entity : Entity) :
    ({} : Row Name Value).weight counter entity = 0 := by
  simp [weight]

theorem Row.weight_of_live (hcreated : row.version.created.isSome = true)
    (hdeleted : row.version.deleted = none) (counter : Counter Name) (entity : Entity) :
    row.weight counter entity = counter.weight entity row.labels.value row.ends := by
  simp [weight, hcreated, hdeleted]

theorem Row.weight_of_deleted (hdeleted : row.version.deleted ≠ none)
    (counter : Counter Name) (entity : Entity) : row.weight counter entity = 0 := by
  simp [weight, hdeleted]

/-- What stamps a row bears does not matter to what it weighs. -/
theorem Row.weight_restamp (row : Row Name Value) (t epoch : Nat) (counter : Counter Name)
    (entity : Entity) : (row.restamp t epoch).weight counter entity = row.weight counter entity := by
  have hvalue : (row.labels.restamp t epoch).value = row.labels.value := rfl
  simp [weight, restamp, hvalue]

/-- What the commit of an entry adds to the counter: by its op, and for an edge by the ends its
row has. -/
def Record.delta (record : Record Name Value) (counter : Counter Name)
    (ends : Option (Ends Name)) : Int :=
  match record.op, record.before with
  | .createNode id labels _, _ => counter.weight (.node id) labels.toFinset none
  | .createEdge id _ _ _ _, _ => counter.weight (.edge id) ∅ ends
  | .deleteNode id, .node image => -counter.weight (.node id) image.labels none
  | .deleteEdge id, _ => -counter.weight (.edge id) ∅ ends
  | .addNodeLabel _ label, _ => if counter = .label label then 1 else 0
  | .removeNodeLabel _ label, _ => if counter = .label label then -1 else 0
  | _, _ => 0

variable {t : Nat} {row row' base : Row Name Value} {record : Record Name Value}

omit [DecidableEq Name] in
theorem Row.Live.isSome_created (h : row.Live t) : row.version.created.isSome = true := by
  rcases h.2 with h | ⟨e, h⟩ <;> simp [h]

/-- A write moves its row's weight by what the commit of its entry adds. -/
theorem Writes.weight (h : Writes t record.event row row') (hfits : row.Fits record.op.entity)
    (counter : Counter Name) :
    row'.weight counter record.op.entity =
      row.weight counter record.op.entity + record.delta counter row'.ends := by
  obtain ⟨op, before, version⟩ := record
  obtain ⟨hop, hbefore, -, rfl⟩ := h
  simp only [Record.event] at hop hbefore
  -- A value write leaves what counts.
  have hvalue : ∀ {key value entity}, row.Accepts t (.value key value) →
      (row.putBy t (.value key value)).weight counter entity = row.weight counter entity := by
    intro key value entity hop
    have hlive := hop.1
    rw [weight_of_live hlive.isSome_created hlive.1,
      weight_of_live (by exact hlive.isSome_created) (by exact hlive.1)]
    rfl
  -- A label write moves the weight by the label.
  have hlabel : ∀ {id label add}, row.Accepts t (.label label add) →
      (row.putBy t (.label label add)).weight counter (.node id) = row.weight counter (.node id) +
          if counter = .label label then (if add then 1 else -1) else 0 := by
    intro id label add hop
    have hlive := hop.1
    rw [weight_of_live hlive.isSome_created hlive.1,
      weight_of_live (by exact hlive.isSome_created) (by exact hlive.1)]
    exact counter.weight_withLabel hop.2
  cases op with
  | createNode | createEdge =>
    rw [show row = {} from hop, weight_empty, weight_of_live rfl rfl]
    exact (zero_add _).symm
  | deleteNode id =>
    have hlive : row.Live t := hop
    have hends : row.ends = none := by
      have := hfits.ends hlive.isSome_created
      simpa [DataOp.entity, Entity.table] using this
    have himage : row.before .delete =
        .node { labels := row.labels.value, properties := fun key => (row.values key).value } := by
      simp [Row.before, Row.image, hends]
    rw [weight_of_deleted (by simp [Record.event, putBy, put, DataOp.rowOp]),
      weight_of_live hlive.isSome_created hlive.1]
    simp only [DataOp.rowOp] at hbefore
    simp only [Record.delta, hbefore, himage, hends, DataOp.entity]
    exact (add_neg_cancel _).symm
  | deleteEdge id =>
    have hlive : row.Live t := hop
    rw [weight_of_deleted (by simp [Record.event, putBy, put, DataOp.rowOp]),
      weight_of_live hlive.isSome_created hlive.1]
    simp only [Record.delta, DataOp.entity, Record.event, DataOp.rowOp, putBy, put]
    rw [counter.weight_edge id id row.labels.value ∅]
    exact (add_neg_cancel _).symm
  | setNodeProperty | removeNodeProperty | setEdgeProperty | removeEdgeProperty =>
    exact (hvalue hop).trans (add_zero _).symm
  | addNodeLabel | removeNodeLabel => exact hlabel hop

/-! ### Sums over the rows -/

/-- The nodes and edges with ids below the given ones. -/
def entities (nodes edges : Nat) : Finset Entity :=
  (Finset.range nodes).image .node ∪ (Finset.range edges).image .edge

/-- The next id of the entity's table, of the two. -/
def Entity.below (nodes edges : Nat) : Entity → Prop
  | .node id => id < nodes
  | .edge id => id < edges

theorem mem_entities {nodes edges : Nat} {e : Entity} :
    e ∈ entities nodes edges ↔ e.below nodes edges := by
  cases e <;> simp [entities, Entity.below]

omit [DecidableEq Name] in
/-- A row that exists keeps its ends. -/
theorem Writes.ends_eq [DecidableEq Name] {event : Event Name Value} (h : Writes t event row row')
    (hcreated : row.version.created.isSome = true) : row'.ends = row.ends := by
  obtain ⟨hop, -, -, rfl⟩ := h
  cases hevent : event.op with
  | create labels values ends =>
    rw [hevent] at hop
    rw [show row = {} from hop] at hcreated
    cases hcreated
  | _ => rfl

/-- A row the transaction wrote exists. -/
theorem Wrote.isSome_created {events : List (Event Name Value)} (h : Wrote t base events row)
    (hne : events ≠ []) : row.version.created.isSome = true := by
  cases h with
  | nil => exact absurd rfl hne
  | snoc _ hwrites => exact hwrites.isSome_created

/-- What fits still does after a write. -/
theorem Writes.fits (h : Writes t record.event row row') (hfits : row.Fits record.op.entity) :
    row'.Fits record.op.entity where
  empty hnone := by
    rw [← Option.not_isSome_iff_eq_none] at hnone
    exact absurd h.isSome_created hnone
  ends _ := by
    by_cases hcreated : row.version.created.isSome = true
    · rw [h.ends_eq hcreated]
      exact hfits.ends hcreated
    -- Only a create writes a row that does not exist.
    obtain ⟨op, before, version⟩ := record
    obtain ⟨hop, -, -, rfl⟩ := h
    cases op with
    | createNode | createEdge => rfl
    | deleteNode | deleteEdge => exact absurd (Live.isSome_created hop) hcreated
    | _ => exact absurd hop.1.isSome_created hcreated

theorem Wrote.fits {entity : Entity}
    (h : Wrote t base (eventsIn entity records) row) (hbase : base.Fits entity) :
    row.Fits entity := by
  induction records using reverseRecOn generalizing row with
  | nil => rwa [Wrote.nil_iff.mp h]
  | append_singleton records record ih =>
    rw [eventsIn_append] at h
    obtain ⟨mid, hfirst, hlast⟩ := Wrote.append_iff.mp h
    have hmid := ih hfirst
    by_cases he : record.op.entity = entity
    · subst he
      rw [eventsIn_self, Wrote.singleton_iff] at hlast
      exact hlast.fits hmid
    · rw [eventsIn_of_ne he, Wrote.nil_iff] at hlast
      rwa [hlast]

/-- **The entries of a transaction move a counter by what its rows weigh more.** -/
theorem sum_weight {S : Finset Entity} {base row : Entity → Row Name Value}
    (hwrote : ∀ e, Wrote t (base e) (eventsIn e records) (row e))
    (hfits : ∀ e, (base e).Fits e) (hmem : ∀ record ∈ records, record.op.entity ∈ S)
    (counter : Counter Name) :
    ∑ e ∈ S, (row e).weight counter e = ∑ e ∈ S, (base e).weight counter e +
      (records.map fun record => record.delta counter (row record.op.entity).ends).sum := by
  -- By induction on the records, last first: the rows before the last are those it wrote over.
  induction records using reverseRecOn generalizing row with
  | nil =>
    have hrow : row = base := funext fun e => Wrote.nil_iff.mp (hwrote e)
    simp [hrow]
  | append_singleton records record ih =>
    have hmid : ∀ e, ∃ mid, Wrote t (base e) (eventsIn e records) mid ∧
        Wrote t mid (eventsIn e [record]) (row e) := fun e => by
      have := hwrote e
      rw [eventsIn_append] at this
      exact Wrote.append_iff.mp this
    choose mid hfirst hlast using hmid
    have hother : ∀ e, e ≠ record.op.entity → row e = mid e := fun e he => by
      have := hlast e
      rwa [eventsIn_of_ne (he.symm), Wrote.nil_iff] at this
    have hwrites : Writes t record.event (mid record.op.entity) (row record.op.entity) := by
      have := hlast record.op.entity
      rwa [eventsIn_self, Wrote.singleton_iff] at this
    have hmidfits : ∀ e, (mid e).Fits e := fun e => (hfirst e).fits (hfits e)
    have hchange := Lib.sum_change (S := S) (x := record.op.entity)
      (f := fun e => (row e).weight counter e) (g := fun e => (mid e).weight counter e)
      (hmem record (by simp)) fun e he => by rw [hother e he]
    have hends : ∀ r ∈ records, (mid r.op.entity).ends = (row r.op.entity).ends := fun r hr => by
      by_cases he : r.op.entity = record.op.entity
      · have hsome : (mid r.op.entity).version.created.isSome = true :=
          (hfirst r.op.entity).isSome_created
            (ne_nil_of_mem (mem_map_of_mem (mem_filter.mpr ⟨hr, by simp⟩)))
        rw [he] at hsome ⊢
        exact (hwrites.ends_eq hsome).symm
      · rw [hother _ he]
    have hsum : (records.map fun r => r.delta counter (mid r.op.entity).ends) =
        records.map fun r => r.delta counter (row r.op.entity).ends :=
      map_congr_left fun r hr => by rw [hends r hr]
    have hih := ih hfirst fun r hr => hmem r (by simp [hr])
    have hdelta := hwrites.weight (hmidfits record.op.entity) counter
    simp only [hsum] at hih
    simp only [map_append, map_cons, map_nil, sum_append, sum_cons, sum_nil]
    omega

end Grafeo.RowGroup
