import Grafeo.RowGroup.Store
import Grafeo.RowGroup.TableRows

/-!
# Grafeo.RowGroup.IndexEntries

**What a property index holds of one node** (`EntriesOk`): an entry for each value of its key
that a version of the node holds, the newest or one kept, and on a label only while a version
of its labels has the label; nothing is asked of a node a delete took out of every view the
store still answers. Each way the store brings its indexes in line with a row is a lemma on the
entries of that row's node, and leaves those of every other node.

**What a collect takes out of the indexes**: of the nodes it looks at, in any order, the
entries of values it leaves in no version, and every entry of a node no view from the horizon
on has, or no version left has the label of (`Store.drops`).
-/

namespace Grafeo.RowGroup

open List Option Row

variable {Name Value : Type} {label : Option Name} {key : Name} {before : Store Name Value}
  {onLabel : Name → Name → PropertyIndex Value → PropertyIndex Value}
  {onKey : Name → PropertyIndex Value → PropertyIndex Value} {index : PropertyIndex Value}
  {row row' : Row Name Value} {replaced : Option Value} {has : Value → Prop}

/-! ### What a row holds -/

namespace Row

/-- A version of the row's value of `key`, the newest or one kept, holds `value`. -/
def Holds (row : Row Name Value) (key : Name) (value : Value) : Prop :=
  (row.values key).value = some value ∨ ∃ entry ∈ (row.values key).kept, entry.2 = some value

/-- A version of the row's labels, the newest or one kept, has the label of the index. -/
def Covered (row : Row Name Value) (label : Option Name) : Prop :=
  ∀ l ∈ label, l ∈ row.labels.value ∨ ∃ entry ∈ row.labels.kept, l ∈ entry.2

/-- The row is in the index on `key` (of `label`) under `value`. -/
structure Enters (row : Row Name Value) (label : Option Name) (key : Name) (value : Value) :
    Prop where
  created : row.version.created.isSome = true
  covered : row.Covered label
  holds : row.Holds key value

/-- A delete committed by `floor` took the row out of every view from there on. -/
def Gone (row : Row Name Value) (floor : Nat) : Prop :=
  row.version.deleted.any (Stamp.committedBy floor) = true

theorem Gone.isSome {floor : Nat} (h : row.Gone floor) : row.version.deleted.isSome = true := by
  obtain ⟨stamp, hd, -⟩ := (Option.any_eq_true ..).mp h
  rw [hd]
  rfl

end Row

/-- The entries of one node in an index are those of its row. -/
structure EntriesOk (floor : Nat) (row : Row Name Value) (label : Option Name) (key : Name)
    (has : Value → Prop) : Prop where
  sound : ∀ value, has value → row.Enters label key value
  complete : ∀ value, row.Enters label key value → ¬row.Gone floor → has value

/-- A row that holds the same, for the same views or fewer. -/
theorem EntriesOk.of_iff {floor floor' : Nat} (h : EntriesOk floor row label key has)
    (henters : ∀ value, row'.Enters label key value ↔ row.Enters label key value)
    (hgone : row.Gone floor → row'.Gone floor') : EntriesOk floor' row' label key has where
  sound value hhas := (henters value).mpr (h.sound value hhas)
  complete value hin hnot := h.complete value ((henters value).mp hin) fun hold => hnot (hgone hold)

/-- A row with the same versions that is covered and holds the same. -/
theorem EntriesOk.congr {floor : Nat} (h : EntriesOk floor row label key has)
    (hversion : row'.version = row.version) (hcovered : row'.Covered label ↔ row.Covered label)
    (hholds : row.Covered label → ∀ value, row'.Holds key value ↔ row.Holds key value) :
    EntriesOk floor row' label key has := by
  refine h.of_iff (fun value => ⟨fun henters => ?_, fun henters => ?_⟩) (by
    rw [Gone, Gone, hversion]; exact id)
  · have hcov := hcovered.mp henters.covered
    exact ⟨hversion ▸ henters.created, hcov, (hholds hcov value).mp henters.holds⟩
  · exact ⟨hversion ▸ henters.created, hcovered.mpr henters.covered,
      (hholds henters.covered value).mpr henters.holds⟩

/-! ### Entries -/

namespace PropertyIndex

variable [DecidableEq Value] {index : PropertyIndex Value} {values : List Value}
  {value : Value} {node raw : Nat}

theorem mem_insert {v : Value} :
    (value, node) ∈ insert index v raw ↔ node = raw ∧ value = v ∨ (value, node) ∈ index := by
  unfold insert
  split
  next hmem =>
    constructor
    · exact .inr
    · rintro (⟨rfl, rfl⟩ | hold)
      · exact hmem
      · exact hold
  · rw [mem_cons, Prod.mk.injEq, and_comm]

theorem mem_remove {v : Value} :
    (value, node) ∈ remove index v raw ↔ (value, node) ∈ index ∧ ¬(node = raw ∧ value = v) := by
  simp only [remove, mem_filter, decide_eq_true_eq, ne_eq, Prod.mk.injEq]
  tauto

theorem mem_insertAll : (value, node) ∈ insertAll index values raw ↔
      node = raw ∧ value ∈ values ∨ (value, node) ∈ index := by
  unfold insertAll
  induction values generalizing index with
  | nil => simp
  | cons v values ih =>
    rw [foldl_cons, ih, mem_insert]
    simp only [mem_cons]
    tauto

theorem removeAll_eq_filter (index : PropertyIndex Value) (values : List Value) (raw : Nat) :
    removeAll index values raw =
      index.filter fun entry => !(decide (entry.2 = raw) && decide (entry.1 ∈ values)) := by
  unfold removeAll
  induction values generalizing index with
  | nil => simp
  | cons v values ih =>
    rw [foldl_cons, ih, remove, List.filter_filter]
    refine filter_congr fun entry _ => ?_
    obtain ⟨value, node⟩ := entry
    by_cases hnode : node = raw
    · by_cases hvalue : value = v <;> simp [hnode, hvalue]
    · simp [hnode]

theorem mem_removeAll : (value, node) ∈ removeAll index values raw ↔
      (value, node) ∈ index ∧ ¬(node = raw ∧ value ∈ values) := by
  rw [removeAll_eq_filter, mem_filter]
  simp [or_iff_not_imp_left]

end PropertyIndex

open PropertyIndex

namespace Store

/-- The store has `index` on `key`, of every label (`none`) or of one. -/
def HasIndex (s : Store Name Value) (label : Option Name) (key : Name)
    (index : PropertyIndex Value) : Prop :=
  match label with
  | none => (key, index) ∈ s.indexes.property
  | some label => { label, key, index } ∈ s.indexes.onLabel

/-- **The indexes hold what the rows do.** -/
def Indexed (s : Store Name Value) : Prop :=
  ∀ label key index, s.HasIndex label key index → ∀ id,
    EntriesOk s.floor (s.row (.node id)) label key fun value => (value, id) ∈ index

theorem hasIndex_mapIndexes {s : Store Name Value} :
    (s.mapIndexes onKey onLabel).HasIndex label key index ↔ ∃ old, s.HasIndex label key old ∧
        index = match label with
          | none => onKey key old
          | some l => onLabel l key old := by
  cases label with
  | none =>
    simp only [HasIndex, mapIndexes, List.mem_map, Prod.mk.injEq, Prod.exists]
    constructor
    · rintro ⟨k, old, hmem, rfl, rfl⟩
      exact ⟨old, hmem, rfl⟩
    · rintro ⟨old, hmem, rfl⟩
      exact ⟨key, old, hmem, rfl, rfl⟩
  | some l =>
    simp only [HasIndex, mapIndexes, List.mem_map]
    constructor
    · rintro ⟨⟨l', k, old⟩, hmem, heq⟩
      obtain ⟨rfl, rfl, rfl⟩ := heq
      exact ⟨old, hmem, rfl⟩
    · rintro ⟨old, hmem, rfl⟩
      exact ⟨{ label := l, key, index := old }, hmem, rfl⟩

variable [DecidableEq Name] [DecidableEq Value] {s : Store Name Value} {raw : Nat}
  {label : Option Name} {key : Name} {value : Value}

/-! ### What the store reads of a row -/

theorem holds_iff : s.holds raw key value = true ↔ (s.row (.node raw)).Holds key value := by
  simp only [holds, Holds, Bool.or_eq_true, decide_eq_true_eq, List.any_eq_true]
  rfl

theorem mem_everyValue : value ∈ s.everyValue raw key ↔ (s.row (.node raw)).Holds key value := by
  simp only [everyValue, Holds, mem_append, mem_toList, mem_filterMap]
  rfl

/-- Whether some version of the node's labels has the label. -/
theorem covered_iff {l : Name} : (s.hasNewestLabel raw l || s.hadLabel raw l fun _ => true) = true ↔
      (s.row (.node raw)).Covered (some l) := by
  simp only [hasNewestLabel, hadLabel, Covered, Bool.or_eq_true, decide_eq_true_eq,
    List.any_eq_true, Bool.true_and, mem_some_iff, forall_eq']
  rfl

theorem covered_none (row : Row Name Value) : row.Covered none := nofun

/-! ### Steps of one node -/

/-- The entries of the node in an index are those of its row. -/
def EntriesAt (s : Store Name Value) (raw : Nat) (label : Option Name) (key : Name)
    (index : PropertyIndex Value) : Prop :=
  EntriesOk s.floor (s.row (.node raw)) label key fun value => (value, raw) ∈ index

/-- The index `index` is `old`, brought in line with the one node's row. -/
structure Follows (before s : Store Name Value) (raw : Nat) (label : Option Name) (key : Name)
    (old index : PropertyIndex Value) : Prop where
  other : ∀ value id, id ≠ raw → ((value, id) ∈ index ↔ (value, id) ∈ old)
  entries : before.EntriesAt raw label key old → s.EntriesAt raw label key index

theorem Follows.same (h : before.EntriesAt raw label key index → s.EntriesAt raw label key index) :
    Follows before s raw label key index index :=
  ⟨fun _ _ _ => .rfl, h⟩

/-- A step that changes one node's row, and of each index at most that node's entries. -/
theorem Indexed.of_node (h : before.Indexed) (hfloor : s.floor = before.floor)
    (hother : ∀ id, id ≠ raw → s.row (.node id) = before.row (.node id))
    (hindex : ∀ label key index, s.HasIndex label key index →
      ∃ old, before.HasIndex label key old ∧ Follows before s raw label key old index) :
    s.Indexed := by
  intro label key index hhas id
  obtain ⟨old, hold, hfollows⟩ := hindex label key index hhas
  by_cases hid : id = raw
  · subst hid
    exact hfollows.entries (h label key old hold id)
  · rw [hother id hid, hfloor]
    simp only [hfollows.other _ id hid]
    exact h label key old hold id

/-- A step of the tables that changes one node's row, which exists after it, and no index. -/
structure NodeStep (before s : Store Name Value) (raw : Nat) : Prop where
  indexes : s.indexes = before.indexes
  floor : s.floor = before.floor
  has : s.has (.node raw) = true
  other : ∀ id, id ≠ raw → s.row (.node id) = before.row (.node id)

namespace NodeStep

variable {before : Store Name Value} (hstep : NodeStep before s raw)
include hstep

theorem created : (s.row (.node raw)).version.created.isSome = true := by
  exact hstep.has

/-- An index that stays as it is: the node is in it now as it was. -/
theorem same (hversion : (s.row (.node raw)).version = (before.row (.node raw)).version)
    (hcovered : (s.row (.node raw)).Covered label ↔ (before.row (.node raw)).Covered label)
    (hholds : (before.row (.node raw)).Covered label → ∀ value,
      (s.row (.node raw)).Holds key value ↔ (before.row (.node raw)).Holds key value)
    (index : PropertyIndex Value) : Follows before s raw label key index index := by
  refine .same fun hok => ?_
  unfold EntriesAt
  rw [hstep.floor]
  exact hok.congr hversion hcovered hholds

/-- Each index is brought in line. -/
theorem mapIndexes (h : before.Indexed)
    (hkey : ∀ key old, Follows before s raw none key old (onKey key old))
    (hlabel : ∀ l key old, Follows before s raw (some l) key old (onLabel l key old)) :
    (if s.nodes.versions.has raw then s.mapIndexes onKey onLabel else s).Indexed := by
  rw [if_pos (show s.nodes.versions.has raw = true from hstep.has)]
  refine h.of_node (s := s.mapIndexes onKey onLabel) hstep.floor hstep.other
    fun label key index hhas => ?_
  obtain ⟨old, hmem, rfl⟩ := hasIndex_mapIndexes.mp hhas
  refine ⟨old, ?_, ?_⟩
  · cases label <;> simpa [HasIndex, hstep.indexes] using hmem
  · cases label with
    | none => exact ⟨(hkey key old).other, (hkey key old).entries⟩
    | some l => exact ⟨(hlabel l key old).other, (hlabel l key old).entries⟩

end NodeStep

/-- A step that changes no index, and of a node's row only versions. -/
theorem Indexed.of_rows (h : before.Indexed) (hindexes : s.indexes = before.indexes)
    (hrow : ∀ id label key, (∀ value, (s.row (.node id)).Enters label key value ↔
        (before.row (.node id)).Enters label key value) ∧
      ((before.row (.node id)).Gone before.floor → (s.row (.node id)).Gone s.floor)) :
    s.Indexed := by
  intro label key index hhas id
  refine (h label key index ?_ id).of_iff (hrow id label key).1 (hrow id label key).2
  cases label <;> simpa [HasIndex, hindexes] using hhas

end Store

/-- A write of a row's value of `key`, or its undo, over `replaced`. -/
structure Row.Rewrites (row row' : Row Name Value) (key : Name) (replaced : Option Value) :
    Prop where
  version : row'.version = row.version
  labels : row'.labels = row.labels
  other : ∀ k, k ≠ key → row'.values k = row.values k
  new : ∀ value, row'.Holds key value → row.Holds key value ∨ (row'.values key).value = some value
  old : ∀ value, row.Holds key value → row'.Holds key value ∨ replaced = some value

/-- A write of a row's labels, of `label` (`none`: any), or its undo. -/
structure Row.Relabels (row row' : Row Name Value) (label : Option Name) : Prop where
  version : row'.version = row.version
  values : row'.values = row.values
  other : ∀ l, (∃ written ∈ label, written ≠ l) → (row'.Covered (some l) ↔ row.Covered (some l))
  kept : ∀ l, (∃ entry ∈ row'.labels.kept, l ∈ entry.2) → row.Covered (some l)

namespace Store

variable [DecidableEq Name] [DecidableEq Value] {s before : Store Name Value} {raw : Nat}
  {label : Option Name} {key : Name} {value : Value} {index : PropertyIndex Value}

theorem mem_reindexed {node : Nat} : (value, node) ∈ s.reindexed raw key replaced index ↔
      (node = raw ∧ ((s.row (.node raw)).values key).value = some value ∨ (value, node) ∈ index) ∧
      ¬(node = raw ∧ replaced = some value ∧ ¬(s.row (.node raw)).Holds key value) := by
  have hinsert : ∀ node, (value, node) ∈ insertAll index ((s.nodes.columns key).values raw).toList raw ↔
      node = raw ∧ ((s.row (.node raw)).values key).value = some value ∨ (value, node) ∈ index := by
    intro node
    rw [mem_insertAll, mem_toList]
    rfl
  unfold reindexed
  cases replaced with
  | none => simp [hinsert, reduceCtorEq]
  | some old =>
    cases hholds : s.holds raw key old with
    | true =>
      simp only [hholds, if_true, hinsert, some.injEq]
      refine (and_iff_left ?_).symm
      rintro ⟨-, rfl, hnot⟩
      exact hnot (holds_iff.mp hholds)
    | false =>
      have hnot : ¬(s.row (.node raw)).Holds key old := fun h => by
        rw [holds_iff.mpr h] at hholds
        cases hholds
      simp only [hholds, Bool.false_eq_true, if_false, mem_remove, hinsert, some.injEq]
      refine and_congr_right fun _ => not_congr (and_congr_right fun _ => ?_)
      constructor
      · rintro rfl
        exact ⟨rfl, hnot⟩
      · exact fun h => h.1.symm

/-- **A value write, or its undo, keeps the indexes in line.** -/
theorem Indexed.indexValue (h : before.Indexed) (hstep : NodeStep before s raw)
    (hrow : (before.row (.node raw)).Rewrites (s.row (.node raw)) key replaced) :
    (s.indexValue raw key replaced).Indexed := by
  have hcovered : ∀ label, (s.row (.node raw)).Covered label ↔
      (before.row (.node raw)).Covered label := fun label => by rw [Covered, hrow.labels]; rfl
  -- An index of the key that may hold the node.
  have hreindexed : ∀ label (index : PropertyIndex Value), (s.row (.node raw)).Covered label →
      Follows before s raw label key index (s.reindexed raw key replaced index) := by
    intro label index hlabel
    refine ⟨fun value id hid => by simp [mem_reindexed, hid], fun hok =>
      ⟨fun value hmem => ?_, fun value henters hnot => ?_⟩⟩
    · obtain ⟨hin, hremoved⟩ := mem_reindexed.mp hmem
      refine ⟨hstep.created, hlabel, ?_⟩
      rcases hin with ⟨-, hnewest⟩ | hold
      · exact .inl hnewest
      · rcases hrow.old value (hok.sound value hold).holds with hholds | hreplaced
        · exact hholds
        · by_contra hnot
          exact hremoved ⟨rfl, hreplaced, hnot⟩
    · refine mem_reindexed.mpr ⟨?_, fun hremoved => hremoved.2.2 henters.holds⟩
      rcases hrow.new value henters.holds with hholds | hnewest
      · refine .inr (hok.complete value
          ⟨hrow.version ▸ hstep.created, (hcovered label).mp hlabel, hholds⟩ fun hold => hnot ?_)
        rwa [Gone, hrow.version, hstep.floor]
      · exact .inl ⟨rfl, hnewest⟩
  -- An index that stays as it is.
  have hsame : ∀ label name (index : PropertyIndex Value),
      (name ≠ key ∨ ¬(s.row (.node raw)).Covered label) →
      Follows before s raw label name index index := by
    intro label name index hcase
    refine hstep.same hrow.version (hcovered label) (fun hcov value => ?_) index
    rcases hcase with hname | hnot
    · rw [Holds, Holds, hrow.other name hname]
    · exact absurd ((hcovered label).mpr hcov) hnot
  unfold Store.indexValue
  refine hstep.mapIndexes h (fun name old => ?_) fun l name old => ?_
  · split
    next hname => exact hname ▸ hreindexed none old (covered_none _)
    next hname => exact hsame none name old (.inl hname)
  · split
    next hname => exact hname.1 ▸ hreindexed (some l) old (covered_iff.mp hname.2)
    next hname =>
      refine hsame (some l) name old ?_
      by_cases hkey : name = key
      · exact .inr fun hcov => hname ⟨hkey, covered_iff.mpr hcov⟩
      · exact .inl hkey

/-- **A label write, or its undo, keeps the indexes in line.** -/
theorem Indexed.indexLabels (h : before.Indexed) (hstep : NodeStep before s raw)
    (hrow : (before.row (.node raw)).Relabels (s.row (.node raw)) label) :
    (s.indexLabels raw label).Indexed := by
  have hholds : ∀ key value, (s.row (.node raw)).Holds key value ↔
      (before.row (.node raw)).Holds key value := fun key value => by
    rw [Holds, hrow.values]; rfl
  -- An index that stays as it is: the node is in it now as it was.
  have hsame : ∀ l key (index : PropertyIndex Value),
      ((s.row (.node raw)).Covered l ↔ (before.row (.node raw)).Covered l) →
      Follows before s raw l key index index :=
    fun l key index hcovered => hstep.same hrow.version hcovered (fun _ => hholds key) index
  unfold Store.indexLabels
  refine hstep.mapIndexes h (fun key old => ?_) fun l key old => ?_
  · exact hsame none key old ⟨fun _ => covered_none _, fun _ => covered_none _⟩
  by_cases hwritten : label.all (fun written => decide (written = l)) = true
  · simp only [hwritten, if_true]
    cases hnewest : s.hasNewestLabel raw l with
    | true =>
      -- The node has the label: it enters with every value it holds.
      have hlabel : (s.row (.node raw)).Covered (some l) :=
        covered_iff.mp (by rw [hnewest]; rfl)
      refine ⟨fun value id hid => by simp [mem_insertAll, hid], fun hok => ⟨?_, ?_⟩⟩
      · intro value hin
        refine ⟨hstep.created, hlabel, ?_⟩
        rcases mem_insertAll.mp hin with ⟨-, hvalue⟩ | hmem
        · exact mem_everyValue.mp hvalue
        · exact (hholds key value).mpr (hok.sound value hmem).holds
      · exact fun value henters _ => mem_insertAll.mpr (.inl ⟨rfl,
          mem_everyValue.mpr henters.holds⟩)
    | false =>
      cases hhad : s.hadLabel raw l fun _ => true with
      | true =>
        -- A version kept has the label, and one had before.
        refine hsame (some l) key old
          ⟨fun _ => hrow.kept l ?_, fun _ => covered_iff.mp (by rw [hhad, Bool.or_true])⟩
        obtain ⟨entry, hentry, hl⟩ := any_eq_true.mp hhad
        exact ⟨entry, hentry, by simpa using hl⟩
      | false =>
        have hnot : ¬(s.row (.node raw)).Covered (some l) := fun hcov => by
          have := covered_iff.mpr hcov
          rw [hnewest, hhad] at this
          cases this
        refine ⟨fun value id hid => by simp [mem_removeAll, hid], fun hok => ⟨?_, ?_⟩⟩
        · intro value hin
          obtain ⟨hmem, hremoved⟩ := mem_removeAll.mp hin
          exact absurd ⟨rfl, mem_everyValue.mpr
            ((hholds key value).mpr (hok.sound value hmem).holds)⟩ hremoved
        · exact fun value henters _ => absurd henters.covered hnot
  · simp only [hwritten, Bool.false_eq_true, if_false]
    refine hsame (some l) key old (hrow.other l ?_)
    cases label with
    | none => exact absurd rfl hwritten
    | some written => exact ⟨written, rfl, by simpa using hwritten⟩

/-- **A create enters the node's values.** -/
theorem Indexed.indexCreated (h : before.Indexed) (hstep : NodeStep before s raw)
    (hnew : (before.row (.node raw)).version.created = none)
    (hlabels : (s.row (.node raw)).labels.kept = [])
    (hvalues : ∀ key, ((s.row (.node raw)).values key).kept = []) :
    (s.indexCreated raw).Indexed := by
  have hholds : ∀ key value, (s.row (.node raw)).Holds key value ↔
      value ∈ ((s.nodes.columns key).values raw).toList := fun key value => by
    rw [Holds, hvalues key, mem_toList]
    simp only [not_mem_nil, false_and, exists_false, or_false]
    rfl
  have hcovered : ∀ l, (s.row (.node raw)).Covered (some l) ↔ s.hasNewestLabel raw l = true := by
    intro l
    simp only [Covered, hlabels, mem_some_iff, forall_eq', not_mem_nil, false_and,
      exists_false, or_false, hasNewestLabel, decide_eq_true_eq]
    rfl
  -- The index had no entry of the node.
  have hnone : ∀ {label key} {index : PropertyIndex Value}, before.EntriesAt raw label key index →
      ∀ value, (value, raw) ∉ index := by
    intro label key index hok value hmem
    have := (hok.sound value hmem).created
    rw [hnew] at this
    cases this
  have hinserted : ∀ label key (index : PropertyIndex Value), (s.row (.node raw)).Covered label →
      Follows before s raw label key index
        (insertAll index ((s.nodes.columns key).values raw).toList raw) := by
    intro label key index hlabel
    refine ⟨fun value id hid => by simp [mem_insertAll, hid], fun hok =>
      ⟨fun value hin => ⟨hstep.created, hlabel, (hholds key value).mpr ?_⟩, fun value henters _ =>
        mem_insertAll.mpr (.inl ⟨rfl, (hholds key value).mp henters.holds⟩)⟩⟩
    exact ((mem_insertAll.mp hin).resolve_right (hnone hok value)).2
  unfold Store.indexCreated
  refine hstep.mapIndexes h (fun key old => hinserted none key old (covered_none _))
    fun l key old => ?_
  split
  next hnewest => exact hinserted (some l) key old ((hcovered l).mpr hnewest)
  next hnewest =>
    exact .same fun hok => ⟨fun value hin => absurd hin (hnone hok value),
      fun value henters _ => absurd ((hcovered l).mp henters.covered) hnewest⟩

/-- **A row taken out leaves no entry.** -/
theorem Indexed.unindex (h : before.Indexed) (hhas : before.has (.node raw) = true)
    (hindexes : s.indexes = (before.unindex raw).indexes) (hfloor : s.floor = before.floor)
    (hother : ∀ id, id ≠ raw → s.row (.node id) = before.row (.node id))
    (hrow : (s.row (.node raw)).version.created = none) : s.Indexed := by
  have hnode : before.nodes.versions.has raw = true := hhas
  unfold Store.unindex at hindexes
  rw [if_pos hnode] at hindexes
  refine h.of_node hfloor hother fun label key index hhas => ?_
  have hmap : (before.mapIndexes (fun key index => removeAll index (before.everyValue raw key) raw)
      fun _ key index => removeAll index (before.everyValue raw key) raw).HasIndex
        label key index := by
    cases label <;> simpa [HasIndex, hindexes] using hhas
  obtain ⟨old, hmem, hindex⟩ := hasIndex_mapIndexes.mp hmap
  have hindex : index = removeAll old (before.everyValue raw key) raw := by
    cases label <;> exact hindex
  subst hindex
  refine ⟨old, hmem, fun value id hid => by simp [mem_removeAll, hid], fun hok => ⟨?_, ?_⟩⟩
  · intro value hin
    obtain ⟨hold, hremoved⟩ := mem_removeAll.mp hin
    exact absurd ⟨rfl, mem_everyValue.mpr (hok.sound value hold).holds⟩ hremoved
  · intro value henters
    have := henters.created
    rw [hrow] at this
    cases this

end Store

variable {Name Value : Type} {row : Row Name Value}

open PropertyIndex

namespace Store

variable [DecidableEq Name] [DecidableEq Value] {s before : Store Name Value} {raw : Nat}
  {label : Option Name} {key : Name} {value : Value} {index : PropertyIndex Value} {horizon : Nat}

theorem mapIndexes_mapIndexes (s : Store Name Value)
    (f g : Name → PropertyIndex Value → PropertyIndex Value)
    (f' g' : Name → Name → PropertyIndex Value → PropertyIndex Value) :
    (s.mapIndexes f f').mapIndexes g g' = s.mapIndexes (fun key index => g key (f key index))
        fun label key index => g' label key (f' label key index) := by
  simp [mapIndexes, Function.comp_def]

/-- Whether a collect at `horizon` takes the entry of `value` of node `raw` out of the index on
`key` (of `label`). -/
def drops (s : Store Name Value) (horizon : Nat) (label : Option Name) (key : Name) (raw : Nat)
    (value : Value) : Bool :=
  if (s.nodes.versions.get raw).deleted.any (Stamp.committedBy horizon) then
    decide (value ∈ s.everyValue raw key)
  else
    decide (value ∈ s.droppedValues raw key horizon) || label.any fun l =>
        !((s.labels.cell raw).kept.isEmpty || s.hasNewestLabel raw l ||
          s.hadLabel raw l fun stamp => !stamp.committedBy horizon) &&
        decide (value ∈ s.everyValue raw key)

/-- The index without the entries of `raws` that a collect at `horizon` takes out. -/
def collectedIndex (s : Store Name Value) (horizon : Nat) (raws : List Nat) (label : Option Name)
    (key : Name) (index : PropertyIndex Value) : PropertyIndex Value :=
  index.filter fun entry => !(decide (entry.2 ∈ raws) && s.drops horizon label key entry.2 entry.1)

theorem mem_collectedIndex {raws : List Nat} :
    (value, raw) ∈ s.collectedIndex horizon raws label key index ↔
      (value, raw) ∈ index ∧ ¬(raw ∈ raws ∧ s.drops horizon label key raw value = true) := by
  simp only [collectedIndex, mem_filter, Bool.not_eq_true', Bool.and_eq_false_iff,
    decide_eq_false_iff_not, not_and_or, Bool.not_eq_true]

theorem unindexCollected_eq_filter
    (hdeleted : (s.version (.node raw)).deleted.isSome = true → s.has (.node raw) = true) :
    s.unindexCollected horizon raw = s.mapIndexes (s.collectedIndex horizon [raw] none)
        fun label => s.collectedIndex horizon [raw] (some label) := by
  have hcongr : ∀ (index : PropertyIndex Value) (values : List Value) (label : Option Name)
      (key : Name), (∀ value, decide (value ∈ values) = s.drops horizon label key raw value) →
      removeAll index values raw = s.collectedIndex horizon [raw] label key index := by
    intro index values label key hvalues
    rw [removeAll_eq_filter]
    refine filter_congr fun entry _ => ?_
    by_cases hraw : entry.2 = raw
    · simp [hraw, hvalues]
    · simp [hraw]
  unfold unindexCollected
  cases hgone : (s.nodes.versions.get raw).deleted.any (Stamp.committedBy horizon) with
  | true =>
    have hrow : (s.row (.node raw)).Gone horizon := hgone
    have hhas : s.nodes.versions.has raw = true := hdeleted hrow.isSome
    simp only [if_true, unindex, hhas]
    congr 1
    · funext key index
      exact hcongr index _ none key fun value => by simp [drops, hgone]
    · funext label key index
      exact hcongr index _ (some label) key fun value => by simp [drops, hgone]
  | false =>
    simp only [Bool.false_eq_true, if_false]
    congr 1
    · funext key index
      exact hcongr index _ none key fun value => by simp [drops, hgone]
    funext label key index
    cases hstays : (s.labels.cell raw).kept.isEmpty || s.hasNewestLabel raw label ||
        s.hadLabel raw label fun stamp => !stamp.committedBy horizon with
    | true =>
      exact hcongr index _ (some label) key fun value => by
        simp only [drops, hgone, Bool.false_eq_true, if_false, any_some, hstays,
          Bool.not_true, Bool.false_and, Bool.or_false]
    | false =>
      have happend : removeAll (removeAll index (s.droppedValues raw key horizon) raw)
          (s.everyValue raw key) raw =
          removeAll index (s.droppedValues raw key horizon ++ s.everyValue raw key) raw :=
        (foldl_append ..).symm
      rw [happend]
      exact hcongr index _ (some label) key fun value => by
        simp only [drops, hgone, Bool.false_eq_true, if_false, any_some, hstays,
          Bool.not_false, Bool.true_and, mem_append, Bool.decide_or]

theorem collectedIndex_comp (s : Store Name Value) (horizon : Nat)
    (raws more : List Nat) (label : Option Name) (key : Name) (index : PropertyIndex Value) :
    s.collectedIndex horizon more label key (s.collectedIndex horizon raws label key index) =
      s.collectedIndex horizon (raws ++ more) label key index := by
  unfold collectedIndex
  rw [List.filter_filter]
  refine filter_congr fun entry _ => ?_
  by_cases hraws : entry.2 ∈ raws <;> by_cases hmore : entry.2 ∈ more <;> simp [hraws, hmore]

theorem collectedIndex_mapIndexes (s : Store Name Value) (f g) :
    (s.mapIndexes f g).collectedIndex = s.collectedIndex := rfl

/-- The rows of `raws` leave the indexes, whatever their order. -/
theorem foldl_unindexCollected (hdeleted : ∀ raw, (s.version (.node raw)).deleted.isSome = true →
      s.has (.node raw) = true) (raws : List Nat) :
    raws.foldl (fun s raw => s.unindexCollected horizon raw) s =
      s.mapIndexes (s.collectedIndex horizon raws none)
        fun label => s.collectedIndex horizon raws (some label) := by
  -- The tables stay, so that what goes is read of the same rows at each one's turn.
  induction raws using reverseRecOn with
  | nil =>
    rw [foldl_nil]
    have hnil : ∀ label key (index : PropertyIndex Value),
        s.collectedIndex horizon [] label key index = index := fun label key index => by
      simp [collectedIndex]
    simp [mapIndexes, hnil, List.map_id']
  | append_singleton raws raw ih =>
    rw [foldl_append, foldl_cons, foldl_nil, ih,
      unindexCollected_eq_filter (s := s.mapIndexes ..) (hdeleted raw), mapIndexes_mapIndexes]
    simp [collectedIndex_mapIndexes, collectedIndex_comp]

/-- The values a collect drops are those it leaves in no version. -/
theorem mem_droppedValues : value ∈ s.droppedValues raw key horizon ↔
    (s.row (.node raw)).Holds key value ∧
      ¬(((s.row (.node raw)).values key).collect horizon).value = some value ∧
      ¬∃ entry ∈ (((s.row (.node raw)).values key).collect horizon).kept, entry.2 = some value := by
  have hcell : (s.row (.node raw)).values key = (s.nodes.columns key).cell raw := rfl
  simp only [droppedValues, Holds, hcell, mem_filter, mem_filterMap, Cell.collect,
    Bool.and_eq_true, decide_eq_true_eq, Bool.not_eq_true', List.any_eq_false, ne_eq]
  constructor
  · rintro ⟨⟨entry, ⟨hentry, -⟩, hvalue⟩, hnewest, hstays⟩
    refine ⟨.inr ⟨entry, hentry, hvalue⟩, hnewest, ?_⟩
    rintro ⟨other, hother, hheld⟩
    exact hstays other hother hheld
  · rintro ⟨hholds, hnewest, hstays⟩
    obtain ⟨entry, hentry, hvalue⟩ := hholds.resolve_left hnewest
    refine ⟨⟨entry, ⟨hentry, ?_⟩, hvalue⟩, hnewest, fun other hother hheld => hstays ⟨other, hother, hheld⟩⟩
    by_contra hcommitted
    exact hstays ⟨entry, ⟨hentry, by simpa using hcommitted⟩, hvalue⟩

end Store

theorem Row.Gone.mono {floor floor' : Nat} (h : row.Gone floor)
    (hle : floor ≤ floor') : row.Gone floor' := by
  obtain ⟨stamp, hd, h⟩ := (Option.any_eq_true ..).mp h
  exact (Option.any_eq_true ..).mpr ⟨stamp, hd, committedBy_mono h hle⟩

/-- A settled row no delete took out of every view is not deleted. -/
theorem Row.not_deleted_of_not_gone {horizon : Nat} (hgone : ¬row.Gone horizon)
    (hsettled : row.version.SettledBy horizon) : row.version.deleted = none := by
  have hall := hsettled.2
  cases hd : row.version.deleted with
  | none => rfl
  | some stamp =>
    rw [hd, all_some] at hall
    exact absurd (by rw [Gone, hd]; exact hall) hgone

section Collected

open Store

variable [DecidableEq Name] [DecidableEq Value] {s : Store Name Value} {raw : Nat}
  {label : Option Name} {key : Name} {horizon : Nat}

/-- **A collect takes out the entries of what it drops**, and no other. -/
theorem EntriesOk.collected {floor floor' : Nat} {has : Value → Prop}
    (h : EntriesOk floor (s.row (.node raw)) label key has) {collapsed : Bool}
    (hsettled : collapsed = true → (s.row (.node raw)).version.SettledBy horizon)
    (hhorizon : horizon ≤ floor') (hfloor : floor ≤ floor') :
    EntriesOk floor' ((s.row (.node raw)).collect horizon collapsed) label key fun value =>
      has value ∧ s.drops horizon label key raw value = false := by
  by_cases hgone : (s.row (.node raw)).Gone horizon
  · -- No view from the horizon on has the row: no entry stays.
    have hany : (s.nodes.versions.get raw).deleted.any (Stamp.committedBy horizon) = true := hgone
    refine ⟨fun value hvalue => ?_, fun value henters hnot => ?_⟩
    · obtain ⟨hhas, hdrops⟩ := hvalue
      rw [drops, if_pos hany, decide_eq_false_iff_not] at hdrops
      exact absurd (mem_everyValue.mpr (h.sound value hhas).holds) hdrops
    exfalso
    unfold Row.collect at henters hnot
    cases collapsed with
    | true =>
      rw [if_pos ⟨rfl, hgone.isSome⟩] at henters
      exact absurd henters.created (by simp)
    | false =>
      exact hnot (Gone.mono hgone hhorizon)
  · have hdeleted := fun hcollapsed => not_deleted_of_not_gone hgone (hsettled hcollapsed)
    have hdrops : ∀ value, s.drops horizon label key raw value = false ↔
        value ∉ s.droppedValues raw key horizon ∧ ∀ l ∈ label,
          ((s.labels.cell raw).kept.isEmpty || s.hasNewestLabel raw l ||
            s.hadLabel raw l fun stamp => !stamp.committedBy horizon) = true ∨
          value ∉ s.everyValue raw key := fun value => by
      have hany : ¬(s.nodes.versions.get raw).deleted.any (Stamp.committedBy horizon) = true :=
        hgone
      rw [drops, if_neg hany, Bool.or_eq_false_iff, decide_eq_false_iff_not]
      refine and_congr_right fun _ => ?_
      cases label with
      | none => simp
      | some l =>
        simp only [any_some, Bool.and_eq_false_iff, decide_eq_false_iff_not,
          Bool.not_eq_false', mem_some_iff, forall_eq']
    have hcreated : (if collapsed = true then (s.row (.node raw)).version.collapse
        else (s.row (.node raw)).version).created.isSome =
          (s.row (.node raw)).version.created.isSome := by
      cases collapsed with
      | false => rfl
      | true =>
        simp only [if_true, RowVersion.collapse, hdeleted rfl]
        cases (s.row (.node raw)).version.created <;> rfl
    rw [collect_of_live hdeleted]
    refine ⟨fun value hvalue => ?_, fun value henters hnot => ?_⟩
    · obtain ⟨hhas, hstays⟩ := hvalue
      have hold := h.sound value hhas
      obtain ⟨hvalue, hlabel⟩ := (hdrops value).mp hstays
      refine ⟨hcreated.trans hold.created, fun l hl => ?_, ?_⟩
      · rcases hlabel l hl with hcovered | hnone
        · simp only [Bool.or_eq_true] at hcovered
          rcases hcovered with (hempty | hnewest) | hhad
          · refine .inl ((hold.covered l hl).resolve_right ?_)
            rintro ⟨entry, hentry, -⟩
            have hnil : (s.row (.node raw)).labels.kept = [] := isEmpty_iff.mp hempty
            rw [hnil] at hentry
            cases hentry
          · exact .inl (of_decide_eq_true hnewest)
          · obtain ⟨entry, hentry, hpast⟩ := any_eq_true.mp hhad
            rw [Bool.and_eq_true, decide_eq_true_eq] at hpast
            exact .inr ⟨entry, mem_filter.mpr ⟨hentry, hpast.1⟩, hpast.2⟩
        · exact absurd (mem_everyValue.mpr hold.holds) hnone
      · by_contra hnot
        rw [Holds, not_or] at hnot
        exact hvalue (mem_droppedValues.mpr ⟨hold.holds, hnot⟩)
    · have hkept : ∀ {T : Type} {cell : Cell T} {entry}, entry ∈ (cell.collect horizon).kept →
          entry ∈ cell.kept := fun hentry => mem_of_mem_filter hentry
      have hholds : (s.row (.node raw)).Holds key value :=
        henters.holds.imp_right (Exists.imp fun _ => .imp_left hkept)
      refine ⟨h.complete value ⟨hcreated.symm.trans henters.created, fun l hl => ?_, hholds⟩
        fun hold => ?_, (hdrops value).mpr ⟨fun hdropped => ?_, fun l hl => .inl ?_⟩⟩
      · exact (henters.covered l hl).imp_right (Exists.imp fun _ => .imp_left hkept)
      · refine hnot ?_
        cases collapsed with
        | false => exact Gone.mono hold hfloor
        | true =>
          have := hold.isSome
          rw [hdeleted rfl] at this
          cases this
      · obtain ⟨-, hnewest, hstays⟩ := mem_droppedValues.mp hdropped
        exact henters.holds.elim hnewest hstays
      · rcases henters.covered l hl with hnewest | ⟨entry, hentry, hmem⟩
        · have : s.hasNewestLabel raw l = true := decide_eq_true hnewest
          rw [this, Bool.or_true, Bool.true_or]
        · have : (s.hadLabel raw l fun stamp => !stamp.committedBy horizon) = true := by
            obtain ⟨hin, hpast⟩ := mem_filter.mp hentry
            exact any_eq_true.mpr ⟨entry, hin,
              (Bool.and_eq_true ..).mpr ⟨hpast, decide_eq_true hmem⟩⟩
          rw [this, Bool.or_true]

end Collected

end Grafeo.RowGroup
