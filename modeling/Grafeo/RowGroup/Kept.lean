import Mathlib.Data.List.Induction
import Grafeo.RowGroup.Chains

/-!
# Grafeo.RowGroup.Kept

The update chains **row by row**: what is kept of a row, oldest first, each value
with who wrote over it (`keptStamped`), and the stamps of a vector's nodes
(`stampsOf`). Each operation on the table is one equation about what is kept of one
row; a commit and a collect are the same change of every row's list.

A read is a scan of the row's own list (`saved_eq`): the nodes that do not hold the
row, the packing and the counts have no part in it.
-/

namespace Grafeo.RowGroup

open Lib List Option UndoNode

variable {T : Type} {nodes : List (UndoNode T)} {snapshot : Nat} {row : Nat}
  {K : List (Stamp × T)} {node : UndoNode T}

namespace Updates

/-- What `nodes` keep of a row, oldest first. -/
def keptIn (nodes : List (UndoNode T)) (row : Nat) : List (Stamp × T) :=
  nodes.filterMap fun node => (node.get row).map fun kept => (node.stamp, kept)

/-- The stamps of a vector's nodes, oldest first. -/
def stampsOf (updates : Updates T) (vector : Nat) : List Stamp :=
  (updates.nodesOf vector).map UndoNode.stamp

variable {updates updates' : Updates T} {row vector : Nat} {stamp : Stamp}

theorem keptStamped_eq (updates : Updates T) (row : Nat) :
    updates.keptStamped row = keptIn (updates.nodesOf (vectorOf row)) (offset row) := by
  unfold keptStamped chain nodesOf
  cases updates.get? (vectorOf row) <;> rfl

@[simp] theorem keptIn_nil (row : Nat) : keptIn ([] : List (UndoNode T)) row = [] := rfl

theorem keptIn_append (nodes nodes' : List (UndoNode T)) (row : Nat) :
    keptIn (nodes ++ nodes') row = keptIn nodes row ++ keptIn nodes' row :=
  filterMap_append

theorem keptIn_first (node : UndoNode T) (nodes : List (UndoNode T)) (row : Nat) :
    keptIn (node :: nodes) row = keptIn [node] row ++ keptIn nodes row :=
  keptIn_append [node] nodes row

theorem keptIn_cons (node : UndoNode T) (nodes : List (UndoNode T)) (row : Nat) :
    keptIn (node :: nodes) row =
      ((node.get row).map fun kept => (node.stamp, kept)).toList ++ keptIn nodes row := by
  unfold keptIn
  rw [filterMap_cons]
  cases node.get row <;> rfl

theorem keptIn_eq_nil : keptIn nodes row = [] ↔ ∀ node ∈ nodes, node.get row = none := by
  simp [keptIn, filterMap_eq_nil_iff]

theorem mem_keptIn {s : Stamp} {v : T} :
    (s, v) ∈ keptIn nodes row ↔ ∃ node ∈ nodes, node.stamp = s ∧ node.get row = some v := by
  simp only [keptIn, mem_filterMap, map_eq_some_iff, Prod.mk.injEq]
  constructor
  · rintro ⟨node, hnode, w, hw, rfl, rfl⟩
    exact ⟨node, hnode, rfl, hw⟩
  · rintro ⟨node, hnode, rfl, hv⟩
    exact ⟨node, hnode, v, hv, rfl, rfl⟩

/-- The last of what is kept of a row stands in the newest node that holds it. -/
theorem cut_of_keptIn {s : Stamp} {v : T} (h : keptIn nodes row = K ++ [(s, v)]) :
    ∃ older node newer, nodes = older ++ node :: newer ∧ keptIn older row = K ∧
      node.stamp = s ∧ node.get row = some v ∧ ∀ m ∈ newer, m.get row = none := by
  obtain ⟨older, rest, rfl, hK, hrest⟩ := filterMap_eq_append_iff.mp h
  obtain ⟨skipped, node, newer, rfl, hskipped, hnode, hnewer⟩ := filterMap_eq_cons_iff.mp hrest
  obtain ⟨w, hw, heq⟩ := map_eq_some_iff.mp hnode
  cases heq
  refine ⟨older ++ skipped, node, newer, by simp, ?_, rfl, hw, keptIn_eq_nil.mp hnewer⟩
  have hnone : keptIn skipped row = [] := filterMap_eq_nil_iff.mpr hskipped
  rw [keptIn_append, hnone, append_nil]
  exact hK

/-- The row of the group that stands at `r` in vector `v`. -/
theorem row_of {v r : Nat} (hr : r < vectorRows) :
    vectorOf (v * vectorRows + r) = v ∧ offset (v * vectorRows + r) = r := by
  unfold vectorOf offset vectorRows at *
  omega

theorem get?_of_isEmpty (h : updates.isEmpty = true) (vector : Nat) :
    updates.get? vector = none := by
  unfold Packed.get?
  split
  · simp [isEmpty_iff.mp h]
  · rfl

theorem keptStamped_of_isEmpty (h : updates.isEmpty = true) (row : Nat) :
    updates.keptStamped row = [] := by
  rw [keptStamped, chain, get?_of_isEmpty h]

/-! ### Reads -/

/-- The scan of `saved` over what is kept of the row, newest first. -/
def rowScan (read : Read) : List (Stamp × T) → Option T → Option T
  | [], saved => saved
  | (s, v) :: older, saved =>
      if !read.sees s then rowScan read older (some v)
      else if s.isPending then none else saved

theorem savedScan_eq (row : Nat) (read : Read) (nodes : List (UndoNode T)) (saved : Option T) :
    Chain.savedScan row read nodes.reverse saved =
      rowScan read (keptIn nodes row).reverse saved := by
  induction nodes using reverseRecOn generalizing saved with
  | nil => rfl
  | append_singleton nodes node ih =>
    rw [keptIn_append, reverse_concat, reverse_append, Chain.savedScan, keptIn_cons, keptIn_nil,
      append_nil]
    cases hget : node.get row with
    | none => simp [holds_eq_false.mpr hget, ih]
    | some v =>
      have hholds := holds_iff.mpr ⟨v, hget⟩
      cases hsees : read.sees node.stamp with
      | false => simp [ih, rowScan, hsees]
      | true =>
        simp [hholds, rowScan, hsees, isPending]
        rfl

/-- A reader that sees every write of a row takes the column's value. -/
theorem rowScan_of_sees {read : Read}
    (h : ∀ entry ∈ K, read.sees entry.1 = true) : rowScan read K none = none := by
  cases K with
  | nil => rfl
  | cons entry K =>
    obtain ⟨s, v⟩ := entry
    simp [rowScan, h (s, v) mem_cons_self]

/-! ### The search of a writer's own node -/

theorem heldBy_mem (h : Chain.heldBy row stamp snapshot nodes = true) :
    ∃ node ∈ nodes, node.stamp = stamp ∧ node.holds row = true := by
  induction nodes with
  | nil => cases h
  | cons node nodes ih =>
    rw [Chain.heldBy] at h
    split at h
    next hown => exact ⟨node, mem_cons_self, hown⟩
    split at h
    · cases h
    · obtain ⟨m, hm, hown⟩ := ih h
      exact ⟨m, mem_cons_of_mem _ hm, hown⟩

/-- A node found is the writer's, and it holds the row. -/
theorem mem_of_held (h : updates.held row stamp snapshot = true) :
    ∃ v, (stamp, v) ∈ updates.keptStamped row := by
  rw [held_eq] at h
  obtain ⟨node, hnode, hstamp, hholds⟩ := heldBy_mem h
  obtain ⟨v, hv⟩ := holds_iff.mp hholds
  rw [keptStamped_eq]
  exact ⟨v, mem_keptIn.mpr ⟨node, mem_reverse.mp hnode, hstamp, hv⟩⟩

/-- A writer's node that holds the row is found, where no node newer than one of the
writer's is committed by the writer's snapshot. -/
theorem held_of_mem {v : T} (hmem : (stamp, v) ∈ updates.keptStamped row)
    (hnewer : (updates.stampsOf (vectorOf row)).Pairwise fun a b =>
      a = stamp → b.committedBy snapshot = false) : updates.held row stamp snapshot = true := by
  rw [keptStamped_eq] at hmem
  rw [held_eq]
  rw [stampsOf, pairwise_map] at hnewer
  generalize updates.nodesOf (vectorOf row) = nodes at hmem hnewer
  induction nodes using reverseRecOn with
  | nil => cases hmem
  | append_singleton nodes node ih =>
    rw [reverse_concat, Chain.heldBy]
    by_cases hthis : node.stamp = stamp ∧ node.holds (offset row) = true
    · rw [if_pos hthis]
    rw [if_neg hthis]
    obtain ⟨hpair, -, hlast⟩ := pairwise_append.mp hnewer
    -- The node that holds the row is older than this one.
    obtain ⟨m, hm, hs, hv⟩ := mem_keptIn.mp hmem
    have hm' : m ∈ nodes := by
      rcases mem_append.mp hm with hm | hm
      · exact hm
      · rw [mem_singleton.mp hm] at hs hv
        exact absurd ⟨hs, holds_iff.mpr ⟨v, hv⟩⟩ hthis
    rw [if_neg (by rw [hlast m hm' node mem_cons_self hs]; decide)]
    exact ih (mem_keptIn.mpr ⟨m, hm', hs, hv⟩) hpair

/-! ### The operations, row by row -/

/-- One vector's nodes changed: what became of one row of it, all the others being
what they were. -/
theorem Becomes.kept (h : Becomes updates updates' (vectorOf row) nodes)
    (hnodes : ∀ r, keptIn nodes r =
      if r = offset row then K else keptIn (updates.nodesOf (vectorOf row)) r) (r : Nat) :
    updates'.keptStamped r = if r = row then K else updates.keptStamped r := by
  rw [keptStamped_eq, keptStamped_eq, h.nodesOf]
  by_cases hv : vectorOf r = vectorOf row
  · rw [if_pos hv, hnodes, hv]
    by_cases ho : offset r = offset row
    · rw [if_pos ho, if_pos (row_eq_iff.mpr ⟨hv, ho⟩)]
    · rw [if_neg ho, if_neg fun hr => ho (row_eq_iff.mp hr).2]
  · rw [if_neg hv, if_neg fun hr => hv (row_eq_iff.mp hr).1]

theorem Becomes.stampsOf (h : Becomes updates updates' vector nodes) (v : Nat) :
    updates'.stampsOf v = if v = vector then nodes.map UndoNode.stamp else updates.stampsOf v := by
  unfold Updates.stampsOf
  rw [h.nodesOf]
  split <;> rfl

theorem Becomes.stampsOf_sublist (h : Becomes updates updates' vector nodes)
    (hnodes : (nodes.map UndoNode.stamp).Sublist (updates.stampsOf vector)) (v : Nat) :
    (updates'.stampsOf v).Sublist (updates.stampsOf v) := by
  rw [h.stampsOf]
  split
  next hv => rwa [hv]
  · exact .refl _

theorem keptIn_of_addsRow {nodes nodes' : List (UndoNode T)} {current : T}
    (h : AddsRow nodes nodes' row stamp current) (r : Nat) :
    keptIn nodes' r =
      if r = row then keptIn nodes row ++ [(stamp, current)] else keptIn nodes r := by
  obtain ⟨older, node, node', rfl, rfl, hs, hs', hnone, hget⟩ | rfl := h
  · rw [keptIn_append, keptIn_append, keptIn_append, keptIn_cons, keptIn_cons, keptIn_cons,
      hget, hs, hs', hnone]
    by_cases hr : r = row
    · rw [if_pos hr, if_pos hr, hr]
      simp
    · rw [if_neg hr, if_neg hr]
  · rw [keptIn_append, keptIn_cons, get_single]
    by_cases hr : r = row
    · rw [if_pos hr, if_pos hr, hr]
      rfl
    · rw [if_neg hr, if_neg hr]
      simp

theorem keep_of_held (current : T) (hheld : updates.held row stamp snapshot = true) :
    updates.keep row stamp snapshot current = (updates, false) := by
  rw [keep, if_pos hheld]

theorem keptIn_withoutRow (h : node.Ok) (row r : Nat) :
    keptIn (withoutRow node row) r = if r = row then [] else keptIn [node] r := by
  obtain ⟨hasc, hget⟩ := dropRow_rows h.ascending row
  have hdropped : keptIn (withoutRow node row) r = keptIn [node.dropRow row] r := by
    unfold withoutRow
    split
    next hempty =>
      have hnone := (get_eq_none_iff hasc).mpr (isEmpty_iff.mp hempty) r
      simp [keptIn_cons, hnone]
    · rfl
  rw [hdropped, keptIn_cons, keptIn_cons, hget, dropRow_stamp]
  by_cases hr : r = row <;> simp [hr]

theorem stamps_withoutRow (node : UndoNode T) (row : Nat) :
    ((withoutRow node row).map UndoNode.stamp).Sublist [node.stamp] := by
  unfold withoutRow
  split
  · exact nil_sublist _
  · simp

theorem keptIn_uncollected (horizon : Nat) (nodes : List (UndoNode T)) (row : Nat) :
    keptIn (uncollected horizon nodes) row =
      (keptIn nodes row).filter fun entry => !entry.1.committedBy horizon := by
  induction nodes with
  | nil => rfl
  | cons node nodes ih =>
    have hcons : uncollected horizon (node :: nodes) =
        (if !node.stamp.committedBy horizon then [node] else []) ++ uncollected horizon nodes := by
      rw [uncollected, filter_cons]
      split <;> rfl
    rw [hcons, keptIn_append, ih, keptIn_cons, filter_append]
    cases hget : node.get row <;> cases hc : node.stamp.committedBy horizon <;>
      simp [keptIn_cons, hget, hc]

theorem keptIn_flatMap_withoutRow (h : NodesOk nodes) (row r : Nat) :
    keptIn (nodes.flatMap fun node => withoutRow node row) r =
      if r = row then [] else keptIn nodes r := by
  induction nodes with
  | nil => simp
  | cons node nodes ih =>
    rw [flatMap_cons, keptIn_append, keptIn_withoutRow (h node mem_cons_self),
      ih fun m hm => h m (mem_cons_of_mem _ hm), keptIn_first node nodes]
    split <;> rfl

section

variable (h : updates.WF)
include h

/-- Every node keeps something of a row. -/
theorem WF.exists_kept (hnode : node ∈ updates.nodesOf vector) :
    ∃ row v, vectorOf row = vector ∧ node.get (offset row) = some v ∧
      (node.stamp, v) ∈ updates.keptStamped row := by
  obtain ⟨r, v, hget⟩ := (h.nodesOk vector node hnode).exists_get
  obtain ⟨hv, ho⟩ := row_of (v := vector) ((h.nodesOk vector node hnode).small r v hget)
  refine ⟨vector * vectorRows + r, v, hv, by rw [ho, hget], ?_⟩
  rw [keptStamped_eq, hv, ho]
  exact mem_keptIn.mpr ⟨node, hnode, rfl, hget⟩

/-- A vector with a chain has a node. -/
theorem WF.nodesOf_ne_nil (hchain : updates.hasChain vector = true) :
    updates.nodesOf vector ≠ [] := by
  obtain ⟨slots, rfl, hlen, hwf⟩ := h
  have hmark : (Packed.pack slots).places.getD vector 0 ≠ 0 := by simpa [hasChain] using hchain
  have hlt : vector < slots.length := by
    by_contra hge
    refine hmark (getD_eq_default _ _ ?_)
    simpa [Packed.pack] using hge
  cases hslot : slots[vector]? with
  | none => exact absurd (getElem?_eq_none_iff.mp hslot) (by omega)
  | some slot =>
    cases slot with
    | none =>
      obtain ⟨place, hfind, -⟩ := Packed.find_pack_empty hslot
      unfold Packed.find at hfind
      split at hfind
      next hzero => exact absurd hzero hmark
      · cases hfind
    | some chain =>
      rw [nodesOf_pack, hslot]
      exact (hwf vector chain hslot).nonempty

/-- What is kept is kept of rows of the row group. -/
theorem WF.lt_of_mem_kept {entry : Stamp × T} (hmem : entry ∈ updates.keptStamped row) :
    row < rowsPerGroup := by
  obtain ⟨slots, rfl, hlen, -⟩ := h
  by_contra hge
  have hv : slots.length ≤ vectorOf row := by
    unfold vectors vectorOf vectorRows rowsPerGroup at *
    omega
  rw [keptStamped_eq, nodesOf, Packed.get?_pack, getElem?_eq_none hv] at hmem
  cases hmem

/-- No vector has a chain where nothing is kept of any row. -/
theorem WF.isEmpty_of_kept (hkept : ∀ row, updates.keptStamped row = []) :
    updates.isEmpty = true := by
  have hnodes : ∀ v, updates.nodesOf v = [] := by
    intro v
    refine eq_nil_iff_forall_not_mem.mpr fun node hnode => ?_
    obtain ⟨row, w, -, -, hmem⟩ := h.exists_kept hnode
    rw [hkept] at hmem
    cases hmem
  obtain ⟨slots, rfl, -, hwf⟩ := h
  refine isEmpty_iff.mpr (eq_nil_iff_forall_not_mem.mpr fun chain hchain => ?_)
  obtain ⟨v, hv⟩ := mem_iff_getElem?.mp (reduceOption_mem_iff.mp hchain)
  have := hnodes v
  rw [nodesOf_pack, hv] at this
  exact (hwf v chain hv).nonempty this

/-- What a read takes from the chains, whether or not it passes the row's chain by. -/
theorem WF.saved_eq (row : Nat) (read : Read) :
    updates.saved row read = rowScan read (updates.keptStamped row).reverse none := by
  rw [keptStamped_eq, ← savedScan_eq]
  unfold saved chain nodesOf
  cases hget : updates.get? (vectorOf row) with
  | none => rfl
  | some chain =>
    simp only [nodesIn]
    by_cases hseen : chain.seenWholeBy read = true
    · rw [if_pos hseen, savedScan_eq, rowScan_of_sees]
      intro entry hentry
      obtain ⟨s, v⟩ := entry
      obtain ⟨node, hnode, rfl, -⟩ := mem_keptIn.mp (mem_reverse.mp hentry)
      exact (h.get?_wf hget).counted.sees hseen hnode
    · rw [if_neg hseen]

/-- A collect drops, of every row, what was kept for the readers before the horizon. -/
theorem WF.collect_kept (horizon : Nat) : (updates.collect horizon).1.WF ∧
      (∀ r, (updates.collect horizon).1.keptStamped r =
        (updates.keptStamped r).filter fun entry => !entry.1.committedBy horizon) ∧
      ∀ v, ((updates.collect horizon).1.stampsOf v).Sublist (updates.stampsOf v) := by
  obtain ⟨hwf, hnodes⟩ := h.collect horizon
  refine ⟨hwf, fun r => ?_, fun v => ?_⟩
  · rw [keptStamped_eq, keptStamped_eq, hnodes, keptIn_uncollected]
  · rw [stampsOf, hnodes]
    exact filter_sublist.map _

theorem WF.collectVector_kept (hv : vector < vectors) (horizon : Nat) :
    (updates.collectVector vector horizon).1.WF ∧
      (∀ r, (updates.collectVector vector horizon).1.keptStamped r =
        if vectorOf r = vector then
          (updates.keptStamped r).filter fun entry => !entry.1.committedBy horizon
        else updates.keptStamped r) ∧
      ∀ v, ((updates.collectVector vector horizon).1.stampsOf v).Sublist
        (updates.stampsOf v) := by
  have hbecomes := h.collectVector hv horizon
  refine ⟨hbecomes.wf, fun r => ?_, hbecomes.stampsOf_sublist (filter_sublist.map _)⟩
  rw [keptStamped_eq, keptStamped_eq, hbecomes.nodesOf]
  split
  next hr => rw [keptIn_uncollected, hr]
  · rfl

variable (hrow : row < rowsPerGroup)
include hrow

/-- A writer's first write of a row keeps what the row held, as the newest. -/
theorem WF.keep_kept (current : T) (hheld : updates.held row stamp snapshot = false) :
    ∃ updates', updates.keep row stamp snapshot current = (updates', true) ∧ updates'.WF ∧
      (∀ r, updates'.keptStamped r =
        if r = row then updates.keptStamped row ++ [(stamp, current)] else updates.keptStamped r) ∧
      ∀ v, updates'.stampsOf v = updates.stampsOf v ∨
        updates'.stampsOf v = updates.stampsOf v ++ [stamp] := by
  obtain ⟨updates', nodes', hkeep, hbecomes, hadds⟩ := h.keep hrow current hheld
  refine ⟨updates', hkeep, hbecomes.wf, hbecomes.kept fun r => ?_, fun v => ?_⟩
  · rw [keptIn_of_addsRow hadds, keptStamped_eq]
  rw [hbecomes.stampsOf]
  split
  next hv =>
    rw [hv]
    obtain ⟨older, node, node', hold, hnew, hs, hs', -⟩ | hnew := hadds
    · exact .inl (by simp [stampsOf, hold, hnew, hs, hs'])
    · exact .inr (by simp [stampsOf, hnew])
  · exact .inl rfl

/-- An undo of a writer's first write of a row takes out what it kept, the newest. -/
theorem WF.undo_kept {t : Nat} {v : T} (hkept : updates.keptStamped row = K ++ [(.pending t, v)]) :
    ∃ updates', updates.undo row (.pending t) = some (v, updates') ∧ updates'.WF ∧
      (∀ r, updates'.keptStamped r = if r = row then K else updates.keptStamped r) ∧
      ∀ v, (updates'.stampsOf v).Sublist (updates.stampsOf v) := by
  rw [keptStamped_eq] at hkept
  obtain ⟨older, node, newer, hcut, hK, hstamp, hnode, hnewer⟩ := cut_of_keptIn hkept
  obtain ⟨updates', hundo, hbecomes⟩ := h.undo hrow hcut hnode hnewer hstamp
  have hok : node.Ok := h.nodesOk (vectorOf row) node (by rw [hcut]; simp)
  refine ⟨updates', hundo, hbecomes.wf, hbecomes.kept fun r => ?_, hbecomes.stampsOf_sublist ?_⟩
  · rw [hcut, keptIn_append, keptIn_append, keptIn_withoutRow hok, keptIn_append,
      keptIn_first node newer]
    by_cases hr : r = offset row
    · rw [if_pos hr, if_pos hr, hr, hK, keptIn_eq_nil.mpr hnewer]
      simp
    · rw [if_neg hr, if_neg hr, append_assoc]
  · rw [Updates.stampsOf, hcut, map_append, map_append, map_append, ← singleton_append, map_append,
      append_assoc]
    exact (Sublist.refl _).append
      ((stamps_withoutRow node (offset row)).append (Sublist.refl _))

/-- Nothing stays kept of a row that is gone. -/
theorem WF.removeRow_kept :
    (updates.removeRow row).WF ∧ (∀ r, (updates.removeRow row).keptStamped r =
        if r = row then [] else updates.keptStamped r) ∧
      ∀ v, ((updates.removeRow row).stampsOf v).Sublist (updates.stampsOf v) := by
  have hbecomes := h.removeRow hrow
  refine ⟨hbecomes.wf, hbecomes.kept (keptIn_flatMap_withoutRow (h.nodesOk _) (offset row)),
    hbecomes.stampsOf_sublist ?_⟩
  rw [Updates.stampsOf]
  induction updates.nodesOf (vectorOf row) with
  | nil => exact .refl _
  | cons node nodes ih =>
    rw [flatMap_cons, map_append, map_cons, ← singleton_append]
    exact (stamps_withoutRow node (offset row)).append ih

end

/-! ### A commit of the rows a transaction wrote -/

/-- What a commit of transaction `t` at `epoch` makes of a stamp. -/
def restamp (t epoch : Nat) (stamp : Stamp) : Stamp :=
  if stamp = .pending t then .epoch epoch else stamp

/-- A node some row of which was stamped. -/
def restampNode (t epoch : Nat) (done : List Nat) (vector : Nat) (node : UndoNode T) : UndoNode T :=
  if node.stamp = .pending t ∧
      ∃ row ∈ done, vectorOf row = vector ∧ node.holds (offset row) = true then
    { node with stamp := .epoch epoch }
  else node

/-- Commits the rows transaction `t` wrote at `epoch`, an entry at a time: the newest
node of each is the transaction's (`check_kept`), or an earlier entry stamped it. -/
def stampRows (updates : Updates T) (t epoch : Nat) : List Nat → Option (Updates T)
  | [] => some updates
  | row :: rows =>
      match updates.stamp row (.pending t) epoch with
      | (updates, some before) =>
          if before = .pending t ∨ before = .epoch epoch then stampRows updates t epoch rows
          else none
      | (_, none) => none

variable {t epoch : Nat}

/-- The newest value kept of `row` is transaction `t`'s, and no other is. -/
def OwnsLast (updates : Updates T) (t row : Nat) : Prop :=
  ∃ K v, updates.keptStamped row = K ++ [(.pending t, v)] ∧ ∀ w, (.pending t, w) ∉ K

theorem restampNode_get (done : List Nat) (node : UndoNode T) (r : Nat) :
    (restampNode t epoch done vector node).get r = node.get r := by
  unfold restampNode
  split <;> rfl

/-- A row that a transaction's node does not hold, or another's does, changes nothing of
what became of the node. -/
theorem restampNode_cons {done : List Nat}
    (h : node.stamp = .pending t → vectorOf row = vector → node.get (offset row) = none) :
    restampNode t epoch (row :: done) vector node = restampNode t epoch done vector node := by
  unfold restampNode
  by_cases hs : node.stamp = .pending t
  · have hrow : ¬(vectorOf row = vector ∧ node.holds (offset row) = true) := by
      intro hrow
      have hnone := holds_eq_false.mpr (h hs hrow.1)
      rw [hrow.2] at hnone
      cases hnone
    simp [hrow]
  · simp [hs]

/-- What became of the chains once a commit of transaction `t` at `epoch` stamped the rows
`done`. -/
structure StampedTo (t epoch : Nat) (done : List Nat) (base updates : Updates T) : Prop where
  wf : updates.WF
  nodesOf : ∀ v, updates.nodesOf v = (base.nodesOf v).map (restampNode t epoch done v)

variable {base : Updates T} {done : List Nat}

theorem StampedTo.refl (h : base.WF) (t epoch : Nat) : StampedTo t epoch [] base base := by
  refine ⟨h, fun v => ?_⟩
  have hid : ∀ node ∈ base.nodesOf v, restampNode t epoch [] v node = node :=
    fun node _ => by simp [restampNode]
  rw [map_congr_left hid, List.map_id']

/-- One more row the transaction wrote is stamped. -/
theorem StampedTo.stampRow (h : StampedTo t epoch done base updates) (hrow : row < rowsPerGroup)
    (howns : base.OwnsLast t row) :
    ∃ next before, updates.stamp row (.pending t) epoch = (next, some before) ∧
      (before = .pending t ∨ before = .epoch epoch) ∧
      StampedTo t epoch (row :: done) base next := by
  obtain ⟨K, v, hkept, hK⟩ := howns
  rw [keptStamped_eq] at hkept
  obtain ⟨older, node, newer, hcut, hKeq, hstamp, hnode, hnewer⟩ := cut_of_keptIn hkept
  let stamped : UndoNode T → UndoNode T := restampNode t epoch done (vectorOf row)
  have hcut' : updates.nodesOf (vectorOf row) =
      older.map stamped ++ stamped node :: newer.map stamped := by
    rw [h.nodesOf, hcut, map_append, map_cons]
  have hnode' : (stamped node).get (offset row) = some v := (restampNode_get ..).trans hnode
  have hnewer' : ∀ m ∈ newer.map stamped, m.get (offset row) = none :=
    forall_mem_map.mpr fun m hm => (restampNode_get ..).trans (hnewer m hm)
  -- The other nodes of the vector that hold the row are not the transaction's.
  have hother : ∀ m, m ∈ older ∨ m ∈ newer →
      restampNode t epoch (row :: done) (vectorOf row) m = stamped m := by
    intro m hm
    refine restampNode_cons fun hs _ => ?_
    rcases hm with hm | hm
    · cases hget : m.get (offset row) with
      | none => rfl
      | some w => exact absurd (hKeq ▸ mem_keptIn.mpr ⟨m, hm, hs, hget⟩) (hK w)
    · exact hnewer m hm
  have hthis : restampNode t epoch (row :: done) (vectorOf row) node =
      { node with stamp := .epoch epoch } :=
    if_pos ⟨hstamp, row, mem_cons_self, rfl, holds_iff.mpr ⟨v, hnode⟩⟩
  have hbecomes : ∀ next, Becomes updates next (vectorOf row)
      (older.map stamped ++ { node with stamp := .epoch epoch } :: newer.map stamped) →
      StampedTo t epoch (row :: done) base next := by
    intro next hnext
    refine ⟨hnext.wf, fun v => ?_⟩
    rw [hnext.nodesOf]
    by_cases hv : v = vectorOf row
    · rw [if_pos hv, hv, hcut, map_append, map_cons, hthis,
        map_congr_left fun m hm => hother m (.inl hm), map_congr_left fun m hm => hother m (.inr hm)]
    · rw [if_neg hv, h.nodesOf]
      exact map_congr_left fun m _ => (restampNode_cons fun _ h => absurd h.symm hv).symm
  by_cases hdone : ∃ r ∈ done, vectorOf r = vectorOf row ∧ node.holds (offset r) = true
  · -- Another row of the node was stamped before.
    have hsame : stamped node = { node with stamp := .epoch epoch } := if_pos ⟨hstamp, hdone⟩
    rw [hsame] at hcut' hnode'
    have hstamped := h.wf.stamp_other hrow hcut' hnode' hnewer'
      (show Stamp.epoch epoch ≠ .pending t from Stamp.noConfusion) epoch
    exact ⟨updates, .epoch epoch, hstamped, .inr rfl, hbecomes _ (h.wf.becomes_self hcut')⟩
  · have hsame : stamped node = node := if_neg fun h => hdone h.2
    rw [hsame] at hcut'
    obtain ⟨next, hnext, hstamped⟩ := h.wf.stamp_own hrow hcut' hnode hnewer' hstamp epoch
    exact ⟨next, .pending t, hnext, .inl rfl, hbecomes _ hstamped⟩

/-- Where no node holds the row, none is the newest that does. -/
theorem newestWith_eq_none {place : Nat} {chain : Chain T}
    (hfind : updates.find (vectorOf row) = .ok place) (hentry : updates.entries[place]? = some chain)
    (hnone : ∀ node ∈ updates.nodesOf (vectorOf row), node.get (offset row) = none) :
    chain.newestWith (offset row) = none := by
  have hnodes : updates.nodesOf (vectorOf row) = chain.nodes := by
    simp [Updates.nodesOf, Packed.get?, hfind, hentry, nodesIn]
  rw [hnodes] at hnone
  exact rposition_eq_none.mpr fun node hnode => holds_eq_false.mpr (hnone node hnode)

theorem undo_of_get (hnone : ∀ node ∈ updates.nodesOf (vectorOf row), node.get (offset row) = none)
    (t : Nat) : updates.undo row (.pending t) = none ∧
      ∀ epoch, updates.stamp row (.pending t) epoch = (updates, none) := by
  unfold Updates.undo Updates.stamp
  cases hfind : updates.find (vectorOf row) with
  | error place => exact ⟨rfl, fun _ => rfl⟩
  | ok place =>
    cases hentry : updates.entries[place]? with
    | none => simp [hentry]
    | some chain => simp [hentry, newestWith_eq_none hfind hentry hnone]

section

variable (h : StampedTo t epoch done base updates)
include h

/-- A row nothing is kept of is stamped nowhere: during the commit the nodes keep what they
hold. -/
theorem StampedTo.stampRow_of_nil
    (hkept : base.keptStamped row = []) : updates.stamp row (.pending t) epoch = (updates, none) := by
  have hnone : ∀ node ∈ updates.nodesOf (vectorOf row), node.get (offset row) = none := by
    rw [keptStamped_eq, keptIn_eq_nil] at hkept
    rw [h.nodesOf]
    exact forall_mem_map.mpr fun node hnode => (restampNode_get ..).trans (hkept node hnode)
  exact (undo_of_get hnone t).2 epoch

/-- Every row of the transaction is stamped: each of its nodes holds one of them. -/
theorem StampedTo.kept (hbase : base.WF)
    (hall : ∀ row v, (.pending t, v) ∈ base.keptStamped row → row ∈ done) :
    (∀ r, updates.keptStamped r =
        (base.keptStamped r).map fun entry => (restamp t epoch entry.1, entry.2)) ∧
      ∀ v, updates.stampsOf v = (base.stampsOf v).map (restamp t epoch) := by
  have hnode : ∀ v, ∀ node ∈ base.nodesOf v, restampNode t epoch done v node =
      { node with stamp := restamp t epoch node.stamp } := by
    intro v node hnode
    unfold restampNode restamp
    by_cases hs : node.stamp = .pending t
    · obtain ⟨row, w, hv, hget, hmem⟩ := hbase.exists_kept hnode
      rw [hs] at hmem
      rw [if_pos ⟨hs, row, hall row w hmem, hv, holds_iff.mpr ⟨w, hget⟩⟩, if_pos hs]
    · rw [if_neg fun h => hs h.1, if_neg hs]
  refine ⟨fun r => ?_, fun v => ?_⟩
  · rw [keptStamped_eq, keptStamped_eq, h.nodesOf, map_congr_left (hnode _)]
    unfold keptIn
    rw [filterMap_map, map_filterMap]
    refine filterMap_congr fun node _ => ?_
    simp only [Function.comp, Option.map_map]
    rfl
  · rw [stampsOf, stampsOf, h.nodesOf, map_congr_left (hnode v), List.map_map, List.map_map]
    rfl

end

theorem StampedTo.stampRows {rows : List Nat} (hrows : ∀ row ∈ rows, row < rowsPerGroup)
    (howns : ∀ row ∈ rows, base.OwnsLast t row) (h : StampedTo t epoch done base updates) :
    ∃ next, updates.stampRows t epoch rows = some next ∧
      StampedTo t epoch (rows.reverse ++ done) base next := by
  induction rows generalizing updates done with
  | nil => exact ⟨_, rfl, h⟩
  | cons row rows ih =>
    obtain ⟨next, before, hstamp, hbefore, hnext⟩ :=
      h.stampRow (hrows row mem_cons_self) (howns row mem_cons_self)
    obtain ⟨last, hlast, hdone⟩ :=
      ih (fun r hr => hrows r (mem_cons_of_mem _ hr))
        (fun r hr => howns r (mem_cons_of_mem _ hr)) hnext
    refine ⟨last, ?_, by simpa using hdone⟩
    rw [Updates.stampRows, hstamp]
    simp only
    rw [if_pos hbefore, hlast]

/-- A commit stamps every node of the transaction, where the rows it wrote are all
given. -/
theorem WF.stampRows_kept (h : updates.WF) (t epoch : Nat) (rows : List Nat)
    (hrows : ∀ row ∈ rows, row < rowsPerGroup) (howns : ∀ row ∈ rows, updates.OwnsLast t row)
    (hall : ∀ row v, (.pending t, v) ∈ updates.keptStamped row → row ∈ rows) :
    ∃ next, updates.stampRows t epoch rows = some next ∧ next.WF ∧ (∀ r, next.keptStamped r =
        (updates.keptStamped r).map fun entry => (restamp t epoch entry.1, entry.2)) ∧
      ∀ v, next.stampsOf v = (updates.stampsOf v).map (restamp t epoch) := by
  obtain ⟨next, hstamped, hnext⟩ :=
    StampedTo.stampRows hrows howns (StampedTo.refl h t epoch)
  obtain ⟨hkept, hstamps⟩ := hnext.kept h fun row v hmem => by simpa using hall row v hmem
  exact ⟨next, hstamped, hnext.wf, hkept, hstamps⟩

end Updates

end Grafeo.RowGroup
