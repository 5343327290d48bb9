import Grafeo.RowGroup.Updates

/-!
# Grafeo.RowGroup.Chains

What the operations of `Updates` do, said of the **undo nodes of each vector**
(`nodesOf`), and from there of **what is kept of each row** (`kept`): oldest first,
with who wrote over it.

`WF` is what the table keeps beside that: the chains packed in the order of their
vectors, no empty node and no empty chain, each node's rows ascending, the counts of
a chain exact. Every operation is one equation about the nodes of one vector
(`Becomes`); the packing and the counts are not seen above this module.
-/

namespace Grafeo.RowGroup

open Lib List Option Bool UndoNode Packed Chain

variable {T : Type} {node : UndoNode T} {row : Nat} {chain : Chain T}

/-! ### A node -/

namespace UndoNode

variable {node : UndoNode T} {row : Nat}

/-- A node holds the rows it kept something of. -/
theorem holds_iff : node.holds row = true ↔ ∃ v, node.get row = some v := by
  unfold holds get find
  cases hs : search node.rows row with
  | ok index =>
    obtain ⟨v, -, hi⟩ := lookup_of_search_ok hs
    simp [hi]
  | error index => simp

theorem holds_eq_false : node.holds row = false ↔ node.get row = none := by
  rw [← not_eq_true, holds_iff, eq_none_iff_forall_ne_some]
  simp

@[simp] theorem dropRow_stamp (row : Nat) : (node.dropRow row).stamp = node.stamp := by
  unfold dropRow
  split <;> rfl

section

variable (h : Ascending node.rows)
include h

theorem get_eq_lookup : node.get row = node.rows.lookup row := by
  unfold get find
  cases hs : search node.rows row with
  | ok index =>
    obtain ⟨v, hv, hi⟩ := lookup_of_search_ok hs
    simp [hv, hi]
  | error index => simp [lookup_of_search_error h hs]

/-- The node without `row`. -/
theorem dropRow_rows (row : Nat) : Ascending (node.dropRow row).rows ∧
      ∀ r, (node.dropRow row).get r = if r = row then none else node.get r := by
  unfold dropRow find
  cases hs : search node.rows row with
  | ok index =>
    obtain ⟨hasc, hlook⟩ := eraseIdx_at h hs
    refine ⟨hasc, fun r => ?_⟩
    rw [get_eq_lookup hasc, get_eq_lookup h]
    exact hlook r
  | error index =>
    refine ⟨h, fun r => ?_⟩
    by_cases hr : r = row
    · rw [if_pos hr, hr, get_eq_lookup h, lookup_of_search_error h hs]
    · rw [if_neg hr]

/-- A row put into the node it is not in. -/
theorem insertRow_rows {position : Nat} (v : T) (hs : node.find row = .error position) :
    Ascending (node.rows.insertIdx position (row, v)) ∧
      ∀ r, (UndoNode.mk node.stamp (node.rows.insertIdx position (row, v))).get r =
        if r = row then some v else node.get r := by
  obtain ⟨hasc, hlook⟩ := insertIdx_at v h hs
  refine ⟨hasc, fun r => ?_⟩
  rw [get_eq_lookup h, ← hlook r]
  exact get_eq_lookup hasc

/-- A node of no rows keeps nothing, and only such a node does. -/
theorem get_eq_none_iff : (∀ r, node.get r = none) ↔ node.rows = [] := by
  constructor
  · intro hnone
    cases hrows : node.rows with
    | nil => rfl
    | cons x rows =>
      have hx := hnone x.1
      rw [get_eq_lookup h, lookup_of_mem h (hrows ▸ mem_cons_self)] at hx
      cases hx
  · intro hrows r
    rw [get_eq_lookup h, hrows]
    rfl

end

end UndoNode

/-! ### A chain -/

/-- A node of a chain: not empty, its rows ascending and of the vector. -/
structure UndoNode.Ok (node : UndoNode T) : Prop where
  nonempty : node.rows ≠ []
  ascending : Ascending node.rows
  small : ∀ r v, node.get r = some v → r < vectorRows

/-- The nodes of a vector are in order. -/
def NodesOk (nodes : List (UndoNode T)) : Prop := ∀ node ∈ nodes, node.Ok

theorem UndoNode.Ok.exists_get (h : node.Ok) : ∃ r v, node.get r = some v := by
  by_contra hnone
  refine h.nonempty ((get_eq_none_iff h.ascending).mp fun r => ?_)
  cases hr : node.get r with
  | none => rfl
  | some v => exact absurd ⟨r, v, hr⟩ hnone

/-- What makes a node in order, said of what it keeps. -/
theorem UndoNode.Ok.of_get (hasc : Ascending node.rows)
    (hsome : ∃ r v, node.get r = some v) (hsmall : ∀ r v, node.get r = some v → r < vectorRows) :
    node.Ok where
  nonempty hrows := by
    obtain ⟨r, v, hr⟩ := hsome
    rw [(get_eq_none_iff hasc).mpr hrows r] at hr
    cases hr
  ascending := hasc
  small := hsmall

theorem UndoNode.get_single (stamp : Stamp) (row : Nat) (v : T) (r : Nat) :
    (UndoNode.mk stamp [(row, v)]).get r = if r = row then some v else none := by
  have hasc : Ascending (mk stamp [(row, v)]).rows := pairwise_singleton ..
  rw [get_eq_lookup hasc, lookup_cons]
  by_cases hr : r = row
  · simp [hr]
  · rw [if_neg hr, beq_eq_false_iff_ne.mpr hr]
    rfl

theorem UndoNode.single_ok {stamp : Stamp} (v : T) (hrow : row < vectorRows) :
    (UndoNode.mk stamp [(row, v)]).Ok := by
  refine .of_get (pairwise_singleton ..) ⟨row, v, by rw [get_single, if_pos rfl]⟩
    fun r w hr => ?_
  rw [get_single] at hr
  split at hr
  · omega
  · cases hr

/-- `nodes'` is `nodes` with what `row` held before writer `stamp` wrote it: in the
newest node, which is the writer's own, or in a new one. -/
def AddsRow (nodes nodes' : List (UndoNode T)) (row : Nat) (stamp : Stamp) (current : T) : Prop :=
  (∃ older node node', nodes = older ++ [node] ∧ nodes' = older ++ [node'] ∧
      node.stamp = stamp ∧ node'.stamp = stamp ∧ node.get row = none ∧
      ∀ r, node'.get r = if r = row then some current else node.get r) ∨
    nodes' = nodes ++ [⟨stamp, [(row, current)]⟩]

namespace Chain

/-- The counts of a chain: its open nodes, and no commit above its newest. -/
structure Counted (chain : Chain T) : Prop where
  pending : chain.pending = chain.nodes.countP UndoNode.isPending
  newest : ∀ node ∈ chain.nodes, ∀ e, node.stamp = .epoch e → e ≤ chain.newest

structure WF (chain : Chain T) : Prop where
  nonempty : chain.nodes ≠ []
  ok : NodesOk chain.nodes
  counted : chain.Counted

variable {chain : Chain T}

@[simp] theorem count_nodes (node : UndoNode T) : (chain.count node).nodes = chain.nodes := by
  unfold count
  split <;> rfl

theorem count_pending (node : UndoNode T) :
    (chain.count node).pending = chain.pending + if node.isPending then 1 else 0 := by
  unfold count isPending
  cases node.stamp <;> simp [Stamp.isPending]

theorem newest_le_count (node : UndoNode T) : chain.newest ≤ (chain.count node).newest := by
  unfold count
  cases node.stamp <;> simp [le_max_left]

theorem le_newest_count {e : Nat} (h : node.stamp = .epoch e) : e ≤ (chain.count node).newest := by
  simp [count, h, le_max_right]

theorem Counted.push (h : chain.Counted) (node : UndoNode T) : (chain.push node).Counted where
  pending := by
    have hpush : (chain.push node).nodes = chain.nodes ++ [node] := rfl
    have hcount : (chain.push node).pending = (chain.count node).pending := rfl
    rw [hcount, count_pending, hpush, countP_append, h.pending, countP_singleton]
  newest := by
    exact forall_mem_concat.mpr ⟨fun m hm e he =>
      (h.newest m hm e he).trans (newest_le_count node), fun e he => le_newest_count he⟩

/-- A count of nodes one after the other. -/
theorem foldl_count (nodes : List (UndoNode T)) :
    ∀ chain : Chain T, (nodes.foldl count chain).nodes = chain.nodes ∧
      (nodes.foldl count chain).pending = chain.pending + nodes.countP UndoNode.isPending ∧
      chain.newest ≤ (nodes.foldl count chain).newest ∧
      ∀ node ∈ nodes, ∀ e, node.stamp = .epoch e → e ≤ (nodes.foldl count chain).newest := by
  induction nodes with
  | nil => intro chain; simp
  | cons node nodes ih =>
    intro chain
    obtain ⟨hnodes, hpending, hle, hall⟩ := ih (chain.count node)
    rw [foldl_cons]
    refine ⟨by rw [hnodes, count_nodes], ?_, (newest_le_count node).trans hle, ?_⟩
    · rw [hpending, count_pending, countP_cons]
      omega
    · intro m hm e he
      rcases mem_cons.mp hm with rfl | hm
      · exact (le_newest_count he).trans hle
      · exact hall m hm e he

@[simp] theorem recount_nodes : chain.recount.nodes = chain.nodes :=
  (foldl_count chain.nodes _).1

theorem recount_counted : chain.recount.Counted := by
  obtain ⟨hnodes, hpending, -, hall⟩ :=
    foldl_count chain.nodes { chain with pending := 0, newest := 0 }
  refine ⟨?_, ?_⟩
  · rw [recount_nodes]
    exact hpending.trans (zero_add _)
  · rw [recount_nodes]
    exact hall

/-- Where the counts say so, every node is committed by `horizon`. -/
theorem Counted.committedBy {horizon : Nat} (h : chain.Counted) (hzero : chain.pending = 0)
    (hle : chain.newest ≤ horizon) (hnode : node ∈ chain.nodes) :
    node.stamp.committedBy horizon = true := by
  cases hs : node.stamp with
  | pending t =>
    have hpos : 0 < chain.nodes.countP isPending :=
      countP_pos_iff.mpr ⟨node, hnode, by simp [isPending, hs, Stamp.isPending]⟩
    rw [← h.pending] at hpos
    omega
  | epoch e => simpa [Stamp.committedBy] using (h.newest node hnode e hs).trans hle

theorem Counted.sees {read : Read} (h : chain.Counted) (hseen : chain.seenWholeBy read = true)
    (hnode : node ∈ chain.nodes) : read.sees node.stamp = true := by
  simp only [seenWholeBy, and_eq_true, beq_iff_eq, decide_eq_true_eq] at hseen
  exact Read.sees_of_committedBy (h.committedBy hseen.1 hseen.2 hnode) le_rfl

/-- The nodes a collect leaves, by the short way as by the long. -/
theorem collect_nodes (h : chain.Counted) (horizon : Nat) : (chain.collect horizon).1.nodes =
      chain.nodes.filter fun node => !node.stamp.committedBy horizon := by
  unfold collect
  split
  next hall =>
    rw [recount_nodes]
    symm
    rw [filter_eq_nil_iff]
    intro node hnode
    simp [h.committedBy hall.1 hall.2 hnode]
  · rw [recount_nodes]

theorem collect_counted (horizon : Nat) : (chain.collect horizon).1.Counted := by
  unfold collect
  split <;> exact recount_counted

theorem keepIn_wf (hok : NodesOk chain.nodes) (hcounted : chain.Counted)
    {stamp : Stamp} (current : T) (hrow : row < vectorRows)
    (hfree : ∀ node, chain.nodes.getLast? = some node → node.stamp = stamp → node.get row = none) :
    (chain.keepIn row stamp current).WF ∧
      AddsRow chain.nodes (chain.keepIn row stamp current).nodes row stamp current := by
  have hpush : (chain.push ⟨stamp, [(row, current)]⟩).WF := by
    exact ⟨by simp [push], forall_mem_concat.mpr ⟨hok, single_ok current hrow⟩,
      hcounted.push _⟩
  unfold keepIn
  cases hlast : chain.nodes.getLast? with
  | none => exact ⟨hpush, .inr rfl⟩
  | some node =>
    simp only
    by_cases hstamp : node.stamp = stamp
    · rw [if_pos hstamp]
      have hmem : node ∈ chain.nodes := mem_of_getLast? hlast
      have hcut : chain.nodes = chain.nodes.dropLast ++ [node] :=
        (dropLast_append_getLast? node hlast).symm
      have hnone := hfree node hlast hstamp
      have hholds := holds_eq_false.mpr hnone
      cases hs : node.find row with
      | ok position => simp [holds, hs] at hholds
      | error position =>
        obtain ⟨hasc, hget⟩ := insertRow_rows (hok node hmem).ascending current hs
        have hinit : ∀ m ∈ chain.nodes.dropLast, m ∈ chain.nodes := fun m hm =>
          (dropLast_sublist _).subset hm
        refine ⟨⟨by simp, forall_mem_concat.mpr ⟨fun m hm => hok m (hinit m hm), ?_⟩, ?_,
          forall_mem_concat.mpr ⟨fun m hm => hcounted.newest m (hinit m hm),
            hcounted.newest node hmem⟩⟩,
          .inl ⟨_, node, ⟨node.stamp, node.rows.insertIdx position (row, current)⟩, hcut, rfl,
            hstamp, hstamp, hnone, hget⟩⟩
        · refine .of_get hasc ⟨row, current, by rw [hget, if_pos rfl]⟩ fun r v hr => ?_
          rw [hget] at hr
          split at hr
          · omega
          · exact (hok node hmem).small r v hr
        -- The counts look at the stamps alone, and these stayed.
        · rw [hcounted.pending]
          conv_lhs => rw [hcut]
          simp [countP_append, isPending]
          rfl
    · rw [if_neg hstamp]
      exact ⟨hpush, .inr rfl⟩

end Chain

/-! ### The table of chains -/

namespace Updates

/-- The nodes of a vector that may have a chain. -/
def nodesIn : Option (Chain T) → List (UndoNode T)
  | none => []
  | some chain => chain.nodes

/-- The undo nodes of vector `vector`, oldest first. -/
def nodesOf (updates : Updates T) (vector : Nat) : List (UndoNode T) :=
  nodesIn (updates.get? vector)

/-- The table is packed, of 32 vectors, and its chains are in order. -/
def WF (updates : Updates T) : Prop :=
  ∃ slots : List (Option (Chain T)), updates = Packed.pack slots ∧ slots.length = vectors ∧
    ∀ (vector : Nat) (chain : Chain T), slots[vector]? = some (some chain) → chain.WF

/-- `updates'` is `updates` with `nodes` for vector `vector`. -/
structure Becomes (updates updates' : Updates T) (vector : Nat) (nodes : List (UndoNode T)) :
    Prop where
  wf : updates'.WF
  nodesOf : ∀ v, updates'.nodesOf v = if v = vector then nodes else updates.nodesOf v

variable {updates : Updates T} {vector : Nat}

theorem nodesOf_pack (slots : List (Option (Chain T))) (vector : Nat) :
    nodesOf (Packed.pack slots) vector = nodesIn slots[vector]?.join := by
  rw [nodesOf, get?_pack]

/-- One slot of the table changed. -/
theorem becomes_set {slots : List (Option (Chain T))} (slot : Option (Chain T))
    (hlen : slots.length = vectors)
    (hwf : ∀ (v : Nat) (chain : Chain T), slots[v]? = some (some chain) → chain.WF)
    (hv : vector < vectors) (hslot : ∀ chain, slot = some chain → chain.WF) :
    Becomes (Packed.pack slots) (Packed.pack (slots.set vector slot)) vector
      (nodesIn slot) where
  wf := by
    refine ⟨_, rfl, by rw [length_set, hlen], fun v chain h => ?_⟩
    rw [getElem?_set] at h
    by_cases hvv : vector = v
    · rw [if_pos hvv, if_pos (by omega), some.injEq] at h
      exact hslot chain h
    · rw [if_neg hvv] at h
      exact hwf v chain h
  nodesOf v := by
    rw [nodesOf_pack, nodesOf_pack, getElem?_set]
    by_cases hvv : vector = v
    · rw [if_pos hvv, if_pos (by omega), if_pos hvv.symm, join_some]
    · rw [if_neg hvv, if_neg (Ne.symm hvv)]

theorem WF.empty : (Updates.empty : Updates T).WF := by
  refine ⟨replicate vectors none, ?_, length_replicate, fun v chain h => ?_⟩
  · rfl
  · rw [getElem?_replicate] at h
    split at h <;> simp at h

theorem nodesOf_some (hget : updates.get? vector = some chain) :
    updates.nodesOf vector = chain.nodes := by
  rw [nodesOf, hget]
  rfl

theorem offset_lt (row : Nat) : offset row < vectorRows := Nat.mod_lt _ (by decide)

theorem vectorOf_lt (hrow : row < rowsPerGroup) : vectorOf row < vectors := by
  unfold vectorOf vectorRows vectors
  unfold rowsPerGroup at hrow
  omega

/-- A row is its vector and its place there. -/
theorem row_eq_iff {r row : Nat} : r = row ↔ vectorOf r = vectorOf row ∧ offset r = offset row := by
  unfold vectorOf offset vectorRows
  omega

section

variable (h : updates.WF)
include h

/-- What is found of a vector without a chain. -/
theorem WF.at_none (hv : vector < vectors) (hget : updates.get? vector = none) :
    ∃ place, updates.find vector = .error place ∧
      ∃ updates', updates.insert place vector {} = updates' ∧ updates'.entries[place]? = some {} ∧
        ∀ chain : Chain T, chain.WF → Becomes updates (updates'.put place chain) vector chain.nodes := by
  obtain ⟨slots, rfl, hlen, hwf⟩ := h
  have hslot : slots[vector]? = some none := by
    rw [get?_pack] at hget
    cases hs : slots[vector]? with
    | none => have := getElem?_eq_none_iff.mp hs; omega
    | some slot => rw [hs, join_some] at hget; rw [hget]
  obtain ⟨place, hfind, hins⟩ := find_pack_empty hslot
  obtain ⟨hpack, hfound⟩ := hins {}
  have hset : (slots.set vector (some {}))[vector]? = some (some ({} : Chain T)) := by
    rw [getElem?_set, if_pos rfl, if_pos (by omega)]
  obtain ⟨place', hfind', hentry, -, hput⟩ := find_pack_filled hset
  have hplace : place' = place := by
    rw [hfound] at hfind'
    cases hfind'
    rfl
  subst hplace
  refine ⟨place', hfind, _, hpack, hentry, fun chain hchain => ?_⟩
  rw [hput chain, set_set]
  exact becomes_set (some chain) hlen hwf hv fun c hc => by cases hc; exact hchain

/-- What is found of a vector with a chain, and what becomes of it. -/
theorem WF.at_some (hv : vector < vectors) (hget : updates.get? vector = some chain) :
    chain.WF ∧ ∃ place, updates.find vector = .ok place ∧ updates.entries[place]? = some chain ∧
      (∀ chain' : Chain T, chain'.WF →
        Becomes updates (updates.put place chain') vector chain'.nodes) ∧
      ∀ chain' : Chain T, NodesOk chain'.nodes → chain'.Counted →
        Becomes updates (updates.putOrRemove place vector chain') vector chain'.nodes := by
  obtain ⟨slots, rfl, hlen, hwf⟩ := h
  have hslot : slots[vector]? = some (some chain) := by
    rw [get?_pack] at hget
    exact join_eq_some_iff.mp hget
  obtain ⟨place, hfind, hentry, hremove, hput⟩ := find_pack_filled hslot
  have hbecomes : ∀ chain' : Chain T, chain'.WF →
      Becomes (pack slots) ((pack slots).put place chain') vector chain'.nodes := by
    intro chain' hchain'
    rw [hput chain']
    exact becomes_set (some chain') hlen hwf hv fun c hc => by cases hc; exact hchain'
  refine ⟨hwf vector chain hslot, place, hfind, hentry, hbecomes, fun chain' hok hcount => ?_⟩
  unfold putOrRemove
  cases hnodes : chain'.nodes with
  | nil =>
    rw [isEmpty_nil, if_pos rfl, hremove]
    exact becomes_set none hlen hwf hv fun c hc => by cases hc
  | cons node nodes =>
    rw [isEmpty_cons, if_neg (by decide), ← hnodes]
    exact hbecomes chain' ⟨by rw [hnodes]; exact cons_ne_nil _ _, hok, hcount⟩

theorem WF.get?_wf (hget : updates.get? vector = some chain) : chain.WF := by
  obtain ⟨slots, rfl, -, hwf⟩ := h
  rw [get?_pack] at hget
  exact hwf vector chain (join_eq_some_iff.mp hget)

theorem WF.nodesOk (vector : Nat) : NodesOk (updates.nodesOf vector) := by
  unfold nodesOf
  cases hget : updates.get? vector with
  | none => intro node hnode; cases hnode
  | some chain => exact (h.get?_wf hget).ok

theorem WF.becomes_self {nodes : List (UndoNode T)} (hnodes : updates.nodesOf vector = nodes) : Becomes updates updates vector nodes := by
  refine ⟨h, fun v => ?_⟩
  by_cases hvv : v = vector
  · rw [if_pos hvv, hvv, hnodes]
  · rw [if_neg hvv]

end

/-! ### The operations, on the nodes of a vector -/

variable {row : Nat} {stamp : Stamp}

theorem held_eq (updates : Updates T) (row : Nat) (stamp : Stamp) (snapshot : Nat) :
    updates.held row stamp snapshot =
      Chain.heldBy (offset row) stamp snapshot (updates.nodesOf (vectorOf row)).reverse := by
  unfold held chain nodesOf
  cases updates.get? (vectorOf row) <;> rfl

/-- A node of the writer that is the newest is found at once. -/
theorem not_held_last {snapshot : Nat} (hheld : updates.held row stamp snapshot = false)
    (hlast : (updates.nodesOf (vectorOf row)).getLast? = some node)
    (hstamp : node.stamp = stamp) : node.get (offset row) = none := by
  have hcut := dropLast_append_getLast? node hlast
  rw [held_eq, ← hcut, reverse_concat, heldBy] at hheld
  rw [← holds_eq_false, ← not_eq_true]
  intro hholds
  rw [if_pos ⟨hstamp, hholds⟩] at hheld
  cases hheld

/-- The newest node that holds a row is where the nodes are cut at it. -/
theorem newestWith_cut {older newer : List (UndoNode T)}
    {v : T} (hcut : chain.nodes = older ++ node :: newer)
    (hnode : node.get row = some v) (hnewer : ∀ m ∈ newer, m.get row = none) :
    chain.newestWith row = some older.length := by
  unfold newestWith
  rw [hcut]
  exact rposition_cut older (holds_iff.mpr ⟨v, hnode⟩)
    fun m hm => holds_eq_false.mpr (hnewer m hm)

/-- A chain that holds `row` is found. -/
theorem exists_chain {older newer : List (UndoNode T)}
    (hcut : updates.nodesOf vector = older ++ node :: newer) :
    ∃ chain, updates.get? vector = some chain ∧ chain.nodes = older ++ node :: newer := by
  rw [nodesOf] at hcut
  cases hget : updates.get? vector with
  | none => rw [hget] at hcut; exact absurd hcut.symm (by simp [nodesIn])
  | some chain => rw [hget] at hcut; exact ⟨chain, rfl, hcut⟩

variable {older newer : List (UndoNode T)} {v : T}

/-- The nodes are the one they are cut at and the others. -/
theorem forall_mem_cut {p : UndoNode T → Prop} :
    (∀ m ∈ older ++ node :: newer, p m) ↔ p node ∧ ∀ m ∈ older ++ newer, p m := by
  rw [forall_mem_append, forall_mem_cons, forall_mem_append]
  exact and_left_comm

/-- A node without `row`, or no node when it held nothing else. -/
def withoutRow (node : UndoNode T) (row : Nat) : List (UndoNode T) :=
  if (node.dropRow row).rows.isEmpty then [] else [node.dropRow row]

theorem mem_withoutRow {m : UndoNode T} (h : m ∈ withoutRow node row) :
    m = node.dropRow row ∧ m.rows ≠ [] := by
  unfold withoutRow at h
  split at h
  · cases h
  next hrows =>
    rw [mem_singleton.mp h]
    exact ⟨rfl, by simpa using hrows⟩

theorem withoutRow_ok (h : node.Ok) {m : UndoNode T} (hm : m ∈ withoutRow node row) : m.Ok := by
  obtain ⟨rfl, hrows⟩ := mem_withoutRow hm
  obtain ⟨hasc, hget⟩ := dropRow_rows h.ascending row
  refine ⟨hrows, hasc, fun r v hr => ?_⟩
  rw [hget] at hr
  split at hr
  · cases hr
  · exact h.small r v hr

/-- What a collect at `horizon` leaves of a vector's nodes. -/
def uncollected (horizon : Nat) (nodes : List (UndoNode T)) : List (UndoNode T) :=
  nodes.filter fun node => !node.stamp.committedBy horizon

theorem collect_ok (h : chain.WF) (horizon : Nat) : NodesOk (chain.collect horizon).1.nodes := by
  rw [collect_nodes h.counted]
  exact fun node hnode => h.ok node (mem_of_mem_filter hnode)

theorem filter_dropRow (nodes : List (UndoNode T)) (row : Nat) :
    ((nodes.map fun node => node.dropRow row).filter fun node => !node.rows.isEmpty) =
      nodes.flatMap fun node => withoutRow node row := by
  induction nodes with
  | nil => rfl
  | cons node nodes ih =>
    rw [map_cons, filter_cons, ih, flatMap_cons, withoutRow]
    by_cases hempty : (node.dropRow row).rows.isEmpty <;> simp [hempty]

variable (h : updates.WF)
include h

/-- Every vector is collected, whether or not the table is walked. -/
theorem WF.collect (horizon : Nat) : (updates.collect horizon).1.WF ∧
      ∀ v, (updates.collect horizon).1.nodesOf v = uncollected horizon (updates.nodesOf v) := by
  obtain ⟨slots, rfl, hlen, hwf⟩ := h
  unfold Updates.collect
  split
  next hempty =>
    have hnone : ∀ v : Nat, slots[v]?.join = none := by
      intro v
      cases hs : slots[v]?.join with
      | none => rfl
      | some chain =>
        have hmem : chain ∈ (pack slots).entries :=
          reduceOption_mem_iff.mpr (mem_of_getElem? (join_eq_some_iff.mp hs))
        rw [isEmpty_iff.mp hempty] at hmem
        cases hmem
    refine ⟨⟨slots, rfl, hlen, hwf⟩, fun v => ?_⟩
    rw [nodesOf_pack, hnone]
    rfl
  · rw [sweep_pack]
    refine ⟨⟨_, rfl, by rw [length_map, hlen], fun v chain hv => ?_⟩, fun v => ?_⟩
    · rw [getElem?_map] at hv
      obtain ⟨slot, hslot, hswept⟩ := map_eq_some_iff.mp hv
      cases slot with
      | none => cases hswept
      | some old =>
        simp only [swept, bind_some] at hswept
        split at hswept <;> cases hswept
        rename_i hnodes
        exact ⟨by simpa using hnodes, collect_ok (hwf v old hslot) horizon,
          collect_counted horizon⟩
    · rw [nodesOf_pack, nodesOf_pack, getElem?_map]
      cases hs : slots[v]? with
      | none => rfl
      | some slot =>
        cases slot with
        | none => rfl
        | some old =>
          have hnodes := collect_nodes (hwf v old hs).counted horizon
          simp only [map_some, join_some, swept, bind_some]
          split
          next hempty =>
            rw [hnodes, List.isEmpty_iff] at hempty
            exact hempty.symm
          · exact hnodes

theorem WF.collectVector (hv : vector < vectors) (horizon : Nat) :
    Becomes updates (updates.collectVector vector horizon).1 vector
      (uncollected horizon (updates.nodesOf vector)) := by
  unfold Updates.collectVector
  cases hget : updates.get? vector with
  | none =>
    obtain ⟨place, hfind, -⟩ := h.at_none hv hget
    rw [hfind]
    exact h.becomes_self (by rw [nodesOf, hget]; rfl)
  | some chain =>
    obtain ⟨hchain, place, hfind, hentry, -, hput⟩ := h.at_some hv hget
    have hnodes : uncollected horizon (updates.nodesOf vector) = (chain.collect horizon).1.nodes := by
      rw [collect_nodes hchain.counted, nodesOf_some hget]
      rfl
    simp only [hfind, hentry]
    rw [hnodes]
    exact hput _ (collect_ok hchain horizon) (collect_counted horizon)

variable (hrow : row < rowsPerGroup)
include hrow

/-- A value kept. -/
theorem WF.keep {snapshot : Nat} (current : T) (hheld : updates.held row stamp snapshot = false) :
    ∃ updates' nodes', updates.keep row stamp snapshot current = (updates', true) ∧
      Becomes updates updates' (vectorOf row) nodes' ∧
      AddsRow (updates.nodesOf (vectorOf row)) nodes' (offset row) stamp current := by
  have hv := vectorOf_lt hrow
  have hfree : ∀ chain : Chain T, updates.nodesOf (vectorOf row) = chain.nodes → ∀ node,
      chain.nodes.getLast? = some node → node.stamp = stamp → node.get (offset row) = none :=
    fun chain hnodes node hlast hstamp => not_held_last hheld (hnodes ▸ hlast) hstamp
  unfold Updates.keep withChain
  rw [if_neg (by simp [hheld])]
  cases hget : updates.get? (vectorOf row) with
  | none =>
    obtain ⟨place, hfind, updates', hins, hentry, hput⟩ := h.at_none hv hget
    have hnodes : updates.nodesOf (vectorOf row) = ({} : Chain T).nodes := by
      rw [nodesOf, hget]
      rfl
    obtain ⟨hwf, hadds⟩ := keepIn_wf (fun _ hm => by cases hm) ⟨rfl, fun _ h => by cases h⟩
      current (offset_lt row) (hfree {} hnodes)
    rw [hfind]
    simp only [hins, hentry]
    exact ⟨_, _, rfl, hput _ hwf, hnodes ▸ hadds⟩
  | some chain =>
    obtain ⟨hchain, place, hfind, hentry, hput, -⟩ := h.at_some hv hget
    have hnodes := nodesOf_some hget
    obtain ⟨hwf, hadds⟩ := keepIn_wf hchain.ok hchain.counted current (offset_lt row)
      (hfree chain hnodes)
    rw [hfind]
    simp only [hentry]
    exact ⟨_, _, rfl, hput _ hwf, hnodes ▸ hadds⟩

/-- The row goes from every node of its vector, and the nodes left empty. -/
theorem WF.removeRow :
    Becomes updates (updates.removeRow row) (vectorOf row)
      ((updates.nodesOf (vectorOf row)).flatMap fun node => withoutRow node (offset row)) := by
  unfold Updates.removeRow
  cases hget : updates.get? (vectorOf row) with
  | none =>
    obtain ⟨place, hfind, -⟩ := h.at_none (vectorOf_lt hrow) hget
    rw [hfind]
    exact h.becomes_self (by rw [nodesOf, hget]; rfl)
  | some chain =>
    obtain ⟨hchain, place, hfind, hentry, -, hput⟩ := h.at_some (vectorOf_lt hrow) hget
    have hnodes := nodesOf_some hget
    have hbecomes := hput (recount { chain with
      nodes := chain.nodes.flatMap fun node => withoutRow node (offset row) }) ?_
      recount_counted
    · rw [recount_nodes] at hbecomes
      simpa only [hfind, hentry, filter_dropRow, hnodes] using hbecomes
    · rw [recount_nodes]
      intro m hm
      obtain ⟨node, hnode, hm⟩ := mem_flatMap.mp hm
      exact withoutRow_ok (hchain.ok node hnode) hm

variable (hcut : updates.nodesOf (vectorOf row) = older ++ node :: newer)
  (hnode : node.get (offset row) = some v) (hnewer : ∀ m ∈ newer, m.get (offset row) = none)
include hcut hnode hnewer

/-- The newest node that holds the row is another writer's, or committed already:
it stays as it is. -/
theorem WF.stamp_other (hstamp : node.stamp ≠ stamp) (epoch : Nat) :
    updates.stamp row stamp epoch = (updates, some node.stamp) := by
  obtain ⟨chain, hget, hnodes⟩ := exists_chain hcut
  obtain ⟨-, place, hfind, hentry, -⟩ := h.at_some (vectorOf_lt hrow) hget
  simp [Updates.stamp, hfind, hentry, newestWith_cut hnodes hnode hnewer, hnodes, hstamp]

/-- The newest node that holds the row is the writer's: it is committed. -/
theorem WF.stamp_own {t : Nat} (hstamp : node.stamp = .pending t) (epoch : Nat) :
    ∃ updates', updates.stamp row (.pending t) epoch = (updates', some (.pending t)) ∧
      Becomes updates updates' (vectorOf row)
        (older ++ { node with stamp := .epoch epoch } :: newer) := by
  obtain ⟨chain, hget, hnodes⟩ := exists_chain hcut
  obtain ⟨hchain, place, hfind, hentry, hput, -⟩ := h.at_some (vectorOf_lt hrow) hget
  have hat : chain.nodes[older.length]?.map UndoNode.stamp = some (.pending t) := by
    simp [hnodes, hstamp]
  have hmodify : chain.nodes.modify older.length (fun node => { node with stamp := .epoch epoch }) =
      older ++ { node with stamp := .epoch epoch } :: newer := by
    rw [hnodes, modify_length]
  obtain ⟨hok, hoks⟩ := forall_mem_cut.mp (hnodes ▸ hchain.ok)
  obtain ⟨-, hnewest⟩ := forall_mem_cut.mp (hnodes ▸ hchain.counted.newest)
  refine ⟨updates.put place ⟨older ++ { node with stamp := .epoch epoch } :: newer,
    max chain.newest epoch, chain.pending - 1⟩, ?_, hput _ ⟨by simp, forall_mem_cut.mpr
      ⟨⟨hok.nonempty, hok.ascending, hok.small⟩, hoks⟩, ?_, forall_mem_cut.mpr
      ⟨fun e he => ?_, fun m hm e he => (hnewest m hm e he).trans (le_max_left ..)⟩⟩⟩
  · simp [Updates.stamp, hfind, hentry, newestWith_cut hnodes hnode hnewer, hat, hmodify]
  · have hcount := hchain.counted.pending
    rw [hnodes] at hcount
    simp only [countP_append, countP_cons, isPending, hstamp, Stamp.isPending] at hcount ⊢
    simp only [if_pos, false_eq_true, if_false] at hcount ⊢
    omega
  · cases he
    exact le_max_right ..

/-- The newest node that holds the row is the writer's: the row goes from it, and the
node with its last row. -/
theorem WF.undo {t : Nat} (hstamp : node.stamp = .pending t) :
    ∃ updates', updates.undo row (.pending t) = some (v, updates') ∧
      Becomes updates updates' (vectorOf row)
        (older ++ withoutRow node (offset row) ++ newer) := by
  obtain ⟨chain, hget, hnodes⟩ := exists_chain hcut
  obtain ⟨hchain, place, hfind, hentry, -, hput⟩ := h.at_some (vectorOf_lt hrow) hget
  have hat : chain.nodes[older.length]? = some node := by simp [hnodes]
  have hset : chain.nodes.set older.length (node.dropRow (offset row)) =
      older ++ node.dropRow (offset row) :: newer := by
    rw [hnodes, set_split _ _ rfl]
  have herase : chain.nodes.eraseIdx older.length = older ++ newer := by
    rw [hnodes, eraseIdx_length]
  have hcount := hchain.counted.pending
  rw [hnodes, countP_append, countP_cons] at hcount
  have hpending : node.isPending = true := by simp [isPending, hstamp, Stamp.isPending]
  rw [hpending, if_pos rfl] at hcount
  obtain ⟨hok, hoks⟩ := forall_mem_cut.mp (hnodes ▸ hchain.ok)
  obtain ⟨hnewest, hnewests⟩ := forall_mem_cut.mp (hnodes ▸ hchain.counted.newest)
  have hundo : updates.undo row (.pending t) = some (v, updates.putOrRemove place (vectorOf row)
      (if (node.dropRow (offset row)).rows.isEmpty then
        { chain with nodes := older ++ newer, pending := chain.pending - 1 }
      else { chain with nodes := older ++ node.dropRow (offset row) :: newer })) := by
    simp [Updates.undo, hfind, hentry, newestWith_cut hnodes hnode hnewer, hat, hstamp, hnode,
      hset, herase]
  refine ⟨_, hundo, ?_⟩
  by_cases hempty : (node.dropRow (offset row)).rows.isEmpty
  · rw [if_pos hempty, withoutRow, if_pos hempty, append_nil]
    refine hput { chain with nodes := older ++ newer, pending := chain.pending - 1 }
      hoks ⟨?_, hnewests⟩
    simp only [countP_append]
    omega
  · rw [if_neg hempty, withoutRow, if_neg hempty, append_assoc, singleton_append]
    have hdrop : node.dropRow (offset row) ∈ withoutRow node (offset row) := by
      simp [withoutRow, hempty]
    refine hput { chain with nodes := older ++ node.dropRow (offset row) :: newer }
      (forall_mem_cut.mpr ⟨withoutRow_ok hok hdrop, hoks⟩)
      ⟨?_, forall_mem_cut.mpr ⟨by rwa [dropRow_stamp], hnewests⟩⟩
    simp only [countP_append, countP_cons, isPending, dropRow_stamp] at hcount ⊢
    simp only [hstamp, Stamp.isPending, if_pos]
    omega

end Updates

end Grafeo.RowGroup
