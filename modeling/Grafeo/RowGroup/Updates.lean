import Mathlib.Data.Nat.Bitwise
import Grafeo.Lib.Packed

/-!
# Grafeo.RowGroup.Updates

**Stamps and readers** (`graph/rowgroup/mod.rs`): who made a version, and which
reader sees it.

A stamp of the store is a `u64`: a commit epoch, or with the top bit (`PENDING`)
the id of the open transaction that wrote it, or the one value (`ABSENT`) that
nothing holds. The model keeps the three apart (`Stamp`, with `none` for the
absent one); `seesBits_bits` says that the test the store makes on the bits is the
one the model makes, for the ids and epochs that fit below the top bit.

**Update chains** (`graph/rowgroup/updates.rs`): what a row held before the writes
some readers must not see yet, per column (or per row group's labels) and vector of
2,048 rows.

The column holds the newest value of each row. A writer first copies the value it
replaces into an undo node of the row's vector, stamped with the writer; the nodes
of a vector stand in the order they were made, newest last, and beside them the
chain counts its open nodes and keeps its newest commit, so that a reader may pass
it by. The chains of the vectors that have one are a packed sparse array.
-/

namespace Grafeo.RowGroup

/-- Who made a version: an open transaction, or a commit at an epoch. -/
inductive Stamp where
  | pending (transaction : Nat)
  | epoch (epoch : Nat)
deriving Repr, DecidableEq

/-- Whether the stamp is a transaction's, not committed yet. -/
def Stamp.isPending : Stamp → Bool
  | .pending _ => true
  | .epoch _ => false

/-- The stamp is a commit at or before `horizon`. -/
def Stamp.committedBy (horizon : Nat) : Stamp → Bool
  | .pending _ => false
  | .epoch e => decide (e ≤ horizon)

theorem committedBy_mono {stamp : Stamp} {horizon epoch : Nat}
    (hc : stamp.committedBy horizon = true) (h : horizon ≤ epoch) :
    stamp.committedBy epoch = true := by
  cases stamp with
  | pending t => cases hc
  | epoch e => exact decide_eq_true ((of_decide_eq_true hc).trans h)

/-- Who reads: a transaction at its snapshot (its own pending versions included),
or a committed reader at an epoch. -/
inductive Read where
  | transaction (id snapshot : Nat)
  | atEpoch (epoch : Nat)
deriving Repr, DecidableEq

namespace Read

/-- The epoch the reader reads at: what it sees of committed versions. -/
def epochOf : Read → Nat
  | .transaction _ snapshot => snapshot
  | .atEpoch epoch => epoch

/-- Whether the reader is transaction `t`. -/
def isTransaction (t : Nat) : Read → Bool
  | .transaction id _ => decide (id = t)
  | .atEpoch _ => false

/-- Whether the reader sees what `stamp` made. -/
def sees (read : Read) : Stamp → Bool
  | .pending t => read.isTransaction t
  | .epoch e => decide (e ≤ read.epochOf)

/-- `sees` of a stamp that may be absent, which no reader sees. -/
def seesSome (read : Read) : Option Stamp → Bool
  | none => false
  | some stamp => read.sees stamp

@[simp] theorem sees_epoch {read : Read} {e : Nat} :
    read.sees (.epoch e) = true ↔ e ≤ read.epochOf := by
  simp [sees]

theorem sees_of_committedBy {read : Read} {stamp : Stamp} {horizon : Nat}
    (h : stamp.committedBy horizon = true) (hread : horizon ≤ read.epochOf) :
    read.sees stamp = true := by
  cases stamp with
  | pending t => cases h
  | epoch e => exact committedBy_mono h hread

end Read

/-- A row's version: who created it and who deleted it. -/
@[ext] structure RowVersion where
  created : Option Stamp := none
  deleted : Option Stamp := none
deriving Repr, DecidableEq

/-- Whether `read` sees the row: it sees the create and not the delete. -/
def RowVersion.visible (version : RowVersion) (read : Read) : Bool :=
  read.seesSome version.created && !read.seesSome version.deleted

/-! ### The bits of a stamp -/

/-- The bit that marks a stamp as a transaction's. -/
def pendingBit : BitVec 64 := 1#64 <<< 63

/-- A version stamp nothing holds. -/
def absentBits : BitVec 64 := BitVec.allOnes 64

/-- The `u64` of a stamp. -/
def Stamp.bits : Option Stamp → BitVec 64
  | none => absentBits
  | some (.pending t) => pendingBit ||| BitVec.ofNat 64 t
  | some (.epoch e) => BitVec.ofNat 64 e

/-- `sees` as the store computes it. -/
def Read.seesBits (read : Read) (stamp : BitVec 64) : Bool :=
  if stamp = absentBits then false
  else if stamp &&& pendingBit ≠ 0 then read.isTransaction (stamp &&& ~~~pendingBit).toNat
  else decide (stamp.toNat ≤ read.epochOf)

/-- The ids and epochs a stamp holds: below the top bit, and not all ones with it. -/
def Stamp.Fits : Stamp → Prop
  | .pending t => t < 2 ^ 63 - 1
  | .epoch e => e < 2 ^ 63

theorem toNat_pendingBit : pendingBit.toNat = 2 ^ 63 := by decide

/-- The bit test of a stamp is a comparison with the top bit. -/
theorem and_pendingBit_ne_zero {x : BitVec 64} : x &&& pendingBit ≠ 0 ↔ 2 ^ 63 ≤ x.toNat := by
  have hand : (x &&& pendingBit).toNat = (x.toNat.testBit 63).toNat * 2 ^ 63 := by
    rw [BitVec.toNat_and, toNat_pendingBit, Nat.and_two_pow]
  have hmsb : x.toNat.testBit 63 = decide (2 ^ 63 ≤ x.toNat) :=
    (BitVec.msb_eq_getLsbD_last x).symm.trans (BitVec.msb_eq_decide x)
  rw [Ne, ← BitVec.toNat_inj, hand, hmsb]
  simp

theorem toNat_and_not_pendingBit (x : BitVec 64) :
    (x &&& ~~~pendingBit).toNat = x.toNat % 2 ^ 63 := by
  have hnot : (~~~pendingBit).toNat = 2 ^ 63 - 1 := by decide
  rw [BitVec.toNat_and, hnot, Nat.and_two_pow_sub_one_eq_mod]

theorem toNat_pending_or {t : Nat} (ht : t < 2 ^ 63) :
    (pendingBit ||| BitVec.ofNat 64 t).toNat = 2 ^ 63 + t := by
  have hadd := Nat.two_pow_add_eq_or_of_lt ht 1
  rw [mul_one] at hadd
  rw [BitVec.toNat_or, toNat_pendingBit, BitVec.toNat_ofNat, Nat.mod_eq_of_lt (by omega), hadd]

/-- The store's test of a stamp is the model's. -/
theorem seesBits_bits (read : Read) {stamp : Option Stamp} (h : ∀ s ∈ stamp, s.Fits) :
    read.seesBits (Stamp.bits stamp) = read.seesSome stamp := by
  have habsent : absentBits.toNat = 2 ^ 64 - 1 := by decide
  cases stamp with
  | none => simp [Stamp.bits, Read.seesBits, Read.seesSome]
  | some stamp =>
    have hfits := h stamp rfl
    cases stamp with
    | pending t =>
      have ht : t < 2 ^ 63 - 1 := hfits
      have hbits := toNat_pending_or (t := t) (by omega)
      have hne : pendingBit ||| BitVec.ofNat 64 t ≠ absentBits := by
        rw [Ne, ← BitVec.toNat_inj, hbits, habsent]
        omega
      rw [Stamp.bits, Read.seesBits, if_neg hne, if_pos (and_pendingBit_ne_zero.mpr (by omega)),
        toNat_and_not_pendingBit, hbits, Nat.add_mod_left, Nat.mod_eq_of_lt (by omega)]
      rfl
    | epoch e =>
      have he : e < 2 ^ 63 := hfits
      have hbits : (BitVec.ofNat 64 e).toNat = e := by
        rw [BitVec.toNat_ofNat, Nat.mod_eq_of_lt (by omega)]
      have hne : BitVec.ofNat 64 e ≠ absentBits := by
        rw [Ne, ← BitVec.toNat_inj, hbits, habsent]
        omega
      have hbit : ¬BitVec.ofNat 64 e &&& pendingBit ≠ 0 := by
        rw [and_pendingBit_ne_zero]
        omega
      rw [Stamp.bits, Read.seesBits, if_neg hne, if_neg hbit, hbits]
      rfl

theorem seesBits_bits_own :
    (Read.transaction 3 7).seesBits (Stamp.bits (some (.pending 3))) = true :=
  seesBits_bits _ (by simp [Stamp.Fits])

open Lib

variable {T : Type}

/-- The rows of a vector. -/
def vectorRows : Nat := 2048

/-- The vectors of a row group. -/
def vectors : Nat := 32

/-- The rows of a row group. -/
def rowsPerGroup : Nat := 65536

/-- A row of a vector, as a node holds it. -/
def offset (row : Nat) : Nat := row % vectorRows

/-- The vector of a row of a row group. -/
def vectorOf (row : Nat) : Nat := row / vectorRows

/-- One writer's undo node: who wrote, and what the rows it wrote held before, in
ascending order of the rows. -/
structure UndoNode (T : Type) where
  stamp : Stamp
  rows : List (Nat × T)
deriving Repr, DecidableEq

namespace UndoNode

/-- Where the node holds `row`, or would hold it. -/
def find (node : UndoNode T) (row : Nat) : Except Nat Nat := search node.rows row

/-- Whether the node holds `row`. -/
def holds (node : UndoNode T) (row : Nat) : Bool :=
  match node.find row with
  | .ok _ => true
  | .error _ => false

/-- What the node kept of `row`. -/
def get (node : UndoNode T) (row : Nat) : Option T :=
  match node.find row with
  | .ok index => node.rows[index]?.map Prod.snd
  | .error _ => none

def isPending (node : UndoNode T) : Bool := node.stamp.isPending

/-- Takes `row` out of the node, if it holds it. -/
def dropRow (node : UndoNode T) (row : Nat) : UndoNode T :=
  match node.find row with
  | .ok position => { node with rows := node.rows.eraseIdx position }
  | .error _ => node

end UndoNode

/-- The undo nodes of one vector, oldest first, with the newest commit epoch of its
committed nodes (0 with none) and how many of its nodes are of open transactions. -/
structure Chain (T : Type) where
  nodes : List (UndoNode T) := []
  newest : Nat := 0
  pending : Nat := 0
deriving Repr, DecidableEq

namespace Chain

/-- The index of the newest node that holds `row`. -/
def newestWith (chain : Chain T) (row : Nat) : Option Nat :=
  rposition (fun node => node.holds row) chain.nodes

/-- Counts `node` among the open nodes or the commits. -/
def count (chain : Chain T) (node : UndoNode T) : Chain T :=
  match node.stamp with
  | .pending _ => { chain with pending := chain.pending + 1 }
  | .epoch e => { chain with newest := max chain.newest e }

/-- Adds `node`, the newest. -/
def push (chain : Chain T) (node : UndoNode T) : Chain T :=
  { chain.count node with nodes := chain.nodes ++ [node] }

/-- Counts the open nodes and the newest commit again, after nodes went. -/
def recount (chain : Chain T) : Chain T :=
  chain.nodes.foldl count { chain with pending := 0, newest := 0 }

/-- Whether `read` sees every node: it then reads the column's value. -/
def seenWholeBy (chain : Chain T) (read : Read) : Bool :=
  chain.pending == 0 && decide (chain.newest ≤ read.epochOf)

/-- The scan of `Updates.saved`, newest node first. -/
def savedScan (row : Nat) (read : Read) : List (UndoNode T) → Option T → Option T
  | [], saved => saved
  | node :: older, saved =>
      if !read.sees node.stamp then
        match node.get row with
        | some value => savedScan row read older (some value)
        | none => savedScan row read older saved
      else if node.holds row then
        -- The reader's own write is the newest of the row.
        if node.isPending then none else saved
      else savedScan row read older saved

/-- The search of `Updates.keep`, newest node first: whether a node of the writer
holds the row. It stops at the first node committed by the writer's snapshot. -/
def heldBy (row : Nat) (stamp : Stamp) (snapshot : Nat) : List (UndoNode T) → Bool
  | [] => false
  | node :: older =>
      if node.stamp = stamp ∧ node.holds row then true
      else if node.stamp.committedBy snapshot then false
      else heldBy row stamp snapshot older

/-- Adds what `row` held to the newest node when that is the writer's own, to a new
one otherwise. -/
def keepIn (chain : Chain T) (row : Nat) (stamp : Stamp) (current : T) : Chain T :=
  match chain.nodes.getLast? with
  | some node =>
      if node.stamp = stamp then
        match node.find row with
        | .error position =>
            let node := { node with rows := node.rows.insertIdx position (row, current) }
            { chain with nodes := chain.nodes.dropLast ++ [node] }
        | .ok _ => chain
      else chain.push ⟨stamp, [(row, current)]⟩
  | none => chain.push ⟨stamp, [(row, current)]⟩

/-- Drops the nodes committed at or before `horizon`; returns how many kept values
it dropped with them. -/
def collect (chain : Chain T) (horizon : Nat) : Chain T × Nat :=
  if chain.pending = 0 ∧ chain.newest ≤ horizon then
    (recount { chain with nodes := [] }, (chain.nodes.map fun node => node.rows.length).sum)
  else
    let gone := chain.nodes.filter fun node => node.stamp.committedBy horizon
    (recount { chain with nodes := chain.nodes.filter fun node => !node.stamp.committedBy horizon },
      (gone.map fun node => node.rows.length).sum)

end Chain

/-- The chains of the vectors that have one, in the order of their vectors, and per
vector where its chain is. -/
abbrev Updates (T : Type) := Packed (Chain T)

namespace Updates

/-- No vector has a chain. -/
def empty : Updates T where
  places := List.replicate vectors 0
  entries := []

/-- Whether no vector has a chain. -/
def isEmpty (updates : Updates T) : Bool := updates.entries.isEmpty

/-- The chain of `row`'s vector. -/
def chain (updates : Updates T) (row : Nat) : Option (Chain T) :=
  updates.get? (vectorOf row)

/-- What `row` held for `read`, when a node `read` does not see holds it; `none`
when the column's value is what it reads. -/
def saved (updates : Updates T) (row : Nat) (read : Read) : Option T :=
  match updates.chain row with
  | none => none
  | some chain =>
      if chain.seenWholeBy read then none
      else Chain.savedScan (offset row) read chain.nodes.reverse none

/-- Whether a node of writer `stamp` holds `row` already. -/
def held (updates : Updates T) (row : Nat) (stamp : Stamp) (snapshot : Nat) : Bool :=
  match updates.chain row with
  | none => false
  | some chain => Chain.heldBy (offset row) stamp snapshot chain.nodes.reverse

/-- The chains with one for vector `vector`, and where it is. -/
def withChain (updates : Updates T) (vector : Nat) : Updates T × Nat :=
  match updates.find vector with
  | .ok place => (updates, place)
  | .error place => (updates.insert place vector {}, place)

/-- Keeps what `row` holds (`current`) before writer `stamp`, who reads at
`snapshot`, writes it, unless a node of the writer holds the row already. Returns
whether it kept the value: the write created the writer's version of the row, or
replaced it. -/
def keep (updates : Updates T) (row : Nat) (stamp : Stamp) (snapshot : Nat) (current : T) :
    Updates T × Bool :=
  if updates.held row stamp snapshot then (updates, false)
  else
    let (updates, place) := updates.withChain (vectorOf row)
    match updates.entries[place]? with
    | some chain => (updates.put place (chain.keepIn (offset row) stamp current), true)
    | none => (updates, true)

/-- Commits the newest node that holds `row` at `epoch`, if writer `pending` made
it; returns that node's stamp before (`none`: no node holds the row). -/
def stamp (updates : Updates T) (row : Nat) (pending : Stamp) (epoch : Nat) :
    Updates T × Option Stamp :=
  match updates.find (vectorOf row) with
  | .error _ => (updates, none)
  | .ok place =>
      match updates.entries[place]? with
      | none => (updates, none)
      | some chain =>
          match chain.newestWith (offset row) with
          | none => (updates, none)
          | some index =>
              let before := chain.nodes[index]?.map UndoNode.stamp
              if before = some pending then
                let nodes := chain.nodes.modify index fun node => { node with stamp := .epoch epoch }
                (updates.put place
                  { nodes, pending := chain.pending - 1, newest := max chain.newest epoch }, before)
              else (updates, before)

/-- Puts a changed chain back, or takes it out when it has no node left. -/
def putOrRemove (updates : Updates T) (place vector : Nat) (chain : Chain T) : Updates T :=
  if chain.nodes.isEmpty then updates.remove place vector else updates.put place chain

/-- Takes `row` out of the newest node that holds it, when transaction stamp
`pending` made that node, and returns what the row held before the transaction wrote
it. A node left empty goes, and a chain left empty. -/
def undo (updates : Updates T) (row : Nat) (pending : Stamp) : Option (T × Updates T) :=
  match updates.find (vectorOf row) with
  | .error _ => none
  | .ok place => do
      let chain ← updates.entries[place]?
      let index ← chain.newestWith (offset row)
      let node ← chain.nodes[index]?
      if node.stamp = pending then
        let kept ← node.get (offset row)
        let node := node.dropRow (offset row)
        let chain :=
          if node.rows.isEmpty then
            { chain with nodes := chain.nodes.eraseIdx index, pending := chain.pending - 1 }
          else { chain with nodes := chain.nodes.set index node }
        return (kept, updates.putOrRemove place (vectorOf row) chain)
      else none

/-- Drops every node committed at or before `horizon`; returns the kept values it
dropped. -/
def collect (updates : Updates T) (horizon : Nat) : Updates T × Nat :=
  if updates.entries.isEmpty then (updates, 0)
  else
    updates.sweep fun chain =>
      let (chain, dropped) := chain.collect horizon
      (if chain.nodes.isEmpty then none else some chain, dropped)

/-- `collect` of vector `vector` alone. -/
def collectVector (updates : Updates T) (vector horizon : Nat) : Updates T × Nat :=
  match updates.find vector with
  | .error _ => (updates, 0)
  | .ok place =>
      match updates.entries[place]? with
      | none => (updates, 0)
      | some chain =>
          let (chain, dropped) := chain.collect horizon
          (updates.putOrRemove place vector chain, dropped)

/-- Whether vector `vector` has a chain. -/
def hasChain (updates : Updates T) (vector : Nat) : Bool := updates.places.getD vector 0 != 0

/-- Takes `row` out of every node, for a row that is gone. -/
def removeRow (updates : Updates T) (row : Nat) : Updates T :=
  match updates.find (vectorOf row) with
  | .error _ => updates
  | .ok place =>
      match updates.entries[place]? with
      | none => updates
      | some chain =>
          let nodes := (chain.nodes.map fun node => node.dropRow (offset row)).filter
            fun node => !node.rows.isEmpty
          updates.putOrRemove place (vectorOf row) (Chain.recount { chain with nodes })

/-- Everything the nodes hold for `row`, oldest first, each with the stamp of its
node: who wrote over it. -/
def keptStamped (updates : Updates T) (row : Nat) : List (Stamp × T) :=
  match updates.chain row with
  | none => []
  | some chain =>
      chain.nodes.filterMap fun node => (node.get (offset row)).map fun kept => (node.stamp, kept)

end Updates

end Grafeo.RowGroup
