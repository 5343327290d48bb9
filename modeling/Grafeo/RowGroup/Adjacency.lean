import Mathlib.Data.Multiset.Bind
import Grafeo.Lib.SortedRun
import Grafeo.Lib.Assoc
import Grafeo.Lib.Except

/-!
# Grafeo.RowGroup.Adjacency

Entries of a node's adjacency and the **intersection of two runs** of them
(`rowgroup/adjacency.rs`): the pairs of entries that reach one node, found by galloping
through the longer run from the shorter one, or by searching a run for each entry of an
unsorted delta.

A slice is a list. A read or a slice past its end is a panic of the source and `none`
here, so a result says that none happens. The entries handed to the callback are the
list of pairs in the order of the calls, beside the number of probes the source counts.

One direction of a node row group's **adjacency** (`rowgroup/adjacency.rs`): per row a
list sorted by edge type and other node, laid out with offsets; a delta of the edges
added since; and the edges taken out of the sorted lists until the next merge drops
them.

The hash map of deltas is an association list, the hash set and the bitset of rows are
lists, of which only membership is read. Slices that would panic are `none`.

How an adjacency **holds its rows** (`Stored`): the sorted lists laid one after the
other, each in order, and the deltas under their rows. Through it every read is a filter
of one list, the row's `listing`: what is left of its sorted list, then its delta
(`of_eq`, `ofType_eq`, `toOther_eq`).
-/

namespace Grafeo.RowGroup

open Lib List Option Bool

/-- The longest run compared entry by entry along a delta. -/
def shortRun : Nat := 16

/-- An edge in a node's adjacency: its type, the node at its other end, and the edge. The
field order is the sort order. -/
structure Adjacent (Name : Type) where
  edgeType : Name
  other : Nat
  edge : Nat
deriving Repr, DecidableEq

variable {Name : Type} {sorted : List (Adjacent Name)} {run : List (Adjacent Name)}

/-! ### Galloping -/

/-- The doubling steps: the position and the step they end at. -/
def gallopLoop (sorted : List (Adjacent Name)) (other : Nat) :
    Nat → Nat → Nat → Nat → Option (Nat × Nat × Nat)
  | 0, _, _, _ => none
  | fuel + 1, low, step, probes =>
      if low + step < sorted.length then do
        let entry ← sorted[low + step]?
        if entry.other < other then gallopLoop sorted other fuel (low + step) (step * 2) (probes + 1)
        else some (low, step, probes)
      else some (low, step, probes)

/-- The first position from `from_` of `sorted` whose other end is at least `other`, by
    doubling steps and then a search of the last step, and the probes it took. -/
def gallop (sorted : List (Adjacent Name)) (from_ other : Nat) : Option (Nat × Nat) := do
  let (low, step, probes) ← gallopLoop sorted other (sorted.length + 1) from_ 1 0
  let high := min (low + step + 1) sorted.length
  let last ← slice sorted low high
  let found := partitionPoint (fun entry => entry.other < other) last
  return (low + found, probes + step.log2 + 1)

/-! ### Intersections -/

/-- The groups of `short` from `index` on, each with the entries of `long` that reach the
    same node. -/
def intersectLoop (short long : List (Adjacent Name)) (swapped : Bool) :
    Nat → Nat → Nat → Nat → Option (List (Adjacent Name × Adjacent Name) × Nat)
  | 0, _, _, _ => none
  | fuel + 1, index, from_, probes =>
      if index < short.length then do
        let entry ← short[index]?
        let rest ← slice short index short.length
        let run := partitionPoint (fun other => other.other = entry.other) rest
        let (start, reads) ← gallop long from_ entry.other
        let after ← slice long start long.length
        let count := partitionPoint (fun other => other.other = entry.other) after
        let shortEntries ← slice short index (index + run)
        let longEntries ← slice long start (start + count)
        let pairs := shortEntries.flatMap fun shortEntry => longEntries.map fun longEntry =>
          if swapped then (longEntry, shortEntry) else (shortEntry, longEntry)
        let (more, probes) ←
          intersectLoop short long swapped fuel (index + run) start (probes + (reads + 1))
        return (pairs ++ more, probes)
      else some ([], probes)

/-- The pairs of an entry of `near` and of `far`, two runs sorted by other end, that
    reach one node, and the probes it took. -/
def intersectRuns (near far : List (Adjacent Name)) : Option (List (Adjacent Name × Adjacent Name) × Nat) :=
  let swapped := near.length > far.length
  let (short, long) := if swapped then (far, near) else (near, far)
  intersectLoop short long swapped (short.length + 1) 0 0 0

/-- The entries of `run`, sorted by other end, that reach `other`. -/
def entriesTo (run : List (Adjacent Name)) (other : Nat) : Option (List (Adjacent Name)) := do
  let start := partitionPoint (fun entry => entry.other < other) run
  let after ← slice run start run.length
  let count := partitionPoint (fun entry => entry.other = other) after
  slice run start (start + count)

/-- The pairs of an entry of `run`, sorted by other end, and of `delta`, in no order,
    that reach one node, and the probes it took. -/
def intersectRunWithDelta (run delta : List (Adjacent Name)) :
    Option (List (Adjacent Name × Adjacent Name) × Nat) :=
  if run.length < shortRun then
    some (run.flatMap fun entry =>
      (delta.filter fun other => other.other = entry.other).map fun other => (entry, other),
      run.length * delta.length)
  else do
    let pairs ← delta.mapM fun other => do
      let entries ← entriesTo run other.other
      return entries.map fun entry => (entry, other)
    return (pairs.flatten, delta.length)

/-! ### What galloping finds -/

/-- A position that does not leave the run, and past it the element that stopped the
    doubling. -/
theorem gallopLoop_spec (other fuel low step probes : Nat)
    (hstep : 0 < step) (hlow : low ≤ sorted.length) (hfuel : sorted.length < low + fuel) :
    ∃ low' step' probes', gallopLoop sorted other fuel low step probes =
        some (low', step', probes') ∧ low ≤ low' ∧ low' ≤ sorted.length ∧
      (low' = low ∨ ∃ entry, sorted[low']? = some entry ∧ entry.other < other) ∧
      (low' + step' < sorted.length →
        ∃ entry, sorted[low' + step']? = some entry ∧ ¬ entry.other < other) := by
  induction fuel generalizing low step probes with
  | zero => omega
  | succ fuel ih =>
    rw [gallopLoop]
    by_cases hin : low + step < sorted.length
    · obtain ⟨entry, hentry⟩ : ∃ entry, sorted[low + step]? = some entry :=
        ⟨_, getElem?_eq_getElem hin⟩
      simp only [hin, if_true, hentry, bind_eq_bind, bind_some]
      by_cases hbelow : entry.other < other
      · rw [if_pos hbelow]
        obtain ⟨low', step', probes', hloop, hle, hlen, hat, hpast⟩ :=
          ih (low + step) (step * 2) (probes + 1) (by omega) (by omega) (by omega)
        refine ⟨low', step', probes', hloop, by omega, hlen, .inr ?_, hpast⟩
        rcases hat with rfl | hat
        · exact ⟨entry, hentry, hbelow⟩
        · exact hat
      · rw [if_neg hbelow]
        exact ⟨low, step, probes, rfl, le_rfl, hlow, .inl rfl, fun _ => ⟨entry, hentry, hbelow⟩⟩
    · rw [if_neg hin]
      exact ⟨low, step, probes, rfl, le_rfl, hlow, .inl rfl, fun h => absurd h hin⟩

/-- An element that comes before one below `other` is below it too. -/
theorem below_of_le (hsorted : SortedBy Adjacent.other sorted)
    {i j other : Nat} {a b : Adjacent Name} (hij : i ≤ j) (ha : sorted[i]? = some a)
    (hb : sorted[j]? = some b) (hbelow : b.other < other) : a.other < other := by
  rcases eq_or_lt_of_le hij with rfl | hlt
  · cases ha.symm.trans hb
    exact hbelow
  · obtain ⟨hi, rfl⟩ := List.getElem?_eq_some_iff.mp ha
    obtain ⟨hj, rfl⟩ := List.getElem?_eq_some_iff.mp hb
    exact (pairwise_iff_getElem.mp hsorted i j hi hj hlt).trans_lt hbelow

/-- Galloping finds what a search of the rest of the run finds. -/
theorem gallop_eq (hsorted : SortedBy Adjacent.other sorted)
    {from_ : Nat} (hfrom : from_ ≤ sorted.length) (other : Nat) :
    ∃ probes, gallop sorted from_ other = some
      (from_ + partitionPoint (fun entry => entry.other < other) (sorted.drop from_), probes) := by
  obtain ⟨low, step, probes, hloop, hle, hlen, hat, hpast⟩ :=
    gallopLoop_spec other (sorted.length + 1) from_ 1 0 one_pos hfrom (by omega)
  have hslice : slice sorted low (min (low + step + 1) sorted.length) =
      some ((sorted.take (min (low + step + 1) sorted.length)).drop low) :=
    slice_eq_some (by omega) (min_le_right ..)
  refine ⟨probes + step.log2 + 1, ?_⟩
  simp only [gallop, hloop, bind_eq_bind, bind_some, hslice, Option.pure_def]
  congr 2
  -- The steps skipped only entries below `other`.
  have hskip : sorted.drop from_ = (sorted.take low).drop from_ ++ sorted.drop low := by
    rw [← drop_append_of_le_length (by rw [length_take]; omega), take_append_drop]
  have hskipped : ∀ entry ∈ (sorted.take low).drop from_, decide (entry.other < other) = true := by
    intro entry hentry
    rcases hat with rfl | ⟨last, hlast, hbelow⟩
    · rw [drop_eq_nil_of_le (length_take_le ..)] at hentry
      cases hentry
    obtain ⟨i, hi⟩ := mem_iff_getElem?.mp hentry
    rw [getElem?_drop] at hi
    have hlt : from_ + i < low := by
      by_contra hge
      rw [getElem?_take_eq_none (le_of_not_gt hge)] at hi
      cases hi
    rw [getElem?_take_of_lt hlt] at hi
    exact decide_eq_true (below_of_le hsorted (hlt.le) hi hlast hbelow)
  rw [hskip, partitionPoint_append hskipped, length_drop, length_take]
  -- The last step holds an entry that is not below `other`, or it is all that is left.
  have hlast : partitionPoint (fun entry => decide (entry.other < other)) (sorted.drop low) =
      partitionPoint (fun entry => decide (entry.other < other))
        ((sorted.take (min (low + step + 1) sorted.length)).drop low) := by
    by_cases hin : low + step < sorted.length
    · obtain ⟨entry, hentry, hnot⟩ := hpast hin
      have hsplit : sorted.drop low = (sorted.take (low + step + 1)).drop low ++
          sorted.drop (low + step + 1) := by
        rw [← drop_append_of_le_length (by rw [length_take]; omega), take_append_drop]
      rw [min_eq_left hin, hsplit]
      refine partitionPoint_append_of_neg (a := entry) ?_ (decide_eq_false hnot)
      refine mem_iff_getElem?.mpr ⟨step, ?_⟩
      rw [getElem?_drop, getElem?_take_of_lt (by omega)]
      exact hentry
    · rw [min_eq_right (by omega), take_length]
  omega

/-! ### What the intersections find -/

/-- A search of a sorted run finds the entries that reach the node. -/
theorem entriesTo_eq (hsorted : SortedBy Adjacent.other run)
    (other : Nat) : entriesTo run other = some (run.filter fun entry => entry.other = other) := by
  have hstart := partitionPoint_le (fun entry : Adjacent Name => decide (entry.other < other)) run
  have hafter : slice run (partitionPoint (fun entry => decide (entry.other < other)) run)
      run.length =
      some (run.drop (partitionPoint (fun entry => decide (entry.other < other)) run)) := by
    rw [slice_eq_some hstart le_rfl, take_length]
  simp only [entriesTo, hafter, bind_eq_bind, bind_some]
  have hcount := partitionPoint_le (fun entry : Adjacent Name => decide (entry.other = other))
    (run.drop (partitionPoint (fun entry => decide (entry.other < other)) run))
  rw [length_drop] at hcount
  rw [slice_add_eq_some (by omega), take_partitionPoint, hsorted.equalRange other]

/-- The pairs of one entry of the shorter run. -/
def pairsOf (long : List (Adjacent Name)) (swapped : Bool) (shortEntry : Adjacent Name) :
    List (Adjacent Name × Adjacent Name) :=
  (long.filter fun longEntry => longEntry.other = shortEntry.other).map fun longEntry =>
    if swapped then (longEntry, shortEntry) else (shortEntry, longEntry)

/-- The loop emits the pairs of each entry from `index` on, as long as no entry before
    the cursor of the longer run reaches a node they reach. -/
theorem intersectLoop_spec {short long : List (Adjacent Name)} (swapped : Bool)
    (hshort : SortedBy Adjacent.other short) (hlong : SortedBy Adjacent.other long)
    (fuel index from_ probes : Nat) (hindex : index ≤ short.length)
    (hfrom : from_ ≤ long.length) (hfuel : short.length < index + fuel)
    (hbelow : ∀ a ∈ long.take from_, ∀ b ∈ short.drop index, a.other < b.other) :
    ∃ probes', intersectLoop short long swapped fuel index from_ probes =
      some ((short.drop index).flatMap (pairsOf long swapped), probes') := by
  induction fuel generalizing index from_ probes with
  | zero => omega
  | succ fuel ih =>
    rw [intersectLoop]
    by_cases hin : index < short.length
    · obtain ⟨entry, hentry⟩ : ∃ entry, short[index]? = some entry :=
        ⟨_, getElem?_eq_getElem hin⟩
      obtain ⟨reads, hgallop⟩ := gallop_eq hlong hfrom entry.other
      have hrest : slice short index short.length = some (short.drop index) := by
        rw [slice_eq_some hindex le_rfl, take_length]
      have hhead : short.drop index = entry :: short.drop (index + 1) := by
        rw [drop_eq_getElem_cons hin, (List.getElem?_eq_some_iff.mp hentry).2]
      generalize hrun : partitionPoint (fun other => decide (other.other = entry.other))
        (short.drop index) = run at *
      have hsorted : SortedBy Adjacent.other (entry :: short.drop (index + 1)) :=
        hhead ▸ hshort.drop index
      obtain ⟨hpos, hlen, hgroup, hbeyond⟩ := hsorted.firstGroup (hhead ▸ hrun)
      rw [← hhead] at hlen hgroup hbeyond
      rw [length_drop] at hlen
      have hrunLen : index + run ≤ short.length := by omega
      generalize hstart : from_ + partitionPoint (fun other => decide (other.other < entry.other))
        (long.drop from_) = start at *
      obtain ⟨hstartLe, hskipped, hlongEntries⟩ := hlong.seek
        (fun a ha => hbelow a ha entry (by rw [hhead]; exact mem_cons_self)) hfrom hstart
      have hafter : slice long start long.length = some (long.drop start) := by
        rw [slice_eq_some hstartLe le_rfl, take_length]
      have hcount : start + partitionPoint (fun other => decide (other.other = entry.other))
          (long.drop start) ≤ long.length := by
        have hle := partitionPoint_le (fun other => decide (other.other = entry.other))
          (long.drop start)
        rw [length_drop] at hle
        omega
      -- The next group reaches nodes above this one's, which the cursor has not passed.
      obtain ⟨probes', hmore⟩ := ih (index + run) start (probes + (reads + 1))
        hrunLen hstartLe (by omega) fun a ha b hb =>
          (hskipped a ha).trans (hbeyond b (by rw [drop_drop]; exact hb))
      refine ⟨probes', ?_⟩
      simp only [hin, if_true, hentry, bind_eq_bind, bind_some, hrest, hrun,
        hgallop, hafter, slice_add_eq_some hrunLen, slice_add_eq_some hcount,
        take_partitionPoint, hlongEntries, hmore, Option.pure_def]
      -- Each entry of the group is paired with the same entries.
      have hpairs : ((short.drop index).take run).flatMap (pairsOf long swapped) =
          ((short.drop index).take run).flatMap fun shortEntry =>
            (long.filter fun other => decide (other.other = entry.other)).map fun longEntry =>
              if swapped then (longEntry, shortEntry) else (shortEntry, longEntry) := by
        refine flatMap_congr fun b hb => ?_
        rw [pairsOf, hgroup b hb]
      rw [← hpairs, ← drop_drop, ← flatMap_append, take_append_drop]
    · rw [if_neg hin, drop_eq_nil_of_le (le_of_not_gt hin)]
      exact ⟨probes, rfl⟩

/-- The pairs that reach one node, listed along the first list. -/
theorem flatMap_pairsOf (near far : List (Adjacent Name)) : near.flatMap (pairsOf far false) =
      (near ×ˢ far).filter fun pair => pair.1.other = pair.2.other := by
  induction near with
  | nil => rfl
  | cons entry near ih =>
    rw [flatMap_cons, ih, product_cons, filter_append, List.filter_map]
    congr 1
    simp only [pairsOf, false_eq_true, if_false]
    congr 1
    refine filter_congr fun other _ => ?_
    simp [eq_comm]

/-- Listed along the second list, they are the same pairs in another order. -/
theorem flatMap_pairsOf_swapped (near far : List (Adjacent Name)) :
    (far.flatMap (pairsOf near true)).Perm
      ((near ×ˢ far).filter fun pair => pair.1.other = pair.2.other) := by
  have hswap : far.flatMap (pairsOf near true) = (far.flatMap (pairsOf near false)).map Prod.swap := by
    rw [map_flatMap]
    refine flatMap_congr fun entry _ => ?_
    simp [pairsOf]
  have hproduct : ((far ×ˢ near).map Prod.swap).Perm (near ×ˢ far) := by
    have hmultiset := Multiset.map_swap_product (far : Multiset (Adjacent Name)) (near : Multiset (Adjacent Name))
    rw [Multiset.coe_product, Multiset.coe_product, Multiset.map_coe] at hmultiset
    exact Multiset.coe_eq_coe.mp hmultiset
  rw [hswap, flatMap_pairsOf]
  have hfilter : ((far ×ˢ near).filter fun pair => pair.1.other = pair.2.other).map Prod.swap =
      ((far ×ˢ near).map Prod.swap).filter fun pair => pair.1.other = pair.2.other := by
    rw [List.filter_map]
    congr 1
    refine filter_congr fun pair _ => ?_
    simp [eq_comm]
  rw [hfilter]
  exact hproduct.filter _

theorem intersectRuns_perm {near far : List (Adjacent Name)} (hnear : SortedBy Adjacent.other near)
    (hfar : SortedBy Adjacent.other far) :
    ∃ pairs probes, intersectRuns near far = some (pairs, probes) ∧
      pairs.Perm ((near ×ˢ far).filter fun pair => pair.1.other = pair.2.other) := by
  by_cases hswapped : near.length > far.length
  · obtain ⟨probes, hloop⟩ := intersectLoop_spec true hfar hnear (far.length + 1) 0 0 0
      (Nat.zero_le _) (Nat.zero_le near.length) (by omega) nofun
    refine ⟨_, probes, ?_, flatMap_pairsOf_swapped near far⟩
    simpa only [intersectRuns, hswapped, if_true, decide_true, drop_zero] using hloop
  · obtain ⟨probes, hloop⟩ := intersectLoop_spec false hnear hfar (near.length + 1) 0 0 0
      (Nat.zero_le _) (Nat.zero_le far.length) (by omega) nofun
    refine ⟨_, probes, ?_, Perm.of_eq (flatMap_pairsOf near far)⟩
    simpa only [intersectRuns, hswapped, if_false, decide_false, drop_zero] using hloop

theorem mapM_entriesTo (hrun : SortedBy Adjacent.other run) (delta : List (Adjacent Name)) :
    (delta.mapM fun other => do
      let entries ← entriesTo run other.other
      return entries.map fun entry => (entry, other)) = some (delta.map (pairsOf run true)) :=
  mapM_eq_pure fun other _ => by
    rw [entriesTo_eq hrun]
    rfl

theorem intersectRunWithDelta_perm (hrun : SortedBy Adjacent.other run)
    (delta : List (Adjacent Name)) :
    ∃ pairs probes, intersectRunWithDelta run delta = some (pairs, probes) ∧
      pairs.Perm ((run ×ˢ delta).filter fun pair => pair.1.other = pair.2.other) := by
  by_cases hshort : run.length < shortRun
  · exact ⟨_, _, if_pos hshort, Perm.of_eq (flatMap_pairsOf run delta)⟩
  · refine ⟨delta.flatMap (pairsOf run true), delta.length, ?_, flatMap_pairsOf_swapped run delta⟩
    rw [intersectRunWithDelta, if_neg hshort, mapM_entriesTo hrun]
    rfl

/-- Galloping from any position of a sorted run stops at the first position from there
    whose other end is not below the one looked for. -/
theorem gallop_first (hsorted : SortedBy Adjacent.other sorted)
    {from_ : Nat} (hfrom : from_ ≤ sorted.length) (other : Nat) :
    ∃ position probes, gallop sorted from_ other = some (position, probes) ∧
      from_ ≤ position ∧ position ≤ sorted.length ∧
      (∀ i entry, from_ ≤ i → i < position → sorted[i]? = some entry → entry.other < other) ∧
      ∀ entry, sorted[position]? = some entry → other ≤ entry.other := by
  obtain ⟨probes, hgallop⟩ := gallop_eq hsorted hfrom other
  have hle := partitionPoint_le (fun entry => decide (entry.other < other)) (sorted.drop from_)
  rw [length_drop] at hle
  refine ⟨_, probes, hgallop, Nat.le_add_right .., by omega, ?_, ?_⟩
  · intro i entry hge hlt hentry
    have hfound : (sorted.drop from_)[i - from_]? = some entry := by
      rw [getElem?_drop, Nat.add_sub_cancel' hge]
      exact hentry
    have hlead : i - from_ <
        partitionPoint (fun entry => decide (entry.other < other)) (sorted.drop from_) := by omega
    simpa using of_lt_partitionPoint hlead hfound
  · intro entry hentry
    rw [← getElem?_drop] at hentry
    simpa using not_of_partitionPoint hentry

/-- **Intersections find every pair once.** For runs sorted by other end, with any
    repeats, `intersect_runs` and `intersect_run_with_delta` hand over exactly the pairs
    that reach one node, each as often as it can be formed, and `gallop` stops at the
    first position from where it starts that is not below the node; none of them reads
    past a run. -/
theorem intersections_exact :
    (∀ near far : List (Adjacent Name), SortedBy Adjacent.other near → SortedBy Adjacent.other far →
      ∃ pairs probes, intersectRuns near far = some (pairs, probes) ∧
        pairs.Perm ((near ×ˢ far).filter fun pair => pair.1.other = pair.2.other)) ∧
    (∀ run delta : List (Adjacent Name), SortedBy Adjacent.other run →
      ∃ pairs probes, intersectRunWithDelta run delta = some (pairs, probes) ∧
        pairs.Perm ((run ×ˢ delta).filter fun pair => pair.1.other = pair.2.other)) ∧
    ∀ (run : List (Adjacent Name)) (from_ other : Nat), SortedBy Adjacent.other run →
      from_ ≤ run.length →
      ∃ position probes, gallop run from_ other = some (position, probes) ∧
        from_ ≤ position ∧ position ≤ run.length ∧
        (∀ i entry, from_ ≤ i → i < position → run[i]? = some entry → entry.other < other) ∧
        ∀ entry, run[position]? = some entry → other ≤ entry.other :=
  ⟨fun _ _ hnear hfar => intersectRuns_perm hnear hfar,
    fun _ delta hrun => intersectRunWithDelta_perm hrun delta,
    fun _ _ other hsorted hfrom => gallop_first hsorted hfrom other⟩

/-- Two runs that reach node 4 twice each: four pairs. -/
theorem intersections_exact_repeats : ∃ (pairs : List (Adjacent Nat × Adjacent Nat)) (probes : Nat),
      intersectRuns [⟨1, 2, 0⟩, ⟨1, 4, 1⟩, ⟨1, 4, 2⟩]
        [⟨1, 4, 3⟩, ⟨1, 4, 4⟩, ⟨1, 6, 5⟩, ⟨1, 9, 6⟩] = some (pairs, probes) ∧
      pairs.Perm [(⟨1, 4, 1⟩, ⟨1, 4, 3⟩), (⟨1, 4, 1⟩, ⟨1, 4, 4⟩), (⟨1, 4, 2⟩, ⟨1, 4, 3⟩),
        (⟨1, 4, 2⟩, ⟨1, 4, 4⟩)] := by
  have hsorted : ∀ l : List (Adjacent Nat), (l.Pairwise fun a b => a.other ≤ b.other) →
      SortedBy Adjacent.other l := fun _ h => h
  obtain ⟨pairs, probes, hrun, hperm⟩ := intersections_exact.1 _ _
    (hsorted [⟨1, 2, 0⟩, ⟨1, 4, 1⟩, ⟨1, 4, 2⟩] (by decide))
    (hsorted [⟨1, 4, 3⟩, ⟨1, 4, 4⟩, ⟨1, 6, 5⟩, ⟨1, 9, 6⟩] (by decide))
  exact ⟨pairs, probes, hrun, hperm.trans (Perm.of_eq (by decide))⟩

/-- The fewest delta entries a merge waits for. -/
def mergeMin : Nat := 1024

/-- The derived order: edge type, other end, edge. -/
def Adjacent.le (a b : Adjacent Nat) : Bool :=
  if a.edgeType = b.edgeType then
    if a.other = b.other then a.edge ≤ b.edge else a.other < b.other
  else a.edgeType < b.edgeType

structure Adjacency where
  /-- Row `r` has the sorted list `sorted[offsets[r]..offsets[r + 1]]`. -/
  offsets : List Nat := []
  sorted : List (Adjacent Nat) := []
  /-- Edges taken out of the sorted lists since they were built. -/
  removed : List Nat := []
  /-- Edges added since, per row, in the order they came. -/
  delta : List (Nat × List (Adjacent Nat)) := []
  /-- The rows with edges in `delta`. -/
  deltaRows : List Nat := []
  /-- The entries in `delta`. -/
  deltaLen : Nat := 0
deriving DecidableEq, Repr

namespace Adjacency

/-! ### Reads -/

/-- The row's sorted list, removed edges included. -/
def sortedOf (adjacency : Adjacency) (row : Nat) : Option (List (Adjacent Nat)) :=
  rowSlice adjacency.offsets adjacency.sorted row

/-- Whether `adjacent` was taken out of a sorted list. -/
def isRemoved (adjacency : Adjacency) (adjacent : Adjacent Nat) : Bool :=
  !adjacency.removed.isEmpty && adjacency.removed.contains adjacent.edge

/-- The row's delta, in the order it came. -/
def deltaOf (adjacency : Adjacency) (row : Nat) : List (Adjacent Nat) :=
  if row ∈ adjacency.deltaRows then (adjacency.delta.lookup row).getD [] else []

/-- The row's edges: the sorted list, then the delta in the order it came. -/
def of (adjacency : Adjacency) (row : Nat) : Option (List (Adjacent Nat)) := do
  let sorted ← adjacency.sortedOf row
  return (sorted.filter fun adjacent => !adjacency.isRemoved adjacent) ++ adjacency.deltaOf row

/-- The row's edges of one type: a slice of the sorted list, then the delta's of that
    type. -/
def ofType (adjacency : Adjacency) (row edgeType : Nat) : Option (List (Adjacent Nat)) := do
  let sorted ← adjacency.sortedOf row
  let start := partitionPoint (fun adjacent => adjacent.edgeType < edgeType) sorted
  let stop := partitionPoint (fun adjacent => adjacent.edgeType ≤ edgeType) sorted
  let entries ← slice sorted start stop
  return (entries.filter fun adjacent => !adjacency.isRemoved adjacent) ++
    (adjacency.deltaOf row).filter fun adjacent => adjacent.edgeType = edgeType

/-- The runs of one type each of a list sorted by type. -/
def runsFrom : Nat → List (Adjacent Nat) → List (List (Adjacent Nat))
  | fuel + 1, first :: rest =>
      let stop := partitionPoint (fun adjacent => adjacent.edgeType ≤ first.edgeType) (first :: rest)
      (first :: rest).take stop :: runsFrom fuel ((first :: rest).drop stop)
  | _, _ => []

/-- The row's sorted list as its runs of one type each, with what `isRemoved` drops still
    in them. -/
def runsOf (adjacency : Adjacency) (row : Nat) : Option (List (List (Adjacent Nat))) :=
  (adjacency.sortedOf row).map fun sorted => runsFrom sorted.length sorted

/-- The row's edges to `other`: a binary search in the sorted list per edge type, then the
    delta's. -/
def toOther (adjacency : Adjacency) (row other : Nat) : Option (List (Adjacent Nat)) := do
  let runs ← adjacency.runsOf row
  let entries ← runs.mapM fun run => entriesTo run other
  return (entries.flatten.filter fun adjacent => !adjacency.isRemoved adjacent) ++
    (adjacency.deltaOf row).filter fun adjacent => adjacent.other = other

/-! ### Writes -/

/-- Sets the sorted list of `row`, after the rows set before it. -/
def pushSorted (adjacency : Adjacency) (row : Nat) (list : List (Adjacent Nat)) : Adjacency :=
  let offsets := if adjacency.offsets.isEmpty then [0] else adjacency.offsets
  -- The rows before it that have no list end where the lists end.
  let offsets := offsets ++ List.replicate (row + 1 - offsets.length) adjacency.sorted.length
  let sorted := adjacency.sorted ++ list
  { adjacency with offsets := offsets ++ [sorted.length], sorted := sorted }

/-- One row of a merge: what is kept of its sorted list and its delta, in order. -/
def mergedRow (adjacency : Adjacency) (row : Nat) : Option (List (Adjacent Nat)) := do
  let added := ((adjacency.delta.lookup row).getD []).mergeSort Adjacent.le
  let sorted ← adjacency.sortedOf row
  let kept := sorted.filter fun adjacent => !adjacency.removed.contains adjacent.edge
  return kept.merge added Adjacent.le

/-- Merges the delta into the sorted lists and drops the removed edges. -/
def merge (adjacency : Adjacency) : Option Adjacency := do
  let deltaRows := ((adjacency.delta.map Prod.fst).max?).elim 0 (· + 1)
  let rows := max (adjacency.offsets.length - 1) deltaRows
  let (offsets, sorted) ← (List.range rows).foldlM (fun (built : List Nat × List (Adjacent Nat)) row => do
    let merged ← adjacency.mergedRow row
    let sorted := built.2 ++ merged
    return (built.1 ++ [sorted.length], sorted)) ([0], [])
  return { offsets := offsets, sorted := sorted }

/-- An edge added to the row's delta, before the merge it may lead to. -/
def pushDelta (adjacency : Adjacency) (row : Nat) (adjacent : Adjacent Nat) : Adjacency :=
  { adjacency with
    delta := upsert row [] (· ++ [adjacent]) adjacency.delta
    deltaRows := adjacency.deltaRows.insert row
    deltaLen := adjacency.deltaLen + 1 }

/-- Adds an edge to the row's delta. -/
def push (adjacency : Adjacency) (row : Nat) (adjacent : Adjacent Nat) : Option Adjacency :=
  let adjacency := adjacency.pushDelta row adjacent
  if adjacency.deltaLen > max mergeMin (adjacency.sorted.length / 2) then adjacency.merge
  else some adjacency

/-- The delta of `row` is gone. -/
def dropDelta (adjacency : Adjacency) (row : Nat) : Adjacency :=
  { adjacency with
    delta := eraseKey row adjacency.delta
    deltaRows := adjacency.deltaRows.filter (· ≠ row) }

/-- Where the row's delta holds edge `edge`. -/
def deltaPosition (adjacency : Adjacency) (row edge : Nat) :
    Option (List (Adjacent Nat) × Nat) := do
  let list ← adjacency.delta.lookup row
  let index ← list.findIdx? fun adjacent => adjacent.edge = edge
  return (list, index)

/-- Takes the entry at `index` out of the row's delta `list`. -/
def removeDelta (adjacency : Adjacency) (row : Nat) (list : List (Adjacent Nat)) (index : Nat) :
    Adjacency :=
  let list := list.eraseIdx index
  let adjacency := { adjacency with
    delta := upsert row [] (fun _ => list) adjacency.delta
    deltaLen := adjacency.deltaLen - 1 }
  if list.isEmpty then adjacency.dropDelta row else adjacency

/-- Takes edge `edge` out of the row's adjacency. -/
def remove (adjacency : Adjacency) (row edge : Nat) : Option Adjacency :=
  match adjacency.deltaPosition row edge with
  | some (list, index) => some (adjacency.removeDelta row list index)
  | none => do
      let sorted ← adjacency.sortedOf row
      if sorted.any fun adjacent => adjacent.edge = edge then
        return { adjacency with removed := adjacency.removed.insert edge }
      else return adjacency

/-- Takes every edge out of the row's adjacency. -/
def clear (adjacency : Adjacency) (row : Nat) : Option Adjacency := do
  let adjacency := match adjacency.delta.lookup row with
    | some list => { adjacency.dropDelta row with deltaLen := adjacency.deltaLen - list.length }
    | none => adjacency
  let sorted ← adjacency.sortedOf row
  return { adjacency with
    removed := sorted.foldl (fun removed adjacent => removed.insert adjacent.edge)
      adjacency.removed }

/-- Whether a merge would change nothing. -/
def isMerged (adjacency : Adjacency) : Bool :=
  adjacency.deltaLen = 0 && adjacency.removed.isEmpty

end Adjacency

open List Option Nat

/-! ### The order of entries -/

theorem Adjacent.le_iff {a b : Adjacent Nat} :
    a.le b = true ↔ a.edgeType < b.edgeType ∨ a.edgeType = b.edgeType ∧
      (a.other < b.other ∨ a.other = b.other ∧ a.edge ≤ b.edge) := by
  rw [Adjacent.le]
  by_cases htype : a.edgeType = b.edgeType
  · by_cases hother : a.other = b.other <;> simp [htype, hother]
  · simp [htype]

theorem Adjacent.le_trans {a b c : Adjacent Nat} (hab : a.le b = true) (hbc : b.le c = true) :
    a.le c = true := by
  rw [Adjacent.le_iff] at *
  omega

theorem Adjacent.le_total (a b : Adjacent Nat) : (a.le b || b.le a) = true := by
  rw [or_eq_true, Adjacent.le_iff, Adjacent.le_iff]
  omega

/-- A sorted list is sorted by type. -/
theorem Adjacent.le_edgeType {a b : Adjacent Nat} (h : a.le b = true) :
    a.edgeType ≤ b.edgeType := by
  rw [Adjacent.le_iff] at h
  omega

/-- In the order of entries. -/
def Ordered (l : List (Adjacent Nat)) : Prop :=
  l.Pairwise fun a b => a.le b = true

theorem Ordered.sortedBy_other (h : Ordered l)
    (htype : ∀ a ∈ l, ∀ b ∈ l, a.edgeType = b.edgeType) : SortedBy Adjacent.other l := by
  refine Pairwise.imp_of_mem (fun ha hb hab => ?_) h
  have htypes := htype _ ha _ hb
  rw [Adjacent.le_iff] at hab
  omega

namespace Adjacency

/-! ### Layout -/

/-- The adjacency holds `lists`, one for each row, and its deltas under their rows. -/
structure Stored (adjacency : Adjacency) (lists : List (List (Adjacent Nat))) : Prop where
  sorted : adjacency.sorted = lists.flatten
  offsets : adjacency.offsets = offsetsFrom 0 lists ∨ adjacency.offsets = [] ∧ lists = []
  ordered : ∀ l ∈ lists, Ordered l
  deltaRows : ∀ row, row ∈ adjacency.deltaRows ↔ (adjacency.delta.lookup row).isSome = true
  keys : (adjacency.delta.map Prod.fst).Nodup
  deltaLen : adjacency.deltaLen = weigh List.length adjacency.delta

/-- The sorted list of a row. -/
def listAt (lists : List (List (Adjacent Nat))) (row : Nat) : List (Adjacent Nat) :=
  lists[row]?.getD []

/-- The delta of a row. -/
def deltaAt (adjacency : Adjacency) (row : Nat) : List (Adjacent Nat) :=
  (adjacency.delta.lookup row).getD []

/-- What the row lists: its sorted list without the removed edges, then its delta. -/
def listing (adjacency : Adjacency) (lists : List (List (Adjacent Nat))) (row : Nat) :
    List (Adjacent Nat) :=
  ((listAt lists row).filter fun adjacent => adjacent.edge ∉ adjacency.removed) ++
    adjacency.deltaAt row

variable {adjacency : Adjacency} {lists : List (List (Adjacent Nat))} {l : List (Adjacent Nat)}

theorem Stored.ordered_listAt (h : Stored adjacency lists) (row : Nat) :
    Ordered (listAt lists row) := by
  rw [listAt]
  cases hrow : lists[row]? with
  | none => exact .nil
  | some l => exact h.ordered l (mem_of_getElem? hrow)

theorem Stored.sortedOf_eq (h : Stored adjacency lists) (row : Nat) :
    adjacency.sortedOf row = some (listAt lists row) := by
  rw [sortedOf, h.sorted]
  rcases h.offsets with hoffsets | ⟨hoffsets, rfl⟩
  · rw [hoffsets, rowSlice_offsetsFrom]
    rfl
  · rw [hoffsets]
    rfl

theorem Stored.deltaOf_eq (h : Stored adjacency lists) (row : Nat) :
    adjacency.deltaOf row = adjacency.deltaAt row := by
  rw [deltaOf, deltaAt]
  by_cases hrow : row ∈ adjacency.deltaRows
  · rw [if_pos hrow]
  · rw [if_neg hrow]
    cases hfound : adjacency.delta.lookup row with
    | none => rfl
    | some l => exact absurd ((h.deltaRows row).mpr (by rw [hfound]; rfl)) hrow

theorem isRemoved_eq (adjacency : Adjacency) (adjacent : Adjacent Nat) :
    adjacency.isRemoved adjacent = decide (adjacent.edge ∈ adjacency.removed) := by
  rw [isRemoved]
  cases hremoved : adjacency.removed with
  | nil | cons => simp

/-! ### Reads -/

theorem Stored.of_eq (h : Stored adjacency lists) (row : Nat) :
    adjacency.of row = some (adjacency.listing lists row) := by
  simp [of, h.sortedOf_eq, listing, h.deltaOf_eq, isRemoved_eq]

theorem Stored.ofType_eq (h : Stored adjacency lists) (row edgeType : Nat) :
    adjacency.ofType row edgeType =
      some ((adjacency.listing lists row).filter fun adjacent => adjacent.edgeType = edgeType) := by
  have hsorted : SortedBy Adjacent.edgeType _ := (h.ordered_listAt row).imp Adjacent.le_edgeType
  have hslice := hsorted.slice_range edgeType
  simp only [ofType, h.sortedOf_eq, bind_eq_bind, bind_some, hslice,
    Option.pure_def, listing, h.deltaOf_eq, isRemoved_eq, filter_append, List.filter_filter]
  congr 2
  refine filter_congr fun adjacent _ => ?_
  rw [Bool.and_comm, decide_not]

/-- The runs of a list in order, one after the other, are the list, and each is sorted by
    other end. -/
theorem runsFrom_spec (fuel : Nat) (hordered : Ordered l) (hfuel : l.length ≤ fuel) :
    (runsFrom fuel l).flatten = l ∧ ∀ run ∈ runsFrom fuel l, SortedBy Adjacent.other run := by
  induction fuel generalizing l with
  | zero =>
    obtain rfl : l = [] := eq_nil_of_length_eq_zero (le_zero.mp hfuel)
    exact ⟨rfl, nofun⟩
  | succ fuel ih =>
    cases l with
    | nil => exact ⟨rfl, nofun⟩
    | cons first rest =>
      rw [runsFrom]
      generalize hstop : partitionPoint
        (fun adjacent => decide (adjacent.edgeType ≤ first.edgeType)) (first :: rest) = stop
      have hpos : 0 < stop := by
        rw [← hstop, partitionPoint, takeWhile_cons_of_pos (by simp)]
        exact succ_pos _
      have hrest : Ordered ((first :: rest).drop stop) :=
        Pairwise.sublist (drop_sublist ..) hordered
      obtain ⟨hflatten, hsorted⟩ := ih hrest (by
        rw [length_drop]
        omega)
      refine ⟨?_, fun run hrun => ?_⟩
      · rw [flatten_cons, hflatten, take_append_drop]
      rcases mem_cons.mp hrun with rfl | hrun
      · -- The entries of the run have the type of the first: none before it is lower.
        have htype : ∀ a ∈ (first :: rest).take stop, a.edgeType = first.edgeType := by
          intro a ha
          have hle : a.edgeType ≤ first.edgeType := by
            rw [← hstop, take_partitionPoint] at ha
            simpa using mem_takeWhile_imp ha
          rcases mem_cons.mp (mem_of_mem_take ha) with rfl | hmem
          · rfl
          · have hge := Adjacent.le_edgeType ((pairwise_cons.mp hordered).1 a hmem)
            omega
        refine Ordered.sortedBy_other
          (Pairwise.sublist (take_sublist ..) hordered) fun a ha b hb => ?_
        rw [htype a ha, htype b hb]
      · exact hsorted run hrun

theorem Stored.toOther_eq (h : Stored adjacency lists) (row other : Nat) :
    adjacency.toOther row other =
      some ((adjacency.listing lists row).filter fun adjacent => adjacent.other = other) := by
  obtain ⟨hflatten, hsorted⟩ :=
    runsFrom_spec (listAt lists row).length (h.ordered_listAt row) le_rfl
  have hentries := mapM_eq_pure fun run hrun => entriesTo_eq (hsorted run hrun) other
  simp only [toOther, runsOf, h.sortedOf_eq, map_some, bind_eq_bind,
    bind_some, hentries, Option.pure_def, ← filter_flatten,
    hflatten, listing, h.deltaOf_eq, isRemoved_eq, filter_append, List.filter_filter]
  congr 2
  refine filter_congr fun adjacent _ => ?_
  rw [Bool.and_comm, decide_not]

end Adjacency

end Grafeo.RowGroup
