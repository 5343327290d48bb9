import Grafeo.Common.Error
import Grafeo.Lib.Except
import Grafeo.Lib.Gaps
import Mathlib.Data.List.Sort

/-!
# Grafeo.Storage.Pages

**The page allocator of container v3** (`grafeo-storage/src/file/v3/alloc.rs`). It is
built from the runs of pages in use; every other page from the data start on is free.
Allocation is first fit over the gaps, and appends at the end when no gap is large
enough.

The set of free pages (`PageAllocator.Free`) says what it is for: `fromUsed` frees what
no run uses (`fromUsed_spec`), and an allocation takes pages that were free and are not
free after it (`allocate_spec`, `allocateBefore_spec`). Page numbers and counts are `u64`
numbers; a sum or product past them is the error the source returns.
-/

namespace Grafeo.Storage

open Common Lib List Option Nat

def pageSize : Nat := 4096

/-- The first page behind the headers. -/
def dataStartPage : Nat := 3

/-- `checked_add` and `checked_mul` of `u64`: the number when it is one. -/
def checked (n : Nat) : Option Nat := if n < 2 ^ 64 then some n else none

/-- A run of contiguous pages. -/
structure PageRun where
  first : Nat
  count : Nat
deriving Repr, DecidableEq

namespace PageRun

/-- The run as `{:?}` writes it. -/
def debug (run : PageRun) : String :=
  s!"PageRun \x7b first: {run.first}, count: {run.count} \x7d"

/-- The byte offset of the first page. -/
def offset (run : PageRun) : Except Error Nat :=
  match checked (run.first * pageSize) with
  | some offset => .ok offset
  | none => .error (.internal s!"page run {run.debug} starts beyond the file offset range")

/-- The pages needed for `len` bytes. -/
def forBytes (len : Nat) : Nat := (len + pageSize - 1) / pageSize

/-- The page is one of the run's. -/
def Has (run : PageRun) (page : Nat) : Prop := InGap (run.first, run.count) page

/-- The run lies behind the headers, and its bytes in the file offset range. -/
structure Placed (run : PageRun) : Prop where
  data : dataStartPage ≤ run.first
  range : (run.first + run.count) * pageSize < 2 ^ 64

/-- The runs share no page. -/
def Disjoint (a b : PageRun) : Prop := ∀ page, a.Has page → ¬b.Has page

theorem Disjoint.symm {a b : PageRun} (h : a.Disjoint b) : b.Disjoint a :=
  fun page hb ha => h page ha hb

/-- The order runs are sorted in: by first page, then by count. -/
def le (a b : PageRun) : Bool :=
  decide (a.first < b.first) || decide (a.first = b.first) && decide (a.count ≤ b.count)

theorem le_trans (a b c : PageRun) (hab : a.le b = true) (hbc : b.le c = true) : a.le c = true := by
  simp only [le, Bool.or_eq_true, Bool.and_eq_true, decide_eq_true_eq] at *
  omega

theorem le_total (a b : PageRun) : (a.le b || b.le a) = true := by
  simp only [le, Bool.or_eq_true, Bool.and_eq_true, decide_eq_true_eq]
  omega

end PageRun

/-- The free gaps by their first page, and one past the last page in use or allocated. -/
structure PageAllocator where
  free : List (Nat × Nat) := []
  endPage : Nat := dataStartPage
deriving Repr, DecidableEq

namespace PageAllocator

/-- The end of a run of `count` pages at `first`, when its bytes lie in the file offset range. -/
def checkedEnd (first count : Nat) : Option Nat :=
  (checked (first + count)).filter fun runEnd => (checked (runEnd * pageSize)).isSome

/-- One more used run, none before it in order. -/
def addUsed (pages : PageAllocator) (run : PageRun) : Except Error PageAllocator :=
  if run.first < dataStartPage then
    .error (.serialization
      s!"page run {run.debug} starts below the data start page {dataStartPage}")
  else
    match checkedEnd run.first run.count with
    | none => .error (.serialization s!"page run {run.debug} overflows the file offset range")
    | some runEnd =>
        if run.first < pages.endPage then
          .error (.serialization
            s!"page run {run.debug} overlaps an earlier run that ends at page {pages.endPage}")
        else
          .ok {
            free :=
              if pages.endPage < run.first then
                pages.free ++ [(pages.endPage, run.first - pages.endPage)]
              else pages.free
            endPage := runEnd }

/-- The allocator that spares the runs in use. Runs without pages are ignored. -/
def fromUsed (used : List PageRun) : Except Error PageAllocator :=
  ((used.filter fun run => decide (0 < run.count)).mergeSort PageRun.le).foldlM addUsed {}

/-- Allocates `count` pages: in the first gap that fits, else at the end. -/
def allocate (pages : PageAllocator) (count : Nat) : Except Error (PageRun × PageAllocator) :=
  if count = 0 then .ok ({ first := 0, count := 0 }, pages)
  else
    match fill (fun gap => decide (count ≤ gap.2)) count pages.free with
    | some (first, free) => .ok ({ first, count }, { pages with free })
    | none =>
        match checkedEnd pages.endPage count with
        | some endPage => .ok ({ first := pages.endPage, count }, { pages with endPage })
        | none => .error (.internal (s!"cannot allocate {count} pages at page {pages.endPage}: " ++
            "the run would end beyond the file offset range"))

/-- Allocates `count` pages in the first gap that fits and ends at or before page `limit`. -/
def allocateBefore (pages : PageAllocator) (count limit : Nat) : Option (PageRun × PageAllocator) :=
  if count = 0 then none
  else
    (fill (fun gap => decide (gap.1 < limit) && decide (count ≤ gap.2) &&
        decide (gap.1 + count ≤ limit)) count pages.free).map
      fun taken => ({ first := taken.1, count }, { pages with free := taken.2 })

/-! ### The free pages -/

/-- The page is free: in a gap, or behind the end. -/
def Free (pages : PageAllocator) (page : Nat) : Prop :=
  (∃ gap ∈ pages.free, InGap gap page) ∨ pages.endPage ≤ page

/-- The gaps do not overlap and lie between the data start and the end, which lies in the file
offset range. -/
structure Ok (pages : PageAllocator) : Prop where
  apart : Apart pages.free
  start : ∀ gap ∈ pages.free, dataStartPage ≤ gap.1
  stop : ∀ gap ∈ pages.free, gap.1 + gap.2 ≤ pages.endPage
  data : dataStartPage ≤ pages.endPage
  range : pages.endPage * pageSize < 2 ^ 64

/-- An allocation took `run`: pages that were free, and no others are free no more. -/
structure Takes (pages : PageAllocator) (run : PageRun) (pages' : PageAllocator) : Prop where
  ok : pages'.Ok
  placed : run.Placed
  free : ∀ page, run.Has page → pages.Free page
  left : ∀ page, pages'.Free page ↔ pages.Free page ∧ ¬run.Has page

theorem checkedEnd_eq_some {first count runEnd : Nat} : checkedEnd first count = some runEnd ↔
      runEnd = first + count ∧ (first + count) * pageSize < 2 ^ 64 := by
  unfold checkedEnd checked pageSize
  rw [filter_eq_some_iff]
  constructor
  · intro h
    obtain ⟨hsum, hsome⟩ := h
    split at hsum <;> cases hsum
    split at hsome
    · exact ⟨rfl, ‹_›⟩
    · cases hsome
  · rintro ⟨rfl, hrange⟩
    rw [if_pos (by omega), if_pos hrange]
    exact ⟨rfl, rfl⟩

variable {pages pages' : PageAllocator} {run : PageRun} {count : Nat} {used : List PageRun}
  {runs : List PageRun}

open PageRun

/-- Pages taken from a gap. -/
theorem takes_of_fill (h : pages.Ok) {fits : Nat × Nat → Bool} {first : Nat}
    {free : List (Nat × Nat)} (hfill : fill fits count pages.free = some (first, free))
    (hfits : ∀ gap, fits gap = true → count ≤ gap.2) :
    pages.Takes { first, count } { pages with free } := by
  obtain ⟨⟨gap, hgap, hfit, rfl⟩, hapart, hwithin, hleft⟩ := fill_spec hfill h.apart hfits
  have hroom := hfits gap hfit
  have hstop := h.stop gap hgap
  refine
    { ok :=
        { apart := hapart
          start rest hrest := ?_
          stop rest hrest := ?_
          data := h.data
          range := h.range }
      placed := ⟨h.start gap hgap, ?_⟩
      free page hpage := .inl ⟨gap, hgap, hpage.1, ?_⟩
      left page := ?_ }
  · obtain ⟨old, hold, hle, -⟩ := hwithin rest hrest
    exact (h.start old hold).trans hle
  · obtain ⟨old, hold, -, heq⟩ := hwithin rest hrest
    exact heq ▸ h.stop old hold
  · have hle : gap.1 + count ≤ pages.endPage := by omega
    exact (mul_le_mul_right _ hle).trans_lt h.range
  · have hlt := hpage.2
    dsimp only at hlt
    omega
  have hbehind : pages.endPage ≤ page → ¬Has { first := gap.1, count } page := by
    intro hpage hhas
    have hlt := hhas.2
    dsimp only at hlt
    omega
  unfold Free
  rw [hleft page]
  constructor
  · rintro (⟨hin, hnot⟩ | hpage)
    · exact ⟨.inl hin, hnot⟩
    · exact ⟨.inr hpage, hbehind hpage⟩
  · rintro ⟨hin | hpage, hnot⟩
    · exact .inl ⟨hin, hnot⟩
    · exact .inr hpage

/-- **An allocation takes free pages.** -/
theorem allocate_spec (h : pages.Ok) (hcount : 0 < count)
    (halloc : pages.allocate count = .ok (run, pages')) :
    run.count = count ∧ pages.Takes run pages' := by
  unfold allocate at halloc
  rw [if_neg (by omega)] at halloc
  split at halloc
  next first free hfill =>
    cases halloc
    exact ⟨rfl, takes_of_fill h hfill fun gap hgap => of_decide_eq_true hgap⟩
  split at halloc <;> cases halloc
  rename_i endPage hend
  obtain ⟨rfl, hrange⟩ := checkedEnd_eq_some.mp hend
  refine ⟨rfl,
    { ok :=
        { apart := h.apart
          start := h.start
          stop gap hgap := (h.stop gap hgap).trans (Nat.le_add_right ..)
          data := h.data.trans (Nat.le_add_right ..)
          range := hrange }
      placed := ⟨h.data, hrange⟩
      free page hpage := .inr hpage.1
      left page := ?_ }⟩
  unfold Free Has InGap
  constructor
  · rintro (⟨gap, hgap, hin⟩ | hpage)
    · have hstop := h.stop gap hgap
      exact ⟨.inl ⟨gap, hgap, hin⟩, by dsimp only; omega⟩
    · dsimp only at hpage ⊢
      exact ⟨.inr (by omega), by omega⟩
  · rintro ⟨hin | hpage, hnot⟩
    · exact .inl hin
    · dsimp only at hnot ⊢
      exact .inr (by omega)

theorem allocateBefore_spec (h : pages.Ok) {limit : Nat}
    (halloc : pages.allocateBefore count limit = some (run, pages')) :
    run.count = count ∧ pages.Takes run pages' := by
  unfold allocateBefore at halloc
  split at halloc
  · cases halloc
  · obtain ⟨⟨first, free⟩, hfill, heq⟩ := map_eq_some_iff.mp halloc
    cases heq
    refine ⟨rfl, takes_of_fill h hfill fun gap hgap => ?_⟩
    simp only [Bool.and_eq_true, decide_eq_true_eq] at hgap
    exact hgap.1.2

/-! ### The runs in use -/

/-- **A used run is taken as it is**, behind the end. -/
theorem addUsed_spec (h : pages.Ok) (hadd : pages.addUsed run = .ok pages') :
    pages.endPage ≤ run.first ∧ pages.Takes run pages' := by
  unfold addUsed at hadd
  split at hadd
  · cases hadd
  rename_i hdata
  split at hadd
  · cases hadd
  rename_i runEnd hend
  split at hadd
  · cases hadd
  rename_i hfirst
  cases hadd
  obtain ⟨rfl, hrange⟩ := checkedEnd_eq_some.mp hend
  obtain ⟨first, count⟩ := run
  dsimp only at *
  have hgap : ∀ gap ∈ pages.free, gap.1 + gap.2 ≤ first := fun gap hgap =>
    (h.stop gap hgap).trans (le_of_not_gt hfirst)
  have hmem : ∀ gap, gap ∈ (if pages.endPage < first then
      pages.free ++ [(pages.endPage, first - pages.endPage)] else pages.free) ↔
        gap ∈ pages.free ∨ pages.endPage < first ∧ gap = (pages.endPage, first - pages.endPage) := by
    intro gap
    split <;> simp [*]
  refine ⟨le_of_not_gt hfirst,
    { ok :=
        { apart := ?_
          start gap hin := ?_
          stop gap hin := ?_
          data := by dsimp only; omega
          range := hrange }
      placed := ⟨le_of_not_gt hdata, hrange⟩
      free page hpage := .inr ((le_of_not_gt hfirst).trans hpage.1)
      left page := ?_ }⟩
  · dsimp only
    split
    · refine pairwise_append.mpr ⟨h.apart, pairwise_singleton .., fun a ha b hb => ?_⟩
      cases mem_singleton.mp hb
      exact h.stop a ha
    · exact h.apart
  · obtain hin | ⟨-, rfl⟩ := (hmem gap).mp hin
    · exact h.start gap hin
    · exact h.data
  · obtain hin | ⟨hlt, rfl⟩ := (hmem gap).mp hin
    · exact (hgap gap hin).trans (Nat.le_add_right ..)
    · dsimp only
      omega
  · unfold Free Has InGap
    simp only [hmem]
    constructor
    · rintro (⟨gap, hin | ⟨hlt, rfl⟩, hpage⟩ | hpage)
      · have hle := hgap gap hin
        exact ⟨.inl ⟨gap, hin, hpage⟩, by omega⟩
      · dsimp only at hpage
        exact ⟨.inr (by omega), by omega⟩
      · exact ⟨.inr (by omega), by omega⟩
    · rintro ⟨⟨gap, hin, hpage⟩ | hpage, hnot⟩
      · exact .inl ⟨gap, .inl hin, hpage⟩
      · by_cases hbefore : page < first
        · exact .inl ⟨(pages.endPage, first - pages.endPage), .inr ⟨by omega, rfl⟩, hpage,
            by dsimp only; omega⟩
        · exact .inr (by omega)

theorem foldlM_addUsed_spec (h : pages.Ok) (hruns : runs.foldlM addUsed pages = .ok pages') :
    pages'.Ok ∧ runs.Pairwise PageRun.Disjoint ∧
      (∀ run ∈ runs, run.Placed ∧ ∀ page, run.Has page → pages.Free page) ∧
      ∀ page, pages'.Free page ↔ pages.Free page ∧ ∀ run ∈ runs, ¬run.Has page := by
  induction runs generalizing pages with
  | nil =>
    cases hruns
    exact ⟨h, .nil, by simp, by simp⟩
  | cons run runs ih =>
    obtain ⟨next, hadd, hruns⟩ := bind_eq_ok.mp hruns
    obtain ⟨-, htakes⟩ := addUsed_spec h hadd
    obtain ⟨hok, hpairs, hrest, hfree⟩ := ih htakes.ok hruns
    refine ⟨hok, pairwise_cons.mpr ⟨fun other hother page hhas hin => ?_, hpairs⟩,
      fun other hother => ?_, fun page => ?_⟩
    · exact ((htakes.left page).mp ((hrest other hother).2 page hin)).2 hhas
    · obtain rfl | hother := mem_cons.mp hother
      · exact ⟨htakes.placed, htakes.free⟩
      · exact ⟨(hrest other hother).1, fun page hin =>
          ((htakes.left page).mp ((hrest other hother).2 page hin)).1⟩
    · rw [hfree, htakes.left, forall_mem_cons, and_assoc]

theorem ok_empty : ({} : PageAllocator).Ok where
  apart := .nil
  start := nofun
  stop := nofun
  data := le_rfl
  range := by decide

/-- **The allocator spares the runs in use**, which share no page. -/
theorem fromUsed_spec (h : fromUsed used = .ok pages) :
    pages.Ok ∧ (used.filter fun run => decide (0 < run.count)).Pairwise PageRun.Disjoint ∧
      (∀ run ∈ used, 0 < run.count → run.Placed) ∧
      ∀ page, pages.Free page ↔ dataStartPage ≤ page ∧ ∀ run ∈ used, ¬run.Has page := by
  obtain ⟨hok, hpairs, hplaced, hfree⟩ := foldlM_addUsed_spec ok_empty h
  have hperm := mergeSort_perm (used.filter fun run => decide (0 < run.count)) le
  refine ⟨hok, (hperm.pairwise_iff fun h => h.symm).mp hpairs, fun run hrun hcount => ?_,
    fun page => ?_⟩
  · exact (hplaced run (hperm.mem_iff.mpr (mem_filter.mpr ⟨hrun, by simpa using hcount⟩))).1
  rw [hfree]
  refine and_congr ⟨fun hpage => ?_, .inr⟩ ⟨fun hnot run hrun hin => ?_, fun hnot run hrun => ?_⟩
  · obtain ⟨gap, hgap, -⟩ | hpage := hpage
    · cases hgap
    · exact hpage
  · have hcount : 0 < run.count := by
      obtain ⟨hle, hlt⟩ := hin
      omega
    exact hnot run (hperm.mem_iff.mpr (mem_filter.mpr ⟨hrun, by simpa using hcount⟩)) hin
  · exact hnot run (mem_filter.mp (hperm.mem_iff.mp hrun)).1

/-- Placed runs one behind the other are accepted. -/
theorem foldlM_addUsed_ok (h : pages.Ok)
    (hsorted : runs.Pairwise fun a b => a.first + a.count ≤ b.first)
    (hplaced : ∀ run ∈ runs, run.Placed) (hend : ∀ run ∈ runs, pages.endPage ≤ run.first) :
    ∃ pages', runs.foldlM addUsed pages = .ok pages' := by
  induction runs generalizing pages with
  | nil => exact ⟨pages, rfl⟩
  | cons run runs ih =>
    obtain ⟨hnext, hsorted⟩ := pairwise_cons.mp hsorted
    have hrun := hplaced run mem_cons_self
    have hfirst := hend run mem_cons_self
    have hchecked : checkedEnd run.first run.count = some (run.first + run.count) :=
      checkedEnd_eq_some.mpr ⟨rfl, hrun.range⟩
    obtain ⟨next, hadd, hstop⟩ : ∃ next, pages.addUsed run = .ok next ∧
        next.endPage = run.first + run.count := by
      unfold addUsed
      rw [if_neg (not_lt.mpr hrun.data), hchecked]
      dsimp only
      rw [if_neg (not_lt.mpr hfirst)]
      exact ⟨_, rfl, rfl⟩
    obtain ⟨pages', hrest⟩ := ih (addUsed_spec h hadd).2.ok hsorted
      (fun other hother => hplaced other (mem_cons_of_mem _ hother))
      fun other hother => hstop ▸ hnext other hother
    exact ⟨pages', foldlM_cons.trans (bind_eq_ok.mpr ⟨next, hadd, hrest⟩)⟩

/-- **Placed runs that share no page make an allocator.** -/
theorem fromUsed_ok (hplaced : ∀ run ∈ used, 0 < run.count → run.Placed)
    (hdisjoint : (used.filter fun run => decide (0 < run.count)).Pairwise PageRun.Disjoint) :
    ∃ pages, fromUsed used = .ok pages := by
  have hperm := mergeSort_perm (used.filter fun run => decide (0 < run.count)) le
  have hcounts : ∀ run ∈ (used.filter fun run => decide (0 < run.count)).mergeSort le,
      run ∈ used ∧ 0 < run.count := fun run hrun => by
    simpa using mem_filter.mp (hperm.mem_iff.mp hrun)
  have hpairs := (hperm.pairwise_iff (R := PageRun.Disjoint) fun h => h.symm).mpr hdisjoint
  have hsorted := pairwise_mergeSort le_trans le_total
    (used.filter fun run => decide (0 < run.count))
  refine foldlM_addUsed_ok ok_empty ?_ (fun run hrun => ?_) fun run hrun => ?_
  · refine (hpairs.and hsorted).imp_of_mem fun {a b} ha hb hab => ?_
    obtain ⟨hdisjoint, hle⟩ := hab
    -- The first page of the later run is not one of the earlier run's.
    have hnot : ¬a.Has b.first := fun hin => hdisjoint b.first hin ⟨le_rfl, by
      have hb := (hcounts b hb).2
      omega⟩
    unfold Has InGap at hnot
    simp only [le, Bool.or_eq_true, Bool.and_eq_true, decide_eq_true_eq] at hle
    omega
  · exact hplaced run (hcounts run hrun).1 (hcounts run hrun).2
  · exact (hplaced run (hcounts run hrun).1 (hcounts run hrun).2).data

end PageAllocator

end Grafeo.Storage
