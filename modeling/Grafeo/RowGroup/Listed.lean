import Grafeo.RowGroup.WorkloadOk

/-!
# Grafeo.RowGroup.Listed

**Every vector with versions is listed**, in every state of a run (`Reachable.listed`): a
collect over the listed vectors misses none. The values kept of a cell stand in the order of
the commits over them (`Reachable.sorted`), so that a collect drops the oldest.
-/

namespace Grafeo.RowGroup

open List

variable {Name Value : Type} {pre undone : List (Change Name Value)}

/-- What a collect leaves kept of a row was kept before it. -/
theorem Row.kept_of_collect (row : Row Name Value) (horizon : Nat) (collapsed : Bool) :
    ((row.collect horizon collapsed).labels.kept ≠ [] → row.labels.kept ≠ []) ∧
      ∀ key, ((row.collect horizon collapsed).values key).kept ≠ [] →
        (row.values key).kept ≠ [] := by
  have hkept : ∀ {T : Type} (cell : Cell T), (cell.collect horizon).kept ≠ [] → cell.kept ≠ [] := by
    intro T cell hne hnil
    simp [Cell.collect, hnil] at hne
  unfold Row.collect
  split
  · exact ⟨fun h => absurd rfl h, fun _ h => absurd rfl h⟩
  · exact ⟨hkept _, fun key => hkept _⟩

/-! ### The vectors with versions -/

/-- A vector that bears stamps, or keeps something of a row, is listed; a key with something
kept has a column. -/
structure Store.Listed (s : Store Name Value) : Prop where
  stamped : ∀ table vector, s.stamped table vector = true → (table, vector) ∈ s.listed
  labels : ∀ e, (s.row e).labels.kept ≠ [] → (e.table, vectorOf e.raw) ∈ s.listed
  values : ∀ e key, ((s.row e).values key).kept ≠ [] →
    (e.table, vectorOf e.raw) ∈ s.listed ∧ key ∈ (s.rows e.table).keys

namespace Tables

variable {tables : Tables Name Value}

/-- A vector holds versions when it bears stamps or something is kept of one of its rows, of a
key with a column. -/
theorem Sound.unsettled_iff (h : tables.Sound)
    (hkeys : ∀ e key, ((tables.row e).values key).kept ≠ [] → key ∈ (tables.rows e.table).keys)
    (table : Table) (vector : Nat) :
    tables.unsettled table vector = true ↔ tables.stamped table vector = true ∨
      ∃ e : Entity, e.table = table ∧ vectorOf e.raw = vector ∧
        ((tables.row e).labels.kept ≠ [] ∨ ∃ key, ((tables.row e).values key).kept ≠ []) := by
  simp only [unsettled, Bool.or_eq_true, Bool.and_eq_true, any_eq_true, decide_eq_true_eq, stamped,
    and_or_left, exists_or]
  refine or_assoc.trans (or_congr_right (or_comm.trans (or_congr ?_ ?_)))
  · constructor
    · rintro ⟨rfl, hchain⟩
      obtain ⟨raw, hraw, hkept⟩ := h.labels.hasChain_iff.mp hchain
      exact ⟨.node raw, rfl, hraw, hkept⟩
    · rintro ⟨e, rfl, rfl, hkept⟩
      cases e with
      | node id => exact ⟨rfl, h.labels.hasChain_iff.mpr ⟨id, rfl, hkept⟩⟩
      | edge id => exact absurd rfl hkept
  · constructor
    · rintro ⟨key, -, hchain⟩
      obtain ⟨raw, hraw, hkept⟩ := (h.columns table key).hasChain_iff.mp hchain
      refine ⟨entityOf table raw, table_entityOf table raw, by rwa [raw_entityOf], key, ?_⟩
      cases table <;> exact hkept
    · rintro ⟨e, rfl, rfl, key, hkept⟩
      refine ⟨key, hkeys e key hkept, (h.columns e.table key).hasChain_iff.mpr ⟨e.raw, rfl, ?_⟩⟩
      rwa [values_row] at hkept

end Tables

namespace Store

variable {s s' : Store Name Value}

/-- **The listed vectors are all those that hold versions.** -/
theorem Listed.mem_of_unsettled (h : s.Listed) (hs : s.Sound) {table : Table} {vector : Nat}
    (hunsettled : s.unsettled table vector = true) : (table, vector) ∈ s.listed := by
  rcases (hs.unsettled_iff (fun e key hkept => (h.values e key hkept).2) ..).mp hunsettled with
    hstamped | ⟨e, rfl, rfl, hkept | ⟨key, hkept⟩⟩
  · exact h.stamped _ _ hstamped
  · exact h.labels e hkept
  · exact (h.values e key hkept).1

/-- A call that brings no version, and takes no vector off the list. -/
theorem Listed.of_unstamped (h : s.Listed) (hstamps : s.Unstamped s'.toTables)
    (hlisted : s.listed ⊆ s'.listed)
    (hlabels : ∀ e, (s'.row e).labels.kept ≠ [] → (s.row e).labels.kept ≠ [])
    (hvalues : ∀ e key, ((s'.row e).values key).kept ≠ [] → ((s.row e).values key).kept ≠ []) :
    s'.Listed where
  stamped table vector hstamped :=
    hlisted (h.stamped table vector ((hstamps.stamped table vector hstamped).resolve_right id))
  labels e hkept := hlisted (h.labels e (hlabels e hkept))
  values e key hkept :=
    have hold := h.values e key (hvalues e key hkept)
    ⟨hlisted hold.1, hstamps.keys e.table hold.2⟩

theorem Idles.subset (h : s.Idles s') : s.listed ⊆ s'.listed := by
  rcases h.listed with hlisted | ⟨table, raw, hlisted⟩
  · rw [hlisted]
    exact Subset.refl _
  · rw [hlisted]
    unfold list
    split
    · exact Subset.refl _
    · exact subset_append_left ..

/-- A call that wrote no row. -/
theorem Listed.idles (h : s.Listed) (hidles : s.Idles s') : s'.Listed := by
  refine h.of_unstamped ?_ hidles.subset (fun e => ?_) fun e key => ?_
  · rw [hidles.toTables]
    exact .refl ..
  · rw [hidles.row]
    exact id
  · rw [hidles.row]
    exact id

/-! ### Writes -/

variable [DecidableEq Name] [DecidableEq Value] {s₁ : Store Name Value} {mode : Mode}
  {op : DataOp Name Value} {applied : Applied Name Value} {pushed : Option Stamp}
  {version : PendingVersion}

theorem mem_listOp (hlists : mode.lists op = some (op.entity.table, op.entity.raw))
    (hhas : s.has op.entity = true) :
    (op.entity.table, vectorOf op.entity.raw) ∈ (s.listOp mode op).listed := by
  have hgroup : s.hasGroup op.entity.table op.entity.raw = true := by
    simp only [hasGroup, Bool.or_eq_true]
    exact .inl (.inl hhas)
  simp only [listOp, hlists, list, hgroup, Bool.not_true, Bool.false_eq_true, or_false]
  split
  · assumption
  · exact mem_append_right _ mem_cons_self

/-- The row of a write is there after. -/
theorem Written.has (h : s.Written op mode pushed version s₁) : s₁.has op.entity = true := by
  have hrow := h.puts op.entity
  rw [Tables.has_row, hrow]
  cases hcreate : op.isCreate with
  | true => cases op <;> simp_all [DataOp.isCreate, DataOp.rowOp, Row.put]
  | false =>
    have hsome := isSome_of_visible (h.seen hcreate)
    cases op <;> simp_all [DataOp.isCreate, DataOp.rowOp, Row.put]

/-- What a write keeps is of a vector it lists. -/
theorem Listed.written (h : s.Listed) (happly : s.applyOp op mode = .ok (s₁, applied))
    (hwritten : s.Written op mode pushed version s₁) (hsettles : s₁.Settles op mode true s') :
    s'.Listed := by
  obtain ⟨hstamps, hkeys⟩ := applyOp_stampsAt happly
  have hsub : s.listed ⊆ s'.listed := hwritten.frame.listed ▸ hsettles.idles.subset
  -- The vector of the op, where the mode lists it.
  have hlists : mode.lists op = some (op.entity.table, op.entity.raw) →
      (op.entity.table, vectorOf op.entity.raw) ∈ s'.listed := fun hlists => by
    rw [hsettles.listed, if_pos rfl]
    exact mem_listOp hlists hwritten.has
  have hrow := hwritten.row hsettles op.entity
  have hother : ∀ e, e ≠ op.entity → s'.row e = s.row e := fun e he => by
    rw [hwritten.row hsettles, if_neg he]
  refine ⟨fun table vector hstamped => ?_, fun e hkept => ?_, fun e key hkept => ?_⟩
  · rw [hsettles.toTables] at hstamped
    rcases hstamps.stamped table vector hstamped with hold | ⟨hop, rfl, rfl⟩
    · exact hsub (h.stamped table vector hold)
    · refine hlists ?_
      cases op <;> simp_all [DataOp.isCreate, DataOp.isDelete, Mode.lists, DataOp.entity,
        Entity.table, Entity.raw]
  · by_cases he : e = op.entity
    · subst he
      rw [hrow] at hkept
      cases hrowOp : op.rowOp with
      | create labels values ends => simp [hrowOp, Row.put] at hkept
      | delete | value => exact hsub (h.labels _ (by simpa [hrowOp, Row.put] using hkept))
      | label label add =>
        cases hpushed : pushed with
        | none =>
          refine hsub (h.labels _ ?_)
          simpa [hrowOp, Row.put, Cell.write, hpushed] using hkept
        | some stamp => exact hlists (hwritten.pushed stamp hpushed).2.2
    · rw [hother e he] at hkept
      exact hsub (h.labels e hkept)
  · have hcolumn : ∀ e, ((s.row e).values key).kept ≠ [] →
        (e.table, vectorOf e.raw) ∈ s'.listed ∧ key ∈ (s'.rows e.table).keys := fun e hold => by
      have := h.values e key hold
      rw [hsettles.toTables]
      exact ⟨hsub this.1, hstamps.keys _ this.2⟩
    by_cases he : e = op.entity
    · subst he
      rw [hrow] at hkept
      cases hrowOp : op.rowOp with
      | create labels values ends => simp [hrowOp, Row.put] at hkept
      | delete | label => exact hcolumn _ (by simpa [hrowOp, Row.put] using hkept)
      | value key' value =>
        by_cases hkey : key = key'
        · subst hkey
          cases hpushed : pushed with
          | none =>
            refine hcolumn _ ?_
            simpa [hrowOp, Row.put, Cell.write, hpushed] using hkept
          | some stamp =>
            refine ⟨hlists (hwritten.pushed stamp hpushed).2.2, ?_⟩
            rw [hsettles.toTables]
            rcases hkeys key value hrowOp with rfl | hmem
            · -- A write that kept something is no write that left the store.
              refine (h.values op.entity key ?_).2
              rw [← hrow, hsettles.toTables] at hkept
              exact hkept
            · exact hmem
        · exact hcolumn _ (by simpa [hrowOp, Row.put, hkey] using hkept)
    · rw [hother e he] at hkept
      exact hcolumn e hkept

/-! ### Commits, rollbacks and collects -/

theorem Listed.committed (h : s.Listed) {t epoch : Nat} {log : List (Change Name Value)}
    (hcommit : s.commit t log epoch = (s', .ok ())) (hcommits : s.Commits t epoch log s') :
    s'.Listed := by
  have hstamps : s.Unstamped s'.toTables := by
    unfold commit at hcommit
    split at hcommit
    · cases hcommit
    rename_i pending _
    have hall : s.Unstamped (s.stampAll pending epoch log).1.toTables :=
      stampAll_unstamped log epoch
    split at hcommit
    next next heq =>
      rw [heq] at hall
      cases hcommit
      exact hall
    · cases hcommit
  refine h.of_unstamped hstamps (hcommits.listed ▸ Subset.refl _) (fun e => ?_) fun e key => ?_
  · rw [hcommits.row]
    simp [Row.restamp, Cell.restamp]
  · rw [hcommits.row]
    simp [Row.restamp, Cell.restamp]

/-- What an undo leaves kept of a row was kept before it. -/
theorem Undoes.keepsOf {t : Nat}
    (h : s.Undoes t pre undone s') {e : Entity} {base : Row Name Value} (hbase : base.NoPending)
    (hwrote : Wrote t base (eventsOf e (pre ++ undone)) (s.row e)) :
    (s'.row e).KeepsOf (s.row e) := by
  have hback := h.back e base hbase hwrote
  rw [eventsOf_append, Wrote.append_iff] at hwrote
  obtain ⟨mid, hpre, hundone⟩ := hwrote
  rw [hpre.unique hback]
  exact hundone.keepsOf

/-- A collect leaves listed the vectors that still hold versions. -/
theorem Listed.collected (hlisted : s.Listed) {horizon : Nat} {collapsed : Table → Nat → Bool}
    (hcollects : s.Collects horizon collapsed (s.collect horizon)) : (s.collect horizon).Listed := by
  have hstamps : s.Unstamped (s.collect horizon).toTables :=
    unstamped_of_collapse hcollects.vectors hcollects.keys
  have hrow : ∀ e, (((s.collect horizon).row e).labels.kept ≠ [] →
      (s.row e).labels.kept ≠ []) ∧ ∀ key,
      (((s.collect horizon).row e).values key).kept ≠ [] →
        ((s.row e).values key).kept ≠ [] := fun e => by
    rw [hcollects.row]
    split
    · exact Row.kept_of_collect ..
    · exact ⟨id, fun _ => id⟩
  have hkeys : ∀ e key, (((s.collect horizon).row e).values key).kept ≠ [] →
      key ∈ ((s.collect horizon).rows e.table).keys := fun e key hne =>
    hstamps.keys e.table (hlisted.values e key ((hrow e).2 key hne)).2
  -- A listed vector that still holds versions stays.
  have hmem : ∀ {table vector}, (table, vector) ∈ s.listed →
      (s.collect horizon).unsettled table vector = true →
      (table, vector) ∈ (s.collect horizon).listed := fun hold hunsettled => by
    rw [hcollects.listed]
    exact mem_filter.mpr ⟨hold, hunsettled⟩
  have hiff := hcollects.sound.unsettled_iff hkeys
  refine ⟨fun table vector hstamped => ?_, fun e hne => ?_, fun e key hne => ⟨?_, hkeys e key hne⟩⟩
  · exact hmem (hlisted.stamped _ _ ((hstamps.stamped _ _ hstamped).resolve_right id))
      ((hiff table vector).mpr (.inl hstamped))
  · exact hmem (hlisted.labels e ((hrow e).1 hne))
      ((hiff ..).mpr (.inr ⟨e, rfl, rfl, .inl hne⟩))
  · exact hmem (hlisted.values e key ((hrow e).2 key hne)).1
      ((hiff ..).mpr (.inr ⟨e, rfl, rfl, .inr ⟨key, hne⟩⟩))

end Store

namespace Workload

variable [DecidableEq Name] [DecidableEq Value] {w w' : Workload Name Value}
  {tx : OpenTransaction Name Value} {action : Action Name Value} {store : Store Name Value}

/-- What the undo of a transaction's last entries leaves kept of a row was kept before it. -/
theorem Ok.keepsOf_undoes (h : w.Ok) (htx : tx ∈ w.transactions)
    (hentries : tx.changes.entries = pre ++ undone)
    (hundoes : w.store.Undoes tx.id pre undone store) (e : Entity) :
    (store.row e).KeepsOf (w.store.row e) := by
  cases hname : tx.changes.names e with
  | true =>
    obtain ⟨base, hbase, hwrote⟩ := h.owned.wrote tx htx e hname
    rw [hentries] at hwrote
    exact hundoes.keepsOf hbase hwrote
  | false =>
    rw [hundoes.row_of_not_named hentries hname]
    exact ⟨prefix_refl _, fun _ => prefix_refl _⟩

theorem Ok.listed_undoes (h : w.Ok) (htx : tx ∈ w.transactions)
    (hentries : tx.changes.entries = pre ++ undone)
    (hundo : w.store.undo tx.id undone = (store, .ok ()))
    (hundoes : w.store.Undoes tx.id pre undone store) (hlisted : w.store.Listed) :
    store.Listed := by
  have hstamps : w.store.Unstamped store.toTables := by
    simp only [Store.undo, h.stamps tx htx] at hundo
    have hall : w.store.Unstamped
        (w.store.undoAll (.pending tx.id) undone.reverse).1.toTables :=
      Store.undoAll_unstamped undone.reverse
    rwa [hundo] at hall
  have hne : ∀ {T : Type} {a b : List T}, a <+: b → a ≠ [] → b ≠ [] := by
    rintro T a b hprefix hne rfl
    exact hne (prefix_nil.mp hprefix)
  have hkeeps := h.keepsOf_undoes htx hentries hundoes
  exact hlisted.of_unstamped hstamps (hundoes.frame.listed ▸ Subset.refl _)
    (fun e => hne (hkeeps e).labels) fun e key => hne ((hkeeps e).values key)

/-- **Each step lists every vector it brings versions to.** -/
theorem Moves.listed (hmoves : w.Moves action w') (h : w.Ok) (hlisted : w.store.Listed) :
    w'.store.Listed := by
  cases hmoves with
  | opened => exact hlisted
  | idled idles | bulked mem idles => exact hlisted.idles idles
  | wrote mem transaction applied written settles
  | stamped mode_eq published later unowned applied written settles =>
    exact hlisted.written applied written settles
  | committed mem published later commit commits => exact hlisted.committed commit commits
  | rolledBack mem undo undoes =>
    exact h.listed_undoes mem (nil_append _).symm undo undoes hlisted
  | rolledBackTo mem undo undoes =>
    exact h.listed_undoes mem (take_append_drop ..).symm undo undoes hlisted
  | published => exact hlisted
  | collected published snapshots collects => exact hlisted.collected collects
  | indexed created how =>
    subst created
    exact ⟨hlisted.stamped, hlisted.labels, hlisted.values⟩

theorem Reachable.listed (h : w.Reachable) : w.store.Listed := by
  refine h.invariant (fun w => w.store.Listed) (fun keepsIncoming history => ?_)
    fun w action w' hok hmoves hlisted => hmoves.listed hok hlisted
  refine ⟨fun table vector hstamped => ?_, fun e hne => ?_, fun e key hne => ?_⟩
  · cases table <;> cases hstamped
  · rw [row_initial] at hne
    exact absurd rfl hne
  · rw [row_initial] at hne
    exact absurd rfl hne

/-! ### The order of what is kept -/

/-- Every row keeps its values in the order of the commits over them. -/
def Sorted (w : Workload Name Value) : Prop := ∀ e, (w.store.row e).Sorted

theorem Ok.sorted_undoes (h : w.Ok) (htx : tx ∈ w.transactions)
    (hentries : tx.changes.entries = pre ++ undone)
    (hundoes : w.store.Undoes tx.id pre undone store) (hsorted : w.Sorted) (e : Entity) :
    (store.row e).Sorted := by
  have hkeeps := h.keepsOf_undoes htx hentries hundoes e
  exact ⟨(hsorted e).labels.sublist hkeeps.labels.sublist, fun key =>
    ((hsorted e).values key).sublist (hkeeps.values key).sublist⟩

/-- **Each step keeps the order**: a commit is later than those before it. -/
theorem Moves.sorted (hmoves : w.Moves action w') (h : w.Ok) (hsorted : w.Sorted) : w'.Sorted := by
  cases hmoves with
  | opened => exact hsorted
  | idled idles | bulked mem idles => exact fun e => (congrFun idles.row e).symm ▸ hsorted e
  | @wrote _ tx op before version changes mode pushed s₁ store mem transaction applied written
      settles =>
      refine fun e => (written.row settles e).symm ▸ ?_
      split
      · have hpending : ∀ stamp ∈ pushed, ∀ x, stamp.committedBy x = false := fun stamp hmem x => by
          rw [(written.pushed stamp hmem).1, transaction]
          rfl
        refine (hsorted op.entity).put (fun stamp hmem _ _ x hx => ?_)
          (fun _ stamp hmem _ _ x hx => ?_) op.rowOp
        all_goals
          rw [hpending stamp hmem x] at hx
          cases hx
      · exact hsorted e
  | @stamped op writer epoch mode pushed version _ s₁ store mode_eq published later unowned applied
      written settles =>
      refine fun e => (written.row settles e).symm ▸ ?_
      split
      · have hpending := h.owned.free op.entity unowned
        have hbelow := (h.below op.entity).mono ((h.written _).trans later)
        -- The row bears stamps of commits at or before this one alone.
        have hold : ∀ stamp ∈ pushed, ∀ old : Stamp, old.isPending = false → old.AtMost epoch →
            ∀ x, stamp.committedBy x = true → old.committedBy x = true := by
          intro stamp hmem old hcommitted hle x hx
          rw [(written.pushed stamp hmem).1, mode_eq] at hx
          have hx : epoch ≤ x := by simpa [Stamp.committedBy] using hx
          cases old with
          | pending t => cases hcommitted
          | epoch e => exact decide_eq_true (hle.trans hx)
        exact (hsorted op.entity).put
          (fun stamp hmem entry hentry => hold stamp hmem _ (hpending.labels entry hentry)
            (hbelow.labels entry hentry))
          (fun key stamp hmem entry hentry => hold stamp hmem _ (hpending.values key entry hentry)
            (hbelow.values key entry hentry)) op.rowOp
      · exact hsorted e
  | @committed tx epoch store mem published later commit commits =>
    refine fun e => (commits.row e).symm ▸ ?_
    cases hname : tx.changes.names e with
    | true =>
      obtain ⟨base, hbase, hwrote⟩ := h.owned.wrote tx mem e hname
      exact (hwrote.shape hbase).sorted_restamp hbase (h.below e)
        ((lt_of_le_of_lt (h.written e) later).le) (hsorted e)
    | false =>
      rw [h.owned.row_restamp mem hname epoch]
      exact hsorted e
  | rolledBack mem undo undoes => exact h.sorted_undoes mem (nil_append _).symm undoes hsorted
  | rolledBackTo mem undo undoes =>
    exact h.sorted_undoes mem (take_append_drop ..).symm undoes hsorted
  | published => exact hsorted
  | collected published snapshots collects =>
    refine fun e => (collects.row e).symm ▸ ?_
    split
    · exact (hsorted e).collect ..
    · exact hsorted e
  | indexed created how =>
    subst created
    exact hsorted

theorem Reachable.sorted (h : w.Reachable) : w.Sorted :=
  h.invariant Sorted (fun keepsIncoming history e => by rw [row_initial]; exact .empty)
    fun _ _ _ hok hmoves hsorted => hmoves.sorted hok hsorted

end Workload

end Grafeo.RowGroup
