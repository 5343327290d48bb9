import Mathlib.Algebra.BigOperators.Group.List.Basic
import Mathlib.Algebra.GroupWithZero.Nat

/-!
# Grafeo.Lib.Assoc

**Association lists** as maps: what `List.lookup` finds after an entry was changed
(`upsert`) or taken out (`eraseKey`), and a weight summed over the entries, which is how
a program counts what its map holds.

**Inverted indexes**: maps from a key to the items that have it, in the order they were added. An
index of a list (`Indexes`) has under every key what filtering the list gives, and no empty entry.
-/

namespace Grafeo.Lib

open List Option

variable {κ β : Type} [DecidableEq κ] {m : List (κ × β)} {k : κ}

/-- The entry of `k` in an insertion-ordered map, changed by `f`; a key without
one gets `f new` at the end. -/
def upsert (k : κ) (new : β) (f : β → β) : List (κ × β) → List (κ × β)
  | [] => [(k, f new)]
  | (k', b) :: m => if k' = k then (k', f b) :: m else (k', b) :: upsert k new f m

/-- The map without the entry of `k`. -/
def eraseKey (k : κ) (m : List (κ × β)) : List (κ × β) :=
  m.filter fun entry => entry.1 ≠ k

theorem lookup_cons_ite (key k : κ) (value : β) (m : List (κ × β)) :
    lookup k ((key, value) :: m) = if k = key then some value else m.lookup k := by
  rw [lookup_cons]
  by_cases h : k = key
  · simp [h]
  · rw [beq_eq_false_iff_ne.mpr h, if_neg h]

theorem lookup_upsert (k k' : κ) (new : β) (f : β → β) (m : List (κ × β)) :
    (upsert k new f m).lookup k' =
      if k' = k then some (f ((m.lookup k).getD new)) else m.lookup k' := by
  induction m with
  | nil => rw [upsert, lookup_cons_ite]; rfl
  | cons entry m ih =>
    obtain ⟨key, value⟩ := entry
    by_cases hkey : key = k
    · subst hkey
      simp only [upsert, if_true, lookup_cons_ite, getD_some]
      split <;> rfl
    · simp only [upsert, if_neg hkey, lookup_cons_ite, ih, if_neg (Ne.symm hkey)]
      by_cases h : k' = k
      · subst h
        simp [if_neg (Ne.symm hkey)]
      · simp [if_neg h]

theorem upsert_upsert (k : κ) (new : β) (f g : β → β) (m : List (κ × β)) :
    upsert k new g (upsert k new f m) = upsert k new (g ∘ f) m := by
  induction m with
  | nil => simp [upsert]
  | cons entry m ih =>
    by_cases hkey : entry.1 = k
    · simp [upsert, hkey]
    · simp [upsert, hkey, ih]

theorem lookup_eraseKey (k k' : κ) (m : List (κ × β)) :
    (eraseKey k m).lookup k' = if k' = k then none else m.lookup k' := by
  induction m with
  | nil => simp [eraseKey]
  | cons entry m ih =>
    obtain ⟨key, value⟩ := entry
    rw [eraseKey] at ih ⊢
    by_cases hkey : key = k
    · subst hkey
      rw [filter_cons_of_neg (by simp), ih, lookup_cons_ite]
      split <;> rfl
    · rw [filter_cons_of_pos (by simp [hkey]), lookup_cons_ite, ih, lookup_cons_ite]
      by_cases h : k' = k
      · subst h
        simp [if_neg (Ne.symm hkey)]
      · simp [if_neg h]

theorem lookup_isSome : (m.lookup k).isSome = true ↔ k ∈ m.map Prod.fst := by
  induction m with
  | nil => simp
  | cons entry m ih =>
    obtain ⟨key, value⟩ := entry
    by_cases h : k = key <;> simp [h]

/-! ### Distinct keys -/

theorem mem_keys_upsert {k' : κ} {new : β} {f : β → β} :
    k' ∈ (upsert k new f m).map Prod.fst ↔ k' = k ∨ k' ∈ m.map Prod.fst := by
  rw [← lookup_isSome, lookup_upsert, ← lookup_isSome]
  by_cases h : k' = k <;> simp [h]

theorem nodup_upsert {new : β} {f : β → β} (h : (m.map Prod.fst).Nodup) :
    ((upsert k new f m).map Prod.fst).Nodup := by
  induction m with
  | nil => simp [upsert]
  | cons entry m ih =>
    rw [map_cons, nodup_cons] at h
    rw [upsert]
    by_cases hkey : entry.1 = k
    · rw [if_pos hkey, map_cons, nodup_cons]
      exact h
    · rw [if_neg hkey, map_cons, nodup_cons, mem_keys_upsert]
      exact ⟨fun hmem => hmem.elim hkey h.1, ih h.2⟩

theorem nodup_eraseKey (h : (m.map Prod.fst).Nodup) : ((eraseKey k m).map Prod.fst).Nodup :=
  h.sublist (filter_sublist.map _)

/-! ### Sums over the entries -/

/-- The sum of the weights of the entries. -/
def weigh (weight : β → Nat) (m : List (κ × β)) : Nat :=
  (m.map fun entry => weight entry.2).sum

variable {weight : β → Nat}

omit [DecidableEq κ] in
@[simp] theorem weigh_cons (entry : κ × β) (m : List (κ × β)) :
    weigh weight (entry :: m) = weight entry.2 + weigh weight m := rfl

theorem weigh_upsert (new : β) (f : β → β) (m : List (κ × β)) (k : κ) (hnew : weight new = 0) :
    weigh weight (upsert k new f m) + weight ((m.lookup k).getD new) =
      weigh weight m + weight (f ((m.lookup k).getD new)) := by
  induction m with
  | nil => simp [upsert, weigh, hnew]
  | cons entry m ih =>
    obtain ⟨key, value⟩ := entry
    rw [upsert, lookup_cons_ite]
    by_cases hkey : key = k
    · subst hkey
      simp only [if_true, getD_some, weigh_cons]
      omega
    · simp only [if_neg hkey, if_neg (Ne.symm hkey), weigh_cons]
      omega

/-- Where the keys are distinct, erasing takes the weight of the entry. -/
theorem weigh_eraseKey {value : β} (hnodup : (m.map Prod.fst).Nodup) (h : m.lookup k = some value) :
    weigh weight (eraseKey k m) + weight value = weigh weight m := by
  induction m with
  | nil => cases h
  | cons entry m ih =>
    obtain ⟨key, found⟩ := entry
    rw [map_cons, nodup_cons] at hnodup
    rw [lookup_cons_ite] at h
    by_cases hkey : key = k
    · subst hkey
      obtain rfl := some.inj ((if_pos rfl).symm.trans h)
      have hothers : eraseKey key m = m := by
        refine filter_eq_self.mpr fun other hother => decide_eq_true fun heq => ?_
        exact hnodup.1 (mem_map.mpr ⟨other, hother, heq⟩)
      have hself : eraseKey key ((key, found) :: m) = eraseKey key m :=
        filter_cons_of_neg (by simp)
      rw [hself, hothers, weigh_cons, add_comm]
    · rw [if_neg (Ne.symm hkey)] at h
      have hself : eraseKey k ((key, found) :: m) = (key, found) :: eraseKey k m :=
        filter_cons_of_pos (by simp [hkey])
      rw [hself, weigh_cons, weigh_cons, add_assoc, ih hnodup.2 h]

variable {α κ : Type} [DecidableEq α] [DecidableEq κ]

/-- Appends each of `items` to the entry of its key. -/
def indexBy (key : α → κ) (items : List α) (index : List (κ × List α)) : List (κ × List α) :=
  items.foldl (fun index item => upsert (key item) [] (· ++ [item]) index) index

/-- Takes `item` out of the entry of its key, and the entry with it once empty. -/
def unindex (key : α → κ) (item : α) (index : List (κ × List α)) : List (κ × List α) :=
  match index.lookup (key item) with
  | none => index
  | some items =>
      if items.filter (· ≠ item) = [] then eraseKey (key item) index
      else upsert (key item) [] (·.filter (· ≠ item)) index

omit [DecidableEq α] in
structure Indexes (key : α → κ) (items : List α) (index : List (κ × List α)) : Prop where
  keys : (index.map Prod.fst).Nodup
  no_empty : ∀ k, index.lookup k ≠ some []
  entry : ∀ k, (index.lookup k).getD [] = items.filter (key · = k)

namespace Indexes

variable {key : α → κ} {items more : List α} {index : List (κ × List α)} {item : α}

omit [DecidableEq α] in
theorem nil : Indexes key [] [] := ⟨nodup_nil, by simp, fun _ => rfl⟩

omit [DecidableEq α] in
theorem push (h : Indexes key items index) :
    Indexes key (items ++ [item]) (upsert (key item) [] (· ++ [item]) index) where
  keys := nodup_upsert h.keys
  no_empty k := by
    rw [lookup_upsert]
    split
    · simp
    · exact h.no_empty k
  entry k := by
    rw [lookup_upsert, filter_append, ← h.entry k]
    by_cases hk : k = key item
    · simp [hk]
    · simp [hk, Ne.symm hk]

omit [DecidableEq α] in
theorem indexBy (h : Indexes key items index) :
    Indexes key (items ++ more) (Lib.indexBy key more index) := by
  induction more generalizing items index with
  | nil => rwa [append_nil]
  | cons item more ih =>
    rw [append_cons]
    exact ih h.push

theorem unindex (h : Indexes key items index) :
    Indexes key (items.filter (· ≠ item)) (Lib.unindex key item index) := by
  have hentry (k : κ) : (items.filter (· ≠ item)).filter (key · = k) =
      ((index.lookup k).getD []).filter (· ≠ item) := by
    rw [h.entry, filter_comm]
  -- nothing to take out under another key
  have hother (k : κ) (hk : k ≠ key item) :
      ((index.lookup k).getD []).filter (· ≠ item) = (index.lookup k).getD [] := by
    rw [filter_eq_self, h.entry]
    intro other hmem
    have := (mem_filter.mp hmem).2
    grind
  rw [Lib.unindex]
  cases hlookup : index.lookup (key item) with
  | none =>
    refine ⟨h.keys, h.no_empty, fun k => ?_⟩
    rw [hentry]
    by_cases hk : k = key item
    · rw [hk, hlookup]; rfl
    · exact (hother k hk).symm
  | some held =>
    dsimp only
    split
    next hnil =>
      refine ⟨nodup_eraseKey h.keys, fun k => ?_, fun k => ?_⟩
      · rw [lookup_eraseKey]
        split
        · simp
        · exact h.no_empty k
      · rw [hentry, lookup_eraseKey]
        by_cases hk : k = key item
        · rw [hk, hlookup, if_pos rfl]; exact hnil.symm
        · rw [hother k hk, if_neg hk]
    next hkept =>
      refine ⟨nodup_upsert h.keys, fun k => ?_, fun k => ?_⟩
      · rw [lookup_upsert, hlookup]
        split
        · exact fun h => hkept (some.inj h)
        · exact h.no_empty k
      · rw [hentry, lookup_upsert]
        by_cases hk : k = key item
        · rw [hk, if_pos rfl]; rfl
        · rw [hother k hk, if_neg hk]

end Indexes

end Grafeo.Lib
