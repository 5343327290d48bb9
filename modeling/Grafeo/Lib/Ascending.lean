import Mathlib.Order.Lattice
import Mathlib.Data.List.TakeWhile

/-!
# Grafeo.Lib.Ascending

Lists **cut at a place**: what stands before it, the element there, and the rest.
An index found in a list is turned into such a cut at once, and each update at the
index is then an equation about the parts.

Association lists kept **strictly ascending by key**, with the binary search
that finds a key's place in one.

The search reports the place of the key (`ok`) or the place it would go to
(`error`), which is all a binary search over an ascending list promises; an
insertion at the second place and a removal or a change at the first keep the
list ascending. Every such update is described by what it does to `List.lookup`,
so a caller never sees a place.
-/

namespace Grafeo.Lib

variable {α : Type} {l : List α} {x : α}

/-- A list is split at an index it has. -/
theorem split_at {i : Nat} (h : l[i]? = some x) : ∃ a b, l = a ++ x :: b ∧ a.length = i := by
  obtain ⟨hi, hx⟩ := getElem?_eq_some_iff.mp h
  refine ⟨l.take i, l.drop (i + 1), ?_, by simp; omega⟩
  rw [← hx, ← List.drop_eq_getElem_cons hi, List.take_append_drop]

theorem set_split {a : List α} {i : Nat} (b : List α) (y : α) (h : i = a.length) :
    (a ++ x :: b).set i y = a ++ y :: b := by
  subst h
  simp

theorem insertIdx_length (pre post : List α) (x : α) :
    (pre ++ post).insertIdx pre.length x = pre ++ x :: post := by
  induction pre with
  | nil => rfl
  | cons y pre ih => simp [List.insertIdx_succ_cons, ih]

theorem modify_length (pre post : List α) (x : α) (f : α → α) :
    (pre ++ x :: post).modify pre.length f = pre ++ f x :: post := by
  induction pre with
  | nil => rfl
  | cons y pre ih => simp [ih]

theorem eraseIdx_length (pre post : List α) (x : α) :
    (pre ++ x :: post).eraseIdx pre.length = pre ++ post := by
  rw [List.eraseIdx_append_of_length_le (Nat.le_refl _), Nat.sub_self, List.eraseIdx_cons_zero]

theorem forall_mem_concat {p : α → Prop} : (∀ y ∈ l ++ [x], p y) ↔ (∀ y ∈ l, p y) ∧ p x := by
  rw [List.forall_mem_append, List.forall_mem_singleton]

theorem pairwise_concat {R : α → α → Prop} :
    (l ++ [x]).Pairwise R ↔ l.Pairwise R ∧ ∀ y ∈ l, R y x := by
  simp [List.pairwise_append]

theorem getD_append_replicate (l : List α) (x : α) (k i : Nat) :
    (l ++ List.replicate k x).getD i x = l.getD i x := by
  simp only [List.getD_eq_getElem?_getD, List.getElem?_append, List.getElem?_replicate]
  split
  · rfl
  · next hi =>
    rw [List.getElem?_eq_none (Nat.le_of_not_lt hi)]
    split <;> rfl

theorem map_getD_range (l : List α) (x : α) : (List.range l.length).map (l.getD · x) = l :=
  List.ext_getElem (by simp) fun i hi hi' => by simp [hi']

theorem getD_modify {index : Nat} (h : index < l.length) (f : α → α) (x : α)
    (i : Nat) : (l.modify index f).getD i x = if i = index then f (l.getD i x) else l.getD i x := by
  by_cases hi : i = index
  · simp [hi, h]
  · simp [hi, Ne.symm hi]

/-! ### The last element with a property -/

/-- The place of the last element with property `p`. -/
def rposition (p : α → Bool) : List α → Option Nat
  | [] => none
  | x :: l =>
      match rposition p l with
      | some i => some (i + 1)
      | none => if p x then some 0 else none

theorem rposition_eq_none {p : α → Bool} : rposition p l = none ↔ ∀ x ∈ l, p x = false := by
  induction l with
  | nil => simp [rposition]
  | cons x l ih =>
    rw [rposition, List.forall_mem_cons, ← ih]
    cases rposition p l with
    | some i => simp
    | none => simp

/-- A list cut at the last element with the property is cut at the place found. -/
theorem rposition_cut {p : α → Bool} (pre : List α) {post : List α} (hx : p x = true)
    (hpost : ∀ y ∈ post, p y = false) : rposition p (pre ++ x :: post) = some pre.length := by
  induction pre with
  | nil => simp [rposition, rposition_eq_none.mpr hpost, hx]
  | cons y pre ih => simp [rposition, ih]

open List Option

variable {κ β : Type} [LinearOrder κ] {pre post l : List (κ × β)} {k : κ} {i : Nat}

/-- The keys go strictly up, so each stands once. -/
def Ascending (l : List (κ × β)) : Prop := l.Pairwise fun a b => a.1 < b.1

/-- Whether an entry stands before key `k`. -/
def before (k : κ) (entry : κ × β) : Bool := decide (entry.1 < k)

/-- The place of key `k` in an ascending list, or the place to insert it at. -/
def search (l : List (κ × β)) (k : κ) : Except Nat Nat :=
  let place := (l.takeWhile (before k)).length
  match l[place]? with
  | some entry => if entry.1 = k then .ok place else .error place
  | none => .error place

/-! ### Ascending lists -/

@[simp] theorem ascending_nil : Ascending ([] : List (κ × β)) := .nil

theorem ascending_cons {x : κ × β} :
    Ascending (x :: l) ↔ (∀ y ∈ l, x.1 < y.1) ∧ Ascending l := pairwise_cons

theorem ascending_append {l l' : List (κ × β)} : Ascending (l ++ l') ↔
      Ascending l ∧ Ascending l' ∧ ∀ x ∈ l, ∀ y ∈ l', x.1 < y.1 :=
  pairwise_append

/-- A key below every key of the list is not in it. -/
theorem lookup_eq_none (h : ∀ x ∈ l, x.1 ≠ k) : l.lookup k = none := by
  exact lookup_eq_none_iff.mpr fun x hx => bne_iff_ne.mpr (h x hx).symm

theorem lookup_append_of_ne (h : ∀ x ∈ pre, x.1 ≠ k) : (pre ++ post).lookup k = post.lookup k := by
  rw [lookup_append, lookup_eq_none h, none_or]

theorem mem_of_lookup {κ : Type} [BEq κ] [LawfulBEq κ] {l : List (κ × β)} {k : κ} {v : β}
    (h : l.lookup k = some v) : (k, v) ∈ l := by
  obtain ⟨pre, post, rfl, -⟩ := lookup_eq_some_iff.mp h
  exact mem_append_right pre mem_cons_self

/-- An entry of an ascending list is what its key finds. -/
theorem lookup_of_mem {x : κ × β} (hl : Ascending l) (hx : x ∈ l) : l.lookup x.1 = some x.2 := by
  obtain ⟨pre, post, rfl⟩ := append_of_mem hx
  have hpre := (ascending_append.mp hl).2.2
  rw [lookup_append_of_ne fun y hy => (hpre y hy x mem_cons_self).ne, lookup_cons_self]

/-! ### What a search finds -/

/-- A list is cut at a key: what stands before it, then the rest. -/
theorem cut_at (l : List (κ × β)) (k : κ) : l = l.takeWhile (before k) ++ l.dropWhile (before k) ∧
      (∀ x ∈ l.takeWhile (before k), x.1 < k) ∧
      ∀ x, (l.dropWhile (before k)).head? = some x → k ≤ x.1 := by
  refine ⟨(takeWhile_append_dropWhile).symm, ?_, ?_⟩
  · intro x hx
    have := mem_takeWhile_imp hx
    simpa [before] using this
  · intro x hx
    have hnot := head?_dropWhile_not (before k) l
    rw [hx] at hnot
    simpa [before] using hnot

theorem search_eq (l : List (κ × β)) (k : κ) : search l k =
      match (l.dropWhile (before k)).head? with
      | some entry =>
        if entry.1 = k then .ok (l.takeWhile (before k)).length
        else .error (l.takeWhile (before k)).length
      | none => .error (l.takeWhile (before k)).length := by
  have hget : l[(l.takeWhile (before k)).length]? = (l.dropWhile (before k)).head? := by
    have hcut : l[(l.takeWhile (before k)).length]? =
        (l.takeWhile (before k) ++ l.dropWhile (before k))[(l.takeWhile (before k)).length]? := by
      rw [takeWhile_append_dropWhile]
    rw [hcut, getElem?_append_right le_rfl, Nat.sub_self, head?_eq_getElem?]
  unfold search
  simp [hget]

/-- A found key splits the list at its entry. -/
theorem search_ok (h : search l k = .ok i) :
    ∃ pre v post, l = pre ++ (k, v) :: post ∧ pre.length = i ∧ ∀ x ∈ pre, x.1 < k := by
  obtain ⟨hcut, hpre, -⟩ := cut_at l k
  rw [search_eq] at h
  cases hd : l.dropWhile (before k) with
  | nil => simp [hd] at h
  | cons x post =>
    obtain ⟨a, v⟩ := x
    rw [hd] at h hcut
    by_cases ha : a = k
    · subst ha
      refine ⟨l.takeWhile (before a), v, post, hcut, ?_, hpre⟩
      simpa using h
    · simp [ha] at h

/-- Where the list is split at a key's entry, the search finds it. -/
theorem search_split {v : β} (hpre : ∀ x ∈ pre, x.1 < k) :
    search (pre ++ (k, v) :: post) k = .ok pre.length := by
  have hall : ∀ x ∈ pre, before k x = true := fun x hx => by simpa [before] using hpre x hx
  have hk : before k (k, v) = false := by simp [before]
  have htake : (pre ++ (k, v) :: post).takeWhile (before k) = pre := by
    rw [takeWhile_append_of_pos hall, takeWhile_cons, hk]
    simp
  have hdrop : (pre ++ (k, v) :: post).dropWhile (before k) = (k, v) :: post := by
    rw [dropWhile_append_of_pos hall, dropWhile_cons, hk]
    simp
  rw [search_eq, htake, hdrop]
  simp

/-- A key above every key of the list goes to its end. -/
theorem search_end (h : ∀ x ∈ l, x.1 < k) : search l k = .error l.length := by
  have htake : l.takeWhile (before k) = l :=
    takeWhile_eq_self_iff.mpr fun x hx => decide_eq_true (h x hx)
  simp [search, htake]

/-- A missing key splits the list where it would go. -/
theorem search_error (hl : Ascending l) (h : search l k = .error i) :
    ∃ pre post, l = pre ++ post ∧ pre.length = i ∧ (∀ x ∈ pre, x.1 < k) ∧ ∀ x ∈ post, k < x.1 := by
  obtain ⟨hcut, hpre, hhead⟩ := cut_at l k
  rw [search_eq] at h
  refine ⟨l.takeWhile (before k), l.dropWhile (before k), hcut, ?_, hpre, ?_⟩
  · cases hd : l.dropWhile (before k) with
    | nil => simpa [hd] using h
    | cons x post =>
      rw [hd] at h
      by_cases hx : x.1 = k <;> simp [hx] at h
      exact h
  · cases hd : l.dropWhile (before k) with
    | nil => simp
    | cons x post =>
      rw [hd] at h hcut hhead
      have hx : k < x.1 := by
        by_cases hx : x.1 = k
        · simp [hx] at h
        · exact lt_of_le_of_ne (hhead x rfl) (Ne.symm hx)
      have hpost := (ascending_cons.mp (ascending_append.mp (hcut ▸ hl)).2.1).1
      intro y hy
      rcases mem_cons.mp hy with rfl | hy
      · exact hx
      · exact hx.trans (hpost y hy)

theorem lookup_of_search_error (hl : Ascending l)
    (h : search l k = .error i) : l.lookup k = none := by
  obtain ⟨pre, post, rfl, -, hpre, hpost⟩ := search_error hl h
  refine lookup_eq_none fun x hx => ?_
  rcases mem_append.mp hx with hx | hx
  · exact (hpre x hx).ne
  · exact (hpost x hx).ne'

theorem lookup_of_search_ok (h : search l k = .ok i) :
    ∃ v, l.lookup k = some v ∧ l[i]? = some (k, v) := by
  obtain ⟨pre, v, post, rfl, rfl, hpre⟩ := search_ok h
  refine ⟨v, ?_, by simp⟩
  rw [lookup_append_of_ne fun x hx => (hpre x hx).ne, lookup_cons_self]

/-- The search of an ascending list finds exactly the keys the list holds. -/
theorem search_isOk_iff (hl : Ascending l) :
    (∃ i, search l k = .ok i) ↔ ∃ v, l.lookup k = some v := by
  constructor
  · rintro ⟨i, h⟩
    obtain ⟨v, hv, -⟩ := lookup_of_search_ok h
    exact ⟨v, hv⟩
  · rintro ⟨v, hv⟩
    cases hs : search l k with
    | ok i => exact ⟨i, rfl⟩
    | error i => rw [lookup_of_search_error hl hs] at hv; cases hv

/-! ### Updates at a found place -/

/-- An entry stands in its place between those before it and those after. -/
theorem ascending_cut {x : κ × β} : Ascending (pre ++ x :: post) ↔
      Ascending (pre ++ post) ∧ (∀ y ∈ pre, y.1 < x.1) ∧ ∀ y ∈ post, x.1 < y.1 := by
  simp only [ascending_append, ascending_cons, forall_mem_cons]
  constructor
  · rintro ⟨hp, ⟨hpost, hq⟩, hpq⟩
    exact ⟨⟨hp, hq, fun y hy => (hpq y hy).2⟩, fun y hy => (hpq y hy).1, hpost⟩
  · rintro ⟨⟨hp, hq, hpq⟩, hpre, hpost⟩
    exact ⟨hp, ⟨hpost, hq⟩, fun y hy => ⟨hpre y hy, hpq y hy⟩⟩

/-- A lookup finds the entry under its key, and what stands around it under any other. -/
theorem lookup_cut (hpre : ∀ x ∈ pre, x.1 < k) (v : β) (a : κ) :
    (pre ++ (k, v) :: post).lookup a = if a = k then some v else (pre ++ post).lookup a := by
  split
  · next ha => rw [ha, lookup_append_of_ne fun x hx => (hpre x hx).ne, lookup_cons_self]
  · next ha => rw [lookup_append, lookup_append, lookup_cons, beq_eq_false_iff_ne.mpr ha]

/-- An entry put in where its key would go. -/
theorem insertIdx_at (v : β) (hl : Ascending l) (h : search l k = .error i) :
    Ascending (l.insertIdx i (k, v)) ∧
      ∀ a, (l.insertIdx i (k, v)).lookup a = if a = k then some v else l.lookup a := by
  obtain ⟨pre, post, rfl, rfl, hpre, hpost⟩ := search_error hl h
  rw [insertIdx_length]
  exact ⟨ascending_cut.mpr ⟨hl, hpre, hpost⟩, lookup_cut hpre v⟩

/-- The entry at a found place changed. -/
theorem modify_at (f : β → β) (hl : Ascending l) (h : search l k = .ok i) :
    Ascending (l.modify i fun entry => (entry.1, f entry.2)) ∧
      ∀ a, (l.modify i fun entry => (entry.1, f entry.2)).lookup a =
        if a = k then (l.lookup k).map f else l.lookup a := by
  obtain ⟨pre, v, post, rfl, rfl, hpre⟩ := search_ok h
  rw [modify_length]
  have hcut := ascending_cut.mp hl
  refine ⟨ascending_cut.mpr hcut, fun a => ?_⟩
  rw [lookup_cut hpre (f v), lookup_cut hpre v k, if_pos rfl, lookup_cut hpre v a, map_some]
  split
  · rfl
  · rfl

/-- The entry at a found place taken out. -/
theorem eraseIdx_at (hl : Ascending l) (h : search l k = .ok i) :
    Ascending (l.eraseIdx i) ∧
      ∀ a, (l.eraseIdx i).lookup a = if a = k then none else l.lookup a := by
  obtain ⟨pre, v, post, rfl, rfl, hpre⟩ := search_ok h
  rw [eraseIdx_append_of_length_le le_rfl, Nat.sub_self, eraseIdx_cons_zero]
  obtain ⟨hl, -, hpost⟩ := ascending_cut.mp hl
  refine ⟨hl, fun a => ?_⟩
  split
  · next ha =>
    rw [ha, lookup_append_of_ne fun x hx => (hpre x hx).ne]
    exact lookup_eq_none fun x hx => (hpost x hx).ne'
  · next ha => rw [lookup_cut hpre, if_neg ha]

end Grafeo.Lib
