import Mathlib.Data.List.Nodup
import Mathlib.Data.List.Basic

/-!
# Lists in order of recency

A list of records with distinct keys, the most recently set one first: what a bounded map with
least-recently-set eviction keeps. `put` moves a record to the front, `replace` and `lookup` never
reorder, and a `put` of a new key into a list that holds more than `cap` records drops the last
one. The lemmas say what each operation does to the record of every key.
-/

namespace Recency

variable {κ α β : Type} [DecidableEq κ] (key : α → κ)

/-- The record of a key. -/
def lookup (k : κ) (l : List α) : Option α := l.find? fun x => key x = k

/-- The list without the record of a key. -/
def erase (k : κ) (l : List α) : List α := l.eraseP fun x => key x = k

/-- The list with the record of a key replaced in place. -/
def replace (x : α) : List α → List α
  | [] => []
  | y :: l => if key y = key x then x :: l else y :: replace x l

/-- A record of a new key, in front. A list with more than `cap` records loses its last one. -/
def push (cap : ℕ) (x : α) (l : List α) : List α :=
  if l.length ≤ cap then x :: l else x :: l.dropLast

/-- A record set: it replaces the one of its key, if there is one, and comes first. -/
def put (cap : ℕ) (x : α) (l : List α) : List α :=
  if (lookup key (key x) l).isSome then x :: erase key (key x) l else push cap x l

/-- No two records have one key. -/
def Distinct (l : List α) : Prop := (l.map key).Nodup

variable {key}

/-! ## Splitting at a record -/

/-- The record found is the first one with the key. -/
theorem lookup_eq_some {k : κ} {l : List α} {y : α} :
    lookup key k l = some y ↔
      key y = k ∧ ∃ xs ys, l = xs ++ y :: ys ∧ ∀ x ∈ xs, key x ≠ k := by
  simp [lookup, List.find?_eq_some_iff_append]

theorem lookup_eq_none {k : κ} {l : List α} : lookup key k l = none ↔ ∀ x ∈ l, key x ≠ k := by
  simp [lookup]

theorem erase_split {xs ys : List α} {y : α} (hxs : ∀ x ∈ xs, key x ≠ key y) :
    erase key (key y) (xs ++ y :: ys) = xs ++ ys := by
  rw [erase, List.eraseP_append_right _ (by simpa using hxs), List.eraseP_cons_of_pos (by simp)]

theorem replace_split {xs ys : List α} {x y : α} (hxs : ∀ z ∈ xs, key z ≠ key y)
    (hy : key y = key x) : replace key x (xs ++ y :: ys) = xs ++ x :: ys := by
  induction xs with
  | nil => simp [replace, hy]
  | cons z xs ih =>
    have hz : key z ≠ key x := hy ▸ hxs z List.mem_cons_self
    rw [List.cons_append, replace, if_neg hz, ih fun w hw => hxs w (List.mem_cons_of_mem _ hw)]
    rfl

theorem replace_found {l : List α} {y : α} (h : lookup key (key y) l = some y) :
    replace key y l = l := by
  obtain ⟨-, xs, ys, rfl, hxs⟩ := lookup_eq_some.mp h
  exact replace_split hxs rfl

theorem erase_of_none {k : κ} {l : List α} (h : lookup key k l = none) : erase key k l = l :=
  List.eraseP_of_forall_not (by simpa using lookup_eq_none.mp h)

theorem replace_of_none {x : α} {l : List α} (h : lookup key (key x) l = none) :
    replace key x l = l := by
  induction l with
  | nil => rfl
  | cons y l ih =>
    have hall := lookup_eq_none.mp h
    rw [replace, if_neg (hall y List.mem_cons_self),
      ih (lookup_eq_none.mpr fun z hz => hall z (List.mem_cons_of_mem _ hz))]

/-! ## The record of each key -/

theorem lookup_cons_self (x : α) (l : List α) : lookup key (key x) (x :: l) = some x := by
  simp [lookup]

theorem lookup_cons_of_ne {k : κ} {x : α} (l : List α) (h : key x ≠ k) :
    lookup key k (x :: l) = lookup key k l := by
  simp [lookup, h]

theorem lookup_append (k : κ) (xs ys : List α) :
    lookup key k (xs ++ ys) = (lookup key k xs).or (lookup key k ys) :=
  List.find?_append

theorem lookup_erase_of_ne {k k' : κ} (l : List α) (h : k' ≠ k) :
    lookup key k' (erase key k l) = lookup key k' l := by
  cases hk : lookup key k l with
  | none => rw [erase_of_none hk]
  | some y =>
    obtain ⟨rfl, xs, ys, rfl, hxs⟩ := lookup_eq_some.mp hk
    rw [erase_split hxs, lookup_append, lookup_append, lookup_cons_of_ne _ h.symm]

theorem lookup_erase_self {k : κ} {l : List α} (hd : Distinct key l) :
    lookup key k (erase key k l) = none := by
  cases hk : lookup key k l with
  | none => rw [erase_of_none hk, hk]
  | some y =>
    obtain ⟨rfl, xs, ys, rfl, hxs⟩ := lookup_eq_some.mp hk
    rw [erase_split hxs, lookup_eq_none]
    simp only [Distinct, List.map_append, List.map_cons, List.nodup_append, List.nodup_cons,
      List.mem_map, not_exists, not_and] at hd
    intro x hx
    rcases List.mem_append.mp hx with h | h
    · exact hxs x h
    · exact hd.2.1.1 x h

theorem lookup_replace_of_ne {k : κ} {x : α} (l : List α) (h : k ≠ key x) :
    lookup key k (replace key x l) = lookup key k l := by
  cases hk : lookup key (key x) l with
  | none => rw [replace_of_none hk]
  | some y =>
    obtain ⟨hy, xs, ys, rfl, hxs⟩ := lookup_eq_some.mp hk
    rw [replace_split (hy ▸ hxs) hy, lookup_append, lookup_append, lookup_cons_of_ne _ h.symm,
      lookup_cons_of_ne _ (hy ▸ h.symm)]

theorem lookup_replace_self {x : α} {l : List α} (h : (lookup key (key x) l).isSome) :
    lookup key (key x) (replace key x l) = some x := by
  obtain ⟨y, hk⟩ := Option.isSome_iff_exists.mp h
  obtain ⟨hy, xs, ys, rfl, hxs⟩ := lookup_eq_some.mp hk
  rw [replace_split (hy ▸ hxs) hy, lookup_append, lookup_eq_none.mpr hxs, lookup_cons_self]
  rfl

theorem lookup_put_self (cap : ℕ) (x : α) (l : List α) :
    lookup key (key x) (put key cap x l) = some x := by
  unfold put push
  split_ifs <;> exact lookup_cons_self x _

/-- Setting one key leaves every other key's record alone, unless it evicts it: the set key is new,
the list is over the bound, and the other key is its last one. -/
theorem lookup_put_of_ne {cap : ℕ} {k : κ} {x : α} {l : List α} (hd : Distinct key l)
    (h : k ≠ key x) :
    lookup key k (put key cap x l) = lookup key k l ∨
      (lookup key (key x) l = none ∧ cap < l.length ∧ l.getLast?.map key = some k ∧
        lookup key k (put key cap x l) = none) := by
  unfold put push
  split_ifs with hmem hle
  · exact .inl (by rw [lookup_cons_of_ne _ h.symm, lookup_erase_of_ne _ h])
  · exact .inl (lookup_cons_of_ne _ h.symm)
  · obtain ⟨ys, y, rfl⟩ : ∃ ys y, l = ys ++ [y] :=
      List.eq_nil_or_concat' l |>.resolve_left (by rintro rfl; simp at hle)
    rw [List.dropLast_concat, lookup_cons_of_ne _ h.symm, lookup_append]
    by_cases hy : key y = k
    · -- `k` is the last key, so it is nowhere else.
      refine .inr ⟨by simpa using hmem, by omega, by simp [hy], ?_⟩
      rw [lookup_eq_none]
      intro z hz heq
      simp only [Distinct, List.map_append, List.nodup_append] at hd
      exact hd.2.2 (key z) (List.mem_map_of_mem hz) (key y) (by simp) (heq.trans hy.symm)
    · exact .inl (by rw [lookup_cons_of_ne _ hy]; simp [lookup])

/-! ## Lengths -/

theorem length_erase_le (k : κ) (l : List α) : (erase key k l).length ≤ l.length :=
  List.eraseP_sublist.length_le

theorem length_replace (x : α) (l : List α) : (replace key x l).length = l.length := by
  induction l with
  | nil => rfl
  | cons y l ih =>
    unfold replace
    split_ifs
    · rfl
    · rw [List.length_cons, ih, List.length_cons]

/-- A set makes a list longer only when the key is new and the list is not over the bound. -/
theorem length_put {cap : ℕ} {x : α} {l : List α} :
    (put key cap x l).length =
      if lookup key (key x) l = none ∧ l.length ≤ cap then l.length + 1 else l.length := by
  unfold put push
  cases hk : lookup key (key x) l with
  | none =>
    by_cases hle : l.length ≤ cap
    · simp [hle]
    · simp only [Option.isSome_none, Bool.false_eq_true, if_false, hle, and_false,
        List.length_cons, List.length_dropLast]
      omega
  | some y =>
    obtain ⟨hy, xs, ys, rfl, hxs⟩ := lookup_eq_some.mp hk
    rw [← hy, erase_split (hy ▸ hxs)]
    simp
    omega

/-! ## The invariant -/

theorem Distinct.erase {k : κ} {l : List α} (hd : Distinct key l) :
    Distinct key (erase key k l) :=
  List.Nodup.sublist (List.eraseP_sublist.map key) hd

omit [DecidableEq κ] in
theorem Distinct.dropLast {l : List α} (hd : Distinct key l) : Distinct key l.dropLast :=
  List.Nodup.sublist (l.dropLast_sublist.map key) hd

theorem Distinct.cons {x : α} {l : List α} (hd : Distinct key l)
    (hx : lookup key (key x) l = none) : Distinct key (x :: l) := by
  refine List.nodup_cons.mpr ⟨fun hmem => ?_, hd⟩
  obtain ⟨y, hy, heq⟩ := List.mem_map.mp hmem
  exact lookup_eq_none.mp hx y hy heq

theorem Distinct.replace {x : α} {l : List α} (hd : Distinct key l) :
    Distinct key (replace key x l) := by
  cases hk : lookup key (key x) l with
  | none => rwa [replace_of_none hk]
  | some y =>
    obtain ⟨hy, xs, ys, rfl, hxs⟩ := lookup_eq_some.mp hk
    rw [replace_split (hy ▸ hxs) hy]
    simpa [Distinct, hy] using hd

theorem Distinct.put {cap : ℕ} {x : α} {l : List α} (hd : Distinct key l) :
    Distinct key (put key cap x l) := by
  unfold Recency.put push
  split_ifs with hmem hle
  · exact hd.erase.cons (lookup_erase_self hd)
  · exact hd.cons (by simpa using hmem)
  · refine hd.dropLast.cons (lookup_eq_none.mpr fun y hy => ?_)
    exact lookup_eq_none.mp (by simpa using hmem) y (l.dropLast_sublist.subset hy)

/-! ## Forgetting part of a record -/

section
variable {key' : β → κ} {f : α → β}

theorem lookup_map (hf : ∀ x, key' (f x) = key x) (k : κ) (l : List α) :
    lookup key' k (l.map f) = (lookup key k l).map f := by
  simp only [lookup, List.find?_map, Function.comp_def, hf]

theorem erase_map (hf : ∀ x, key' (f x) = key x) (k : κ) (l : List α) :
    erase key' k (l.map f) = (erase key k l).map f := by
  simp only [erase, List.eraseP_map, Function.comp_def, hf]

theorem replace_map (hf : ∀ x, key' (f x) = key x) (x : α) (l : List α) :
    replace key' (f x) (l.map f) = (replace key x l).map f := by
  induction l with
  | nil => rfl
  | cons y l ih =>
    simp only [List.map_cons, replace, hf, ih]
    split_ifs <;> rfl

theorem put_map (hf : ∀ x, key' (f x) = key x) (cap : ℕ) (x : α) (l : List α) :
    put key' cap (f x) (l.map f) = (put key cap x l).map f := by
  simp only [put, push, hf, lookup_map hf, erase_map hf, Option.isSome_map, List.length_map,
    ← List.map_dropLast]
  split_ifs <;> rfl

end

end Recency
