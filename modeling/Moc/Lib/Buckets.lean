import Mathlib.Data.List.Perm.Basic
import Mathlib.Data.List.Perm.Subperm
import Mathlib.Data.List.Nodup
import Mathlib.Order.Basic
import Mathlib.Tactic.SplitIfs

/-!
# Tables of chains

A hash table keeps its elements in `n` chains, each element in the chain that its hash value names
modulo `n`. `Placed` is that condition. The elements are read chain by chain (`List.flatten`), so a walk
over the table is a walk over one list: `head?_drop_flatten` finds where it goes on behind a chain, and
`flatten_eq_at` splits the list at an element of a chain. Doubling `n` splits a chain in two
(`mod_two_mul`). The second part is about lists whose elements have distinct keys under an equivalence
of keys: what a lookup finds does not depend on their order.
-/

namespace Buckets

variable {α κ : Type}

/-! ## Chains -/

/-- The chain of a bucket. -/
def chain (t : List (List α)) (i : ℕ) : List α := t.getD i []

/-- There are `n` chains, and every element stands in the chain of its hash value. -/
structure Placed (h : α → ℕ) (n : ℕ) (t : List (List α)) : Prop where
  length_eq : t.length = n
  bucket : ∀ i, ∀ a ∈ chain t i, h a % n = i

theorem chain_of_length_le {t : List (List α)} {i : ℕ} (h : t.length ≤ i) : chain t i = [] := by
  rw [chain, List.getD_eq_getElem?_getD, List.getElem?_eq_none h]
  rfl

theorem chain_of_lt {t : List (List α)} {i : ℕ} (h : i < t.length) : chain t i = t[i] := by
  rw [chain, List.getD_eq_getElem?_getD, List.getElem?_eq_getElem h]
  rfl

@[simp] theorem chain_set (t : List (List α)) (i j : ℕ) (c : List α) :
    chain (t.set i c) j = if i = j ∧ i < t.length then c else chain t j := by
  simp only [chain, List.getD_eq_getElem?_getD, List.getElem?_set]
  by_cases hij : i = j
  · subst hij
    by_cases hi : i < t.length
    · simp [hi]
    · simp [hi]
  · simp [hij]

/-- The elements, read chain by chain, around one bucket. -/
theorem flatten_eq {t : List (List α)} {i : ℕ} (h : i < t.length) :
    t.flatten = (t.take i).flatten ++ (chain t i ++ (t.drop (i + 1)).flatten) := by
  rw [chain_of_lt h, ← List.flatten_cons, ← List.drop_eq_getElem_cons h, ← List.flatten_append,
    List.take_append_drop]

theorem flatten_set {t : List (List α)} {i : ℕ} (h : i < t.length) (c : List α) :
    (t.set i c).flatten = (t.take i).flatten ++ (c ++ (t.drop (i + 1)).flatten) := by
  have hset : i < (t.set i c).length := by rwa [List.length_set]
  rw [flatten_eq hset, chain_set, if_pos ⟨rfl, h⟩, List.take_set_of_le (Nat.le_refl i),
    List.drop_set_of_lt (Nat.lt_succ_self i)]

/-- A chain exchanged for another one. -/
theorem flatten_set_perm {t : List (List α)} {i : ℕ} (h : i < t.length) (c : List α) :
    ((t.set i c).flatten ++ chain t i).Perm (t.flatten ++ c) := by
  rw [flatten_set h, flatten_eq h]
  generalize (t.take i).flatten = xs
  generalize (t.drop (i + 1)).flatten = ys
  generalize chain t i = d
  simp only [List.append_assoc]
  apply List.Perm.append_left
  have hyd : (c ++ (ys ++ d)).Perm (c ++ (d ++ ys)) := List.perm_append_comm.append_left c
  have hdyc : (c ++ (d ++ ys)).Perm (d ++ ys ++ c) := List.perm_append_comm
  rw [List.append_assoc] at hdyc
  exact hyd.trans hdyc

theorem mem_flatten_of_mem_chain {t : List (List α)} {i : ℕ} {a : α} (h : a ∈ chain t i) :
    a ∈ t.flatten := by
  by_cases hi : i < t.length
  · rw [chain_of_lt hi] at h
    exact List.mem_flatten.mpr ⟨_, List.getElem_mem hi, h⟩
  · rw [chain_of_length_le (Nat.le_of_not_lt hi)] at h
    exact absurd h List.not_mem_nil

/-- Two chains exchanged for chains of the same elements. -/
theorem flatten_set_set_perm {t : List (List α)} {i j : ℕ} (hi : i < t.length) (hj : j < t.length)
    (hij : i ≠ j) {c d : List α} (hcd : (c ++ d).Perm (chain t i ++ chain t j)) :
    ((t.set i c).set j d).flatten.Perm t.flatten := by
  classical
  have hi' := flatten_set_perm hi c
  have hj' := flatten_set_perm (t := t.set i c) (by rwa [List.length_set]) d
  rw [chain_set, if_neg fun h => hij h.1] at hj'
  rw [List.perm_iff_count] at hcd hi' hj' ⊢
  intro a
  have h₁ := hi' a
  have h₂ := hj' a
  have h₃ := hcd a
  simp only [List.count_append] at h₁ h₂ h₃
  omega

/-- An element stands in the chain of its hash value. -/
theorem Placed.mem_chain {h : α → ℕ} {n : ℕ} {t : List (List α)} (ht : Placed h n t) {a : α}
    (ha : a ∈ t.flatten) : a ∈ chain t (h a % n) := by
  obtain ⟨c, hc, hac⟩ := List.mem_flatten.mp ha
  obtain ⟨i, hi, rfl⟩ := List.getElem_of_mem hc
  rw [← chain_of_lt hi] at hac
  rwa [ht.bucket i a hac]

/-- The elements of the first buckets. -/
theorem Placed.mem_take {h : α → ℕ} {n : ℕ} {t : List (List α)} (ht : Placed h n t) {i : ℕ} {a : α} :
    a ∈ (t.take i).flatten ↔ a ∈ t.flatten ∧ h a % n < i := by
  constructor
  · intro ha
    obtain ⟨c, hc, hac⟩ := List.mem_flatten.mp ha
    obtain ⟨j, hj, rfl⟩ := List.getElem_of_mem hc
    rw [List.length_take] at hj
    rw [List.getElem_take] at hac
    have hjt : j < t.length := by omega
    rw [← chain_of_lt hjt] at hac
    refine ⟨mem_flatten_of_mem_chain hac, ?_⟩
    rw [ht.bucket j a hac]
    omega
  · rintro ⟨ha, hi⟩
    have hchain := ht.mem_chain ha
    have hlt : h a % n < t.length := by
      by_contra hge
      rw [chain_of_length_le (Nat.le_of_not_lt hge)] at hchain
      exact absurd hchain List.not_mem_nil
    rw [chain_of_lt hlt] at hchain
    refine List.mem_flatten.mpr ⟨_, ?_, hchain⟩
    exact List.mem_take_iff_getElem.mpr ⟨_, by omega, rfl⟩

/-- Before the bucket of the first element there is nothing. -/
theorem Placed.take_eq_nil {h : α → ℕ} {n : ℕ} {t : List (List α)} (ht : Placed h n t) {a : α}
    {l : List α} (hl : t.flatten = a :: l) : (t.take (h a % n)).flatten = [] := by
  cases htake : (t.take (h a % n)).flatten with
  | nil => rfl
  | cons b l' =>
    have hb := ht.mem_take.mp (htake ▸ List.mem_cons_self : b ∈ (t.take (h a % n)).flatten)
    have hsplit : t.flatten = b :: (l' ++ (t.drop (h a % n)).flatten) := by
      rw [← List.cons_append, ← htake, ← List.flatten_append, List.take_append_drop]
    rw [hl] at hsplit
    rw [(List.cons.inj hsplit).1] at hb
    exact absurd hb.2 (Nat.lt_irrefl _)

/-- Another chain for a bucket, of elements that belong there. -/
theorem Placed.set {h : α → ℕ} {n : ℕ} {t : List (List α)} (ht : Placed h n t) {i : ℕ} {c : List α}
    (hc : ∀ a ∈ c, h a % n = i) : Placed h n (t.set i c) where
  length_eq := by rw [List.length_set, ht.length_eq]
  bucket := by
    intro j a ha
    rw [chain_set] at ha
    split_ifs at ha with hij
    · exact (hc a ha).trans hij.1
    · exact ht.bucket j a ha

/-- The elements around one element of a chain. -/
theorem flatten_eq_at {t : List (List α)} {i p : ℕ} {a : α} (h : (chain t i)[p]? = some a) :
    t.flatten = (t.take i).flatten ++ (chain t i).take p ++
      a :: ((chain t i).drop (p + 1) ++ (t.drop (i + 1)).flatten) := by
  have hi : i < t.length := by
    by_contra hge
    rw [chain_of_length_le (Nat.le_of_not_lt hge)] at h
    simp at h
  obtain ⟨hp, ha⟩ := List.getElem?_eq_some_iff.mp h
  rw [flatten_eq hi, List.append_assoc]
  congr 1
  rw [← List.cons_append, ← List.append_assoc, ← ha, ← List.drop_eq_getElem_cons hp,
    List.take_append_drop]

/-- What comes before and behind an element of a chain stays when it is exchanged or taken out. -/
theorem exists_flatten_at {t : List (List α)} {i p : ℕ} {a : α} (h : (chain t i)[p]? = some a) :
    ∃ xs ys, t.flatten = xs ++ a :: ys ∧
      (∀ b, (t.set i ((chain t i).set p b)).flatten = xs ++ b :: ys) ∧
      (t.set i ((chain t i).eraseIdx p)).flatten = xs ++ ys := by
  have hi : i < t.length := by
    by_contra hge
    rw [chain_of_length_le (Nat.le_of_not_lt hge)] at h
    simp at h
  obtain ⟨hp, -⟩ := List.getElem?_eq_some_iff.mp h
  refine ⟨_, _, flatten_eq_at h, fun b => ?_, ?_⟩
  · rw [flatten_set hi, List.set_eq_take_append_cons_drop, if_pos hp]
    simp only [List.append_assoc, List.cons_append]
  · rw [flatten_set hi, List.eraseIdx_eq_take_drop_succ]
    simp only [List.append_assoc]

/-- The loop that looks for an element stops at the one that `find?` gives. -/
theorem getElem?_findIdx (p : α → Bool) (l : List α) : l[l.findIdx p]? = l.find? p := by
  induction l with
  | nil => rfl
  | cons a l ih =>
    rw [List.findIdx_cons, List.find?_cons]
    cases p a
    · simpa using ih
    · rfl

/-! ## Doubling -/

/-- Twice as many buckets: an element stays, or goes to the bucket as far above. -/
theorem mod_two_mul (a n : ℕ) : a % (2 * n) = a % n ∨ a % (2 * n) = a % n + n := by
  rw [Nat.mul_comm, Nat.mod_mul]
  obtain h | h := Nat.mod_two_eq_zero_or_one (a / n) <;> simp [h]

/-- A table of `n` buckets on its way to `2 * n`, with the chains below `x` split. -/
structure Splits (h : α → ℕ) (n x : ℕ) (t : List (List α)) : Prop where
  length_eq : t.length = 2 * n
  unsplit : ∀ i, ∀ a ∈ chain t i, x ≤ i → i < n → h a % n = i
  split : ∀ i, ∀ a ∈ chain t i, i < x ∨ n ≤ i → h a % (2 * n) = i

theorem chain_append_replicate (t : List (List α)) (m i : ℕ) :
    chain (t ++ List.replicate m []) i = chain t i := by
  simp only [chain, List.getD_eq_getElem?_getD]
  by_cases hi : i < t.length
  · rw [List.getElem?_append_left hi]
  · rw [List.getElem?_append_right (Nat.le_of_not_lt hi), List.getElem?_replicate,
      List.getElem?_eq_none (Nat.le_of_not_lt hi)]
    split_ifs <;> rfl

/-- The new chains are empty. -/
theorem Placed.splits {h : α → ℕ} {n : ℕ} {t : List (List α)} (ht : Placed h n t) :
    Splits h n 0 (t ++ List.replicate n []) where
  length_eq := by rw [List.length_append, List.length_replicate, ht.length_eq, Nat.two_mul]
  unsplit := by
    intro i a ha _ _
    rw [chain_append_replicate] at ha
    exact ht.bucket i a ha
  split := by
    intro i a ha hi
    rw [chain_append_replicate, chain_of_length_le (by have := ht.length_eq; omega)] at ha
    exact absurd ha List.not_mem_nil

/-- The chain `x` split in what stays and what goes in front of its new chain. -/
theorem Splits.step {h : α → ℕ} {n x : ℕ} {t : List (List α)} (ht : Splits h n x t) (hx : x < n)
    {stay moved : List α} (hstay : ∀ a ∈ stay, h a % (2 * n) = x)
    (hmoved : ∀ a ∈ moved, a ∈ chain t x ∧ h a % (2 * n) ≠ x ∨ a ∈ chain t (x + n)) :
    Splits h n (x + 1) ((t.set x stay).set (x + n) moved) where
  length_eq := by rw [List.length_set, List.length_set, ht.length_eq]
  unsplit := by
    intro i a ha hxi hin
    rw [chain_set, if_neg (by omega), chain_set, if_neg (by omega)] at ha
    exact ht.unsplit i a ha (by omega) hin
  split := by
    intro i a ha hi
    rw [chain_set, chain_set] at ha
    split_ifs at ha with hi₁ hi₂
    · obtain ⟨hax, hne⟩ | ha := hmoved a ha
      · -- It was in the chain `x` and does not stay.
        have hmod := ht.unsplit x a hax (Nat.le_refl x) hx
        obtain h₂ | h₂ := mod_two_mul (h a) n <;> omega
      · exact ht.split i a (hi₁.1 ▸ ha) (by omega)
    · exact (hstay a ha).trans hi₂.1
    · have hlength := ht.length_eq
      have hix : i ≠ x := fun hix => hi₂ ⟨hix.symm, by omega⟩
      exact ht.split i a ha (by omega)

theorem Splits.placed {h : α → ℕ} {n : ℕ} {t : List (List α)} (ht : Splits h n n t) :
    Placed h (2 * n) t where
  length_eq := ht.length_eq
  bucket i a ha := ht.split i a ha (by omega)

/-! ## Distinct keys -/

variable (key : α → κ) (same : κ → κ → Bool)

/-- No two elements have the same key. -/
def Distinct (l : List α) : Prop := l.Pairwise fun a b => ¬same (key a) (key b)

variable {key same}

/-- A lookup is determined by what is in the list. -/
theorem Distinct.find?_eq_some {l : List α} (hl : Distinct key same l)
    (heq : ∀ {a b c}, same a c → same b c → same a b) {k : κ} {a : α} :
    l.find? (fun x => same (key x) k) = some a ↔ a ∈ l ∧ same (key a) k := by
  constructor
  · intro h
    have hk := List.find?_some h
    exact ⟨List.mem_of_find?_eq_some h, hk⟩
  · rintro ⟨ha, hk⟩
    obtain ⟨xs, ys, rfl⟩ := List.append_of_mem ha
    refine List.find?_eq_some_iff_append.mpr ⟨hk, xs, ys, rfl, fun x hx => ?_⟩
    have hne := (List.pairwise_append.mp hl).2.2 x hx a List.mem_cons_self
    simp only [Bool.not_eq_true', Bool.eq_false_iff]
    exact fun hxk => hne (heq hxk hk)

theorem Distinct.chain {t : List (List α)} (ht : Distinct key same t.flatten) (i : ℕ) :
    Distinct key same (chain t i) := by
  by_cases hi : i < t.length
  · rw [chain_of_lt hi]
    exact List.Pairwise.sublist (List.sublist_flatten_of_mem (List.getElem_mem hi)) ht
  · rw [chain_of_length_le (Nat.le_of_not_lt hi)]
    exact List.Pairwise.nil

theorem Distinct.perm {l l' : List α} (hl : Distinct key same l)
    (hsymm : ∀ {a b}, same a b → same b a) (hp : l.Perm l') : Distinct key same l' :=
  hp.pairwise hl fun hab hba => hab (hsymm hba)

/-- Rearranged elements are found the same. -/
theorem Distinct.find?_perm {l l' : List α} (hl : Distinct key same l)
    (hsymm : ∀ {a b}, same a b → same b a) (heq : ∀ {a b c}, same a c → same b c → same a b)
    (hp : l.Perm l') (k : κ) :
    l.find? (fun x => same (key x) k) = l'.find? fun x => same (key x) k := by
  refine Option.ext fun a => ?_
  rw [hl.find?_eq_some heq, (hl.perm hsymm hp).find?_eq_some heq, hp.mem_iff]

/-- Only one element has a key. -/
theorem Distinct.not_same {xs ys : List α} {a x : α} (hl : Distinct key same (xs ++ a :: ys))
    (hsymm : ∀ {a b}, same a b → same b a) (hx : x ∈ xs ++ ys) : ¬same (key a) (key x) := by
  obtain ⟨-, hys, hcross⟩ := List.pairwise_append.mp hl
  obtain hx | hx := List.mem_append.mp hx
  · exact fun hax => hcross x hx a List.mem_cons_self (hsymm hax)
  · exact List.rel_of_pairwise_cons hys hx

/-- What is found once an element is taken out. -/
theorem Distinct.find?_remove {xs ys : List α} {a : α} (hl : Distinct key same (xs ++ a :: ys))
    (hsymm : ∀ {a b}, same a b → same b a) (heq : ∀ {a b c}, same a c → same b c → same a b) (k : κ) :
    (xs ++ ys).find? (fun x => same (key x) k) =
      if same (key a) k then none else (xs ++ a :: ys).find? fun x => same (key x) k := by
  split_ifs with hk
  · refine List.find?_eq_none.mpr fun x hx hxk => ?_
    exact hl.not_same hsymm hx (heq hk hxk)
  · rw [List.find?_append, List.find?_append, List.find?_cons, Bool.eq_false_iff.mpr hk]

/-- What is found once an element is exchanged for one with the same key. -/
theorem Distinct.find?_replace {xs ys : List α} {a b : α} (hl : Distinct key same (xs ++ a :: ys))
    (hb : key b = key a) (hsymm : ∀ {a b}, same a b → same b a)
    (heq : ∀ {a b c}, same a c → same b c → same a b) (k : κ) :
    (xs ++ b :: ys).find? (fun x => same (key x) k) =
      if same (key a) k then some b else (xs ++ a :: ys).find? fun x => same (key x) k := by
  have hremove := hl.find?_remove hsymm heq k
  rw [List.find?_append] at hremove
  rw [List.find?_append, List.find?_cons, hb]
  split_ifs at hremove ⊢ with hk
  · rw [hk, (Option.or_eq_none_iff.mp hremove).1]
    rfl
  · rw [Bool.eq_false_iff.mpr hk, hremove]

theorem Distinct.replace {xs ys : List α} {a b : α} (hl : Distinct key same (xs ++ a :: ys))
    (hb : key b = key a) : Distinct key same (xs ++ b :: ys) := by
  rw [Distinct, List.pairwise_append, List.pairwise_cons] at hl ⊢
  obtain ⟨hxs, ⟨ha, hys⟩, hcross⟩ := hl
  refine ⟨hxs, ⟨fun y hy => hb ▸ ha y hy, hys⟩, fun x hx y hy => ?_⟩
  obtain rfl | hy := List.mem_cons.mp hy
  · exact hb ▸ hcross x hx a List.mem_cons_self
  · exact hcross x hx y (List.mem_cons_of_mem a hy)

end Buckets
