import Moc.Lib.Memory
import Mathlib.Data.List.AList
import Mathlib.Data.List.Induction

/-!
# Doubly linked lists in a heap

Cells with a `prev` and a `next` pointer in one heap, and the predicate `Linked`: the cells of a
list, in order, are where the pointers say. A pointer is an address or NULL (`none`). Reading or
writing through NULL or through the address of a freed cell is a `Fault`. Each pointer operation of
a hand-linked list has one lemma here, about a segment with arbitrary outer pointers, so that a
program's proof splits its list at the cell it works on and puts the pieces together again.
-/

open Memory

namespace Dll

variable {α : Type}

/-! ## The heap -/

/-- A cell of a doubly linked list. -/
structure Node (α : Type) where
  /-- What the cell holds. -/
  item : α
  /-- The cell before it. -/
  prev : Option ℕ
  /-- The cell after it. -/
  next : Option ℕ
  deriving DecidableEq, Repr

/-- The allocated cells, by address. -/
abbrev Heap (α : Type) := AList fun _ : ℕ => Node α

/-- Where an allocation that succeeds puts its cell: at any address not in use. -/
structure Allocator (α : Type) where
  /-- The address it picks. -/
  pick : Heap α → ℕ
  /-- The address is not in use. -/
  fresh : ∀ h : Heap α, h.lookup (pick h) = none

/-- The allocator that picks the address after the last one in use. -/
def bump : Allocator α where
  pick h := h.keys.foldr max 0 + 1
  fresh h := by
    -- No key exceeds the maximum of the keys.
    have hmax : ∀ ks : List ℕ, ∀ k ∈ ks, k ≤ ks.foldr max 0 := by
      intro ks
      induction ks with
      | nil => simp
      | cons k ks ih => grind
    refine AList.lookup_eq_none.mpr fun hmem => ?_
    have hle := hmax _ _ (AList.mem_keys.mp hmem)
    omega

/-- The cell at a pointer. -/
def deref (h : Heap α) : Option ℕ → Except Fault (Node α)
  | none => .error .nullPointer
  | some a => match h.lookup a with
    | none => .error .useAfterFree
    | some n => .ok n

/-- The heap after the cell at a pointer is changed. -/
def assign (h : Heap α) (p : Option ℕ) (f : Node α → Node α) : Except Fault (Heap α) :=
  match p with
  | none => .error .nullPointer
  | some a => match h.lookup a with
    | none => .error .useAfterFree
    | some n => .ok (h.insert a (f n))

/-- `p->prev = q`. -/
def setPrev (h : Heap α) (p q : Option ℕ) : Except Fault (Heap α) :=
  assign h p fun n => { n with prev := q }

/-- `p->next = q`. -/
def setNext (h : Heap α) (p q : Option ℕ) : Except Fault (Heap α) :=
  assign h p fun n => { n with next := q }

/-- `if (p != NULL) p->prev = q`. -/
def setPrevIf (h : Heap α) (p q : Option ℕ) : Except Fault (Heap α) :=
  match p with
  | none => .ok h
  | some a => setPrev h (some a) q

/-- `free(p)`. -/
def free (h : Heap α) : Option ℕ → Except Fault (Heap α)
  | none => .ok h
  | some a => match h.lookup a with
    | none => .error .useAfterFree
    | some _ => .ok (h.erase a)

/-- The loop `for (e = p; e != NULL; e = e->next)` that stops at the first cell whose item passes
`test`. It visits no more cells than are allocated, unless the cells form a cycle. -/
def find (h : Heap α) (test : α → Bool) : ℕ → Option ℕ → Except Fault (Option ℕ)
  | _, none => .ok none
  | 0, some _ => .error .diverges
  | fuel + 1, some a => do
    let e ← deref h (some a)
    if test e.item then return some a else find h test fuel e.next

/-- The addresses that the loop `for (e = p; e != NULL; e = follow(e))` visits, in order. -/
def walk (h : Heap α) (follow : Node α → Option ℕ) : ℕ → Option ℕ → Except Fault (List ℕ)
  | _, none => .ok []
  | 0, some _ => .error .diverges
  | fuel + 1, some a => do
    let e ← deref h (some a)
    let rest ← walk h follow fuel (follow e)
    return a :: rest

theorem deref_some {h : Heap α} {a : ℕ} {n : Node α} (ha : h.lookup a = some n) :
    deref h (some a) = .ok n := by
  simp only [deref, ha]

theorem setPrev_some {h : Heap α} {a : ℕ} {n : Node α} (q : Option ℕ)
    (ha : h.lookup a = some n) :
    setPrev h (some a) q = .ok (h.insert a { n with prev := q }) := by
  simp only [setPrev, assign, ha]

theorem setNext_some {h : Heap α} {a : ℕ} {n : Node α} (q : Option ℕ)
    (ha : h.lookup a = some n) :
    setNext h (some a) q = .ok (h.insert a { n with next := q }) := by
  simp only [setNext, assign, ha]

theorem free_some {h : Heap α} {a : ℕ} {n : Node α} (ha : h.lookup a = some n) :
    free h (some a) = .ok (h.erase a) := by
  simp only [free, ha]

/-! ## Segments -/

/-- The address of the first cell, or `q` when there is none. -/
def headOr (q : Option ℕ) : List (ℕ × α) → Option ℕ
  | [] => q
  | c :: _ => some c.1

/-- The address of the last cell, or `p` when there is none. -/
def lastOr (p : Option ℕ) : List (ℕ × α) → Option ℕ
  | [] => p
  | c :: cs => lastOr (some c.1) cs

/-- The addresses of the cells. -/
def addrs (cs : List (ℕ × α)) : List ℕ := cs.map Prod.fst

/-- The cells `cs` lie in the heap one after the other: the first one's `prev` is `p`, the last
one's `next` is `q`. -/
def Linked (h : Heap α) : Option ℕ → List (ℕ × α) → Option ℕ → Prop
  | _, [], _ => True
  | p, c :: cs, q => h.lookup c.1 = some ⟨c.2, p, headOr q cs⟩ ∧ Linked h (some c.1) cs q

@[simp] theorem headOr_nil (q : Option ℕ) : headOr q ([] : List (ℕ × α)) = q := rfl

@[simp] theorem headOr_cons (q : Option ℕ) (c : ℕ × α) (cs : List (ℕ × α)) :
    headOr q (c :: cs) = some c.1 := rfl

@[simp] theorem lastOr_nil (p : Option ℕ) : lastOr p ([] : List (ℕ × α)) = p := rfl

@[simp] theorem lastOr_cons (p : Option ℕ) (c : ℕ × α) (cs : List (ℕ × α)) :
    lastOr p (c :: cs) = lastOr (some c.1) cs := rfl

@[simp] theorem headOr_append (q : Option ℕ) (xs ys : List (ℕ × α)) :
    headOr q (xs ++ ys) = headOr (headOr q ys) xs := by
  cases xs <;> rfl

@[simp] theorem lastOr_append (p : Option ℕ) (xs ys : List (ℕ × α)) :
    lastOr p (xs ++ ys) = lastOr (lastOr p xs) ys := by
  induction xs generalizing p with
  | nil => rfl
  | cons c xs ih => exact ih _

@[simp] theorem addrs_cons (c : ℕ × α) (cs : List (ℕ × α)) :
    addrs (c :: cs) = c.1 :: addrs cs := rfl

@[simp] theorem addrs_append (xs ys : List (ℕ × α)) : addrs (xs ++ ys) = addrs xs ++ addrs ys :=
  List.map_append

/-- The pointer to the first cell of a list that is not empty does not depend on what follows. -/
theorem headOr_of_ne_nil {xs : List (ℕ × α)} (hxs : xs ≠ []) (ys zs : List (ℕ × α)) :
    headOr none (xs ++ ys) = headOr none (xs ++ zs) := by
  cases xs with
  | nil => exact absurd rfl hxs
  | cons c xs => rfl

/-- A cell with others before it is not the first. -/
theorem headOr_ne_middle {xs : List (ℕ × α)} (ys : List (ℕ × α)) {c : ℕ × α} (hxs : xs ≠ [])
    (hc : c.1 ∉ addrs (xs ++ ys)) : headOr none (xs ++ c :: ys) ≠ some c.1 := by
  cases xs with
  | nil => exact absurd rfl hxs
  | cons d xs => exact fun heq => hc (by simp [← Option.some.inj heq])

/-- The pointer to the last cell of a list that is not empty does not depend on the default. -/
theorem lastOr_of_ne_nil {cs : List (ℕ × α)} (hcs : cs ≠ []) (p p' : Option ℕ) :
    lastOr p cs = lastOr p' cs := by
  cases cs with
  | nil => exact absurd rfl hcs
  | cons c cs => rfl

theorem headOr_eq_none {cs : List (ℕ × α)} : headOr none cs = none ↔ cs = [] := by
  cases cs <;> simp

theorem lastOr_eq_none {cs : List (ℕ × α)} : lastOr none cs = none ↔ cs = [] := by
  rcases List.eq_nil_or_concat' cs with rfl | ⟨xs, c, rfl⟩ <;> simp

/-- The pointer to the last cell is the address of one of the cells. -/
theorem lastOr_mem {cs : List (ℕ × α)} {p : Option ℕ} {a : ℕ} (ha : lastOr p cs = some a) :
    p = some a ∨ a ∈ addrs cs := by
  induction cs generalizing p with
  | nil => exact .inl ha
  | cons c cs ih =>
    rcases ih ha with h | h
    · exact .inr (by simp [Option.some.inj h])
    · exact .inr (List.mem_cons_of_mem _ h)

/-- The cell in the middle of a list is none of the others. -/
theorem nodup_middle {xs ys : List (ℕ × α)} {c : ℕ × α} :
    (addrs (xs ++ c :: ys)).Nodup ↔ c.1 ∉ addrs (xs ++ ys) ∧ (addrs (xs ++ ys)).Nodup := by
  simp only [addrs_append, addrs_cons, List.nodup_middle, List.nodup_cons]

/-- The last cell of a list without `c`: the one before `c` when `c` was the last one. -/
theorem lastOr_without {xs ys : List (ℕ × α)} {c : ℕ × α} (hc : c.1 ∉ addrs (xs ++ ys)) :
    (if lastOr none (xs ++ c :: ys) = some c.1 then lastOr none xs
      else lastOr none (xs ++ c :: ys)) = lastOr none (xs ++ ys) := by
  cases ys with
  | nil => simp
  | cons d ys =>
    rw [if_neg]
    · simp
    · simp only [lastOr_append, lastOr_cons]
      intro heq
      rcases lastOr_mem heq with h | h
      · exact hc (by simp [← Option.some.inj h])
      · exact hc (by simp [h])

/-- Two segments in a row: each one's outer pointers lead to the other. -/
theorem linked_append {h : Heap α} {p q : Option ℕ} {xs ys : List (ℕ × α)} :
    Linked h p (xs ++ ys) q ↔ Linked h p xs (headOr q ys) ∧ Linked h (lastOr p xs) ys q := by
  induction xs generalizing p with
  | nil => simp [Linked]
  | cons c xs ih => simp only [List.cons_append, Linked, headOr_append, ih, lastOr_cons, and_assoc]

/-- A heap that agrees on a segment's cells holds the segment too. -/
theorem Linked.congr {h h' : Heap α} {p q : Option ℕ} {cs : List (ℕ × α)}
    (hcs : Linked h p cs q) (heq : ∀ a ∈ addrs cs, h'.lookup a = h.lookup a) :
    Linked h' p cs q := by
  induction cs generalizing p with
  | nil => trivial
  | cons c cs ih =>
    obtain ⟨hc, hrest⟩ := hcs
    refine ⟨?_, ih hrest fun a ha => heq a (List.mem_cons_of_mem _ ha)⟩
    rw [heq c.1 List.mem_cons_self, hc]

/-- A write at an address outside the segment keeps it. -/
theorem Linked.insert_of_notMem {h : Heap α} {p q : Option ℕ} {cs : List (ℕ × α)} {a : ℕ}
    (n : Node α) (hcs : Linked h p cs q) (ha : a ∉ addrs cs) : Linked (h.insert a n) p cs q :=
  hcs.congr fun _ hb => AList.lookup_insert_ne fun heq => ha (heq ▸ hb)

/-- Freeing an address outside the segment keeps it. -/
theorem Linked.erase_of_notMem {h : Heap α} {p q : Option ℕ} {cs : List (ℕ × α)} {a : ℕ}
    (hcs : Linked h p cs q) (ha : a ∉ addrs cs) : Linked (h.erase a) p cs q :=
  hcs.congr fun _ hb => AList.lookup_erase_ne fun heq => ha (heq ▸ hb)

/-- The node of a cell in the middle of a segment. -/
theorem Linked.lookup {h : Heap α} {p q : Option ℕ} {xs ys : List (ℕ × α)} {c : ℕ × α}
    (hcs : Linked h p (xs ++ c :: ys) q) :
    h.lookup c.1 = some ⟨c.2, lastOr p xs, headOr q ys⟩ :=
  (linked_append.mp hcs).2.1

/-- Every cell of a segment is allocated. -/
theorem Linked.lookup_ne_none {h : Heap α} {p q : Option ℕ} {cs : List (ℕ × α)}
    (hcs : Linked h p cs q) {a : ℕ} (ha : a ∈ addrs cs) : h.lookup a ≠ none := by
  obtain ⟨c, hc, rfl⟩ := List.mem_map.mp ha
  obtain ⟨xs, ys, rfl⟩ := List.append_of_mem hc
  rw [hcs.lookup]
  exact Option.some_ne_none _

/-- `find` from the first cell of a segment returns the first cell that passes the test. -/
theorem find_linked {h : Heap α} (test : α → Bool) {p : Option ℕ} {cs : List (ℕ × α)}
    (hcs : Linked h p cs none) {fuel : ℕ} (hfuel : cs.length ≤ fuel) :
    find h test fuel (headOr none cs) = .ok ((cs.find? fun c => test c.2).map Prod.fst) := by
  induction cs generalizing p fuel with
  | nil => cases fuel <;> rfl
  | cons c cs ih =>
    obtain ⟨hc, hrest⟩ := hcs
    obtain ⟨fuel, rfl⟩ : ∃ k, fuel = k + 1 := ⟨fuel - 1, by simp at hfuel; omega⟩
    have hstep := ih hrest (by simpa using hfuel)
    rw [headOr_cons, find, deref_some hc, ok_bind, List.find?_cons]
    by_cases ht : test c.2 = true
    · simp [ht]
    · simp [ht, hstep]

/-- Following `next` from the first cell of a list visits its cells in order. -/
theorem walk_next {h : Heap α} {p : Option ℕ} {cs : List (ℕ × α)} (hcs : Linked h p cs none)
    {fuel : ℕ} (hfuel : cs.length ≤ fuel) :
    walk h Node.next fuel (headOr none cs) = .ok (addrs cs) := by
  induction cs generalizing p fuel with
  | nil => cases fuel <;> rfl
  | cons c cs ih =>
    obtain ⟨hc, hrest⟩ := hcs
    obtain ⟨fuel, rfl⟩ : ∃ k, fuel = k + 1 := ⟨fuel - 1, by simp at hfuel; omega⟩
    rw [headOr_cons, walk, deref_some hc, ok_bind, ih hrest (by simpa using hfuel), ok_bind]
    rfl

/-- Following `prev` from the last cell of a list visits its cells in the opposite order. -/
theorem walk_prev {h : Heap α} {q : Option ℕ} {cs : List (ℕ × α)} (hcs : Linked h none cs q)
    {fuel : ℕ} (hfuel : cs.length ≤ fuel) :
    walk h Node.prev fuel (lastOr none cs) = .ok (addrs cs).reverse := by
  induction cs using List.reverseRecOn generalizing q fuel with
  | nil => cases fuel <;> rfl
  | append_singleton cs c ih =>
    have hc := hcs.lookup
    obtain ⟨hrest, -⟩ := linked_append.mp hcs
    obtain ⟨fuel, rfl⟩ : ∃ k, fuel = k + 1 := ⟨fuel - 1, by simp at hfuel; omega⟩
    rw [lastOr_append, lastOr_cons, lastOr_nil, walk, deref_some hc, ok_bind,
      ih hrest (by simpa using hfuel), ok_bind]
    simp [addrs]

/-! ## Relinking -/

/-- After `p->prev = p'` on the first cell of a segment, if it has one, its outer pointer is
`p'`. Only that cell changes. -/
theorem Linked.setPrevIf {h : Heap α} {p : Option ℕ} {cs : List (ℕ × α)} (p' : Option ℕ)
    (hcs : Linked h p cs none) (hnd : (addrs cs).Nodup) :
    ∃ h', Dll.setPrevIf h (headOr none cs) p' = .ok h' ∧ Linked h' p' cs none ∧
      ∀ a ∉ addrs cs, h'.lookup a = h.lookup a := by
  cases cs with
  | nil => exact ⟨h, rfl, trivial, fun _ _ => rfl⟩
  | cons c cs =>
    obtain ⟨hc, hrest⟩ := hcs
    have hout : c.1 ∉ addrs cs := (List.nodup_cons.mp hnd).1
    refine ⟨_, setPrev_some p' hc, ⟨AList.lookup_insert h, hrest.insert_of_notMem _ hout⟩, ?_⟩
    intro a ha
    exact AList.lookup_insert_ne fun heq => ha (heq ▸ List.mem_cons_self)

/-- After `p->next = q'` on the last cell of a segment, its outer pointer is `q'`. Only that cell
changes. -/
theorem Linked.setNext {h : Heap α} {p q : Option ℕ} {cs : List (ℕ × α)} (q' : Option ℕ)
    (hne : cs ≠ []) (hcs : Linked h p cs q) (hnd : (addrs cs).Nodup) :
    ∃ h', Dll.setNext h (lastOr none cs) q' = .ok h' ∧ Linked h' p cs q' ∧
      ∀ a ∉ addrs cs, h'.lookup a = h.lookup a := by
  obtain ⟨xs, c, rfl⟩ := List.eq_nil_or_concat' cs |>.resolve_left hne
  have hc := hcs.lookup
  obtain ⟨hxs, -⟩ := linked_append.mp hcs
  have hout : c.1 ∉ addrs xs := by
    simp only [addrs_append, addrs_cons, List.nodup_append] at hnd
    exact fun hmem => hnd.2.2 c.1 hmem c.1 (by simp) rfl
  refine ⟨_, by rw [lastOr_append]; exact setNext_some q' hc, ?_, ?_⟩
  · exact linked_append.mpr ⟨hxs.insert_of_notMem _ hout, AList.lookup_insert h, trivial⟩
  · intro a ha
    exact AList.lookup_insert_ne fun heq => ha (by simp [heq])

/-- A new item in one cell leaves the links alone. -/
theorem Linked.setItem {h : Heap α} {p q : Option ℕ} {xs ys : List (ℕ × α)} {c : ℕ × α} (x : α)
    (hcs : Linked h p (xs ++ c :: ys) q) (hnd : (addrs (xs ++ c :: ys)).Nodup) :
    Linked (h.insert c.1 ⟨x, lastOr p xs, headOr q ys⟩) p (xs ++ (c.1, x) :: ys) q := by
  obtain ⟨hxs, -, hys⟩ := linked_append.mp hcs
  simp only [addrs_append, addrs_cons, List.nodup_append, List.nodup_cons] at hnd
  obtain ⟨-, ⟨hcys, -⟩, hdisj⟩ := hnd
  have hcxs : c.1 ∉ addrs xs := fun hmem => hdisj c.1 hmem c.1 List.mem_cons_self rfl
  exact linked_append.mpr ⟨hxs.insert_of_notMem _ hcxs, AList.lookup_insert h,
    hys.insert_of_notMem _ hcys⟩

/-- A list has no more cells than the heap. -/
theorem Linked.length_le {h : Heap α} {p q : Option ℕ} {cs : List (ℕ × α)}
    (hcs : Linked h p cs q) (hnd : (addrs cs).Nodup) : cs.length ≤ h.keys.length := by
  have hsub : addrs cs ⊆ h.keys := by
    intro a ha
    by_contra hmem
    exact hcs.lookup_ne_none ha (AList.lookup_eq_none.mpr fun h' => hmem (AList.mem_keys.mpr h'))
  calc cs.length = (addrs cs).length := List.length_map _ |>.symm
    _ ≤ h.keys.length := (List.subperm_of_subset hnd hsub).length_le

/-! ## Rewriting one list of several -/

/-- What a list operation may do: turn the list `cs` of `h` into the list `cs'` of `h'`, using no
cell in use outside `cs`. -/
structure Rewrites (h : Heap α) (cs : List (ℕ × α)) (h' : Heap α) (cs' : List (ℕ × α)) :
    Prop where
  /-- The new list is linked. -/
  linked : Linked h' none cs' none
  /-- Its cells are distinct. -/
  nodup : (addrs cs').Nodup
  /-- The cells of other lists are as before. -/
  frame : ∀ a ∉ addrs cs, h.lookup a ≠ none → h'.lookup a = h.lookup a
  /-- A cell of the new list is one of the old list's or newly allocated. -/
  fresh : ∀ a ∈ addrs cs', a ∈ addrs cs ∨ h.lookup a = none

/-- Two operations in a row. -/
theorem Rewrites.trans {h₁ h₂ h₃ : Heap α} {cs₁ cs₂ cs₃ : List (ℕ × α)}
    (r : Rewrites h₁ cs₁ h₂ cs₂) (s : Rewrites h₂ cs₂ h₃ cs₃) : Rewrites h₁ cs₁ h₃ cs₃ := by
  refine ⟨s.linked, s.nodup, ?_, ?_⟩
  · intro a ha hused
    have hsame := r.frame a ha hused
    have ha₂ : a ∉ addrs cs₂ := fun hmem => (r.fresh a hmem).elim ha hused
    rw [s.frame a ha₂ (hsame ▸ hused), hsame]
  · intro a ha
    by_contra hcon
    obtain ⟨hout, hused⟩ := not_or.mp hcon
    rcases s.fresh a ha with h | h
    · exact hcon (r.fresh a h)
    · exact hused (r.frame a hout hused ▸ h)

/-- Lists, one for each index, that share no cell. -/
structure Owns (h : Heap α) (cells : ℕ → List (ℕ × α)) : Prop where
  /-- Each list is linked. -/
  linked : ∀ i, Linked h none (cells i) none
  /-- The cells of a list are distinct. -/
  nodup : ∀ i, (addrs (cells i)).Nodup
  /-- A cell belongs to one list. -/
  disjoint : ∀ i j a, a ∈ addrs (cells i) → a ∈ addrs (cells j) → i = j

/-- Rewriting one list leaves the others as they were. -/
theorem Owns.update {h h' : Heap α} {cells : ℕ → List (ℕ × α)} {i : ℕ} {cs' : List (ℕ × α)}
    (ho : Owns h cells) (hr : Rewrites h (cells i) h' cs') :
    Owns h' (Function.update cells i cs') := by
  -- No cell of another list is in the new one.
  have hdisj : ∀ j a, j ≠ i → a ∈ addrs (cells j) → a ∉ addrs cs' := by
    intro j a hj ha hmem
    rcases hr.fresh a hmem with h | h
    · exact hj (ho.disjoint j i a ha h)
    · exact (ho.linked j).lookup_ne_none ha h
  refine ⟨fun j => ?_, fun j => ?_, fun j k a hj hk => ?_⟩
  · by_cases hji : j = i
    · subst hji
      simpa using hr.linked
    · rw [Function.update_of_ne hji]
      refine (ho.linked j).congr fun a ha => hr.frame a ?_ ((ho.linked j).lookup_ne_none ha)
      exact fun hmem => hji (ho.disjoint j i a ha hmem)
  · by_cases hji : j = i
    · subst hji
      simpa using hr.nodup
    · rw [Function.update_of_ne hji]
      exact ho.nodup j
  · by_cases hji : j = i <;> by_cases hki : k = i
    · rw [hji, hki]
    · rw [hji, Function.update_self] at hj
      rw [Function.update_of_ne hki] at hk
      exact absurd hj (hdisj k a hki hk)
    · rw [Function.update_of_ne hji] at hj
      rw [hki, Function.update_self] at hk
      exact absurd hk (hdisj j a hji hj)
    · rw [Function.update_of_ne hji] at hj
      rw [Function.update_of_ne hki] at hk
      exact ho.disjoint j k a hj hk

end Dll
