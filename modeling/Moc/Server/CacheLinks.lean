import Moc.Lib.Recency
import Moc.Server.Cache

/-!
# The links of one chain

What the linked-list code inside `cache_set` and `cache_del` does to the chain it works on: one
lemma for each piece of that code, about a chain given as the list of its cells. Each says that the
piece runs without a fault, which list the chain is afterwards, and that no cell of another chain
changed.
-/

open Memory Dll

namespace Moc

/-- The entries of a list of cells. -/
def items (cs : List (ℕ × CacheEntry)) : List CacheEntry := cs.map Prod.snd

/-- The chain record of a list of cells. -/
def chainOf (cs : List (ℕ × CacheEntry)) : CacheChain := ⟨cs.length, headOr none cs, lastOr none cs⟩

@[simp] theorem items_cons (c : ℕ × CacheEntry) (cs : List (ℕ × CacheEntry)) :
    items (c :: cs) = c.2 :: items cs := rfl

@[simp] theorem items_append (xs ys : List (ℕ × CacheEntry)) :
    items (xs ++ ys) = items xs ++ items ys :=
  List.map_append

@[simp] theorem length_items (cs : List (ℕ × CacheEntry)) : (items cs).length = cs.length :=
  List.length_map _

/-- A conditional change of `last`, as a change of the field. -/
theorem with_last (ch : CacheChain) (p : Option ℕ) (e : ℕ) :
    (if ch.last = some e then { ch with last := p } else ch) =
      ⟨ch.len, ch.first, if ch.last = some e then p else ch.last⟩ := by
  split_ifs <;> rfl

variable {heap : Heap CacheEntry} {cs xs ys : List (ℕ × CacheEntry)} {c : ℕ × CacheEntry}

/-- The record of a chain whose entry `c` goes, after its `last` is moved. -/
theorem chainOf_without_last (hc : c.1 ∉ addrs (xs ++ ys)) :
    (if (chainOf (xs ++ c :: ys)).last = some c.1 then
        { chainOf (xs ++ c :: ys) with last := lastOr none xs }
      else chainOf (xs ++ c :: ys)) =
      ⟨(xs ++ c :: ys).length, headOr none (xs ++ c :: ys), lastOr none (xs ++ ys)⟩ := by
  rw [with_last, ← lastOr_without hc]
  rfl

/-- Looking a key up either finds none, or splits the chain at the first entry with the key. -/
theorem findInChain_cases (hl : Linked heap none cs none) (hnd : (addrs cs).Nodup)
    (key : List UInt8) :
    (findInChain heap (chainOf cs) key = .ok none ∧
        Recency.lookup CacheEntry.key key (items cs) = none) ∨
      ∃ xs c ys, cs = xs ++ c :: ys ∧ c.2.key = key ∧ (∀ e ∈ items xs, e.key ≠ key) ∧
        findInChain heap (chainOf cs) key = .ok (some c.1) := by
  have hfind : findInChain heap (chainOf cs) key =
      .ok ((cs.find? fun c => key.length = c.2.key.length && key = c.2.key).map Prod.fst) :=
    find_linked _ hl (hl.length_le hnd)
  -- The comparison of the lengths adds nothing to the one of the bytes.
  have htest : ∀ c : ℕ × CacheEntry,
      (decide (key.length = c.2.key.length) && decide (key = c.2.key)) =
        decide (c.2.key = key) := by
    intro c
    by_cases heq : key = c.2.key
    · simp [← heq]
    · simp [heq, Ne.symm heq]
  simp only [htest] at hfind
  cases hc : cs.find? fun c => decide (c.2.key = key) with
  | none =>
    refine .inl ⟨by rw [hfind, hc]; rfl, Recency.lookup_eq_none.mpr ?_⟩
    intro e he
    obtain ⟨c, hmem, rfl⟩ := List.mem_map.mp he
    simpa using List.find?_eq_none.mp hc c hmem
  | some c =>
    obtain ⟨hkey, xs, ys, rfl, hxs⟩ := List.find?_eq_some_iff_append.mp hc
    refine .inr ⟨xs, c, ys, rfl, by simpa using hkey, ?_, by rw [hfind, hc]; rfl⟩
    intro e he
    obtain ⟨d, hmem, rfl⟩ := List.mem_map.mp he
    simpa using hxs d hmem

/-- Linking the neighbours of an entry to each other takes it out of the list. -/
theorem bypass_spec (hne : xs ≠ []) (hl : Linked heap none (xs ++ c :: ys) none)
    (hnd : (addrs (xs ++ c :: ys)).Nodup) :
    ∃ heap', bypass heap c.1 = .ok heap' ∧ Linked heap' none (xs ++ ys) none ∧
      ∀ b ∉ addrs (xs ++ ys), heap'.lookup b = heap.lookup b := by
  obtain ⟨hc, hxys⟩ := nodup_middle.mp hnd
  have hnode := hl.lookup
  obtain ⟨hxs, -, hys⟩ := linked_append.mp hl
  simp only [addrs_append, List.mem_append, not_or, List.nodup_append] at hc hxys
  -- `e->prev->next = e->next` changes the last cell before the entry,
  obtain ⟨heap₁, hset₁, hxs₁, hframe₁⟩ := hxs.setNext (headOr none ys) hne hxys.1
  have hys₁ : Linked heap₁ (some c.1) ys none :=
    hys.congr fun b hb => hframe₁ b fun hmem => hxys.2.2 b hmem b hb rfl
  -- and `e->next->prev = e->prev` the first one after it.
  obtain ⟨heap₂, hset₂, hys₂, hframe₂⟩ := hys₁.setPrevIf (lastOr none xs) hxys.2.1
  have hxs₂ : Linked heap₂ none xs (headOr none ys) :=
    hxs₁.congr fun b hb => hframe₂ b fun hmem => hxys.2.2 b hb b hmem rfl
  refine ⟨heap₂, ?_, linked_append.mpr ⟨hxs₂, hys₂⟩, ?_⟩
  · have hnode₁ := (hframe₁ c.1 hc.1).trans hnode
    rw [bypass, deref_some hnode, ok_bind, hset₁, ok_bind, deref_some hnode₁, ok_bind, hset₂]
  · intro b hb
    rw [addrs_append, List.mem_append, not_or] at hb
    rw [hframe₂ b hb.2, hframe₁ b hb.1]

/-- Taking an entry out of its chain: the links and both ends are right afterwards. -/
theorem unlink_spec (hl : Linked heap none (xs ++ c :: ys) none)
    (hnd : (addrs (xs ++ c :: ys)).Nodup) :
    ∃ heap', unlink heap (chainOf (xs ++ c :: ys)) c.1 =
        .ok (heap', ⟨(xs ++ c :: ys).length, headOr none (xs ++ ys), lastOr none (xs ++ ys)⟩) ∧
      Linked heap' none (xs ++ ys) none ∧
      ∀ b ∉ addrs (xs ++ ys), heap'.lookup b = heap.lookup b := by
  obtain ⟨hc, hxys⟩ := nodup_middle.mp hnd
  have hnode := hl.lookup
  have hlast := lastOr_without hc
  by_cases hxs : xs = []
  · subst hxs
    obtain ⟨-, hys⟩ := hl
    obtain ⟨heap', hset, hys', hframe⟩ := hys.setPrevIf none hxys
    have hnode' := (hframe c.1 hc).trans hnode
    refine ⟨heap', ?_, hys', hframe⟩
    simp only [unlink, chainOf, List.nil_append, headOr_cons, if_true, deref_some hnode, ok_bind,
      hset, pure_eq_ok, deref_some hnode', with_last, lastOr_nil] at hlast ⊢
    rw [hlast]
  · obtain ⟨heap', hbypass, hl', hframe⟩ := bypass_spec hxs hl hnd
    have hnode' := (hframe c.1 hc).trans hnode
    have hfirst := headOr_ne_middle ys hxs hc
    refine ⟨heap', ?_, hl', hframe⟩
    simp only [unlink, chainOf, if_neg hfirst, deref_some hnode, ok_bind, hbypass, pure_eq_ok,
      deref_some hnode', with_last, hlast]
    rw [headOr_of_ne_nil hxs (c :: ys) ys]

/-- Putting a cell that is in no list in front of a list that is not empty. -/
theorem linkFirst_spec {n a : ℕ} {e : CacheEntry} {nx l : Option ℕ}
    (ha : heap.lookup a = some ⟨e, none, nx⟩) (hout : a ∉ addrs cs) (hne : cs ≠ [])
    (hl : Linked heap none cs none) (hnd : (addrs cs).Nodup) :
    ∃ heap', linkFirst heap ⟨n, headOr none cs, l⟩ a = .ok (heap', ⟨n, some a, l⟩) ∧
      Linked heap' none ((a, e) :: cs) none ∧
      ∀ b, b ≠ a → b ∉ addrs cs → heap'.lookup b = heap.lookup b := by
  have hl₁ := hl.insert_of_notMem ⟨e, none, headOr none cs⟩ hout
  obtain ⟨heap', hset, hl', hframe⟩ := hl₁.setPrevIf (some a) hnd
  refine ⟨heap', ?_, ⟨?_, hl'⟩, ?_⟩
  · obtain ⟨d, cs, rfl⟩ := List.exists_cons_of_ne_nil hne
    rw [headOr_cons, setPrevIf] at hset
    simp only [linkFirst, headOr_cons, setNext_some _ ha, ok_bind, hset, pure_eq_ok]
  · rw [hframe a hout, AList.lookup_insert]
  · intro b hba hb
    rw [hframe b hb, AList.lookup_insert_ne hba]

/-- `free` of an entry that was taken out of its chain. -/
theorem rewrites_erase {heap' : Heap CacheEntry} {a : ℕ} (hl : Linked heap' none ys none)
    (hnd : (addrs ys).Nodup) (ha : a ∈ addrs xs) (hout : a ∉ addrs ys)
    (hsub : ∀ b ∈ addrs ys, b ∈ addrs xs)
    (hframe : ∀ b ∉ addrs ys, heap'.lookup b = heap.lookup b) :
    Rewrites heap xs (heap'.erase a) ys := by
  refine ⟨hl.erase_of_notMem hout, hnd, fun b hb _ => ?_, fun b hb => .inl (hsub b hb)⟩
  have hba : b ≠ a := by
    rintro rfl
    exact hb ha
  rw [AList.lookup_erase_ne hba, hframe b fun h => hb (hsub b h)]

/-- Replacing a value in place. -/
theorem setVal_spec (v : List UInt8) (hl : Linked heap none (xs ++ c :: ys) none)
    (hnd : (addrs (xs ++ c :: ys)).Nodup) :
    ∃ heap', setVal heap c.1 v = .ok heap' ∧
      Rewrites heap (xs ++ c :: ys) heap' (xs ++ (c.1, { c.2 with val := v }) :: ys) := by
  refine ⟨_, by simp only [setVal, assign, hl.lookup], hl.setItem _ hnd, ?_, ?_, ?_⟩
  · simpa using hnd
  · intro b hb _
    exact AList.lookup_insert_ne fun h => hb (by simp [h])
  · intro b hb
    exact .inl (by simpa using hb)

/-- Moving an entry to the top of its chain. -/
theorem promote_spec (hl : Linked heap none (xs ++ c :: ys) none)
    (hnd : (addrs (xs ++ c :: ys)).Nodup) :
    ∃ heap', promote heap (chainOf (xs ++ c :: ys)) c.1 = .ok (heap', chainOf (c :: (xs ++ ys))) ∧
      Rewrites heap (xs ++ c :: ys) heap' (c :: (xs ++ ys)) := by
  obtain ⟨hc, hxys⟩ := nodup_middle.mp hnd
  by_cases hxs : xs = []
  · subst hxs
    exact ⟨heap, by simp [promote, chainOf], hl, hnd, fun _ _ _ => rfl, fun b hb => .inl hb⟩
  · have hnode := hl.lookup
    obtain ⟨heap₁, hbypass, hl₁, hframe₁⟩ := bypass_spec hxs hl hnd
    have hnode₁ := (hframe₁ c.1 hc).trans hnode
    have hl₂ := hl₁.insert_of_notMem ⟨c.2, none, headOr none ys⟩ hc
    obtain ⟨heap₃, hlink, hl₃, hframe₃⟩ := linkFirst_spec (n := (xs ++ c :: ys).length)
      (l := lastOr none (xs ++ ys)) (AList.lookup_insert heap₁) hc (by simp [hxs]) hl₂ hxys
    refine ⟨heap₃, ?_, hl₃, List.nodup_cons.mpr ⟨hc, hxys⟩, ?_, ?_⟩
    · have hfirst : (chainOf (xs ++ c :: ys)).first ≠ some c.1 := headOr_ne_middle ys hxs hc
      rw [promote, if_neg hfirst, deref_some hnode, ok_bind]
      simp only [chainOf_without_last hc, hbypass, ok_bind, setPrev_some none hnode₁]
      rw [headOr_of_ne_nil hxs (c :: ys) ys, hlink, chainOf, headOr_cons, lastOr_cons,
        lastOr_of_ne_nil (by simp [hxs]) (some c.1) none]
      simp [Nat.add_assoc]
    · intro b hb _
      have hbc : b ≠ c.1 := fun h => hb (by simp [h])
      have hbxys : b ∉ addrs (xs ++ ys) := by
        simp only [addrs_append, addrs_cons, List.mem_append, List.mem_cons, not_or] at hb ⊢
        exact ⟨hb.1, hb.2.2⟩
      rw [hframe₃ b hbc hbxys, AList.lookup_insert_ne hbc, hframe₁ b hbxys]
    · intro b hb
      refine .inl ?_
      simp only [addrs_cons, addrs_append, List.mem_cons, List.mem_append] at hb ⊢
      tauto

/-- Evicting the last entry of a chain with at least two. -/
theorem evictLast_spec {n : ℕ} {f : Option ℕ} (hne : xs ≠ [])
    (hl : Linked heap none (xs ++ [c]) none) (hnd : (addrs (xs ++ [c])).Nodup) :
    ∃ heap', evictLast heap ⟨n, f, lastOr none (xs ++ [c])⟩ =
        .ok (heap', ⟨n, f, lastOr none xs⟩) ∧
      Rewrites heap (xs ++ [c]) heap' xs := by
  obtain ⟨hc, hxs⟩ := nodup_middle.mp hnd
  rw [List.append_nil] at hc hxs
  have hnode := hl.lookup
  obtain ⟨heap₁, hset, hl₁, hframe⟩ := (linked_append.mp hl).1.setNext none hne hxs
  have hnode₁ := (hframe c.1 hc).trans hnode
  refine ⟨heap₁.erase c.1, ?_, rewrites_erase hl₁ hxs (by simp) hc (by simp_all) hframe⟩
  simp only [evictLast, lastOr_append, lastOr_cons, lastOr_nil, deref_some hnode, ok_bind, hset,
    free_some hnode₁, pure_eq_ok]

/-- Putting a new entry into its chain: in front, and at the cost of the last entry when the chain
is over its meant length. -/
theorem putIn_spec {chainlen a : ℕ} (hcap : 0 < chainlen) (e : CacheEntry)
    (ha : heap.lookup a = none) (hl : Linked heap none cs none) (hnd : (addrs cs).Nodup) :
    ∃ heap' cs', putIn chainlen (heap.insert a ⟨e, none, none⟩) (chainOf cs) a =
        .ok (heap', chainOf cs') ∧
      Rewrites heap cs heap' cs' ∧ items cs' = Recency.push chainlen e (items cs) := by
  have hout : a ∉ addrs cs := fun hmem => hl.lookup_ne_none hmem ha
  have hself : (heap.insert a ⟨e, none, none⟩).lookup a = some ⟨e, none, none⟩ :=
    AList.lookup_insert heap
  have hne_of_used : ∀ b, heap.lookup b ≠ none → b ≠ a := by
    rintro b hb rfl
    exact hb ha
  have hl₀ := hl.insert_of_notMem ⟨e, none, none⟩ hout
  by_cases hnil : cs = []
  · -- The chain is empty.
    subst hnil
    refine ⟨_, [(a, e)], rfl, ⟨⟨hself, trivial⟩, by simp [addrs], ?_, ?_⟩, by
      simp [items, Recency.push]⟩
    · exact fun b _ hused => AList.lookup_insert_ne (hne_of_used b hused)
    · intro b hb
      simp only [addrs, List.map_cons, List.map_nil, List.mem_singleton] at hb
      exact .inr (hb ▸ ha)
  · have hlen : (chainOf cs).len ≠ 0 := by simpa [chainOf] using hnil
    by_cases hle : cs.length ≤ chainlen
    · -- Slots are available.
      obtain ⟨heap', hlink, hl', hframe⟩ := linkFirst_spec (n := cs.length)
        (l := lastOr none cs) hself hout hnil hl₀ hnd
      refine ⟨heap', (a, e) :: cs, ?_, ⟨hl', List.nodup_cons.mpr ⟨hout, hnd⟩, ?_, ?_⟩, ?_⟩
      · rw [putIn, if_neg hlen, if_pos (by simpa [chainOf] using hle), chainOf, hlink, ok_bind]
        simp [chainOf, lastOr_of_ne_nil hnil (some a) none]
      · intro b hb hused
        rw [hframe b (hne_of_used b hused) hb, AList.lookup_insert_ne (hne_of_used b hused)]
      · intro b hb
        rcases List.mem_cons.mp hb with rfl | hb
        · exact .inr ha
        · exact .inl hb
      · simp [Recency.push, hle]
    · -- The chain is full: its last entry goes first.
      obtain ⟨xs, c, rfl⟩ := List.eq_nil_or_concat' cs |>.resolve_left hnil
      have hxs : xs ≠ [] := by
        rintro rfl
        simp only [List.nil_append, List.length_singleton] at hle
        omega
      obtain ⟨heap₁, hevict, hr₁⟩ := evictLast_spec (n := (xs ++ [c]).length)
        (f := headOr none (xs ++ [c])) hxs hl₀ hnd
      have hself₁ := (hr₁.frame a hout (by rw [hself]; simp)).trans hself
      have hout₁ : a ∉ addrs xs := fun hmem => hout (by simp [hmem])
      obtain ⟨heap', hlink, hl', hframe⟩ := linkFirst_spec (n := (xs ++ [c]).length)
        (l := lastOr none xs) hself₁ hout₁ hxs hr₁.linked hr₁.nodup
      refine ⟨heap', (a, e) :: xs, ?_, ⟨hl', List.nodup_cons.mpr ⟨hout₁, hr₁.nodup⟩, ?_, ?_⟩, ?_⟩
      -- The eviction leaves the head in place.
      · have hhead : headOr none (xs ++ [c]) = headOr none xs := by
          obtain ⟨d, xs, rfl⟩ := List.exists_cons_of_ne_nil hxs
          rfl
        rw [putIn, if_neg hlen, if_neg (by simpa [chainOf] using hle), chainOf, hevict, ok_bind]
        simp only [hhead, hlink]
        simp [chainOf, lastOr_of_ne_nil hxs (some a) none]
      · intro b hb hused
        have hba := hne_of_used b hused
        have hused₀ : (heap.insert a ⟨e, none, none⟩).lookup b ≠ none := by
          rwa [AList.lookup_insert_ne hba]
        rw [hframe b hba (fun h => hb (by simp [h])), hr₁.frame b hb hused₀,
          AList.lookup_insert_ne hba]
      · intro b hb
        rcases List.mem_cons.mp hb with rfl | hb
        · exact .inr ha
        · exact .inl (by rw [addrs_append]; exact List.mem_append_left _ hb)
      · rw [Recency.push, length_items, if_neg hle, items_append, items_cons, items_cons]
        simp [items]

end Moc
