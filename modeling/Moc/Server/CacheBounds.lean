import Moc.Server.CacheShape

/-!
# Staying inside the table and the values

Whether a run of calls can divide by zero or leave the table or a value. Two things can go wrong: a
cache made for fewer than four objects has no chain, so the first call computes a remainder by
zero; and `cache_incr` looks at the last byte of a value, which an empty value does not have. A run
stays inside exactly when neither happens (`always_inside_iff`).
-/

open Bytes Memory Decimal Dll Runs

namespace Moc

/-- The cache after one more call of a run. A run ends with the first fault. -/
def Cache.after (malloc : Allocator CacheEntry) (cd : Except Fault Cache) (i : ℤ × CacheOp) :
    Except Fault Cache := do
  let cd ← cd
  let (_, cd) ← cacheStep malloc cd i
  return cd

/-- No call so far divided by zero or left the table or a value, and the bucket of every key is in
the table. -/
def StaysInside : Except Fault Cache → Prop
  | .ok cd => ∀ key h, bucketOf cd key = .ok h → h < cd.hashlen
  | .error f => f ≠ .divideByZero ∧ f ≠ .outOfBounds

/-- An increment finds no entry, or one whose value is not empty. -/
def FindsByte : Except Fault Cache → ℤ × CacheOp → Prop
  | .ok cd, (_, .incr key _ _) => ∀ e, entryOf cd key = .ok (some e) → e.val ≠ []
  | _, _ => True

/-- The cache is the linked form of some chains, or the run ended with a fault that is none of
the two. -/
def StaysInsideInv (hashlen cap : ℕ) : Except Fault Cache → Prop
  | .ok cd => ∃ t, Holds hashlen cap cd t
  | .error f => f ≠ .divideByZero ∧ f ≠ .outOfBounds

theorem StaysInsideInv.stays {hashlen cap : ℕ} {cd : Except Fault Cache}
    (hcd : StaysInsideInv hashlen cap cd) : StaysInside cd := by
  cases cd with
  | error f => exact hcd
  | ok cd =>
    obtain ⟨t, rfl, rfl, cells, hr, rfl⟩ := hcd
    intro key h hbucket
    rw [hr.bucketOf] at hbucket
    exact Except.ok.inj hbucket ▸ hr.index_lt key

/-- The faults of a call on the entries of its key's chain: only an increment has any. -/
theorem chainStep_fault {cap : ℕ} {l : List CacheEntry} {now : ℤ} {op : CacheOp} {f : Fault}
    (h : chainStep cap l (now, op) = .error f) :
    f = .overflow ∨ f = .outOfBounds ∧ ∃ key increment granted e, op = .incr key increment granted ∧
      Recency.lookup CacheEntry.key key l = some e ∧ e.val = [] := by
  cases op with
  | incr key increment granted =>
    cases hlook : Recency.lookup CacheEntry.key key l with
    | none => simp [chainStep, chainIncr, hlook] at h
    | some e =>
      simp only [chainStep, chainIncr, hlook] at h
      have hbump : bumpVal e.val increment granted = .error f := by
        cases hb : bumpVal e.val increment granted with
        | error g =>
          simp only [hb, error_bind, Except.error.injEq] at h
          rw [h]
        | ok r =>
          simp only [hb, ok_bind, pure_eq_ok] at h
          cases h
      rcases bumpVal_fault hbump with hf | ⟨hf, hval⟩
      · exact Or.inl hf
      · exact Or.inr ⟨hf, _, _, _, e, rfl, hlook, hval⟩
  | _ => cases h

/-- A call that finds a byte stays inside. -/
theorem StaysInsideInv.next {malloc : Allocator CacheEntry} {hashlen cap : ℕ} (hcap : 0 < cap)
    {cd : Except Fault Cache} {i : ℤ × CacheOp} (hcd : StaysInsideInv hashlen cap cd)
    (hG : FindsByte cd i) : StaysInsideInv hashlen cap (Cache.after malloc cd i) := by
  cases cd with
  | error f => exact hcd
  | ok cd =>
    obtain ⟨t, ht⟩ := hcd
    have hagree := cacheStep_agree malloc hcap cd t i ht
    rw [Cache.after, ok_bind]
    cases hstep : cacheStep malloc cd i with
    | ok r =>
      obtain ⟨l', -, ht'⟩ := cacheStep_inv hcap ht hstep
      exact ⟨_, ht'⟩
    | error f =>
      -- The lists fault alike, so the fault is an overflow.
      have hchain : chainStep cap (t (chainIndex hashlen i.2.key)) i = .error f := by
        rw [hstep, chainsStep] at hagree
        cases hc : chainStep cap (t (chainIndex hashlen i.2.key)) i with
        | error g =>
          rw [hc] at hagree
          exact congrArg _ hagree.symm
        | ok r =>
          rw [hc] at hagree
          exact hagree.elim
      obtain ⟨now, op⟩ := i
      rcases chainStep_fault hchain with rfl | ⟨rfl, key, increment, granted, e, rfl, hlook, hval⟩
      · exact ⟨by simp, by simp⟩
      · have hentry := ht.entryOf key
        rw [CacheOp.key] at hlook
        rw [hlook] at hentry
        exact absurd hval (hG e hentry)

/-- An increment of an empty value reads the byte before it. -/
theorem not_inside_next {malloc : Allocator CacheEntry} {hashlen cap : ℕ} (hcap : 0 < cap)
    {cd : Except Fault Cache} {i : ℤ × CacheOp} (hcd : StaysInsideInv hashlen cap cd)
    (hG : ¬FindsByte cd i) : ¬StaysInside (Cache.after malloc cd i) := by
  obtain ⟨now, op⟩ := i
  cases cd with
  | error f => exact absurd trivial hG
  | ok cd =>
    cases op with
    | incr key increment granted =>
      obtain ⟨t, ht⟩ := hcd
      have hentry := ht.entryOf key
      obtain ⟨rfl, rfl, cells, hr, rfl⟩ := ht
      simp only [FindsByte, not_forall, not_not] at hG
      obtain ⟨e, he, hval⟩ := hG
      have hlook := Except.ok.inj (hentry.symm.trans he)
      have hspec := hr.cacheIncr_spec key increment granted
      unfold chainIncr at hspec
      dsimp only at hlook
      rw [hlook] at hspec
      simp only [bumpVal_spec, hval, if_true, error_bind] at hspec
      simp only [Cache.after, ok_bind, cacheStep, hspec, error_bind]
      exact fun h => h.2 rfl
    | _ => exact absurd trivial hG

/-- Without a chain, every call divides by zero. -/
theorem cacheStep_noChain (malloc : Allocator CacheEntry) {cd : Cache} (h : cd.hashlen = 0)
    (i : ℤ × CacheOp) : cacheStep malloc cd i = .error .divideByZero := by
  have hbucket : ∀ key, bucketOf cd key = .error .divideByZero := fun key => if_pos h
  obtain ⟨now, op⟩ := i
  cases op <;>
    simp only [cacheStep, cacheGet, cacheSet, cacheDel, cacheCas, cacheIncr, findInCache, hbucket,
      error_bind]

/-- A cache for fewer than four objects has no chain. -/
theorem cacheCreate_noChain {numobjs flags : ℕ} {gc gt : Bool} {cd : Cache} (hnum : ¬4 ≤ numobjs)
    (hcd : cacheCreate numobjs flags gc gt = .ok (some cd)) : cd.hashlen = 0 := by
  simp only [cacheCreate] at hcd
  split_ifs at hcd
  · cases hcd
  · obtain rfl := Option.some.inj (Except.ok.inj hcd)
    exact Nat.div_eq_of_lt (not_le.mp hnum)

/-- A run stays inside exactly when the cache was made for at least four objects, if there is a
call at all, and every increment finds a byte. -/
theorem always_inside_iff {numobjs flags : ℕ} {gc gt : Bool} {cd : Cache}
    (hcd : cacheCreate numobjs flags gc gt = .ok (some cd)) (malloc : Allocator CacheEntry)
    (is : List (ℤ × CacheOp)) :
    Always (Cache.after malloc) StaysInside (.ok cd) is ↔
      (is = [] ∨ 4 ≤ numobjs) ∧ EachStep (Cache.after malloc) FindsByte (.ok cd) is := by
  by_cases hnum : 4 ≤ numobjs
  · have hstart : StaysInsideInv (numobjs / 4) 4 (.ok cd) := ⟨_, cacheCreate_holds hnum hcd⟩
    have hkeep : ∀ cd i, StaysInsideInv (numobjs / 4) 4 cd → True → FindsByte cd i →
        StaysInsideInv (numobjs / 4) 4 (Cache.after malloc cd i) :=
      fun _ _ h _ hG => h.next (by norm_num) hG
    have hbreak : ∀ cd i, StaysInsideInv (numobjs / 4) 4 cd → True → ¬FindsByte cd i →
        ¬StaysInside (Cache.after malloc cd i) :=
      fun _ _ h _ hG => not_inside_next (by norm_num) h hG
    rw [always_iff_eachStep (fun _ => StaysInsideInv.stays) hkeep hbreak hstart
      (eachStep_of_forall (fun _ _ => trivial) _ is)]
    simp only [hnum, or_true, true_and]
  · have hzero := cacheCreate_noChain hnum hcd
    cases is with
    | nil =>
      refine iff_of_true (fun key h hbucket => ?_) ⟨.inl rfl, trivial⟩
      rw [bucketOf, if_pos hzero] at hbucket
      cases hbucket
    | cons i is =>
      refine iff_of_false (fun h => ?_) fun h => h.1.elim (by simp) hnum
      have hfirst := h.2.head
      rw [Cache.after, ok_bind, cacheStep_noChain malloc hzero] at hfirst
      exact hfirst.1 rfl

/-- A counter from 5 to 7. -/
def countTo7 : List (ℤ × CacheOp) := [(1, .set [98] [53, 0] 0 .granted), (2, .incr [98] 2 true)]

theorem always_inside_countTo7 :
    Always (Cache.after bump) StaysInside (.ok sampleCache) countTo7 := by
  have hcreate : cacheCreate 4 0 true true = .ok (some sampleCache) := rfl
  refine (always_inside_iff hcreate bump countTo7).mpr ⟨.inr le_rfl, trivial, ?_, trivial⟩
  intro e he
  obtain rfl : (⟨[98], [53, 0], 0⟩ : CacheEntry) = e := Option.some.inj (Except.ok.inj he)
  simp

/-- A cache for three objects divides by zero at its first call, and an increment of an empty value
reads outside it. -/
theorem not_always_inside :
    (∃ cd, cacheCreate 3 0 true true = .ok (some cd) ∧
      ¬Always (Cache.after bump) StaysInside (.ok cd) [(1, .get [97])]) ∧
    ∃ cd, cacheCreate 4 0 true true = .ok (some cd) ∧
      ¬Always (Cache.after bump) StaysInside (.ok cd)
        [(1, .set [97] [] 0 .granted), (1, .incr [97] 1 true)] := by
  refine ⟨⟨_, rfl, fun h => h.2.1 rfl⟩, ⟨_, rfl, fun h => h.2.2.2 rfl⟩⟩

end Moc
