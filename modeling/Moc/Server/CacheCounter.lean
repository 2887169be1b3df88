import Moc.Server.CacheShape

/-!
# Counters

What a sequence of `cache_incr` calls does to a value that is the text of a number. The three ways
in which a number gets into the cache all leave a text that ends in NUL (`CounterOf.counts`), and
that is all a call needs to succeed and to leave such a text again (`Counts.counterVal`). So the
calls add up, and apart from the value of the key nothing changes (`run_cacheIncr`).
-/

open Bytes Memory Decimal Dll Runs

namespace Moc

/-! ## Numbers as values -/

/-- A buffer of `size` zero bytes after `snprintf` wrote a text into it. -/
def printed (size : ℕ) (s : List UInt8) : List UInt8 :=
  snprintf size s ++ List.replicate (size - (snprintf size s).length) 0

/-- The value that `CACHE_SET_INT64` stores. -/
def cacheSetInt64 (num : ℤ) : List UInt8 := printed 24 (padLeft 23 (print num))

/-- The value that `CACHE_SET_INT` stores. -/
def cacheSetInt (num : ℤ) : List UInt8 := printed 12 (print num)

/-- The value that `sys_cmd_cache_set` stores: the text sent, with its NUL. -/
def sysCmdCacheSetVal (val : List UInt8) : List UInt8 := val ++ [0]

/-- The values that stand for the number `v`. -/
inductive CounterOf (v : ℤ) : List UInt8 → Prop
  /-- Set by `CACHE_SET_INT64`. -/
  | int64 : CounterOf v (cacheSetInt64 v)
  /-- Set by `CACHE_SET_INT`, which takes an `int`. -/
  | int (hmin : -2^31 ≤ v) (hmax : v < 2^31) : CounterOf v (cacheSetInt v)
  /-- Set by `sys_cmd_cache_set`. -/
  | text : CounterOf v (sysCmdCacheSetVal (print v))

/-- A value that ends in NUL and reads as `v`. -/
structure Counts (v : ℤ) (val : List UInt8) : Prop where
  /-- The last byte is NUL. -/
  last : val.getLast? = some 0
  /-- The text before the first NUL spells the number. -/
  reads : strtoll (cText val) = v

/-- A number printed in some columns, with at least one NUL after it. -/
theorem counts_print {v : ℤ} (hmin : int64Min ≤ v) (hmax : v ≤ int64Max) (w : ℕ)
    {rest : List UInt8} (hlast : ([0] ++ rest).getLast? = some 0) :
    Counts v (padLeft w (print v) ++ [0] ++ rest) := by
  refine ⟨?_, ?_⟩
  · rw [List.append_assoc, List.getLast?_append_of_ne_nil _ (by simp)]
    exact hlast
  · have htext : cText (padLeft w (print v) ++ [0] ++ rest) = padLeft w (print v) := by
      rw [cText, List.append_assoc, List.takeWhile_append_of_pos fun b hb => by
        simpa using ne_zero_of_mem_padLeft_print hb]
      simp
    rw [htext, strtoll_padLeft, strtoll_print hmin hmax]

/-- A text that fits its buffer, which stays NUL to its end. -/
theorem printed_of_lt {size : ℕ} {s : List UInt8} (h : s.length < size) :
    printed size s = s ++ [0] ++ List.replicate (size - s.length - 1) 0 := by
  rw [printed, snprintf_of_lt h, List.length_append, List.length_singleton, Nat.sub_sub]

theorem getLast?_zeros (n : ℕ) : ([0] ++ List.replicate n (0 : UInt8)).getLast? = some 0 := by
  rw [List.singleton_append, ← List.replicate_succ, List.getLast?_replicate, if_neg (by omega)]

/-- All three leave a value that counts. -/
theorem CounterOf.counts {v : ℤ} {val : List UInt8} (h : CounterOf v val) (hmin : int64Min ≤ v)
    (hmax : v ≤ int64Max) : Counts v val := by
  have hpad : padLeft 0 (print v) = print v := by simp [padLeft]
  cases h with
  | int64 =>
    have hlen := length_padLeft_print (w := 23) (by norm_num) hmin hmax
    rw [cacheSetInt64, printed_of_lt (by omega)]
    exact counts_print hmin hmax 23 (getLast?_zeros _)
  | int hmin' hmax' =>
    -- Ten digits and a sign leave room for the NUL.
    have hlen : (print v).length ≤ 11 := by
      have hdigits : (digits v.natAbs).length ≤ 10 :=
        length_digits_le (by norm_num; omega) (by norm_num)
      unfold print
      split_ifs
      · simpa using Nat.lt_succ_of_le hdigits
      · omega
    rw [cacheSetInt, printed_of_lt (by omega), ← hpad]
    exact counts_print hmin hmax 0 (getLast?_zeros _)
  | text =>
    have hcounts := counts_print hmin hmax 0 (getLast?_zeros 0)
    rwa [hpad, List.replicate_zero, List.append_nil] at hcounts

/-- What an increment writes counts again. -/
theorem Counts.counterVal {v n : ℤ} {val : List UInt8} (h : Counts v val) (hmin : int64Min ≤ n)
    (hmax : n ≤ int64Max) : Counts n (counterVal val n) := by
  refine counts_print hmin hmax 23 ?_
  by_cases hlong : 24 < val.length
  · have hne : val.drop 24 ≠ [] := by simpa using hlong
    rw [List.getLast?_append_of_ne_nil _ hne, List.getLast?_drop, if_neg (by omega), h.last]
  · rw [List.drop_of_length_le (by omega)]
    rfl

/-! ## What an increment leaves alone -/

/-- The parts of a node that an increment of `key` leaves alone. -/
def nodeBut (key : List UInt8) (n : Node CacheEntry) :
    Option ℕ × Option ℕ × List UInt8 × ℤ × Option (List UInt8) :=
  (n.prev, n.next, n.item.key, n.item.expire, if n.item.key = key then none else some n.item.val)

/-- Apart from the value of `key`, the two caches have the same entries in the same order. -/
structure SameBut (key : List UInt8) (cd cd' : Cache) : Prop where
  /-- The same chain records. -/
  table : cd'.table = cd.table
  /-- The same links, keys and expiry times, and the same values of other keys. -/
  nodes : ∀ a, (cd'.heap.lookup a).map (nodeBut key) = (cd.heap.lookup a).map (nodeBut key)
  /-- The same entry for every other key. -/
  entry : ∀ k ≠ key, entryOf cd' k = entryOf cd k

theorem SameBut.refl (key : List UInt8) (cd : Cache) : SameBut key cd cd :=
  ⟨rfl, fun _ => rfl, fun _ _ => rfl⟩

theorem SameBut.trans {key : List UInt8} {cd₁ cd₂ cd₃ : Cache} (h : SameBut key cd₁ cd₂)
    (h' : SameBut key cd₂ cd₃) : SameBut key cd₁ cd₃ :=
  ⟨h'.table.trans h.table, fun a => (h'.nodes a).trans (h.nodes a),
    fun k hk => (h'.entry k hk).trans (h.entry k hk)⟩

/-- An increment that does not fault writes at most a value, into the node that its key is found
at. -/
theorem cacheIncr_heap {cd cd' : Cache} {key : List UInt8} {increment : ℤ} {granted : Bool}
    {o : ℤ × Option ℤ} (h : cacheIncr cd key increment granted = .ok (o, cd')) :
    cd' = cd ∨ ∃ a n val, findInCache cd key = .ok (some a) ∧ cd.heap.lookup a = some n ∧
      cd' = { cd with heap := cd.heap.insert a { n with item := { n.item with val := val } } } := by
  obtain ⟨e, hfind, h⟩ := bind_eq_ok.mp h
  cases e with
  | none =>
    simp only [pure_eq_ok, Except.ok.injEq, Prod.mk.injEq] at h
    exact .inl h.2.symm
  | some a =>
    obtain ⟨n, hderef, h⟩ := bind_eq_ok.mp h
    cases hlast : n.item.val.getLast? with
    | none =>
      simp only [hlast] at h
      cases h
    | some b =>
      simp only [hlast] at h
      by_cases hb : b = 0
      · simp only [if_neg (not_not.mpr hb)] at h
        obtain ⟨text, -, h⟩ := bind_eq_ok.mp h
        obtain ⟨intval, -, h⟩ := bind_eq_ok.mp h
        by_cases hfail : n.item.val.length < 24 ∧ (!granted) = true
        · simp only [if_pos hfail, pure_eq_ok, Except.ok.injEq, Prod.mk.injEq] at h
          exact .inl h.2.symm
        · simp only [if_neg hfail] at h
          obtain ⟨val, -, h⟩ := bind_eq_ok.mp h
          obtain ⟨heap, hset, h⟩ := bind_eq_ok.mp h
          simp only [pure_eq_ok, Except.ok.injEq, Prod.mk.injEq] at h
          obtain ⟨-, rfl⟩ := h
          -- The write goes to the node read before.
          unfold setVal assign at hset
          unfold deref at hderef
          cases hlook : cd.heap.lookup a with
          | none =>
            simp only [hlook] at hset
            cases hset
          | some n' =>
            simp only [hlook, Except.ok.injEq] at hset hderef
            exact .inr ⟨a, n', val, hfind, hlook, by rw [← hset]⟩
      · simp only [if_pos hb, pure_eq_ok, Except.ok.injEq, Prod.mk.injEq] at h
        exact .inl h.2.symm

/-- An increment leaves everything but the value of its key alone. -/
theorem Reached.sameBut {hashlen cap : ℕ} (hcap : 0 < cap) {cd cd' : Cache} {key : List UInt8}
    {increment : ℤ} {granted : Bool} {o : ℤ × Option ℤ} (hcd : Reached hashlen cap cd)
    (h : cacheIncr cd key increment granted = .ok (o, cd')) : SameBut key cd cd' := by
  obtain ⟨t, ht, hs⟩ := hcd
  have hentry : ∀ k ≠ key, entryOf cd' k = entryOf cd k := by
    intro k hk
    have hstep : cacheStep bump cd (0, .incr key increment granted) =
        .ok (⟨o.1, none, o.2⟩, cd') := by
      rw [cacheStep, h, ok_bind]
      rfl
    refine (cacheStep_entryOf hcap ht hs.distinct hstep hk).resolve_right ?_
    rintro ⟨⟨_, _, _, _, _, hop, -⟩, -⟩
    cases hop
  rcases cacheIncr_heap h with rfl | ⟨a, n, val, hfind, hnode, rfl⟩
  · exact .refl key _
  · obtain ⟨rfl, rfl, cells, hr, rfl⟩ := ht
    -- The node is the one of the key.
    have hkey : n.item.key = key := by
      rw [hr.findInCache] at hfind
      rcases hr.find_cases key with ⟨hnone, -⟩ | ⟨_, c, _, _, hkey, _, hsome, hderef, _⟩
      · rw [hnone] at hfind
        cases hfind
      · rw [hsome] at hfind
        obtain rfl := Option.some.inj (Except.ok.inj hfind)
        rw [deref_some hnode] at hderef
        rw [Except.ok.inj hderef]
        exact hkey
    refine ⟨rfl, fun b => ?_, hentry⟩
    by_cases hb : b = a
    · subst hb
      rw [AList.lookup_insert, hnode]
      simp [nodeBut, hkey]
    · rw [AList.lookup_insert_ne hb]

/-- An increment of a value that counts succeeds and leaves one that counts. -/
theorem Reached.cacheIncr {hashlen cap : ℕ} (hcap : 0 < cap) {cd : Cache} {key : List UInt8}
    {e : CacheEntry} {v increment : ℤ} (hcd : Reached hashlen cap cd)
    (he : entryOf cd key = .ok (some e)) (hv : Counts v e.val) (hmin : int64Min ≤ v + increment)
    (hmax : v + increment ≤ int64Max) :
    ∃ cd' val, Moc.cacheIncr cd key increment true = .ok ((1, some (v + increment)), cd') ∧
      Reached hashlen cap cd' ∧ entryOf cd' key = .ok (some { e with val := val }) ∧
      Counts (v + increment) val ∧ SameBut key cd cd' := by
  have hsum : bumpVal e.val increment true =
      .ok ((1, some (v + increment)), Moc.counterVal e.val (v + increment)) := by
    have hbump := bumpVal_eq hv.last (hv.reads.symm ▸ hmin) (hv.reads.symm ▸ hmax)
    rwa [hv.reads] at hbump
  obtain ⟨t, ht, hs⟩ := hcd
  have hlook := Except.ok.inj ((ht.entryOf key).symm.trans he)
  have hchain : chainStep cap (t (chainIndex hashlen key)) (0, .incr key increment true) =
      .ok (⟨1, none, some (v + increment)⟩, Recency.replace CacheEntry.key
        { e with val := Moc.counterVal e.val (v + increment) } (t (chainIndex hashlen key))) := by
    simp only [chainStep, chainIncr, hlook, hsum, ok_bind, pure_eq_ok]
  -- The cache does what its chain does.
  have hagree := cacheStep_agree bump hcap cd t (0, .incr key increment true) ht
  simp only [chainsStep, CacheOp.key, hchain, ok_bind, pure_eq_ok, cacheStep] at hagree
  cases hincr : Moc.cacheIncr cd key increment true with
  | error f =>
    simp only [hincr, error_bind] at hagree
    exact hagree.elim
  | ok r =>
    obtain ⟨⟨rv, newval⟩, cd'⟩ := r
    simp only [hincr, ok_bind] at hagree
    obtain ⟨hout, ht'⟩ := hagree
    obtain ⟨rfl, -, rfl⟩ := CacheOut.mk.inj hout
    have hs' : Shelved hashlen (Function.update t
        (chainIndex hashlen (CacheOp.incr key increment true).key) _) := hs.step hchain
    refine ⟨cd', _, rfl, ⟨_, ht', hs'⟩, ?_, hv.counterVal hmin hmax,
      Reached.sameBut hcap ⟨t, ht, hs⟩ hincr⟩
    rw [ht'.entryOf, Function.update_self]
    exact congrArg _ (lookup_replace_entry _ hlook (lookup_mem hlook).2)

/-- The answers that increments of a counter at `v` should give: each one the sum so far. -/
def sums (v : ℤ) : List ℤ → List (ℤ × Option ℤ)
  | [] => []
  | n :: ns => (1, some (v + n)) :: sums (v + n) ns

/-- Every sum so far is a 64-bit integer. -/
def InRange (v : ℤ) (ns : List ℤ) : Prop :=
  ∀ k ≤ ns.length, int64Min ≤ v + (ns.take k).sum ∧ v + (ns.take k).sum ≤ int64Max

theorem InRange.tail {v n : ℤ} {ns : List ℤ} (h : InRange v (n :: ns)) : InRange (v + n) ns := by
  intro k hk
  have hsum := h (k + 1) (by simpa using hk)
  rwa [List.take_succ_cons, List.sum_cons, ← add_assoc] at hsum

/-- Increments of a value that counts add up. -/
theorem Reached.run_incr {hashlen cap : ℕ} (hcap : 0 < cap) {cd : Cache} {key : List UInt8}
    {e : CacheEntry} {v : ℤ} (hcd : Reached hashlen cap cd) (he : entryOf cd key = .ok (some e))
    (hv : Counts v e.val) {ns : List ℤ} (hns : InRange v ns) :
    ∃ cd' val, run (fun cd n => Moc.cacheIncr cd key n true) cd ns = .ok (sums v ns, cd') ∧
      entryOf cd' key = .ok (some { e with val := val }) ∧ Counts (v + ns.sum) val ∧
      SameBut key cd cd' := by
  induction ns generalizing cd e v with
  | nil => exact ⟨cd, e.val, rfl, he, by simpa using hv, .refl key cd⟩
  | cons n ns ih =>
    have hn := hns 1 (by simp)
    simp only [List.take_succ_cons, List.take_zero, List.sum_cons, List.sum_nil, add_zero] at hn
    obtain ⟨cd₁, val₁, hincr, hcd₁, he₁, hv₁, hsame₁⟩ := hcd.cacheIncr hcap he hv hn.1 hn.2
    obtain ⟨cd', val, hrun, he', hv', hsame⟩ := ih hcd₁ he₁ hv₁ hns.tail
    refine ⟨cd', val, ?_, he', ?_, hsame₁.trans hsame⟩
    · rw [run, hincr, ok_bind]
      simp only [hrun, ok_bind, pure_eq_ok, sums]
    · rwa [List.sum_cons, ← add_assoc]

/-- In a cache that a run leaves, increments of a key whose value stands for the number `v` return
1 and the sums so far, leave the text of the last sum, and change nothing else. -/
theorem run_cacheIncr {numobjs flags : ℕ} {gc gt : Bool} {cd : Cache} (hnum : 4 ≤ numobjs)
    (hcd : cacheCreate numobjs flags gc gt = .ok (some cd)) (malloc : Allocator CacheEntry)
    {is : List (ℤ × CacheOp)} {os : List CacheOut} {cd₀ : Cache}
    (hrun : run (cacheStep malloc) cd is = .ok (os, cd₀)) {key : List UInt8} {e : CacheEntry}
    (he : entryOf cd₀ key = .ok (some e)) {v : ℤ} (hv : CounterOf v e.val) {ns : List ℤ}
    (hns : InRange v ns) :
    ∃ cd' val, run (fun cd n => cacheIncr cd key n true) cd₀ ns = .ok (sums v ns, cd') ∧
      entryOf cd' key = .ok (some { e with val := val }) ∧ val.getLast? = some 0 ∧
      strtoll (cText val) = v + ns.sum ∧ SameBut key cd₀ cd' := by
  have hrange := hns 0 (Nat.zero_le _)
  simp only [List.take_zero, List.sum_nil, add_zero] at hrange
  obtain ⟨cd', val, hincr, he', hv', hsame⟩ :=
    (run_reached hnum hcd hrun).run_incr (by norm_num) he (hv.counts hrange.1 hrange.2) hns
  exact ⟨cd', val, hincr, he', hv'.last, hv'.reads, hsame⟩

/-- A counter sent as the text 5, beside another key. -/
def counterCalls : List (ℤ × CacheOp) :=
  [(1, .set [97] [1] 0 .granted), (1, .set [98] [53, 0] 0 .granted), (2, .set [99] [3] 0 .granted)]

/-- The sums go below zero and back. -/
theorem run_cacheIncr_counterCalls :
    ∃ cd₀ cd' os, run (cacheStep bump) sampleCache counterCalls = .ok (os, cd₀) ∧
      run (fun cd n => cacheIncr cd [98] n true) cd₀ [2, -10, 4] =
        .ok ([(1, some 7), (1, some (-3)), (1, some 1)], cd') ∧ SameBut [98] cd₀ cd' := by
  have hcreate : cacheCreate 4 0 true true = .ok (some sampleCache) := rfl
  have htext : print 5 = [53] := by decide
  have hv : CounterOf 5 [53, 0] := by
    have h := CounterOf.text (v := 5)
    rwa [htext] at h
  have hns : InRange 5 [2, -10, 4] := by
    intro k hk
    have hk' : k ≤ 3 := hk
    interval_cases k <;> decide
  obtain ⟨cd', val, hrun, -, -, -, hsame⟩ := run_cacheIncr le_rfl hcreate bump
    (show run (cacheStep bump) sampleCache counterCalls = .ok (_, _) from rfl)
    (show entryOf _ [98] = .ok (some ⟨[98], [53, 0], 0⟩) from rfl) hv hns
  exact ⟨_, cd', _, rfl, hrun, hsame⟩

end Moc
