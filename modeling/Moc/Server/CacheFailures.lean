import Moc.Server.CacheShape

/-!
# Failing calls and stored entries

What a call of the cache leaves behind, as its callers see it. A call that reports a failure returns
the cache it was given, down to the links of every chain (`cacheStep_failed`); for the calls that
the wrappers and the commands above the cache make, `Reached.cacheSet` and `Reached.cacheGet` say
what they return and which entry is under the key afterwards.
-/

open Bytes Memory Decimal Dll Runs

namespace Moc

/-! ## Failures -/

/-- The call reports a failure. A `cache_get` that misses is not one: it may have deleted an entry
past its expiry time. -/
def OpFails : CacheOp → CacheOut → Prop
  | .get _, _ => False
  | .set _ _ _ _, o => o.rv = 0
  | .del _, o => o.rv = 0
  | .cas _ _ _ _, o => o.rv = -2 ∨ o.rv = -1 ∨ o.rv = 0
  | .incr _ _ _, o => o.rv = -1 ∨ o.rv = -2 ∨ o.rv = -3

instance : (op : CacheOp) → (o : CacheOut) → Decidable (OpFails op o)
  | .get _, _ => inferInstanceAs (Decidable False)
  | .set _ _ _ _, _ => inferInstanceAs (Decidable (_ = _))
  | .del _, _ => inferInstanceAs (Decidable (_ = _))
  | .cas _ _ _ _, _ => inferInstanceAs (Decidable (_ ∨ _))
  | .incr _ _ _, _ => inferInstanceAs (Decidable (_ ∨ _))

/-- `cache_set` returns 1, or 0 and the cache as it was. -/
theorem cacheSet_rv {malloc : Allocator CacheEntry} {cd cd' : Cache} {now : ℤ}
    {key val : List UInt8} {timeout rv : ℤ} {granted : CacheAllocs}
    (h : cacheSet malloc cd now key val timeout granted = .ok (rv, cd')) :
    rv = 1 ∨ rv = 0 ∧ cd' = cd := by
  obtain ⟨b, -, h⟩ := bind_eq_ok.mp h
  obtain ⟨c, -, h⟩ := bind_eq_ok.mp h
  obtain ⟨e, -, h⟩ := bind_eq_ok.mp h
  cases e with
  | none =>
    -- The three allocations of a new entry come before the chain is touched.
    dsimp only at h
    split at h
    · obtain ⟨rfl, rfl⟩ := Prod.mk.inj (Except.ok.inj h)
      exact .inr ⟨rfl, rfl⟩
    split at h
    · obtain ⟨rfl, rfl⟩ := Prod.mk.inj (Except.ok.inj h)
      exact .inr ⟨rfl, rfl⟩
    split at h
    · obtain ⟨rfl, rfl⟩ := Prod.mk.inj (Except.ok.inj h)
      exact .inr ⟨rfl, rfl⟩
    obtain ⟨p, -, h⟩ := bind_eq_ok.mp h
    exact .inl (Prod.mk.inj (Except.ok.inj h)).1.symm
  | some a =>
    dsimp only at h
    split_ifs at h
    · obtain ⟨rfl, rfl⟩ := Prod.mk.inj (Except.ok.inj h)
      exact .inr ⟨rfl, rfl⟩
    · obtain ⟨heap, -, h⟩ := bind_eq_ok.mp h
      obtain ⟨p, -, h⟩ := bind_eq_ok.mp h
      exact .inl (Prod.mk.inj (Except.ok.inj h)).1.symm

/-- `cache_del` returns 1, or 0 and the cache as it was. -/
theorem cacheDel_rv {cd cd' : Cache} {key : List UInt8} {rv : ℤ}
    (h : cacheDel cd key = .ok (rv, cd')) : rv = 1 ∨ rv = 0 ∧ cd' = cd := by
  obtain ⟨b, -, h⟩ := bind_eq_ok.mp h
  obtain ⟨c, -, h⟩ := bind_eq_ok.mp h
  obtain ⟨e, -, h⟩ := bind_eq_ok.mp h
  cases e with
  | none =>
    obtain ⟨rfl, rfl⟩ := Prod.mk.inj (Except.ok.inj h)
    exact .inr ⟨rfl, rfl⟩
  | some a =>
    obtain ⟨p, -, h⟩ := bind_eq_ok.mp h
    obtain ⟨heap, -, h⟩ := bind_eq_ok.mp h
    exact .inl (Prod.mk.inj (Except.ok.inj h)).1.symm

/-- `cache_cas` returns 1, or another number and the cache as it was. -/
theorem cacheCas_rv {cd cd' : Cache} {key oldval newval : List UInt8} {granted : Bool} {rv : ℤ}
    (h : cacheCas cd key oldval newval granted = .ok (rv, cd')) : rv = 1 ∨ cd' = cd := by
  obtain ⟨e, -, h⟩ := bind_eq_ok.mp h
  cases e with
  | none => exact .inr (Prod.mk.inj (Except.ok.inj h)).2.symm
  | some a =>
    obtain ⟨n, -, h⟩ := bind_eq_ok.mp h
    split_ifs at h
    iterate 3 exact .inr (Prod.mk.inj (Except.ok.inj h)).2.symm
    obtain ⟨heap, -, h⟩ := bind_eq_ok.mp h
    exact .inl (Prod.mk.inj (Except.ok.inj h)).1.symm

/-- `cache_incr` returns 1, or another number and the cache as it was. -/
theorem cacheIncr_rv {cd cd' : Cache} {key : List UInt8} {increment : ℤ} {granted : Bool}
    {o : ℤ × Option ℤ} (h : cacheIncr cd key increment granted = .ok (o, cd')) :
    o.1 = 1 ∨ cd' = cd := by
  obtain ⟨e, -, h⟩ := bind_eq_ok.mp h
  cases e with
  | none => exact .inr (Prod.mk.inj (Except.ok.inj h)).2.symm
  | some a =>
    obtain ⟨n, -, h⟩ := bind_eq_ok.mp h
    dsimp only at h
    cases hlast : n.item.val.getLast? with
    | none =>
      rw [hlast] at h
      cases h
    | some b =>
      simp only [hlast] at h
      by_cases hb : b ≠ 0
      · rw [if_pos hb] at h
        exact .inr (Prod.mk.inj (Except.ok.inj h)).2.symm
      · -- The number is computed before the buffer is replaced.
        rw [if_neg hb] at h
        obtain ⟨text, -, h⟩ := bind_eq_ok.mp h
        obtain ⟨intval, -, h⟩ := bind_eq_ok.mp h
        split_ifs at h
        · exact .inr (Prod.mk.inj (Except.ok.inj h)).2.symm
        · obtain ⟨v, -, h⟩ := bind_eq_ok.mp h
          obtain ⟨heap, -, h⟩ := bind_eq_ok.mp h
          rw [← (Prod.mk.inj (Except.ok.inj h)).1]
          exact .inl rfl

/-- A call that reports a failure changes nothing. -/
theorem cacheStep_failed {malloc : Allocator CacheEntry} {cd cd' : Cache} {i : ℤ × CacheOp}
    {o : CacheOut} (h : cacheStep malloc cd i = .ok (o, cd')) (hfail : OpFails i.2 o) : cd' = cd := by
  obtain ⟨now, op⟩ := i
  cases op with
  | get key => exact hfail.elim
  | set key val timeout granted =>
    obtain ⟨⟨rv, cd₁⟩, hset, h⟩ := bind_eq_ok.mp h
    obtain ⟨rfl, rfl⟩ := Prod.mk.inj (Except.ok.inj h)
    rcases cacheSet_rv hset with rfl | ⟨-, hcd⟩
    · exact absurd hfail (by simp [OpFails])
    · exact hcd
  | del key =>
    obtain ⟨⟨rv, cd₁⟩, hdel, h⟩ := bind_eq_ok.mp h
    obtain ⟨rfl, rfl⟩ := Prod.mk.inj (Except.ok.inj h)
    rcases cacheDel_rv hdel with rfl | ⟨-, hcd⟩
    · exact absurd hfail (by simp [OpFails])
    · exact hcd
  | cas key oldval newval granted =>
    obtain ⟨⟨rv, cd₁⟩, hcas, h⟩ := bind_eq_ok.mp h
    obtain ⟨rfl, rfl⟩ := Prod.mk.inj (Except.ok.inj h)
    rcases cacheCas_rv hcas with rfl | hcd
    · exact absurd hfail (by simp [OpFails])
    · exact hcd
  | incr key increment granted =>
    obtain ⟨⟨⟨rv, newval⟩, cd₁⟩, hincr, h⟩ := bind_eq_ok.mp h
    obtain ⟨rfl, rfl⟩ := Prod.mk.inj (Except.ok.inj h)
    rcases cacheIncr_rv hincr with rfl | hcd
    · exact absurd hfail (by simp [OpFails])
    · exact hcd

/-- A `cache_set` whose value is not granted. -/
def failedSet : ℤ × CacheOp := (2, .set [98] [6] 0 ⟨true, true, false⟩)

/-- A failing `cache_set` leaves the one entry of a cache where it is. -/
theorem cacheStep_failed_failedSet :
    ∃ os cd o cd', run (cacheStep bump) sampleCache [(1, .set [97] [5] 0 .granted)] = .ok (os, cd) ∧
      cacheStep bump cd failedSet = .ok (o, cd') ∧ OpFails failedSet.2 o ∧ cd' = cd :=
  ⟨_, _, ⟨0, none, none⟩, _, rfl, rfl, by decide,
    cacheStep_failed (show cacheStep bump _ failedSet = .ok (⟨0, none, none⟩, _) from rfl) (by decide)⟩

/-! ## Stored entries -/

/-- The entry that `cache_set` stores, from the one that is there. -/
def storedEntry (now : ℤ) (key val : List UInt8) (timeout : ℤ) : Option CacheEntry → CacheEntry
  | none => ⟨key, val, if timeout = 0 then 0 else now + timeout⟩
  | some e => { e with val := val }

/-- The allocations that `cache_set` makes are granted. -/
def CacheAllocs.suffice (granted : CacheAllocs) : Option CacheEntry → Bool
  | none => granted.entry && granted.key && granted.val
  | some _ => granted.val

/-- `cache_set` on a chain, by what it stores. -/
theorem chainSet_eq (cap : ℕ) (now : ℤ) (key val : List UInt8) (timeout : ℤ)
    (granted : CacheAllocs) (l : List CacheEntry) :
    chainSet cap now key val timeout granted l =
      let old := Recency.lookup CacheEntry.key key l
      if granted.suffice old then
        (1, Recency.put CacheEntry.key cap (storedEntry now key val timeout old) l)
      else (0, l) := by
  unfold chainSet
  cases Recency.lookup CacheEntry.key key l <;> rfl

/-- The entry stored is one of the key. -/
theorem storedEntry_key (now : ℤ) {key : List UInt8} (val : List UInt8) (timeout : ℤ)
    (l : List CacheEntry) :
    (storedEntry now key val timeout (Recency.lookup CacheEntry.key key l)).key = key := by
  cases hlook : Recency.lookup CacheEntry.key key l with
  | none => rfl
  | some e => exact (lookup_mem hlook).2

section
variable {hashlen cap : ℕ} {cd : Cache} (hcd : Reached hashlen cap cd) (key : List UInt8)
include hcd

/-- What `cache_set` does: with the memory it asks for it stores the entry, without it changes
nothing. -/
theorem Reached.cacheSet (hcap : 0 < cap) (malloc : Allocator CacheEntry) (now : ℤ)
    (val : List UInt8) (timeout : ℤ) (granted : CacheAllocs) :
    ∃ old, entryOf cd key = .ok old ∧
      if granted.suffice old then
        ∃ cd', Moc.cacheSet malloc cd now key val timeout granted = .ok (1, cd') ∧
          Reached hashlen cap cd' ∧
          entryOf cd' key = .ok (some (storedEntry now key val timeout old))
      else Moc.cacheSet malloc cd now key val timeout granted = .ok (0, cd) := by
  have hreached := hcd
  obtain ⟨t, ⟨rfl, rfl, cells, hr, rfl⟩, -⟩ := hcd
  obtain ⟨cd', hset, hturns⟩ := hr.cacheSet_spec key malloc hcap now val timeout granted
  refine ⟨_, hr.entryOf key, ?_⟩
  rw [chainSet_eq] at hset hturns
  split_ifs with hg
  · simp only [if_pos hg] at hset hturns
    have hstep : cacheStep malloc cd (now, .set key val timeout granted) =
        .ok (⟨1, none, none⟩, cd') := by
      rw [cacheStep, hset]
      rfl
    have hentry := hturns.holds.entryOf key
    rw [Function.update_self] at hentry
    refine ⟨cd', hset, hreached.step hcap hstep, hentry.trans (congrArg _ ?_)⟩
    exact (congrArg (Recency.lookup CacheEntry.key · _) (storedEntry_key now val timeout _).symm).trans
      (Recency.lookup_put_self _ _ _)
  · simp only [if_neg hg] at hset
    rcases cacheSet_rv hset with h | ⟨-, rfl⟩
    · exact absurd h (by norm_num)
    · exact hset

/-- What `cache_get` does: it delivers the value of an entry that is not past its expiry time. -/
theorem Reached.cacheGet (now : ℤ) :
    ∃ old, entryOf cd key = .ok old ∧
      match old with
      | none => Moc.cacheGet cd now key = .ok ((0, none), cd)
      | some e =>
        if 0 < e.expire ∧ e.expire < now then
          ∃ cd', Moc.cacheGet cd now key = .ok ((0, none), cd')
        else Moc.cacheGet cd now key = .ok ((1, some e.val), cd) := by
  obtain ⟨t, ⟨rfl, rfl, cells, hr, rfl⟩, -⟩ := hcd
  refine ⟨_, hr.entryOf key, ?_⟩
  rcases hr.find_cases key with ⟨hfind, hnone⟩ | ⟨xs, c, ys, -, -, -, hfind, hderef, hsome⟩
  · rw [hnone, Moc.cacheGet, hr.findInCache, hfind]
    rfl
  · obtain ⟨cd', hget, -⟩ := hr.cacheGet_spec key now
    rw [hsome]
    dsimp only
    split_ifs with hover
    · rw [chainGet, hsome] at hget
      exact ⟨cd', by simpa only [if_pos hover] using hget⟩
    · rw [Moc.cacheGet, hr.findInCache, hfind, ok_bind]
      dsimp only
      rw [hderef, ok_bind, if_neg hover, pure_eq_ok]

end

end Moc
