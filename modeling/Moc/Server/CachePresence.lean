import Moc.Server.CacheShape

/-!
# Which calls see an entry

`cache_get`, `cache_cas` and `cache_incr` all look a key up first, and only `cache_get` then asks
whether the entry found is past its expiry time. `AgreeOn` says that the three agree on whether a
key is present at some time; it fails exactly for an entry that has expired and that no `cache_get`
has deleted yet (`run_agreeOn_iff`).
-/

open Bytes Memory Decimal Dll Runs

namespace Moc

/-- Every `cache_get` from the time `now` on answers the same on both caches. -/
def SameGets (now : ℤ) (cd cd' : Cache) : Prop :=
  ∀ key now', now ≤ now' →
    (cacheGet cd' now' key).map Prod.fst = (cacheGet cd now' key).map Prod.fst

/-- The three calls agree on whether `key` is in the cache at the time `now`. -/
structure AgreeOn (cd : Cache) (key : List UInt8) (now : ℤ) : Prop where
  /-- Where `cache_get` reports a miss, `cache_cas` returns -1 and shows nothing to later gets. -/
  miss_cas : ∀ v cd₁, cacheGet cd now key = .ok ((0, v), cd₁) → ∀ oldval newval,
    ∃ cd', cacheCas cd key oldval newval true = .ok (-1, cd') ∧ SameGets now cd cd'
  /-- So does `cache_incr`. -/
  miss_incr : ∀ v cd₁, cacheGet cd now key = .ok ((0, v), cd₁) → ∀ increment,
    ∃ cd', cacheIncr cd key increment true = .ok ((-1, none), cd') ∧ SameGets now cd cd'
  /-- Where it delivers `v`, `cache_cas` of `v` succeeds. -/
  hit_cas : ∀ v cd₁, cacheGet cd now key = .ok ((1, some v), cd₁) → ∀ newval,
    ∃ cd', cacheCas cd key v newval true = .ok (1, cd')
  /-- And `cache_incr` does not return -1. -/
  hit_incr : ∀ v cd₁, cacheGet cd now key = .ok ((1, some v), cd₁) → ∀ increment o cd',
    cacheIncr cd key increment true = .ok (o, cd') → o.1 ≠ -1

/-- The cache has an entry for `key` that is past its expiry time. -/
def HasExpired (cd : Cache) (key : List UInt8) (now : ℤ) : Prop :=
  ∃ e, entryOf cd key = .ok (some e) ∧ 0 < e.expire ∧ e.expire < now

section
variable {cd : Cache} {cells : ℕ → List (ℕ × CacheEntry)} (hr : Rep cd cells) {key : List UInt8}
include hr

/-- Without an entry, all three miss and change nothing. -/
theorem Rep.agreeOn_of_none (now : ℤ)
    (hnone : Recency.lookup CacheEntry.key key (items (cells (chainIndex cd.hashlen key))) = none) :
    AgreeOn cd key now := by
  have hfind : Moc.findInCache cd key = .ok none := by
    rw [hr.findInCache]
    rcases hr.find_cases key with ⟨hfind, -⟩ | ⟨_, _, _, _, _, _, _, _, hsome⟩
    · exact hfind
    · exact absurd (hnone.symm.trans hsome) (by simp)
  have hmiss : ∀ v cd₁, cacheGet cd now key ≠ .ok ((1, some v), cd₁) := by
    intro v cd₁ h
    rw [cacheGet, hfind, ok_bind] at h
    cases h
  refine ⟨fun _ _ _ oldval newval => ⟨cd, ?_, fun _ _ _ => rfl⟩,
    fun _ _ _ increment => ⟨cd, ?_, fun _ _ _ => rfl⟩,
    fun v cd₁ h => absurd h (hmiss v cd₁), fun v cd₁ h => absurd h (hmiss v cd₁)⟩
  · rw [cacheCas, hfind, ok_bind]
    rfl
  · rw [cacheIncr, hfind, ok_bind]
    rfl

/-- An entry that is not past its expiry time is there for all three. -/
theorem Rep.agreeOn_of_live {now : ℤ} {e : CacheEntry}
    (hlook : Recency.lookup CacheEntry.key key (items (cells (chainIndex cd.hashlen key))) = some e)
    (hlive : ¬(0 < e.expire ∧ e.expire < now)) : AgreeOn cd key now := by
  obtain ⟨cd₁, hget, -⟩ := hr.cacheGet_spec key now
  simp only [chainGet, hlook, if_neg hlive] at hget
  have hmiss : ∀ v cd₁, cacheGet cd now key ≠ .ok ((0, v), cd₁) := by
    intro v cd₂ h
    simp [hget] at h
  have hval : ∀ v cd₁, cacheGet cd now key = .ok ((1, some v), cd₁) → e.val = v := by
    intro v cd₂ h
    rw [hget] at h
    simp only [Except.ok.injEq, Prod.mk.injEq, Option.some.injEq] at h
    exact h.1.2
  refine ⟨fun v cd₁ h => absurd h (hmiss v cd₁), fun v cd₁ h => absurd h (hmiss v cd₁),
    fun v cd₂ h newval => ?_, fun v cd₂ h increment o cd' hincr => ?_⟩
  · obtain ⟨cd', hcas, -⟩ := hr.cacheCas_spec key v newval true
    simp only [chainCas, hlook, hval v cd₂ h, ne_eq, not_true, if_false, if_true] at hcas
    exact ⟨cd', hcas⟩
  · have hspec := hr.cacheIncr_spec key increment true
    unfold chainIncr at hspec
    rw [hlook] at hspec
    cases hbump : bumpVal e.val increment true with
    | error f =>
      simp only [hbump, error_bind, hincr] at hspec
      cases hspec
    | ok r =>
      obtain ⟨o', v'⟩ := r
      simp only [hbump, ok_bind, pure_eq_ok] at hspec
      obtain ⟨cd₃, heq, -⟩ := hspec
      rw [hincr] at heq
      obtain ⟨rfl, -⟩ := Prod.mk.inj (Except.ok.inj heq)
      exact bumpVal_rv hbump

/-- An entry past its expiry time is there for `cache_cas` and not for `cache_get`. -/
theorem Rep.not_agreeOn_of_expired {now : ℤ} {e : CacheEntry}
    (hlook : Recency.lookup CacheEntry.key key (items (cells (chainIndex cd.hashlen key))) = some e)
    (hover : 0 < e.expire ∧ e.expire < now) : ¬AgreeOn cd key now := by
  intro h
  obtain ⟨cd₁, hget, -⟩ := hr.cacheGet_spec key now
  simp only [chainGet, hlook, if_pos hover] at hget
  -- A swap of the value that the entry has succeeds.
  obtain ⟨cd', hcas, -⟩ := h.miss_cas none cd₁ hget e.val e.val
  obtain ⟨cd₂, hcas', -⟩ := hr.cacheCas_spec key e.val e.val true
  rw [hcas] at hcas'
  simp [chainCas, hlook] at hcas'

end

/-- In a cache that calls can reach, the three calls agree on a key unless it has expired. -/
theorem Reached.agreeOn_iff {hashlen cap : ℕ} {cd : Cache} (hcd : Reached hashlen cap cd)
    (key : List UInt8) (now : ℤ) : AgreeOn cd key now ↔ ¬HasExpired cd key now := by
  obtain ⟨t, ⟨rfl, rfl, cells, hr, rfl⟩, -⟩ := hcd
  have hentry := hr.entryOf key
  cases hlook : Recency.lookup CacheEntry.key key (items (cells (chainIndex cd.hashlen key))) with
  | none =>
    rw [hlook] at hentry
    refine iff_of_true (hr.agreeOn_of_none now hlook) ?_
    rintro ⟨e, he, -⟩
    simp [hentry] at he
  | some e =>
    rw [hlook] at hentry
    by_cases hover : 0 < e.expire ∧ e.expire < now
    · exact iff_of_false (hr.not_agreeOn_of_expired hlook hover)
        (not_not.mpr ⟨e, hentry, hover⟩)
    · refine iff_of_true (hr.agreeOn_of_live hlook hover) ?_
      rintro ⟨e', he', hover'⟩
      rw [hentry] at he'
      simp only [Except.ok.injEq, Option.some.injEq] at he'
      exact hover (he' ▸ hover')

/-- In every cache that a run leaves, for every key and time, the three calls agree exactly when
the cache has no expired entry for the key. -/
theorem run_agreeOn_iff {numobjs flags : ℕ} {gc gt : Bool} {cd : Cache} (hnum : 4 ≤ numobjs)
    (hcd : cacheCreate numobjs flags gc gt = .ok (some cd)) (malloc : Allocator CacheEntry)
    {is : List (ℤ × CacheOp)} {os : List CacheOut} {cd' : Cache}
    (hrun : run (cacheStep malloc) cd is = .ok (os, cd')) (key : List UInt8) (now : ℤ) :
    AgreeOn cd' key now ↔ ¬HasExpired cd' key now :=
  (run_reached hnum hcd hrun).agreeOn_iff key now

/-- A counter set to 5, for 10 seconds. -/
def briefCounter : List (ℤ × CacheOp) := [(100, .set [107] [53, 0] 10 .granted)]

/-- The cache that `briefCounter` leaves. -/
def briefCache : Cache :=
  ⟨4, 0, 1, 4, [⟨1, some 1, some 1⟩], AList.insert 1 ⟨⟨[107], [53, 0], 110⟩, none, none⟩ ∅⟩

/-- In the tenth second, the three calls still find the counter. -/
theorem run_agreeOn_briefCounter :
    cacheCreate 4 0 true true = .ok (some sampleCache) ∧
      run (cacheStep bump) sampleCache briefCounter = .ok ([⟨1, none, none⟩], briefCache) ∧
      AgreeOn briefCache [107] 110 := by
  have hcreate : cacheCreate 4 0 true true = .ok (some sampleCache) := rfl
  have hrun : run (cacheStep bump) sampleCache briefCounter =
      .ok ([⟨1, none, none⟩], briefCache) := rfl
  refine ⟨hcreate, hrun, (run_agreeOn_iff le_rfl hcreate bump hrun [107] 110).mpr ?_⟩
  rintro ⟨e, he, -, hover⟩
  obtain rfl : (⟨[107], [53, 0], 110⟩ : CacheEntry) = e := Option.some.inj (Except.ok.inj he)
  exact lt_irrefl _ hover

/-- A second later, `cache_get` misses it and `cache_cas` swaps its value. -/
theorem not_agreeOn_briefCounter :
    cacheCreate 4 0 true true = .ok (some sampleCache) ∧
      run (cacheStep bump) sampleCache briefCounter = .ok ([⟨1, none, none⟩], briefCache) ∧
      ¬AgreeOn briefCache [107] 111 := by
  refine ⟨rfl, rfl, fun h => ?_⟩
  have hget : ∃ cd₁, cacheGet briefCache 111 [107] = .ok ((0, none), cd₁) := ⟨_, rfl⟩
  have hcas : ∃ cd₁, cacheCas briefCache [107] [53, 0] [] true = .ok (1, cd₁) := ⟨_, rfl⟩
  obtain ⟨cd₁, hget⟩ := hget
  obtain ⟨cd₂, hcas⟩ := hcas
  obtain ⟨cd', hmiss, -⟩ := h.miss_cas none cd₁ hget [53, 0] []
  rw [hcas] at hmiss
  simp at hmiss

end Moc
