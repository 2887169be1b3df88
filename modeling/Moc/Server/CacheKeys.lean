import Moc.Packet
import Moc.Server.CacheFailures
import Moc.Server.CacheMap

/-!
# Formatted keys

The wrappers `cache_getf` .. `cache_incrf` print their key into a buffer on the stack and hand the
cache what `vsnprintf` returns as its length, which is the length of the whole text even when the
buffer held only a part of it. `UsesFormattedKey` says that a wrapper works on the text it was given;
it does so exactly for the texts that fit (`usesFormattedKey_iff`).
-/

open Bytes Memory Decimal Dll Runs

namespace Moc

/-- `MAX_CACHEKEY_LEN` -/
def maxCachekeyLen : ℕ := 1024

/-- `vsnprintf` into a buffer of `size` bytes, for a format that expands to `s`: the bytes written,
and the return value. An `int` holds the length of the text, or the call fails. -/
def vsnprintf (size : ℕ) (s : List UInt8) : List UInt8 × ℤ :=
  (snprintf size s, if s.length < 2^31 then s.length else -1)

/-- The start of each wrapper: the key it passes on. The bytes of the buffer that were not written
are not the key's to read. -/
def formattedKey (s : List UInt8) : Except Fault (List UInt8) :=
  let (key, r) := vsnprintf maxCachekeyLen s
  load key 0 (sizeT r)

/-- `cache_getf` -/
def cacheGetf (cd : Cache) (now : ℤ) (s : List UInt8) :
    Except Fault ((ℤ × Option (List UInt8)) × Cache) := do
  let key ← formattedKey s
  cacheGet cd now key

/-- `cache_setf` -/
def cacheSetf (malloc : Allocator CacheEntry) (cd : Cache) (now : ℤ) (val : List UInt8)
    (timeout : ℤ) (s : List UInt8) (granted : CacheAllocs) : Except Fault (ℤ × Cache) := do
  let key ← formattedKey s
  cacheSet malloc cd now key val timeout granted

/-- `cache_delf` -/
def cacheDelf (cd : Cache) (s : List UInt8) : Except Fault (ℤ × Cache) := do
  let key ← formattedKey s
  cacheDel cd key

/-- `cache_incrf` -/
def cacheIncrf (cd : Cache) (increment : ℤ) (s : List UInt8) (granted : Bool) :
    Except Fault ((ℤ × Option ℤ) × Cache) := do
  let key ← formattedKey s
  cacheIncr cd key increment granted

/-- A call of one of the wrappers. -/
inductive CacheCall where
  /-- `cache_getf`. -/
  | getf (s : List UInt8)
  /-- `cache_setf`. -/
  | setf (s val : List UInt8) (timeout : ℤ) (granted : CacheAllocs)
  /-- `cache_delf`. -/
  | delf (s : List UInt8)
  /-- `cache_incrf`. -/
  | incrf (s : List UInt8) (increment : ℤ) (granted : Bool)

/-- What the format of a call expands to. -/
def CacheCall.text : CacheCall → List UInt8
  | .getf s => s
  | .setf s _ _ _ => s
  | .delf s => s
  | .incrf s _ _ => s

/-- The call of the cache that a wrapper makes with a key. -/
def CacheCall.op (key : List UInt8) : CacheCall → CacheOp
  | .getf _ => .get key
  | .setf _ val timeout granted => .set key val timeout granted
  | .delf _ => .del key
  | .incrf _ increment granted => .incr key increment granted

/-- One call of a wrapper at a time of the clock. -/
def cacheCall (malloc : Allocator CacheEntry) (cd : Cache) : ℤ × CacheCall →
    Except Fault (CacheOut × Cache)
  | (now, .getf s) => do
    let ((rv, val), cd) ← cacheGetf cd now s
    return (⟨rv, val, none⟩, cd)
  | (now, .setf s val timeout granted) => do
    let (rv, cd) ← cacheSetf malloc cd now val timeout s granted
    return (⟨rv, none, none⟩, cd)
  | (_, .delf s) => do
    let (rv, cd) ← cacheDelf cd s
    return (⟨rv, none, none⟩, cd)
  | (_, .incrf s increment granted) => do
    let ((rv, newval), cd) ← cacheIncrf cd increment s granted
    return (⟨rv, none, newval⟩, cd)

/-- A wrapper formats its key and calls the cache. -/
theorem cacheCall_eq (malloc : Allocator CacheEntry) (cd : Cache) (now : ℤ) (c : CacheCall) :
    cacheCall malloc cd (now, c) =
      formattedKey c.text >>= fun key => cacheStep malloc cd (now, c.op key) := by
  cases c with
  | getf s =>
    simp only [cacheCall, cacheGetf, CacheCall.text]
    cases formattedKey s <;> rfl
  | setf s val timeout granted =>
    simp only [cacheCall, cacheSetf, CacheCall.text]
    cases formattedKey s <;> rfl
  | delf s =>
    simp only [cacheCall, cacheDelf, CacheCall.text]
    cases formattedKey s <;> rfl
  | incrf s increment granted =>
    simp only [cacheCall, cacheIncrf, CacheCall.text]
    cases formattedKey s <;> rfl

/-! ## The key of a text -/

/-- A text that fits is its own key. -/
theorem formattedKey_of_lt {s : List UInt8} (h : s.length < maxCachekeyLen) :
    formattedKey s = .ok s := by
  have hlen : s.length < 1024 := h
  have hsize : sizeT (s.length : ℤ) = s.length := sizeT_natCast (by omega)
  simp only [formattedKey, vsnprintf, snprintf_of_lt h, if_pos (show s.length < 2^31 by omega), hsize]
  rw [load_of_le (by simp), List.drop_zero, List.take_left]

/-- A text as long as the buffer has its last byte replaced by the NUL. -/
theorem formattedKey_of_eq {s : List UInt8} (h : s.length = maxCachekeyLen) :
    formattedKey s = .ok (s.take 1023 ++ [0]) := by
  have hlen : s.length = 1024 := h
  have hsize : sizeT (s.length : ℤ) = s.length := sizeT_natCast (by omega)
  have hwritten : snprintf maxCachekeyLen s = s.take 1023 ++ [0] := rfl
  simp only [formattedKey, vsnprintf, hwritten, if_pos (show s.length < 2^31 by omega), hsize]
  have htake : (s.take 1023 ++ [(0 : UInt8)]).length = s.length := by simp [hlen]
  rw [load_of_le (by omega), List.drop_zero, List.take_of_length_le htake.le]

/-- The length passed on for a longer text is larger than the buffer. -/
theorem lt_sizeT_of_lt {s : List UInt8} (h : maxCachekeyLen < s.length) :
    maxCachekeyLen < sizeT (vsnprintf maxCachekeyLen s).2 := by
  simp only [vsnprintf, maxCachekeyLen, sizeT] at h ⊢
  split_ifs <;> omega

theorem length_snprintf_le (size : ℕ) (s : List UInt8) : (snprintf size s).length ≤ size := by
  unfold snprintf
  split_ifs
  · simp
  · simp
    omega

theorem formattedKey_of_gt {s : List UInt8} (h : maxCachekeyLen < s.length) :
    formattedKey s = .error .outOfBounds := by
  have hsize := lt_sizeT_of_lt h
  have hwritten := length_snprintf_le maxCachekeyLen s
  exact load_of_lt (by simp only [vsnprintf] at hsize ⊢; omega)

/-- No other text has the key of a text that fits. -/
theorem formattedKey_inj {s s' : List UInt8} (h : s.length < maxCachekeyLen)
    (h' : formattedKey s' = .ok s) : s' = s := by
  rcases lt_trichotomy s'.length maxCachekeyLen with hlt | heq | hgt
  · rw [formattedKey_of_lt hlt] at h'
    exact Except.ok.inj h'
  · rw [formattedKey_of_eq heq] at h'
    have hlen := congrArg List.length (Except.ok.inj h')
    simp only [maxCachekeyLen] at h heq
    simp [heq] at hlen
    omega
  · rw [formattedKey_of_gt hgt] at h'
    cases h'

/-! ## Working on the text -/

/-- What `cache_setf` stored under `s` is what `cache_getf` finds under `s`. -/
structure FindsOwn (malloc : Allocator CacheEntry) (cd : Cache) (s val : List UInt8) : Prop where
  /-- At once, unless the entry is past its expiry time. -/
  found : ∃ e, entryOf cd s = .ok (some e) ∧ ∀ now, ¬(0 < e.expire ∧ e.expire < now) →
    cacheGetf cd now s = .ok ((1, some val), cd)
  /-- After calls for other texts there may be no entry any more, but none of another text. -/
  own : ∀ calls os cd', (∀ c ∈ calls, c.2.text ≠ s) → run (cacheCall malloc) cd calls = .ok (os, cd') →
    ∀ now v cd'', cacheGetf cd' now s = .ok ((1, some v), cd'') → v = val

/-- The wrappers work on the text `s`, and on no other text in its place. -/
structure UsesFormattedKey (s : List UInt8) : Prop where
  /-- The length passed on is within the bytes written. -/
  within : sizeT (vsnprintf maxCachekeyLen s).2 ≤ (vsnprintf maxCachekeyLen s).1.length
  /-- Each wrapper calls the cache with the text as its key. -/
  passes : ∀ malloc cd now (c : CacheCall), c.text = s →
    cacheCall malloc cd (now, c) = cacheStep malloc cd (now, c.op s)
  /-- Two calls are about one entry exactly when they have one text. -/
  addresses : ∀ s', (∃ key, formattedKey s = .ok key ∧ formattedKey s' = .ok key) ↔ s = s'
  /-- A value that was set is found again. -/
  finds : ∀ {hashlen cap : ℕ} {cd cd' : Cache} {malloc now val timeout granted}, 0 < cap →
    Reached hashlen cap cd → cacheSetf malloc cd now val timeout s granted = .ok (1, cd') →
    FindsOwn malloc cd' s val

/-- The entry of `s`, while there is one, has the value `val`. -/
def Keeps (s val : List UInt8) (cd : Cache) : Prop :=
  ∃ old, entryOf cd s = .ok old ∧ ∀ e ∈ old, e.val = val

/-- A call for another text changes no entry of `s`; it may evict it. -/
theorem cacheCall_keeps {malloc : Allocator CacheEntry} {hashlen cap : ℕ} (hcap : 0 < cap)
    {cd cd' : Cache} {s val : List UInt8} {i : ℤ × CacheCall} {o : CacheOut}
    (hs : s.length < maxCachekeyLen) (hcd : Reached hashlen cap cd ∧ Keeps s val cd)
    (hi : i.2.text ≠ s) (h : cacheCall malloc cd i = .ok (o, cd')) :
    Reached hashlen cap cd' ∧ Keeps s val cd' := by
  obtain ⟨now, c⟩ := i
  rw [cacheCall_eq] at h
  obtain ⟨key, hkey, hstep⟩ := bind_eq_ok.mp h
  have hne : s ≠ (c.op key).key := by
    have hop : (c.op key).key = key := by cases c <;> rfl
    rw [hop]
    rintro rfl
    exact hi (formattedKey_inj hs hkey)
  obtain ⟨hreached, old, hold, hval⟩ := hcd
  refine ⟨hreached.step hcap hstep, ?_⟩
  obtain ⟨t, ht, hshelved⟩ := hreached
  rcases cacheStep_entryOf hcap ht hshelved.distinct hstep hne with heq | ⟨-, hgone⟩
  · exact ⟨old, heq.trans hold, hval⟩
  · exact ⟨none, hgone, by simp⟩

/-- What `cache_getf` finds of a text that fits is the value of its entry. -/
theorem Keeps.cacheGetf_eq {hashlen cap : ℕ} {cd cd' : Cache} {now : ℤ} {s val v : List UInt8}
    (h : Keeps s val cd) (hcd : Reached hashlen cap cd) (hs : s.length < maxCachekeyLen)
    (hget : cacheGetf cd now s = .ok ((1, some v), cd')) : v = val := by
  obtain ⟨old, hold, hval⟩ := h
  rw [cacheGetf, formattedKey_of_lt hs, ok_bind] at hget
  obtain ⟨old', hold', hspec⟩ := hcd.cacheGet s now
  obtain rfl := Except.ok.inj (hold'.symm.trans hold)
  cases old' with
  | none =>
    rw [hget] at hspec
    simp at hspec
  | some e =>
    dsimp only at hspec
    split_ifs at hspec
    · -- An entry that has expired is not found.
      obtain ⟨cd₁, hspec⟩ := hspec
      rw [hget] at hspec
      simp at hspec
    · rw [hget] at hspec
      simp only [Except.ok.injEq, Prod.mk.injEq, Option.some.injEq] at hspec
      exact hspec.1.2.trans (hval e rfl)

/-- After a successful `cache_setf` of a text that fits. -/
theorem findsOwn_of_lt {hashlen cap : ℕ} (hcap : 0 < cap) {cd cd' : Cache}
    {malloc : Allocator CacheEntry} {now timeout : ℤ} {s val : List UInt8} {granted : CacheAllocs}
    (hs : s.length < maxCachekeyLen) (hcd : Reached hashlen cap cd)
    (h : cacheSetf malloc cd now val timeout s granted = .ok (1, cd')) :
    FindsOwn malloc cd' s val := by
  rw [cacheSetf, formattedKey_of_lt hs, ok_bind] at h
  obtain ⟨old, -, hset⟩ := hcd.cacheSet s hcap malloc now val timeout granted
  split_ifs at hset with hg
  swap
  · rw [h] at hset
    simp at hset
  obtain ⟨cd₁, hset, hreached, hentry⟩ := hset
  obtain rfl : cd' = cd₁ := (Prod.mk.inj (Except.ok.inj (h.symm.trans hset))).2
  have hval : (storedEntry now s val timeout old).val = val := by cases old <;> rfl
  constructor
  · refine ⟨_, hentry, fun now' hlive => ?_⟩
    obtain ⟨old', hold', hget⟩ := hreached.cacheGet s now'
    obtain rfl := Except.ok.inj (hold'.symm.trans hentry)
    rw [cacheGetf, formattedKey_of_lt hs, ok_bind]
    simp only [if_neg hlive, hval] at hget
    exact hget
  · intro calls os cd₂ hcalls hrun now' v cd₃ hget
    have hkeeps : Keeps s val cd' := by
      refine ⟨_, hentry, fun e he => ?_⟩
      obtain rfl := Option.some.inj he
      exact hval
    obtain ⟨hreached', hkeeps'⟩ := run_keeps_of_mem
      (fun i hi cd o cd' hcd h => cacheCall_keeps hcap hs hcd (hcalls i hi) h)
      ⟨hreached, hkeeps⟩ hrun
    exact hkeeps'.cacheGetf_eq hreached' hs hget

/-- The wrappers work on a text exactly when the buffer holds it with its NUL. -/
theorem usesFormattedKey_iff (s : List UInt8) :
    UsesFormattedKey s ↔ s.length < maxCachekeyLen := by
  constructor
  · intro h
    by_contra hge
    rcases eq_or_lt_of_le (not_lt.mp hge) with heq | hgt
    · -- Two texts that differ in the byte that the NUL replaced have one key.
      obtain ⟨p, b, rfl⟩ := List.eq_nil_or_concat' s |>.resolve_left (by rintro rfl; cases heq)
      have hp : p.length = 1023 := by simpa [maxCachekeyLen] using heq.symm
      have hkey : ∀ c, formattedKey (p ++ [c]) = .ok (p ++ [0]) := fun c => by
        rw [formattedKey_of_eq (by simp [hp, maxCachekeyLen]), List.take_left' hp]
      have hsame := (h.addresses (p ++ [b + 1])).mp ⟨_, hkey b, hkey (b + 1)⟩
      simp at hsame
    · have hsize := lt_sizeT_of_lt hgt
      have hwritten := length_snprintf_le maxCachekeyLen s
      have hwithin := h.within
      simp only [vsnprintf] at hsize hwithin
      omega
  · intro h
    refine ⟨?_, fun malloc cd now c hc => ?_, fun s' => ?_, fun hcap hcd hset => ?_⟩
    · have hlen : s.length < 1024 := h
      simp only [vsnprintf, snprintf_of_lt h, if_pos (show s.length < 2^31 by omega)]
      rw [sizeT_natCast (by omega)]
      simp
    · rw [cacheCall_eq, hc, formattedKey_of_lt h, ok_bind]
    · constructor
      · rintro ⟨key, hkey, hkey'⟩
        obtain rfl := Except.ok.inj ((formattedKey_of_lt h).symm.trans hkey)
        exact (formattedKey_inj h hkey').symm
      · rintro rfl
        exact ⟨s, formattedKey_of_lt h, formattedKey_of_lt h⟩
    · exact findsOwn_of_lt hcap h hcd hset

/-- A text as long as the buffer. -/
def fullKey (b : UInt8) : List UInt8 := List.replicate 1023 97 ++ [b]

theorem length_fullKey (b : UInt8) : (fullKey b).length = maxCachekeyLen := by
  rw [fullKey, List.length_append, List.length_replicate]
  rfl

/-- A value set under one full key is delivered for another one, and a longer key is read behind the
end of the buffer. -/
theorem not_usesFormattedKey_fullKey :
    (∃ cd, cacheSetf bump sampleCache 1 [5] 0 (fullKey 98) .granted = .ok (1, cd) ∧
      cacheGetf cd 1 (fullKey 99) = .ok ((1, some [5]), cd)) ∧
    ¬UsesFormattedKey (fullKey 98) ∧ formattedKey (fullKey 98 ++ [99]) = .error .outOfBounds := by
  have hkey : ∀ b, formattedKey (fullKey b) = .ok (List.replicate 1023 97 ++ [0]) := fun b => by
    rw [formattedKey_of_eq (length_fullKey b), fullKey, List.take_left' List.length_replicate]
  have hcreate : cacheCreate 4 0 true true = .ok (some sampleCache) := rfl
  have hreached : Reached 1 4 sampleCache := cacheCreate_reached (by norm_num) hcreate
  have hholds : Holds 1 4 sampleCache fun _ => [] := cacheCreate_holds (by norm_num) hcreate
  refine ⟨?_, fun h => ?_, formattedKey_of_gt ?_⟩
  · simp only [cacheSetf, cacheGetf, hkey, ok_bind]
    generalize List.replicate 1023 (97 : UInt8) ++ [0] = key
    obtain ⟨old, hold, hset⟩ := hreached.cacheSet key (by norm_num) bump 1 [5] 0 .granted
    obtain rfl := Except.ok.inj (hold.symm.trans (hholds.entryOf key))
    obtain ⟨cd, hset, hreached', hentry⟩ := hset
    obtain ⟨old, hold', hget⟩ := hreached'.cacheGet key 1
    obtain rfl := Except.ok.inj (hold'.symm.trans hentry)
    exact ⟨cd, hset, hget⟩
  · have hsame := (h.addresses (fullKey 99)).mp ⟨_, hkey 98, hkey 99⟩
    exact absurd (List.append_cancel_left hsame) (by decide)
  · rw [List.length_append, length_fullKey]
    exact Nat.lt_succ_self _

end Moc
