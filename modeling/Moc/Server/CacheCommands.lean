import Moc.Server.Base
import Moc.Server.CacheBounds
import Moc.Server.CacheFailures

/-!
# Storing by command

`REQ_CMD_CACHE_SET` stores the value of a node of the request. `StoresOrRefuses` is what its answer
promises: after `STATUS_OK` the value is under the key for every later `REQ_CMD_CACHE_GET`, after an
error the cache is as it was. `sysCmdCacheSet_iff` says when the promise is kept.
-/

open Bytes Memory Decimal Dll Runs

namespace Moc

variable {HDF : Type}

/-- The value of a node is a C string. -/
def PushLib.TextValues (H : PushLib HDF) : Prop :=
  ∀ node val, H.objValue node = some val → 0 ∉ val

/-- Every `REQ_CMD_CACHE_GET` for `key` from the time `now` on puts `val` into its reply dataset. -/
def GetDelivers (H : PushLib HDF) (now : ℤ) (cd : Cache) (key val : List UInt8) : Prop :=
  ∀ (env : CmdEnv) (q : QueueEntry HDF), now ≤ env.now → H.getValue q.hdfrcv "cachekey" = some key →
    sysCmdCacheGet H env q (some cd) =
      .ok (some cd, H.setValue q.hdfsnd "cacheval" val, none)

/-- The request names `key` and carries `val` under `cacheval`. -/
structure FileCarries (H : PushLib HDF) (q : QueueEntry HDF) (key val : List UInt8) : Prop where
  key_eq : H.getValue q.hdfrcv "cachekey" = some key
  val_eq : ∃ node, H.getObj q.hdfrcv "cacheval" = some node ∧ H.objValue node = some val

/-- `REQ_CMD_CACHE_SET` returns, and stores what was sent or reports an error and stores nothing. -/
def StoresOrRefuses (H : PushLib HDF) (m : CmdAllocs) (env : CmdEnv) (q : QueueEntry HDF)
    (cd : Cache) : Prop :=
  ∃ cd' hdfsnd err, sysCmdCacheSet H m env q (some cd) = .ok (some cd', hdfsnd, err) ∧
    match err with
    | some _ => cd' = cd
    | none => ∃ key val, FileCarries H q key val ∧
        (∃ e, entryOf cd' key = .ok (some e) ∧ e.val = val ++ [0]) ∧ GetDelivers H env.now cd' key val

/-- What the answer of `REQ_CMD_CACHE_SET` rests on, when the request has both nodes: the node
`cacheval` has a value, the cache has a chain, `cache_set` gets its memory or finds the value stored
already, and an entry that is there for the key never expires. -/
def CanStore (H : PushLib HDF) (m : CmdAllocs) (cd : Cache) (key : List UInt8) (node : HDF) : Prop :=
  ∃ val, H.objValue node = some val ∧ cd.hashlen ≠ 0 ∧ ∀ old, entryOf cd key = .ok old →
    (m.cache.suffice old ∨ old.map CacheEntry.val = some (val ++ [0])) ∧ ∀ e ∈ old, e.expire ≤ 0

/-- A cache that calls reached has a chain, or no call on it returns. -/
theorem run_reached_or {numobjs flags : ℕ} {gc gt : Bool} {cd₀ cd : Cache}
    (hcd : cacheCreate numobjs flags gc gt = .ok (some cd₀)) {malloc : Allocator CacheEntry}
    {is : List (ℤ × CacheOp)} {os : List CacheOut}
    (hrun : run (cacheStep malloc) cd₀ is = .ok (os, cd)) :
    Reached (numobjs / 4) 4 cd ∨ cd.hashlen = 0 := by
  by_cases hnum : 4 ≤ numobjs
  · exact .inl (run_reached hnum hcd hrun)
  · have hnone := cacheCreate_noChain hnum hcd
    cases is with
    | nil =>
      obtain ⟨-, rfl⟩ := Prod.mk.inj (Except.ok.inj hrun)
      exact .inr hnone
    | cons i is =>
      rw [run, cacheStep_noChain malloc hnone] at hrun
      cases hrun

/-- `REQ_CMD_CACHE_GET` delivers a C string that is stored with its NUL and does not expire. -/
theorem delivers_of_entry (H : PushLib HDF) {hashlen cap : ℕ} {cd : Cache} {key val : List UInt8}
    {e : CacheEntry} (hcd : Reached hashlen cap cd) (he : entryOf cd key = .ok (some e))
    (hval : e.val = val ++ [0]) (hnul : 0 ∉ val) (hexp : e.expire ≤ 0) (now : ℤ) :
    GetDelivers H now cd key val := by
  intro env q _ hkey
  obtain ⟨old, hold, hget⟩ := hcd.cacheGet key env.now
  obtain rfl := Except.ok.inj (hold.symm.trans he)
  simp only [if_neg (show ¬(0 < e.expire ∧ e.expire < env.now) by omega)] at hget
  have htext : loadStr (val ++ [0]) 0 = .ok val := by
    simpa using @loadStr_between [] val [] 0 rfl hnul
  simp [sysCmdCacheGet, cacheKey, hkey, hget, hval, htext]

/-- What `REQ_CMD_CACHE_SET` does with a request that has both nodes. -/
theorem sysCmdCacheSet_nodes (H : PushLib HDF) (m : CmdAllocs) (env : CmdEnv) {q : QueueEntry HDF}
    (cd : Cache) {key : List UInt8} {node : HDF}
    (hkey : H.getValue q.hdfrcv "cachekey" = some key)
    (hnode : H.getObj q.hdfrcv "cacheval" = some node) :
    sysCmdCacheSet H m env q (some cd) =
      match H.objValue node with
      | none => .error .nullPointer
      | some val => do
        let (_, cd) ← cacheSet env.malloc cd env.now key (val ++ [0]) 0 m.cache
        return (some cd, q.hdfsnd, none) := by
  cases hval : H.objValue node with
  | none => simp only [sysCmdCacheSet, cacheKey, hkey, hnode, hval]
  | some val => simp only [sysCmdCacheSet, cacheKey, hkey, hnode, hval]

/-- An entry for which every `REQ_CMD_CACHE_GET` gets its value does not expire. -/
theorem expire_of_delivers {H : PushLib HDF} {hashlen cap : ℕ} {cd : Cache}
    {key val : List UInt8} {e : CacheEntry} {env : CmdEnv} {q : QueueEntry HDF}
    (hcd : Reached hashlen cap cd) (he : entryOf cd key = .ok (some e))
    (hkey : H.getValue q.hdfrcv "cachekey" = some key) (h : GetDelivers H env.now cd key val) :
    e.expire ≤ 0 := by
  by_contra hpos
  -- One second after the expiry time, the entry is deleted.
  have hlate := h { env with now := max env.now (e.expire + 1) } q (le_max_left _ _) hkey
  obtain ⟨old, hold, hget⟩ := hcd.cacheGet key (max env.now (e.expire + 1))
  obtain rfl := Except.ok.inj (hold.symm.trans he)
  simp only [if_pos (show 0 < e.expire ∧ e.expire < max env.now (e.expire + 1) by omega)] at hget
  obtain ⟨cd', hget⟩ := hget
  simp [sysCmdCacheGet, cacheKey, hkey, hget] at hlate

section
variable {H : PushLib HDF} {m : CmdAllocs} {env : CmdEnv} {q : QueueEntry HDF} {cd : Cache}
  {key : List UInt8} {node : HDF} {val : List UInt8} {hashlen cap : ℕ}

/-- An answer `STATUS_OK` keeps its promise exactly when the entry has the value and never expires. -/
theorem storesOrRefuses_of_ok (htext : H.TextValues)
    (hkey : H.getValue q.hdfrcv "cachekey" = some key)
    (hnode : H.getObj q.hdfrcv "cacheval" = some node) (hval : H.objValue node = some val)
    {cd' : Cache} (hcd' : Reached hashlen cap cd')
    (hrun : sysCmdCacheSet H m env q (some cd) = .ok (some cd', q.hdfsnd, none)) :
    StoresOrRefuses H m env q cd ↔
      ∃ e, entryOf cd' key = .ok (some e) ∧ e.val = val ++ [0] ∧ e.expire ≤ 0 := by
  constructor
  · rintro ⟨cd₁, hdfsnd, err, h, hpromise⟩
    rw [hrun] at h
    obtain ⟨hcd₁, -, rfl⟩ : some cd' = some cd₁ ∧ q.hdfsnd = hdfsnd ∧ none = err := by
      simpa using h
    obtain rfl := Option.some.inj hcd₁
    obtain ⟨key', val', ⟨hkey', node', hnode', hval'⟩, ⟨e, he, heval⟩, hdel⟩ := hpromise
    obtain rfl := Option.some.inj (hkey.symm.trans hkey')
    obtain rfl := Option.some.inj (hnode.symm.trans hnode')
    obtain rfl := Option.some.inj (hval.symm.trans hval')
    exact ⟨e, he, heval, expire_of_delivers hcd' he hkey hdel⟩
  · rintro ⟨e, he, heval, hexp⟩
    exact ⟨cd', q.hdfsnd, none, hrun, key, val, ⟨hkey, node, hnode, hval⟩, ⟨e, he, heval⟩,
      delivers_of_entry H hcd' he heval (htext node val hval) hexp env.now⟩

/-- A request with both nodes is answered as promised exactly under `CanStore`. -/
theorem Reached.storesOrRefuses_iff (htext : H.TextValues) (hcap : 0 < cap)
    (hcd : Reached hashlen cap cd) (hkey : H.getValue q.hdfrcv "cachekey" = some key)
    (hnode : H.getObj q.hdfrcv "cacheval" = some node) :
    StoresOrRefuses H m env q cd ↔ CanStore H m cd key node := by
  have hrun := sysCmdCacheSet_nodes H m env cd hkey hnode
  have hchain : cd.hashlen ≠ 0 := by
    obtain ⟨t, ⟨rfl, -, cells, hr, -⟩, -⟩ := hcd
    exact hr.pos.ne'
  cases hval : H.objValue node with
  | none =>
    rw [hval] at hrun
    constructor
    · rintro ⟨cd', hdfsnd, err, h, -⟩
      rw [hrun] at h
      cases h
    · rintro ⟨val, h, -⟩
      rw [hval] at h
      cases h
  | some val =>
    simp only [hval] at hrun
    obtain ⟨old, hold, hset⟩ := hcd.cacheSet key hcap env.malloc env.now (val ++ [0]) 0 m.cache
    have hcan : CanStore H m cd key node ↔
        (m.cache.suffice old ∨ old.map CacheEntry.val = some (val ++ [0])) ∧
          ∀ e ∈ old, e.expire ≤ 0 := by
      constructor
      · rintro ⟨val', hval', -, h⟩
        obtain rfl := Option.some.inj (hval.symm.trans hval')
        exact h old hold
      · intro h
        refine ⟨val, hval, hchain, fun old' hold' => ?_⟩
        obtain rfl := Except.ok.inj (hold.symm.trans hold')
        exact h
    rw [hcan]
    split_ifs at hset with hg
    · -- The entry is stored; its expiry time is that of the entry that was there.
      obtain ⟨cd', hset, hcd', hentry⟩ := hset
      rw [hset] at hrun
      rw [storesOrRefuses_of_ok htext hkey hnode hval hcd' hrun, hentry]
      cases old with
      | none => simp [storedEntry, hg]
      | some e => simp [storedEntry, hg]
    · -- Nothing is stored, and the answer is the same.
      rw [hset] at hrun
      rw [storesOrRefuses_of_ok htext hkey hnode hval hcd hrun, hold]
      cases old with
      | none => simp [hg]
      | some e => simp [hg]

/-- Without a chain, a request with both nodes faults. -/
theorem not_storesOrRefuses_of_noChain (hchain : cd.hashlen = 0)
    (hkey : H.getValue q.hdfrcv "cachekey" = some key)
    (hnode : H.getObj q.hdfrcv "cacheval" = some node) : ¬StoresOrRefuses H m env q cd := by
  rintro ⟨cd', hdfsnd, err, h, -⟩
  rw [sysCmdCacheSet_nodes H m env cd hkey hnode] at h
  cases hval : H.objValue node with
  | none =>
    rw [hval] at h
    cases h
  | some val =>
    have hfault : cacheSet env.malloc cd env.now key (val ++ [0]) 0 m.cache =
        .error .divideByZero := by
      rw [cacheSet, bucketOf, if_pos hchain, error_bind]
    simp [hval, hfault] at h

end

/-- An error is always as promised, since nothing is stored before one. -/
theorem storesOrRefuses_of_error {H : PushLib HDF} {m : CmdAllocs} {env : CmdEnv}
    {q : QueueEntry HDF} {cd : Cache} {hdfsnd : HDF} {err : NeoErr}
    (h : sysCmdCacheSet H m env q (some cd) = .ok (some cd, hdfsnd, some err)) :
    StoresOrRefuses H m env q cd :=
  ⟨cd, hdfsnd, some err, h, rfl⟩

/-- `REQ_CMD_CACHE_SET` stores what was sent or says so exactly when a node is missing, or it can
store. -/
theorem sysCmdCacheSet_iff {H : PushLib HDF} (htext : H.TextValues) {numobjs flags : ℕ}
    {gc gt : Bool} {cd₀ cd : Cache} (hcd : cacheCreate numobjs flags gc gt = .ok (some cd₀))
    {malloc : Allocator CacheEntry} {is : List (ℤ × CacheOp)} {os : List CacheOut}
    (hrun : run (cacheStep malloc) cd₀ is = .ok (os, cd)) (m : CmdAllocs) (env : CmdEnv)
    (q : QueueEntry HDF) :
    StoresOrRefuses H m env q cd ↔
      ∀ key node, H.getValue q.hdfrcv "cachekey" = some key →
        H.getObj q.hdfrcv "cacheval" = some node → CanStore H m cd key node := by
  -- A request without a node is answered by an error.
  cases hkey : H.getValue q.hdfrcv "cachekey" with
  | none =>
    have hrefuse : sysCmdCacheSet H m env q (some cd) =
        .ok (some cd, q.hdfsnd, some ⟨repErrBadparam, ascii "need cachekey"⟩) := by
      simp only [sysCmdCacheSet, cacheKey, hkey]
    exact iff_of_true (storesOrRefuses_of_error hrefuse) (by simp)
  | some key =>
    cases hnode : H.getObj q.hdfrcv "cacheval" with
    | none =>
      have hrefuse : sysCmdCacheSet H m env q (some cd) =
          .ok (some cd, q.hdfsnd, some ⟨repErrBadparam, ascii "need cacheval"⟩) := by
        simp only [sysCmdCacheSet, cacheKey, hkey, hnode]
      exact iff_of_true (storesOrRefuses_of_error hrefuse) (by simp)
    | some node =>
      have hall : (∀ key' node', some key = some key' → some node = some node' →
          CanStore H m cd key' node') ↔ CanStore H m cd key node :=
        ⟨fun h => h key node rfl rfl, fun h _ _ hk hn =>
          Option.some.inj hk ▸ Option.some.inj hn ▸ h⟩
      rw [hall]
      rcases run_reached_or hcd hrun with hreached | hchain
      · exact hreached.storesOrRefuses_iff htext (by norm_num) hkey hnode
      · refine iff_of_false (not_storesOrRefuses_of_noChain hchain hkey hnode) ?_
        rintro ⟨val, -, h, -⟩
        exact h hchain

/-- The library with datasets whose node `cachekey` is `k`, and whose node `cacheval` may have a
value. -/
def cachevalHdf : PushLib (Option (List UInt8)) where
  init := none
  readString _ _ := none
  writeString _ := none
  writeString_nul _ _ h := by cases h
  objChild _ := true
  setValue hdf key val := if key = "cacheval" then some val else hdf
  setIntValue hdf _ _ := hdf
  getValue _ key := if key = "cachekey" then some [107] else none
  getObj hdf key := if key = "cacheval" then some hdf else none
  copy hdf _ _ := hdf
  setAttr hdf _ _ _ := some hdf
  getAttr _ _ := []
  removeTree hdf _ := hdf
  objValue hdf := hdf.filter fun val => 0 ∉ val
  traceback err := err.desc
  nullParam := ⟨nerrAssert, ascii "null"⟩

theorem cachevalHdf_textValues : cachevalHdf.TextValues := by
  intro node val h
  simpa using (Option.filter_eq_some_iff.mp h).2

/-- A request to store the value of a node. -/
def setRequest (hdfrcv : Option (List UInt8)) : QueueEntry (Option (List UInt8)) :=
  ⟨reqCmdCacheSet, ⟨5, [], 1, 0, flagsSync, none, 0, 0⟩, [], hdfrcv, none⟩

/-- A clock and an allocator. -/
def cacheEnv : CmdEnv := ⟨100, bump⟩

/-- A value is stored in a new cache. -/
theorem sysCmdCacheSet_setRequest :
    StoresOrRefuses cachevalHdf .granted cacheEnv (setRequest (some [118])) sampleCache := by
  have hcreate : cacheCreate 4 0 true true = .ok (some sampleCache) := rfl
  have hrun : run (cacheStep bump) sampleCache [] = .ok ([], sampleCache) := rfl
  refine (sysCmdCacheSet_iff cachevalHdf_textValues hcreate hrun .granted cacheEnv _).mpr ?_
  intro key node hkey hnode
  obtain rfl : [107] = key := Option.some.inj hkey
  obtain rfl : some [118] = node := Option.some.inj hnode
  refine ⟨[118], rfl, by decide, fun old hold => ?_⟩
  obtain rfl : none = old := Except.ok.inj hold
  exact ⟨.inl rfl, by simp⟩

/-- A node that is only the parent of others, and a value for which there is no memory. -/
theorem not_storesOrRefuses :
    cachevalHdf.TextValues ∧ cacheCreate 4 0 true true = .ok (some sampleCache) ∧
      ¬StoresOrRefuses cachevalHdf .granted cacheEnv (setRequest none) sampleCache ∧
      ¬StoresOrRefuses cachevalHdf { CmdAllocs.granted with cache := ⟨true, true, false⟩ } cacheEnv
        (setRequest (some [118])) sampleCache := by
  have hcreate : cacheCreate 4 0 true true = .ok (some sampleCache) := rfl
  refine ⟨cachevalHdf_textValues, hcreate, ?_, ?_⟩
  · rintro ⟨cd, hdfsnd, err, h, -⟩
    cases h
  · rintro ⟨cd, hdfsnd, err, h, hpromise⟩
    -- The answer is `STATUS_OK`, and the cache is still empty.
    have hrun : sysCmdCacheSet cachevalHdf { CmdAllocs.granted with cache := ⟨true, true, false⟩ }
        cacheEnv (setRequest (some [118])) (some sampleCache) = .ok (some sampleCache, none, none) :=
      rfl
    rw [hrun] at h
    obtain ⟨hcd, -, rfl⟩ : some sampleCache = some cd ∧ none = hdfsnd ∧ none = err := by simpa using h
    obtain rfl := Option.some.inj hcd
    obtain ⟨key, val, -, ⟨e, he, -⟩, -⟩ := hpromise
    rw [(cacheCreate_holds (by norm_num) hcreate).entryOf] at he
    cases he

end Moc
