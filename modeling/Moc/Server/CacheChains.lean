import Moc.Lib.Recency
import Moc.Lib.Runs
import Moc.Server.CacheLinks

/-!
# The chains as lists

What each cache operation does to its key's chain, as a list of entries with the most recently set
one first (`chainStep`), and the proof that the linked code does exactly that (`cacheStep_agree`):
for every outcome of the allocations, at every time, with the same outputs and the same faults. The
bridge is `Rep`: the heap holds one linked list for each chain, no two of them share an entry, and
`first`, `last` and `len` of each chain describe its list.
-/

open Bytes Memory Decimal Dll Runs

namespace Moc

/-! ## The operations on one chain -/

/-- `cache_get` on the entries of the key's chain. -/
def chainGet (now : ℤ) (key : List UInt8) (l : List CacheEntry) :
    (ℤ × Option (List UInt8)) × List CacheEntry :=
  match Recency.lookup CacheEntry.key key l with
  | none => ((0, none), l)
  | some e =>
    if 0 < e.expire ∧ e.expire < now then ((0, none), Recency.erase CacheEntry.key key l)
    else ((1, some e.val), l)

/-- `cache_set` on the entries of the key's chain. A new entry gets an expiry time, a replaced one
keeps its own. -/
def chainSet (cap : ℕ) (now : ℤ) (key val : List UInt8) (timeout : ℤ) (granted : CacheAllocs)
    (l : List CacheEntry) : ℤ × List CacheEntry :=
  match Recency.lookup CacheEntry.key key l with
  | none =>
    if granted.entry && granted.key && granted.val then
      let expire := if timeout = 0 then 0 else now + timeout
      (1, Recency.put CacheEntry.key cap ⟨key, val, expire⟩ l)
    else (0, l)
  | some e =>
    if granted.val then (1, Recency.put CacheEntry.key cap { e with val := val } l) else (0, l)

/-- `cache_del` on the entries of the key's chain. -/
def chainDel (key : List UInt8) (l : List CacheEntry) : ℤ × List CacheEntry :=
  match Recency.lookup CacheEntry.key key l with
  | none => (0, l)
  | some _ => (1, Recency.erase CacheEntry.key key l)

/-- `cache_cas` on the entries of the key's chain. -/
def chainCas (key oldval newval : List UInt8) (granted : Bool) (l : List CacheEntry) :
    ℤ × List CacheEntry :=
  match Recency.lookup CacheEntry.key key l with
  | none => (-1, l)
  | some e =>
    if e.val ≠ oldval then (0, l)
    else if granted then (1, Recency.replace CacheEntry.key { e with val := newval } l)
    else (-2, l)

/-- The value after a successful `cache_incr` and the new number, from the value before. -/
def bumpVal (val : List UInt8) (increment : ℤ) (granted : Bool) :
    Except Fault ((ℤ × Option ℤ) × List UInt8) :=
  match val.getLast? with
  | none => .error .outOfBounds
  | some b =>
    if b ≠ 0 then return ((-2, none), val)
    else do
      let text ← loadStr val 0
      let intval ← addInt64 (strtoll text) increment
      if val.length < 24 ∧ !granted then return ((-3, none), val)
      else do
        let val ← writeCounter val intval
        return ((1, some intval), val)

/-- `cache_incr` on the entries of the key's chain. -/
def chainIncr (key : List UInt8) (increment : ℤ) (granted : Bool) (l : List CacheEntry) :
    Except Fault ((ℤ × Option ℤ) × List CacheEntry) :=
  match Recency.lookup CacheEntry.key key l with
  | none => .ok ((-1, none), l)
  | some e => do
    let (o, val) ← bumpVal e.val increment granted
    return (o, Recency.replace CacheEntry.key { e with val := val } l)

/-- One call on the entries of its key's chain. -/
def chainStep (cap : ℕ) (l : List CacheEntry) :
    ℤ × CacheOp → Except Fault (CacheOut × List CacheEntry)
  | (now, .get key) =>
    let ((rv, val), l) := chainGet now key l
    .ok (⟨rv, val, none⟩, l)
  | (now, .set key val timeout granted) =>
    let (rv, l) := chainSet cap now key val timeout granted l
    .ok (⟨rv, none, none⟩, l)
  | (_, .del key) =>
    let (rv, l) := chainDel key l
    .ok (⟨rv, none, none⟩, l)
  | (_, .cas key oldval newval granted) =>
    let (rv, l) := chainCas key oldval newval granted l
    .ok (⟨rv, none, none⟩, l)
  | (_, .incr key increment granted) => do
    let ((rv, newval), l) ← chainIncr key increment granted l
    return (⟨rv, none, newval⟩, l)

theorem lookup_mem {key : List UInt8} {l : List CacheEntry} {e : CacheEntry}
    (h : Recency.lookup CacheEntry.key key l = some e) : e ∈ l ∧ e.key = key := by
  obtain ⟨hkey, xs, ys, rfl, -⟩ := Recency.lookup_eq_some.mp h
  exact ⟨by simp, hkey⟩

/-- What a call can do to the chain of its key: nothing, delete the key's entry, replace it in
place, or, for a set, put one in front. -/
theorem chainStep_cases {cap : ℕ} {l l' : List CacheEntry} {now : ℤ} {op : CacheOp} {o : CacheOut}
    (h : chainStep cap l (now, op) = .ok (o, l')) :
    l' = l ∨ l' = Recency.erase CacheEntry.key op.key l ∨
      (∃ e : CacheEntry, e.key = op.key ∧ l' = Recency.replace CacheEntry.key e l) ∨
      (∃ val timeout granted, op = .set op.key val timeout granted) ∧
        ∃ e : CacheEntry, e.key = op.key ∧ l' = Recency.put CacheEntry.key cap e l := by
  cases op with
  | get key =>
    simp only [chainStep, chainGet, Except.ok.injEq, Prod.mk.injEq] at h
    obtain ⟨-, rfl⟩ := h
    split
    · exact .inl rfl
    · split_ifs
      · exact .inr (.inl rfl)
      · exact .inl rfl
  | set key val timeout granted =>
    simp only [chainStep, Except.ok.injEq, Prod.mk.injEq] at h
    obtain ⟨-, rfl⟩ := h
    unfold chainSet
    cases hlook : Recency.lookup CacheEntry.key key l with
    | none =>
      by_cases hg : (granted.entry && granted.key && granted.val) = true
      · simp only [if_pos hg]
        exact .inr (.inr (.inr ⟨⟨_, _, _, rfl⟩, _, rfl, rfl⟩))
      · simp only [if_neg hg]
        exact .inl trivial
    | some e =>
      dsimp only
      split_ifs
      · exact .inr (.inr (.inr ⟨⟨_, _, _, rfl⟩, { e with val := val }, (lookup_mem hlook).2, rfl⟩))
      · exact .inl rfl
  | del key =>
    simp only [chainStep, chainDel, Except.ok.injEq, Prod.mk.injEq] at h
    obtain ⟨-, rfl⟩ := h
    split
    · exact .inl rfl
    · exact .inr (.inl rfl)
  | cas key oldval newval granted =>
    simp only [chainStep, chainCas, Except.ok.injEq, Prod.mk.injEq] at h
    obtain ⟨-, rfl⟩ := h
    cases hlook : Recency.lookup CacheEntry.key key l with
    | none => exact .inl rfl
    | some e =>
      dsimp only
      split_ifs
      · exact .inl rfl
      · exact .inr (.inr (.inl ⟨{ e with val := newval }, (lookup_mem hlook).2, rfl⟩))
      · exact .inl rfl
  | incr key increment granted =>
    simp only [chainStep] at h
    obtain ⟨⟨out, l₁⟩, hincr, h⟩ := bind_eq_ok.mp h
    simp only [pure_eq_ok, Except.ok.injEq, Prod.mk.injEq] at h
    obtain ⟨-, rfl⟩ := h
    unfold chainIncr at hincr
    cases hlook : Recency.lookup CacheEntry.key key l with
    | none =>
      rw [hlook] at hincr
      simp only [Except.ok.injEq, Prod.mk.injEq] at hincr
      exact .inl hincr.2.symm
    | some e =>
      rw [hlook] at hincr
      obtain ⟨⟨o', v⟩, -, h⟩ := bind_eq_ok.mp hincr
      simp only [pure_eq_ok, Except.ok.injEq, Prod.mk.injEq] at h
      obtain ⟨-, rfl⟩ := h
      exact .inr (.inr (.inl ⟨{ e with val := v }, (lookup_mem hlook).2, rfl⟩))

/-- A call keeps the keys of a chain distinct. -/
theorem chainStep_distinct {cap : ℕ} {l l' : List CacheEntry} {now : ℤ} {op : CacheOp}
    {o : CacheOut} (hd : Recency.Distinct CacheEntry.key l)
    (h : chainStep cap l (now, op) = .ok (o, l')) : Recency.Distinct CacheEntry.key l' := by
  rcases chainStep_cases h with rfl | rfl | ⟨e, -, rfl⟩ | ⟨-, e, -, rfl⟩
  · exact hd
  · exact hd.erase
  · exact hd.replace
  · exact hd.put

/-- A call changes at most the entry of its own key, apart from the one that it evicts. -/
theorem chainStep_lookup {cap : ℕ} {l l' : List CacheEntry} {now : ℤ} {op : CacheOp}
    {o : CacheOut} {k : List UInt8} (hd : Recency.Distinct CacheEntry.key l)
    (h : chainStep cap l (now, op) = .ok (o, l')) (hk : k ≠ op.key) :
    Recency.lookup CacheEntry.key k l' = Recency.lookup CacheEntry.key k l ∨
      (∃ val timeout granted, op = .set op.key val timeout granted) ∧
        Recency.lookup CacheEntry.key op.key l = none ∧ cap < l.length ∧
        l.getLast?.map CacheEntry.key = some k ∧
        Recency.lookup CacheEntry.key k l' = none := by
  rcases chainStep_cases h with rfl | rfl | ⟨e, he, rfl⟩ | ⟨hset, e, he, rfl⟩
  · exact .inl rfl
  · exact .inl (Recency.lookup_erase_of_ne l hk)
  · exact .inl (Recency.lookup_replace_of_ne l (he ▸ hk))
  · rw [← he] at hk ⊢
    exact (Recency.lookup_put_of_ne hd hk).imp_right fun h => ⟨he ▸ hset, h⟩

/-- The chain of a key. -/
def chainIndex (hashlen : ℕ) (key : List UInt8) : ℕ := (oneAtATime key).toNat % hashlen

/-- One call on all chains: only the one of its key changes. -/
def chainsStep (hashlen cap : ℕ) (t : ℕ → List CacheEntry) (i : ℤ × CacheOp) :
    Except Fault (CacheOut × (ℕ → List CacheEntry)) := do
  let h := chainIndex hashlen i.2.key
  let (o, l) ← chainStep cap (t h) i
  return (o, Function.update t h l)

/-! ## The representation -/

/-- The heap and the table hold the chains `cells`. -/
structure Rep (cd : Cache) (cells : ℕ → List (ℕ × CacheEntry)) : Prop where
  /-- There is a chain. -/
  pos : 0 < cd.hashlen
  /-- The lists are linked in the heap and share no entry. -/
  owns : Owns cd.heap cells
  /-- The table has its length. -/
  length_table : cd.table.length = cd.hashlen
  /-- Each chain record describes its list. -/
  chain : ∀ i < cd.hashlen, cd.table[i]? = some (chainOf (cells i))

/-- The cache holds the chains `t`. -/
def Holds (hashlen cap : ℕ) (cd : Cache) (t : ℕ → List CacheEntry) : Prop :=
  cd.hashlen = hashlen ∧ cd.chainlen = cap ∧ ∃ cells, Rep cd cells ∧ t = fun i => items (cells i)

theorem Rep.bucketOf {cd : Cache} {cells : ℕ → List (ℕ × CacheEntry)} (hr : Rep cd cells)
    (key : List UInt8) : bucketOf cd key = .ok (chainIndex cd.hashlen key) := by
  rw [Moc.bucketOf, if_neg hr.pos.ne', chainIndex]

theorem Rep.index_lt {cd : Cache} {cells : ℕ → List (ℕ × CacheEntry)} (hr : Rep cd cells)
    (key : List UInt8) : chainIndex cd.hashlen key < cd.hashlen :=
  Nat.mod_lt _ hr.pos

theorem Rep.chainAt {cd : Cache} {cells : ℕ → List (ℕ × CacheEntry)} (hr : Rep cd cells)
    (key : List UInt8) :
    chainAt cd (chainIndex cd.hashlen key) =
      .ok (chainOf (cells (chainIndex cd.hashlen key))) := by
  rw [Moc.chainAt, hr.chain _ (hr.index_lt key)]

/-- The cache with another heap, where the chain of `key` has the cells `cs`. -/
def Cache.withChain (cd : Cache) (key : List UInt8) (heap : Heap CacheEntry)
    (cs : List (ℕ × CacheEntry)) : Cache :=
  let table := cd.table.set (chainIndex cd.hashlen key) (chainOf cs)
  { cd with heap, table }

/-- A chain rewritten in the heap, with its record. -/
theorem Rep.withChain {cd : Cache} {cells : ℕ → List (ℕ × CacheEntry)} (hr : Rep cd cells)
    (key : List UInt8) {heap' : Heap CacheEntry} {cs' : List (ℕ × CacheEntry)}
    (hrw : Rewrites cd.heap (cells (chainIndex cd.hashlen key)) heap' cs') :
    Rep (cd.withChain key heap' cs') (Function.update cells (chainIndex cd.hashlen key) cs') := by
  have hi := hr.index_lt key
  unfold Cache.withChain
  generalize chainIndex cd.hashlen key = i at hrw hi ⊢
  refine ⟨hr.pos, hr.owns.update hrw, by simpa using hr.length_table, fun j hj => ?_⟩
  have hlen : i < cd.table.length := hr.length_table ▸ hi
  by_cases hji : j = i
  · rw [hji, Function.update_self]
    exact List.getElem?_set_self hlen
  · rw [Function.update_of_ne hji]
    simpa [List.getElem?_set_ne (Ne.symm hji)] using hr.chain j hj

/-- The entry that the cache has for a key, expired or not. -/
def entryOf (cd : Cache) (key : List UInt8) : Except Fault (Option CacheEntry) := do
  let e ← findInCache cd key
  match e with
  | none => return none
  | some e =>
    let n ← deref cd.heap (some e)
    return some n.item

/-- A call on `key` turned the chains of `cd` into those of `cd'`: the chain of the key became `l`,
and the others are as before. -/
def Turns (cd : Cache) (cells : ℕ → List (ℕ × CacheEntry)) (key : List UInt8) (cd' : Cache)
    (l : List CacheEntry) : Prop :=
  cd'.hashlen = cd.hashlen ∧ cd'.chainlen = cd.chainlen ∧
    ∃ cs', Rep cd' (Function.update cells (chainIndex cd.hashlen key) cs') ∧ items cs' = l

section
variable {cd : Cache} {cells : ℕ → List (ℕ × CacheEntry)} (hr : Rep cd cells) (key : List UInt8)
include hr

/-- A call that changes nothing. -/
theorem Rep.turns_self : Turns cd cells key cd (items (cells (chainIndex cd.hashlen key))) :=
  ⟨rfl, rfl, _, by rwa [Function.update_eq_self], rfl⟩

/-- A call that rewrites the key's chain. -/
theorem Rep.turns {heap' : Heap CacheEntry} {cs' : List (ℕ × CacheEntry)}
    (hrw : Rewrites cd.heap (cells (chainIndex cd.hashlen key)) heap' cs') :
    Turns cd cells key (cd.withChain key heap' cs') (items cs') :=
  ⟨rfl, rfl, cs', hr.withChain key hrw, rfl⟩

/-- A call that rewrites the key's chain and leaves its record as it was. -/
theorem Rep.turns_heap {heap' : Heap CacheEntry} {cs' : List (ℕ × CacheEntry)}
    (hrw : Rewrites cd.heap (cells (chainIndex cd.hashlen key)) heap' cs')
    (hsame : chainOf cs' = chainOf (cells (chainIndex cd.hashlen key))) :
    Turns cd cells key { cd with heap := heap' } (items cs') := by
  have hlt := hr.index_lt key
  have hset : cd.table.set (chainIndex cd.hashlen key) (chainOf cs') = cd.table := by
    rw [hsame]
    have hc := hr.chain _ hlt
    obtain ⟨hlen, heq⟩ := List.getElem?_eq_some_iff.mp hc
    rw [← heq, List.set_getElem_self]
  have hturns := hr.turns key hrw
  rwa [Cache.withChain, hset] at hturns

/-- Looking a key up in the cache, and what the lookup says about the entries of its chain. -/
theorem Rep.find_cases :
    (findInChain cd.heap (chainOf (cells (chainIndex cd.hashlen key))) key = .ok none ∧
        Recency.lookup CacheEntry.key key (items (cells (chainIndex cd.hashlen key))) = none) ∨
      ∃ xs c ys, cells (chainIndex cd.hashlen key) = xs ++ c :: ys ∧ c.2.key = key ∧
        (∀ e ∈ items xs, e.key ≠ c.2.key) ∧
        findInChain cd.heap (chainOf (cells (chainIndex cd.hashlen key))) key = .ok (some c.1) ∧
        deref cd.heap (some c.1) = .ok ⟨c.2, lastOr none xs, headOr none ys⟩ ∧
        Recency.lookup CacheEntry.key key (items (cells (chainIndex cd.hashlen key))) =
          some c.2 := by
  have hl := hr.owns.linked (chainIndex cd.hashlen key)
  rcases findInChain_cases hl (hr.owns.nodup _) key with h | ⟨xs, c, ys, hcs, hkey, hxs, hfind⟩
  · exact .inl h
  · refine .inr ⟨xs, c, ys, hcs, hkey, hkey ▸ hxs, hfind, ?_, ?_⟩
    · rw [hcs] at hl
      exact deref_some hl.lookup
    · exact Recency.lookup_eq_some.mpr ⟨hkey, items xs, items ys, by rw [hcs]; simp, hxs⟩

theorem Rep.findInCache :
    findInCache cd key =
      findInChain cd.heap (chainOf (cells (chainIndex cd.hashlen key))) key := by
  rw [Moc.findInCache, hr.bucketOf, ok_bind, hr.chainAt, ok_bind]

theorem Rep.entryOf : entryOf cd key =
    .ok (Recency.lookup CacheEntry.key key (items (cells (chainIndex cd.hashlen key)))) := by
  rw [Moc.entryOf, hr.findInCache]
  rcases hr.find_cases key with ⟨hfind, hnone⟩ | ⟨xs, c, ys, -, -, -, hfind, hderef, hsome⟩
  · rw [hfind, hnone]
    rfl
  · rw [hfind, hsome, ok_bind]
    simp only [hderef, ok_bind]
    rfl

/-- `cache_del` deletes the entry of the key from its chain. -/
theorem Rep.cacheDel_spec :
    ∃ cd', cacheDel cd key =
        .ok ((chainDel key (items (cells (chainIndex cd.hashlen key)))).1, cd') ∧
      Turns cd cells key cd' (chainDel key (items (cells (chainIndex cd.hashlen key)))).2 := by
  rcases hr.find_cases key with ⟨hfind, hnone⟩ | ⟨xs, c, ys, hcs, hkey, hxs, hfind, -, hsome⟩
  · refine ⟨cd, ?_, ?_⟩
    · rw [cacheDel, hr.bucketOf, ok_bind, hr.chainAt, ok_bind, hfind, ok_bind, chainDel, hnone]
      rfl
    · rw [chainDel, hnone]
      exact hr.turns_self key
  · have hl := hr.owns.linked (chainIndex cd.hashlen key)
    have hnd := hr.owns.nodup (chainIndex cd.hashlen key)
    rw [hcs] at hl hnd
    obtain ⟨hc, hxys⟩ := nodup_middle.mp hnd
    obtain ⟨heap', hunlink, hl', hframe⟩ := unlink_spec hl hnd
    have hnode := (hframe c.1 hc).trans hl.lookup
    have hrw : Rewrites cd.heap (cells (chainIndex cd.hashlen key)) (heap'.erase c.1) (xs ++ ys) :=
      hcs ▸ rewrites_erase hl' hxys (by simp) hc (by simp; tauto) hframe
    have hlen : (⟨(xs ++ c :: ys).length - 1, headOr none (xs ++ ys), lastOr none (xs ++ ys)⟩ :
        CacheChain) = chainOf (xs ++ ys) := by
      simp [chainOf]
    refine ⟨cd.withChain key (heap'.erase c.1) (xs ++ ys), ?_, ?_⟩
    · rw [cacheDel, hr.bucketOf, ok_bind, hr.chainAt, ok_bind, hfind, ok_bind, chainDel, hsome]
      simp only [hcs, hunlink, ok_bind, free_some hnode, pure_eq_ok, hlen, Cache.withChain]
    · have herase : Recency.erase CacheEntry.key key (items (xs ++ c :: ys)) = items (xs ++ ys) := by
        rw [items_append, items_cons, items_append, ← hkey, Recency.erase_split hxs]
      rw [chainDel, hsome, hcs]
      dsimp only
      rw [herase]
      exact hr.turns key hrw

/-- `cache_get` delivers the value of the key's entry, or deletes it past its expiry time. -/
theorem Rep.cacheGet_spec (now : ℤ) :
    ∃ cd', cacheGet cd now key =
        .ok ((chainGet now key (items (cells (chainIndex cd.hashlen key)))).1, cd') ∧
      Turns cd cells key cd' (chainGet now key (items (cells (chainIndex cd.hashlen key)))).2 := by
  rcases hr.find_cases key with ⟨hfind, hnone⟩ | ⟨xs, c, ys, hcs, -, -, hfind, hderef, hsome⟩
  · refine ⟨cd, ?_, ?_⟩
    · rw [cacheGet, hr.findInCache, hfind, ok_bind, chainGet, hnone]
      rfl
    · rw [chainGet, hnone]
      exact hr.turns_self key
  · rw [cacheGet, hr.findInCache, hfind, ok_bind, chainGet, hsome]
    simp only [hderef, ok_bind]
    by_cases hexp : 0 < c.2.expire ∧ c.2.expire < now
    · obtain ⟨cd', hdel, hturns⟩ := hr.cacheDel_spec key
      rw [chainDel, hsome] at hdel hturns
      simp only [if_pos hexp, hdel, ok_bind, pure_eq_ok]
      exact ⟨cd', rfl, hturns⟩
    · simp only [if_neg hexp, pure_eq_ok]
      exact ⟨cd, rfl, hr.turns_self key⟩

/-- `cache_set` puts the key's entry in front, when its allocations succeed. -/
theorem Rep.cacheSet_spec (malloc : Allocator CacheEntry) (hcap : 0 < cd.chainlen) (now : ℤ)
    (val : List UInt8) (timeout : ℤ) (granted : CacheAllocs) :
    ∃ cd', cacheSet malloc cd now key val timeout granted =
        .ok ((chainSet cd.chainlen now key val timeout granted
          (items (cells (chainIndex cd.hashlen key)))).1, cd') ∧
      Turns cd cells key cd' (chainSet cd.chainlen now key val timeout granted
        (items (cells (chainIndex cd.hashlen key)))).2 := by
  have hl := hr.owns.linked (chainIndex cd.hashlen key)
  have hnd := hr.owns.nodup (chainIndex cd.hashlen key)
  rw [cacheSet, hr.bucketOf, ok_bind, hr.chainAt, ok_bind]
  rcases hr.find_cases key with ⟨hfind, hnone⟩ | ⟨xs, c, ys, hcs, hkey, hxs, hfind, -, hsome⟩
  · -- The key is new.
    rw [hfind, ok_bind, chainSet, hnone]
    obtain ⟨ge, gk, gv⟩ := granted
    by_cases hgranted : (ge && gk && gv) = true
    · simp only [Bool.and_eq_true] at hgranted
      obtain ⟨⟨rfl, rfl⟩, rfl⟩ := hgranted
      obtain ⟨heap', cs', hput, hrw, hitems⟩ := putIn_spec hcap
        ⟨key, val, if timeout = 0 then 0 else now + timeout⟩ (malloc.fresh cd.heap) hl hnd
      refine ⟨cd.withChain key heap' cs', ?_, ?_⟩
      · simp only [Bool.not_true, Bool.false_eq_true, if_false, Bool.and_true, if_true, hput,
          ok_bind, pure_eq_ok, Cache.withChain]
      · have hnew : Recency.put CacheEntry.key cd.chainlen
              ⟨key, val, if timeout = 0 then 0 else now + timeout⟩
              (items (cells (chainIndex cd.hashlen key))) = items cs' := by
          rw [Recency.put, hnone, hitems]
          simp
        simp only [Bool.and_true, if_true, hnew]
        exact hr.turns key hrw
    · refine ⟨cd, ?_, ?_⟩
      · cases ge <;> cases gk <;> cases gv <;> simp_all
      · simp only [if_neg hgranted]
        exact hr.turns_self key
  · -- The key has an entry: its value is replaced and it moves to the front.
    rw [hfind, ok_bind, chainSet, hsome]
    by_cases hv : granted.val = true
    · rw [hcs] at hl hnd
      obtain ⟨heap₁, hset, hr₁⟩ := setVal_spec val hl hnd
      obtain ⟨heap', hpromote, hr₂⟩ := promote_spec hr₁.linked hr₁.nodup
      have hsame : chainOf (xs ++ (c.1, { c.2 with val := val }) :: ys) = chainOf (xs ++ c :: ys) := by
        simp [chainOf]
      rw [hsame] at hpromote
      refine ⟨cd.withChain key heap' ((c.1, { c.2 with val := val }) :: (xs ++ ys)), ?_, ?_⟩
      · simp only [hcs, hv, Bool.not_true, Bool.false_eq_true, if_false, if_true, hset, ok_bind,
          hpromote, pure_eq_ok, Cache.withChain]
      · have hput : Recency.put CacheEntry.key cd.chainlen { c.2 with val := val }
              (items (xs ++ c :: ys)) = items ((c.1, { c.2 with val := val }) :: (xs ++ ys)) := by
          have hlook : Recency.lookup CacheEntry.key key (items (xs ++ c :: ys)) = some c.2 :=
            hcs ▸ hsome
          rw [Recency.put]
          simp only [hkey, hlook, Option.isSome_some, if_true]
          rw [items_append, items_cons, ← hkey, Recency.erase_split hxs, items_cons, items_append]
        simp only [hv, if_true, hcs, hput]
        exact hr.turns key (hcs ▸ hr₁.trans hr₂)
    · simp only [hv, Bool.not_false, if_true, Bool.false_eq_true, if_false, pure_eq_ok]
      exact ⟨cd, rfl, hr.turns_self key⟩

/-- Writing a value into the key's entry replaces it in place. -/
theorem Rep.setVal_turns {xs ys : List (ℕ × CacheEntry)} {c : ℕ × CacheEntry} (v : List UInt8)
    (hcs : cells (chainIndex cd.hashlen key) = xs ++ c :: ys)
    (hxs : ∀ e ∈ items xs, e.key ≠ c.2.key) :
    ∃ heap', setVal cd.heap c.1 v = .ok heap' ∧
      Turns cd cells key { cd with heap := heap' }
        (Recency.replace CacheEntry.key { c.2 with val := v }
          (items (cells (chainIndex cd.hashlen key)))) := by
  have hl := hr.owns.linked (chainIndex cd.hashlen key)
  have hnd := hr.owns.nodup (chainIndex cd.hashlen key)
  rw [hcs] at hl hnd
  obtain ⟨heap', hset, hrw⟩ := setVal_spec v hl hnd
  refine ⟨heap', hset, ?_⟩
  have hreplace : Recency.replace CacheEntry.key { c.2 with val := v } (items (xs ++ c :: ys)) =
      items (xs ++ (c.1, { c.2 with val := v }) :: ys) := by
    rw [items_append, items_cons, items_append, items_cons]
    exact Recency.replace_split hxs rfl
  rw [hcs, hreplace]
  exact hr.turns_heap key (hcs ▸ hrw) (by rw [hcs]; simp [chainOf])

/-- `cache_cas` replaces the value when it is the old one. -/
theorem Rep.cacheCas_spec (oldval newval : List UInt8) (granted : Bool) :
    ∃ cd', cacheCas cd key oldval newval granted =
        .ok ((chainCas key oldval newval granted
          (items (cells (chainIndex cd.hashlen key)))).1, cd') ∧
      Turns cd cells key cd' (chainCas key oldval newval granted
        (items (cells (chainIndex cd.hashlen key)))).2 := by
  rw [cacheCas, hr.findInCache]
  rcases hr.find_cases key with ⟨hfind, hnone⟩ | ⟨xs, c, ys, hcs, hkey, hxs, hfind, hderef, hsome⟩
  · rw [hfind, ok_bind, chainCas, hnone]
    exact ⟨cd, rfl, hr.turns_self key⟩
  · rw [hfind, ok_bind, chainCas, hsome]
    simp only [hderef, ok_bind]
    by_cases hold : c.2.val = oldval
    · have hlen : ¬c.2.val.length ≠ oldval.length := not_not.mpr (congrArg _ hold)
      simp only [if_neg hlen, if_neg (not_not.mpr hold)]
      cases granted with
      | true =>
        obtain ⟨heap', hset, hturns⟩ := hr.setVal_turns key newval hcs hxs
        simp only [Bool.not_true, Bool.false_eq_true, if_false, hset, ok_bind, if_true, pure_eq_ok]
        exact ⟨_, rfl, hturns⟩
      | false =>
        simp only [Bool.not_false, if_true, Bool.false_eq_true, if_false, pure_eq_ok]
        exact ⟨cd, rfl, hr.turns_self key⟩
    · -- The two tests of the source come to one.
      refine ⟨cd, ?_, ?_⟩
      · simp only [if_pos hold, pure_eq_ok, ite_self]
      · simp only [if_pos hold]
        exact hr.turns_self key

/-- `cache_incr` computes the new number and the new value as `bumpVal` does. -/
theorem Rep.cacheIncr_spec (increment : ℤ) (granted : Bool) :
    match chainIncr key increment granted (items (cells (chainIndex cd.hashlen key))) with
    | .error f => cacheIncr cd key increment granted = .error f
    | .ok (o, l) => ∃ cd', cacheIncr cd key increment granted = .ok (o, cd') ∧
        Turns cd cells key cd' l := by
  rw [cacheIncr, hr.findInCache]
  rcases hr.find_cases key with ⟨hfind, hnone⟩ | ⟨xs, c, ys, hcs, hkey, hxs, hfind, hderef, hsome⟩
  · rw [hfind, ok_bind, chainIncr, hnone]
    exact ⟨cd, rfl, hr.turns_self key⟩
  · -- A failed increment writes the old value back in the list, which changes nothing.
    have hback : Recency.replace CacheEntry.key { c.2 with val := c.2.val }
        (items (cells (chainIndex cd.hashlen key))) = items (cells (chainIndex cd.hashlen key)) :=
      Recency.replace_found (hkey.symm ▸ hsome)
    rw [hfind, ok_bind, chainIncr, hsome]
    simp only [hderef, ok_bind, bumpVal]
    cases hlast : c.2.val.getLast? with
    | none => rfl
    | some b =>
      by_cases hb : b = 0
      · simp only [if_neg (not_not.mpr hb)]
        cases htext : loadStr c.2.val 0 with
        | error f => rfl
        | ok text =>
          simp only [ok_bind]
          cases hsum : addInt64 (strtoll text) increment with
          | error f => rfl
          | ok intval =>
            simp only [ok_bind]
            by_cases hfail : c.2.val.length < 24 ∧ (!granted) = true
            · simp only [if_pos hfail, pure_eq_ok, ok_bind, hback]
              exact ⟨cd, rfl, hr.turns_self key⟩
            · simp only [if_neg hfail]
              cases hwrite : writeCounter c.2.val intval with
              | error f => rfl
              | ok v =>
                obtain ⟨heap', hset, hturns⟩ := hr.setVal_turns key v hcs hxs
                simp only [ok_bind, hset, pure_eq_ok]
                exact ⟨_, rfl, hturns⟩
      · simp only [if_pos hb, pure_eq_ok, ok_bind, hback]
        exact ⟨cd, rfl, hr.turns_self key⟩

end

/-! ## The simulation -/

/-- The cache that a call leaves holds the chains with the key's one replaced. -/
theorem Turns.holds {cd cd' : Cache} {cells : ℕ → List (ℕ × CacheEntry)} {key : List UInt8}
    {l : List CacheEntry} (h : Turns cd cells key cd' l) :
    Holds cd.hashlen cd.chainlen cd'
      (Function.update (fun i => items (cells i)) (chainIndex cd.hashlen key) l) := by
  obtain ⟨hhash, hcap, cs', hrep, rfl⟩ := h
  refine ⟨hhash, hcap, _, hrep, ?_⟩
  funext i
  by_cases hi : i = chainIndex cd.hashlen key
  · rw [hi, Function.update_self, Function.update_self]
  · rw [Function.update_of_ne hi, Function.update_of_ne hi]

/-- Every call does to the linked chains what it does to the lists: it gives the same output, or
faults alike. -/
theorem cacheStep_agree (malloc : Allocator CacheEntry) {hashlen cap : ℕ} (hcap : 0 < cap)
    (cd : Cache) (t : ℕ → List CacheEntry) (i : ℤ × CacheOp) (h : Holds hashlen cap cd t) :
    Agree (Holds hashlen cap) (cacheStep malloc cd i) (chainsStep hashlen cap t i) := by
  obtain ⟨rfl, rfl, cells, hr, rfl⟩ := h
  obtain ⟨now, op⟩ := i
  cases op with
  | get key =>
    obtain ⟨cd', heq, hturns⟩ := hr.cacheGet_spec key now
    simp only [cacheStep, heq, ok_bind, pure_eq_ok, chainsStep, CacheOp.key, chainStep]
    exact ⟨rfl, hturns.holds⟩
  | set key val timeout granted =>
    obtain ⟨cd', heq, hturns⟩ := hr.cacheSet_spec key malloc hcap now val timeout granted
    simp only [cacheStep, heq, ok_bind, pure_eq_ok, chainsStep, CacheOp.key, chainStep]
    exact ⟨rfl, hturns.holds⟩
  | del key =>
    obtain ⟨cd', heq, hturns⟩ := hr.cacheDel_spec key
    simp only [cacheStep, heq, ok_bind, pure_eq_ok, chainsStep, CacheOp.key, chainStep]
    exact ⟨rfl, hturns.holds⟩
  | cas key oldval newval granted =>
    obtain ⟨cd', heq, hturns⟩ := hr.cacheCas_spec key oldval newval granted
    simp only [cacheStep, heq, ok_bind, pure_eq_ok, chainsStep, CacheOp.key, chainStep]
    exact ⟨rfl, hturns.holds⟩
  | incr key increment granted =>
    have hspec := hr.cacheIncr_spec key increment granted
    simp only [cacheStep, chainsStep, CacheOp.key, chainStep]
    cases hchain : chainIncr key increment granted (items (cells (chainIndex cd.hashlen key))) with
    | error f =>
      rw [hchain] at hspec
      rw [hspec]
      rfl
    | ok r =>
      obtain ⟨⟨rv, newval⟩, l⟩ := r
      rw [hchain] at hspec
      obtain ⟨cd', heq, hturns⟩ := hspec
      simp only [heq, ok_bind, pure_eq_ok]
      exact ⟨rfl, hturns.holds⟩

/-- What a call that does not fault did: the chain of its key went through `chainStep`. -/
theorem cacheStep_inv {malloc : Allocator CacheEntry} {hashlen cap : ℕ} (hcap : 0 < cap)
    {cd cd' : Cache} {t : ℕ → List CacheEntry} {i : ℤ × CacheOp} {o : CacheOut}
    (hcd : Holds hashlen cap cd t) (h : cacheStep malloc cd i = .ok (o, cd')) :
    ∃ l', chainStep cap (t (chainIndex hashlen i.2.key)) i = .ok (o, l') ∧
      Holds hashlen cap cd' (Function.update t (chainIndex hashlen i.2.key) l') := by
  have hagree := cacheStep_agree malloc hcap cd t i hcd
  rw [h, chainsStep] at hagree
  cases hc : chainStep cap (t (chainIndex hashlen i.2.key)) i with
  | error f =>
    simp only [hc, error_bind] at hagree
    exact hagree.elim
  | ok r =>
    simp only [hc, ok_bind, pure_eq_ok] at hagree
    obtain ⟨rfl, hholds⟩ := hagree
    exact ⟨r.2, rfl, hholds⟩

theorem Holds.entryOf {hashlen cap : ℕ} {cd : Cache} {t : ℕ → List CacheEntry}
    (h : Holds hashlen cap cd t) (key : List UInt8) :
    entryOf cd key = .ok (Recency.lookup CacheEntry.key key (t (chainIndex hashlen key))) := by
  obtain ⟨rfl, rfl, cells, hr, rfl⟩ := h
  exact hr.entryOf key

/-- A new cache holds empty chains. -/
theorem cacheCreate_holds {numobjs flags : ℕ} {gc gt : Bool} {cd : Cache} (hnum : 4 ≤ numobjs)
    (h : cacheCreate numobjs flags gc gt = .ok (some cd)) :
    Holds (numobjs / 4) 4 cd fun _ => [] := by
  simp only [cacheCreate] at h
  split_ifs at h
  · cases h
  obtain rfl := Option.some.inj (Except.ok.inj h)
  refine ⟨rfl, rfl, fun _ => [], ⟨?_, ⟨?_, ?_, ?_⟩, by simp, ?_⟩, rfl⟩
  · exact Nat.div_pos hnum (by norm_num)
  · exact fun _ => trivial
  · exact fun _ => List.nodup_nil
  · exact fun _ _ _ hmem => absurd hmem List.not_mem_nil
  · intro i hi
    rw [List.getElem?_replicate_of_lt hi]
    rfl

end Moc
