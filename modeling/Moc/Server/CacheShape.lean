import Mathlib.Algebra.Order.BigOperators.Group.List
import Moc.Server.CacheExpiry

/-!
# The shape of the chains

What holds of the pointers of every cache that calls can reach (`run_wellFormed`): each chain is a
doubly linked list with both ends right, its length and the place of its keys included. It is read
off the lists behind the cache, which every call keeps `Shelved`. How long the chains get is another
matter: `cache_set` tests `len <= chainlen` before it adds an entry, so a chain can hold one entry
more than it is meant to (`always_roomy_iff`).
-/

open Bytes Memory Decimal Dll Runs

namespace Moc

/-! ## Where the entries are -/

/-- Every key is in the chain that it hashes to, once. -/
structure Shelved (hashlen : ℕ) (t : ℕ → List CacheEntry) : Prop where
  /-- No two entries of a chain have one key. -/
  distinct : ∀ i, Recency.Distinct CacheEntry.key (t i)
  /-- The keys of a chain hash to its index. -/
  index : ∀ i, ∀ e ∈ t i, chainIndex hashlen e.key = i

/-- An entry of a chain after a call was there before, or has the key of the call. -/
theorem mem_chainStep {cap : ℕ} {l l' : List CacheEntry} {now : ℤ} {op : CacheOp} {o : CacheOut}
    (h : chainStep cap l (now, op) = .ok (o, l')) {e : CacheEntry} (he : e ∈ l') :
    e ∈ l ∨ e.key = op.key := by
  rcases chainStep_cases h with rfl | rfl | ⟨x, hx, rfl⟩ | ⟨-, x, hx, rfl⟩
  · exact .inl he
  · exact .inl (List.mem_of_mem_eraseP he)
  · exact (mem_replace he).elim (fun h => .inr (h ▸ hx)) .inl
  · exact (mem_put he).elim (fun h => .inr (h ▸ hx)) .inl

/-- A call keeps every entry in its chain. -/
theorem Shelved.step {hashlen cap : ℕ} {t : ℕ → List CacheEntry} (hs : Shelved hashlen t)
    {now : ℤ} {op : CacheOp} {o : CacheOut} {l' : List CacheEntry}
    (h : chainStep cap (t (chainIndex hashlen op.key)) (now, op) = .ok (o, l')) :
    Shelved hashlen (Function.update t (chainIndex hashlen op.key) l') := by
  refine ⟨fun i => ?_, fun i e he => ?_⟩ <;> by_cases hi : i = chainIndex hashlen op.key
  · rw [hi, Function.update_self]
    exact chainStep_distinct (hs.distinct _) h
  · rw [Function.update_of_ne hi]
    exact hs.distinct i
  · rw [hi, Function.update_self] at he
    rcases mem_chainStep h he with hmem | hkey
    · exact (hs.index _ e hmem).trans hi.symm
    · rw [hkey, hi]
  · rw [Function.update_of_ne hi] at he
    exact hs.index i e he

/-- What holds of every cache that calls can reach: it is the linked form of chains that are
`Shelved`. -/
def Reached (hashlen cap : ℕ) (cd : Cache) : Prop :=
  ∃ t, Holds hashlen cap cd t ∧ Shelved hashlen t

theorem cacheCreate_reached {numobjs flags : ℕ} {gc gt : Bool} {cd : Cache} (hnum : 4 ≤ numobjs)
    (hcd : cacheCreate numobjs flags gc gt = .ok (some cd)) : Reached (numobjs / 4) 4 cd :=
  ⟨_, cacheCreate_holds hnum hcd, fun _ => List.nodup_nil, by simp⟩

theorem Reached.step {malloc : Allocator CacheEntry} {hashlen cap : ℕ} (hcap : 0 < cap)
    {cd cd' : Cache} {i : ℤ × CacheOp} {o : CacheOut} (hcd : Reached hashlen cap cd)
    (h : cacheStep malloc cd i = .ok (o, cd')) : Reached hashlen cap cd' := by
  obtain ⟨t, ht, hs⟩ := hcd
  obtain ⟨l', hstep, ht'⟩ := cacheStep_inv hcap ht h
  exact ⟨_, ht', hs.step hstep⟩

/-- A bound on the lists bounds the chains. -/
theorem Holds.table_len_le {hashlen cap bound : ℕ} {cd : Cache} {t : ℕ → List CacheEntry}
    (hcd : Holds hashlen cap cd t) (hlen : ∀ i, (t i).length ≤ bound) :
    ∀ c ∈ cd.table, c.len ≤ bound := by
  obtain ⟨rfl, rfl, cells, hr, rfl⟩ := hcd
  intro c hc
  obtain ⟨i, hi, hci⟩ := List.getElem_of_mem hc
  have hchain := hr.chain i (hr.length_table ▸ hi)
  rw [List.getElem?_eq_getElem hi, hci] at hchain
  rw [Option.some.inj hchain, chainOf, ← length_items]
  exact hlen i

/-- Every cache that a run from `cache_create` leaves. -/
theorem run_reached {malloc : Allocator CacheEntry} {numobjs flags : ℕ} {gc gt : Bool}
    {cd cd' : Cache} (hnum : 4 ≤ numobjs)
    (hcd : cacheCreate numobjs flags gc gt = .ok (some cd)) {is : List (ℤ × CacheOp)}
    {os : List CacheOut} (hrun : run (cacheStep malloc) cd is = .ok (os, cd')) :
    Reached (numobjs / 4) 4 cd' :=
  run_keeps (fun _ _ _ _ hs h => hs.step (by norm_num) h) (cacheCreate_reached hnum hcd) hrun

/-! ## Well-formed chains -/

/-- The key of the entry at an address. -/
def keyAt (heap : Heap CacheEntry) (a : ℕ) : Option (List UInt8) :=
  (heap.lookup a).map fun n => n.item.key

/-- The chain `c` at index `i` of the table is well formed. -/
structure WellFormed (cd : Cache) (i : ℕ) (c : CacheChain) : Prop where
  /-- `first->prev` is NULL. -/
  first_prev : c.first ≠ none → ∃ n, deref cd.heap c.first = .ok n ∧ n.prev = none
  /-- `last->next` is NULL. -/
  last_next : c.last ≠ none → ∃ n, deref cd.heap c.last = .ok n ∧ n.next = none
  /-- Both ends are NULL or none is. -/
  ends : c.first = none ↔ c.last = none
  /-- They are when the chain is empty. -/
  empty : c.last = none ↔ c.len = 0
  /-- The two ways through the chain visit the same `len` entries in opposite orders. No two of
  them have equal keys, and every key hashes to the chain's index. -/
  walks : ∃ as, walk cd.heap Node.next cd.heap.keys.length c.first = .ok as ∧
    walk cd.heap Node.prev cd.heap.keys.length c.last = .ok as.reverse ∧
    c.len = as.length ∧ (as.map (keyAt cd.heap)).Nodup ∧
    ∀ a ∈ as, ∃ n, deref cd.heap (some a) = .ok n ∧ chainIndex cd.hashlen n.item.key = i

/-- The record of a linked list of cells is well formed, when its keys are. -/
theorem Rep.wellFormed {cd : Cache} {cells : ℕ → List (ℕ × CacheEntry)} (hr : Rep cd cells)
    (hs : Shelved cd.hashlen fun i => items (cells i)) (i : ℕ) :
    WellFormed cd i (chainOf (cells i)) := by
  have hl := hr.owns.linked i
  have hfuel := hl.length_le (hr.owns.nodup i)
  have hdistinct := hs.distinct i
  have hindex := hs.index i
  generalize cells i = cs at hl hfuel hdistinct hindex
  have hnode : ∀ a ∈ addrs cs, ∃ c ∈ cs, ∃ n, cd.heap.lookup a = some n ∧ n.item = c.2 := by
    intro a ha
    obtain ⟨c, hc, rfl⟩ := List.mem_map.mp ha
    obtain ⟨xs, ys, rfl⟩ := List.append_of_mem hc
    exact ⟨c, hc, _, hl.lookup, rfl⟩
  have hkeys : (addrs cs).map (keyAt cd.heap) = (items cs).map (some ∘ CacheEntry.key) := by
    simp only [addrs, items, List.map_map, List.map_inj_left]
    intro c hc
    obtain ⟨xs, ys, rfl⟩ := List.append_of_mem hc
    simp [keyAt, hl.lookup]
  refine ⟨?_, ?_, ?_, ?_, addrs cs, walk_next hl hfuel, walk_prev hl hfuel, ?_, ?_, ?_⟩
  · intro hne
    cases cs with
    | nil => exact absurd rfl hne
    | cons c cs => exact ⟨_, deref_some hl.1, rfl⟩
  · intro hne
    rcases List.eq_nil_or_concat' cs with rfl | ⟨xs, c, rfl⟩
    · exact absurd rfl hne
    · refine ⟨⟨c.2, lastOr none xs, none⟩, ?_, rfl⟩
      rw [chainOf, lastOr_append]
      exact deref_some hl.lookup
  · exact headOr_eq_none.trans lastOr_eq_none.symm
  · exact lastOr_eq_none.trans List.length_eq_zero_iff.symm
  · simp [chainOf, addrs]
  · rw [hkeys, ← List.map_map]
    exact hdistinct.map (Option.some_injective _)
  · intro a ha
    obtain ⟨c, hc, n, hn, hitem⟩ := hnode a ha
    exact ⟨n, deref_some hn, hitem ▸ hindex c.2 (List.mem_map_of_mem hc)⟩

/-- The chains of a cache that calls can reach are well formed. -/
theorem Reached.wellFormed {hashlen cap : ℕ} {cd : Cache} (hcd : Reached hashlen cap cd) :
    cd.table.length = cd.hashlen ∧ ∀ i c, cd.table[i]? = some c → WellFormed cd i c := by
  obtain ⟨t, ⟨rfl, rfl, cells, hr, rfl⟩, hs⟩ := hcd
  refine ⟨hr.length_table, fun i c hc => ?_⟩
  have hi : i < cd.hashlen := by
    rw [← hr.length_table]
    exact (List.getElem?_eq_some_iff.mp hc).1
  obtain rfl := Option.some.inj ((hr.chain i hi).symm.trans hc)
  exact hr.wellFormed hs i

/-- Every chain of every cache that calls can reach is well formed. -/
theorem run_wellFormed {numobjs flags : ℕ} {gc gt : Bool} {cd : Cache} (hnum : 4 ≤ numobjs)
    (hcd : cacheCreate numobjs flags gc gt = .ok (some cd)) (malloc : Allocator CacheEntry)
    {is : List (ℤ × CacheOp)} {os : List CacheOut} {cd' : Cache}
    (hrun : run (cacheStep malloc) cd is = .ok (os, cd')) :
    cd'.table.length = cd'.hashlen ∧ ∀ i c, cd'.table[i]? = some c → WellFormed cd' i c :=
  (run_reached hnum hcd hrun).wellFormed

/-- A chain of three keys, one set twice, another one deleted. -/
def shapeCalls : List (ℤ × CacheOp) :=
  [(1, .set [97] [1] 0 .granted), (1, .set [98] [2] 0 .granted), (2, .set [99] [3] 0 .granted),
    (3, .set [97] [4] 0 .granted), (4, .del [98])]

/-- The chain of the two entries left. -/
theorem run_wellFormed_shapeCalls :
    ∃ cd cd' os c, cacheCreate 4 0 true true = .ok (some cd) ∧
      run (cacheStep bump) cd shapeCalls = .ok (os, cd') ∧ cd'.table[0]? = some c ∧ c.len = 2 ∧
      WellFormed cd' 0 c := by
  have hcreate : cacheCreate 4 0 true true = .ok (some ⟨4, 0, 1, 4, [⟨0, none, none⟩], ∅⟩) := rfl
  have hend : ∃ r ∈ (run (cacheStep bump) ⟨4, 0, 1, 4, [⟨0, none, none⟩], ∅⟩ shapeCalls).toOption,
      ∃ c ∈ r.2.table[0]?, c.len = 2 := by
    decide +kernel
  obtain ⟨r, hr, c, hc, hlen⟩ := hend
  have hrun : run (cacheStep bump) ⟨4, 0, 1, 4, [⟨0, none, none⟩], ∅⟩ shapeCalls = .ok r := by
    cases hcase : run (cacheStep bump) ⟨4, 0, 1, 4, [⟨0, none, none⟩], ∅⟩ shapeCalls with
    | error f => simp [hcase, Except.toOption] at hr
    | ok p => simpa [hcase, Except.toOption] using hr
  exact ⟨_, r.2, r.1, c, hcreate, hrun, hc, hlen, (run_wellFormed le_rfl hcreate bump hrun).2 0 c hc⟩

/-! ## How long the chains get -/

/-- A call makes a chain longer only when it sets a new key and the chain is not over the meant
length. -/
theorem chainStep_length {cap : ℕ} {l l' : List CacheEntry} {now : ℤ} {op : CacheOp} {o : CacheOut}
    (h : chainStep cap l (now, op) = .ok (o, l')) :
    l'.length ≤ l.length ∨
      l'.length = l.length + 1 ∧ l.length ≤ cap ∧
        Recency.lookup CacheEntry.key op.key l = none ∧
        ∃ val timeout, op = .set op.key val timeout .granted := by
  rcases chainStep_cases h with rfl | rfl | ⟨e, -, rfl⟩ | ⟨⟨val, timeout, granted, hop⟩, -⟩
  · exact .inl le_rfl
  · exact .inl (Recency.length_erase_le _ l)
  · exact .inl (Recency.length_replace e l).le
  · -- A set of a new key, with its allocations, is the only call that adds an entry.
    generalize op.key = key at hop
    subst hop
    simp only [chainStep, Except.ok.injEq, Prod.mk.injEq] at h
    obtain ⟨-, rfl⟩ := h
    unfold chainSet
    cases hlook : Recency.lookup CacheEntry.key key l with
    | none =>
      obtain ⟨ge, gk, gv⟩ := granted
      by_cases hg : (ge && gk && gv) = true
      · simp only [if_pos hg, Recency.length_put, hlook, true_and]
        simp only [Bool.and_eq_true] at hg
        obtain ⟨⟨rfl, rfl⟩, rfl⟩ := hg
        by_cases hle : l.length ≤ cap
        · rw [if_pos hle]
          exact .inr ⟨rfl, hle, _, _, rfl⟩
        · rw [if_neg hle]
          exact .inl le_rfl
      · simp only [if_neg hg]
        exact .inl le_rfl
    | some e =>
      obtain ⟨-, hkey⟩ := lookup_mem hlook
      dsimp only
      split_ifs
      · simp [Recency.length_put, hkey, hlook]
      · exact .inl le_rfl

/-- A chain holds at most one entry more than it is meant to. -/
theorem run_len_le {numobjs flags : ℕ} {gc gt : Bool} {cd : Cache} (hnum : 4 ≤ numobjs)
    (hcd : cacheCreate numobjs flags gc gt = .ok (some cd)) (malloc : Allocator CacheEntry)
    {is : List (ℤ × CacheOp)} {os : List CacheOut} {cd' : Cache}
    (hrun : run (cacheStep malloc) cd is = .ok (os, cd')) :
    ∀ c ∈ cd'.table, c.len ≤ cd'.chainlen + 1 := by
  have hstart : ∃ t, Holds (numobjs / 4) 4 cd t ∧ ∀ i, (t i).length ≤ 4 + 1 :=
    ⟨_, cacheCreate_holds hnum hcd, by simp⟩
  have hbound : ∃ t, Holds (numobjs / 4) 4 cd' t ∧ ∀ i, (t i).length ≤ 4 + 1 := by
    refine run_keeps (I := fun cd => ∃ t, Holds (numobjs / 4) 4 cd t ∧ ∀ i, (t i).length ≤ 4 + 1)
      (fun s i o s' hs h => ?_) hstart hrun
    obtain ⟨t, ht, hlen⟩ := hs
    obtain ⟨l', hstep, ht'⟩ := cacheStep_inv (by norm_num) ht h
    refine ⟨_, ht', fun j => ?_⟩
    by_cases hj : j = chainIndex (numobjs / 4) i.2.key
    · rw [hj, Function.update_self]
      rcases chainStep_length hstep with hle | ⟨heq, hle, -⟩
      · exact hle.trans (hlen _)
      · omega
    · rw [Function.update_of_ne hj]
      exact hlen j
  obtain ⟨t, ht, hlen⟩ := hbound
  have hcap : cd'.chainlen = 4 := ht.2.1
  rw [hcap]
  exact ht.table_len_le hlen

/-- The cache after one more call of a run. A run ends (`none`) when a call faults. -/
def Cache.next (malloc : Allocator CacheEntry) (cd : Option Cache) (i : ℤ × CacheOp) :
    Option Cache :=
  cd.bind fun cd =>
    match cacheStep malloc cd i with
    | .error _ => none
    | .ok (_, cd') => some cd'

/-- No chain is longer than it is meant to be, and the cache holds no more than the `numobjs`
entries that its creator asked for. -/
def Roomy (numobjs : ℕ) : Option Cache → Prop
  | none => True
  | some cd => (∀ c ∈ cd.table, c.len ≤ cd.chainlen) ∧
      (cd.table.map CacheChain.len).sum ≤ numobjs

/-- A set of a new key that gets its memory finds fewer than `chainlen` entries in its chain. -/
def FindsRoom : Option Cache → ℤ × CacheOp → Prop
  | some cd, (_, .set key _ _ granted) => granted = .granted → findInCache cd key = .ok none →
      ∀ c ∈ cd.table[chainIndex cd.hashlen key]?, c.len < cd.chainlen
  | _, _ => True

instance (numobjs : ℕ) : DecidablePred (Roomy numobjs)
  | none => inferInstanceAs (Decidable True)
  | some _ => inferInstanceAs (Decidable (_ ∧ _))

instance : (cd : Option Cache) → (i : ℤ × CacheOp) → Decidable (FindsRoom cd i)
  | some _, (_, .set _ _ _ _) => inferInstanceAs (Decidable (_ → _ → ∀ c ∈ _, _))
  | some _, (_, .get _) => .isTrue trivial
  | some _, (_, .del _) => .isTrue trivial
  | some _, (_, .cas _ _ _ _) => .isTrue trivial
  | some _, (_, .incr _ _ _) => .isTrue trivial
  | none, _ => .isTrue trivial

/-- The lists behind a cache are no longer than they are meant to be. -/
def RoomyInv (hashlen cap : ℕ) : Option Cache → Prop
  | none => True
  | some cd => ∃ t, Holds hashlen cap cd t ∧ ∀ i, (t i).length ≤ cap

theorem RoomyInv.roomy {hashlen cap numobjs : ℕ} (hnum : hashlen * cap ≤ numobjs)
    {cd : Option Cache} (hcd : RoomyInv hashlen cap cd) : Roomy numobjs cd := by
  cases cd with
  | none => trivial
  | some cd =>
    obtain ⟨t, ht, hlen⟩ := hcd
    have hchains := ht.table_len_le hlen
    obtain ⟨rfl, rfl, cells, hr, rfl⟩ := ht
    refine ⟨hchains, ?_⟩
    calc (cd.table.map CacheChain.len).sum
        ≤ (cd.table.map CacheChain.len).length • cd.chainlen :=
          List.sum_le_card_nsmul _ _ (by simpa using hchains)
      _ = cd.hashlen * cd.chainlen := by simp [hr.length_table]
      _ ≤ numobjs := hnum

/-- A call that finds room keeps the chains within their bound. -/
theorem RoomyInv.next {malloc : Allocator CacheEntry} {hashlen cap : ℕ} (hcap : 0 < cap)
    {cd : Option Cache} {i : ℤ × CacheOp} (hcd : RoomyInv hashlen cap cd) (hG : FindsRoom cd i) :
    RoomyInv hashlen cap (Cache.next malloc cd i) := by
  cases cd with
  | none => trivial
  | some cd =>
    obtain ⟨t, ht, hlen⟩ := hcd
    rw [Cache.next, Option.bind_some]
    cases hstep : cacheStep malloc cd i with
    | error f => exact True.intro
    | ok r =>
      obtain ⟨o, cd'⟩ := r
      obtain ⟨l', hchain, ht'⟩ := cacheStep_inv hcap ht hstep
      refine ⟨_, ht', fun j => ?_⟩
      by_cases hj : j = chainIndex hashlen i.2.key
      · rw [hj, Function.update_self]
        rcases chainStep_length hchain with hle | ⟨heq, -, hnone, val, timeout, hop⟩
        · exact hle.trans (hlen _)
        · -- The chain had room for the new entry.
          obtain ⟨rfl, rfl, cells, hr, rfl⟩ := ht
          obtain ⟨now, op⟩ := i
          dsimp only at hop hnone heq hG ⊢
          generalize op.key = key at *
          subst hop
          have hfind : findInCache cd key = .ok none := by
            rw [hr.findInCache]
            rcases hr.find_cases key with ⟨hfind, -⟩ | ⟨_, _, _, _, _, _, _, _, hsome⟩
            · exact hfind
            · exact absurd (hnone.symm.trans hsome) (by simp)
          have hroom := hG rfl hfind _ (hr.chain _ (hr.index_lt key))
          rw [heq, length_items]
          exact hroom
      · rw [Function.update_of_ne hj]
        exact hlen j

/-- A set of a new key into a chain of the length that it is meant to have makes it too long. -/
theorem not_roomy_next {malloc : Allocator CacheEntry} {hashlen cap numobjs : ℕ} (hcap : 0 < cap)
    {cd : Option Cache} {i : ℤ × CacheOp} (hcd : RoomyInv hashlen cap cd) (hG : ¬FindsRoom cd i) :
    ¬Roomy numobjs (Cache.next malloc cd i) := by
  cases cd with
  | none => exact absurd trivial hG
  | some cd =>
    obtain ⟨now, op⟩ := i
    cases op with
    | set key val timeout granted =>
      obtain ⟨t, ⟨rfl, rfl, cells, hr, rfl⟩, hlen⟩ := hcd
      simp only [FindsRoom, Classical.not_imp, not_forall, not_lt] at hG
      obtain ⟨rfl, hfind, c, hc, hfull⟩ := hG
      obtain rfl := Option.some.inj ((hr.chain _ (hr.index_lt key)).symm.trans hc)
      have hnone : Recency.lookup CacheEntry.key key
          (items (cells (chainIndex cd.hashlen key))) = none := by
        rcases hr.find_cases key with ⟨-, hnone⟩ | ⟨_, _, _, _, _, _, hsome, _, _⟩
        · exact hnone
        · rw [← hr.findInCache, hfind] at hsome
          cases hsome
      have hle := hlen (chainIndex cd.hashlen key)
      rw [length_items] at hle
      -- The set succeeds, and its chain has one entry more.
      obtain ⟨cd', hset, hhash, hsame, cs', hr', hcs'⟩ :=
        hr.cacheSet_spec key malloc hcap now val timeout .granted
      have hlen' : cs'.length = (cells (chainIndex cd.hashlen key)).length + 1 := by
        rw [← length_items cs', hcs', chainSet, hnone]
        simp only [CacheAllocs.granted, Bool.and_self, if_true, Recency.length_put, hnone,
          length_items, hle, and_self]
      have hidx : chainIndex cd.hashlen key < cd'.hashlen := by
        rw [hhash]
        exact hr.index_lt key
      have hchain := hr'.chain _ hidx
      rw [Function.update_self] at hchain
      have hnext : Cache.next malloc (some cd) (now, .set key val timeout .granted) = some cd' := by
        simp only [Cache.next, Option.bind_some, cacheStep, hset, ok_bind, pure_eq_ok]
      rw [hnext]
      intro hroomy
      have hbound : (chainOf cs').len ≤ cd'.chainlen := hroomy.1 _ (List.mem_of_getElem? hchain)
      rw [hsame, chainOf, hlen'] at hbound
      exact Nat.not_succ_le_self _ (hbound.trans hfull)
    | _ => exact absurd trivial hG

/-- The chains of a run stay within their bound exactly when every set in it of a new key that gets
its memory finds room. -/
theorem always_roomy_iff {numobjs flags : ℕ} {gc gt : Bool} {cd : Cache} (hnum : 4 ≤ numobjs)
    (hcd : cacheCreate numobjs flags gc gt = .ok (some cd)) (malloc : Allocator CacheEntry)
    (is : List (ℤ × CacheOp)) :
    Always (Cache.next malloc) (Roomy numobjs) (some cd) is ↔
      EachStep (Cache.next malloc) FindsRoom (some cd) is := by
  have hstart : RoomyInv (numobjs / 4) 4 (some cd) := ⟨_, cacheCreate_holds hnum hcd, by simp⟩
  have hroomy : ∀ cd, RoomyInv (numobjs / 4) 4 cd → Roomy numobjs cd :=
    fun _ h => h.roomy (Nat.div_mul_le_self numobjs 4)
  have hkeep : ∀ cd i, RoomyInv (numobjs / 4) 4 cd → True → FindsRoom cd i →
      RoomyInv (numobjs / 4) 4 (Cache.next malloc cd i) :=
    fun _ _ h _ hG => h.next (by norm_num) hG
  have hbreak : ∀ cd i, RoomyInv (numobjs / 4) 4 cd → True → ¬FindsRoom cd i →
      ¬Roomy numobjs (Cache.next malloc cd i) :=
    fun _ _ h _ hG => not_roomy_next (by norm_num) h hG
  exact always_iff_eachStep hroomy hkeep hbreak hstart
    (eachStep_of_forall (fun _ _ => trivial) _ is)

/-- Four keys in one chain. -/
def fourKeys : List (ℤ × CacheOp) :=
  [(1, .set [97] [1] 0 .granted), (1, .set [98] [2] 0 .granted), (1, .set [99] [3] 0 .granted),
    (1, .set [100] [4] 0 .granted)]

theorem always_roomy_fourKeys :
    Always (Cache.next bump) (Roomy 4) (some sampleCache) fourKeys := by
  have hcreate : cacheCreate 4 0 true true = .ok (some sampleCache) := rfl
  refine (always_roomy_iff le_rfl hcreate bump fourKeys).mpr ?_
  decide +kernel

/-- The fifth key makes the chain, and the cache, too long. -/
theorem not_always_roomy_five :
    cacheCreate 4 0 true true = .ok (some sampleCache) ∧
      ¬Always (Cache.next bump) (Roomy 4) (some sampleCache)
        (fourKeys ++ [(1, .set [101] [5] 0 .granted)]) := by
  refine ⟨rfl, fun h => ?_⟩
  have hlast : ¬Roomy 4 (Cache.next bump (fourKeys.foldl (Cache.next bump) (some sampleCache))
      (1, .set [101] [5] 0 .granted)) := by
    decide +kernel
  exact hlast (always_append h).2.2

end Moc
