import Moc.Server.CacheChains

/-!
# The cache as a bounded map

What the cache is for, when nothing expires and allocations succeed: each chain is a list of
key-value pairs in order of the last set, and a set of a new key into a chain that is over the
meant length drops the pair at its end. `refStep` is that map, and `cacheRun_refRun` says that a
cache gives the outputs of the map on every run, and that no call touches another key, apart from
the one eviction.
-/

open Bytes Memory Decimal Dll Runs

namespace Moc

/-! ## The map -/

/-- A chain of the map: the pair set last comes first. -/
abbrev Pairs := List (List UInt8 × List UInt8)

/-- The text of a value up to its first NUL. -/
def cText (val : List UInt8) : List UInt8 := val.takeWhile (· ≠ 0)

/-- The value that counts as `n`: the number in 23 columns and a NUL, over the start of the value
before. -/
def counterVal (val : List UInt8) (n : ℤ) : List UInt8 :=
  padLeft 23 (print n) ++ [0] ++ val.drop 24

/-- One call on the chain of its key. -/
def refChain (cap : ℕ) (l : Pairs) : CacheOp → CacheOut × Pairs
  | .get key =>
    match Recency.lookup Prod.fst key l with
    | none => (⟨0, none, none⟩, l)
    | some p => (⟨1, some p.2, none⟩, l)
  | .set key val _ _ => (⟨1, none, none⟩, Recency.put Prod.fst cap (key, val) l)
  | .del key =>
    match Recency.lookup Prod.fst key l with
    | none => (⟨0, none, none⟩, l)
    | some _ => (⟨1, none, none⟩, Recency.erase Prod.fst key l)
  | .cas key oldval newval _ =>
    match Recency.lookup Prod.fst key l with
    | none => (⟨-1, none, none⟩, l)
    | some p =>
      if p.2 = oldval then (⟨1, none, none⟩, Recency.replace Prod.fst (key, newval) l)
      else (⟨0, none, none⟩, l)
  | .incr key increment _ =>
    match Recency.lookup Prod.fst key l with
    | none => (⟨-1, none, none⟩, l)
    | some p =>
      if p.2.getLast? = some 0 then
        let n := strtoll (cText p.2) + increment
        (⟨1, none, some n⟩, Recency.replace Prod.fst (key, counterVal p.2 n) l)
      else (⟨-2, none, none⟩, l)

/-- One call: only the chain of its key changes. -/
def refStep (hashlen cap : ℕ) (r : ℕ → Pairs) (op : CacheOp) : CacheOut × (ℕ → Pairs) :=
  let h := chainIndex hashlen op.key
  let (o, l) := refChain cap (r h) op
  (o, Function.update r h l)

/-- The outputs of a sequence of calls and the map they leave. -/
def refRun (hashlen cap : ℕ) (r : ℕ → Pairs) : List (ℤ × CacheOp) → List CacheOut × (ℕ → Pairs)
  | [] => ([], r)
  | i :: is =>
    let (o, r) := refStep hashlen cap r i.2
    let (os, r) := refRun hashlen cap r is
    (o :: os, r)

/-- A call without a timeout, with values that are not empty and successful allocations, where the
sum that an increment computes is a 64-bit integer. -/
def Plain (hashlen : ℕ) (r : ℕ → Pairs) : CacheOp → Prop
  | .get _ => True
  | .set _ val timeout granted => val ≠ [] ∧ timeout = 0 ∧ granted = .granted
  | .del _ => True
  | .cas _ _ newval granted => newval ≠ [] ∧ granted = true
  | .incr key increment granted => granted = true ∧
      ∀ p ∈ Recency.lookup Prod.fst key (r (chainIndex hashlen key)), p.2.getLast? = some 0 →
        int64Min ≤ strtoll (cText p.2) + increment ∧ strtoll (cText p.2) + increment ≤ int64Max

instance (hashlen : ℕ) (r : ℕ → Pairs) : DecidablePred (Plain hashlen r)
  | .get _ => inferInstanceAs (Decidable True)
  | .set _ _ _ _ => inferInstanceAs (Decidable (_ ∧ _ ∧ _))
  | .del _ => inferInstanceAs (Decidable True)
  | .cas _ _ _ _ => inferInstanceAs (Decidable (_ ∧ _))
  | .incr _ _ _ => inferInstanceAs (Decidable (_ ∧ ∀ p ∈ _, _))

/-- Every call of a sequence is plain, on the map that the calls before it leave. -/
abbrev PlainRun (hashlen cap : ℕ) (r : ℕ → Pairs) (is : List (ℤ × CacheOp)) : Prop :=
  EachStep (fun r i => (refStep hashlen cap r i.2).2) (fun r i => Plain hashlen r i.2) r is

/-! ## The chains and the map -/

/-- What the map keeps of an entry. -/
def pair (e : CacheEntry) : List UInt8 × List UInt8 := (e.key, e.val)

/-- The entries of a chain without timeouts. -/
structure Lasting (l : List CacheEntry) : Prop where
  /-- No entry expires. -/
  expire : ∀ e ∈ l, e.expire = 0
  /-- No value is empty. -/
  val : ∀ e ∈ l, e.val ≠ []
  /-- No two entries have one key. -/
  distinct : Recency.Distinct CacheEntry.key l

theorem lookup_pair (key : List UInt8) (l : List CacheEntry) :
    Recency.lookup Prod.fst key (l.map pair) =
      (Recency.lookup CacheEntry.key key l).map pair :=
  Recency.lookup_map (fun _ => rfl) key l

theorem put_pair (cap : ℕ) (e : CacheEntry) (l : List CacheEntry) :
    Recency.put Prod.fst cap (pair e) (l.map pair) =
      (Recency.put CacheEntry.key cap e l).map pair :=
  Recency.put_map (fun _ => rfl) cap e l

theorem replace_pair (e : CacheEntry) (l : List CacheEntry) :
    Recency.replace Prod.fst (pair e) (l.map pair) =
      (Recency.replace CacheEntry.key e l).map pair :=
  Recency.replace_map (fun _ => rfl) e l

theorem erase_pair (key : List UInt8) (l : List CacheEntry) :
    Recency.erase Prod.fst key (l.map pair) = (Recency.erase CacheEntry.key key l).map pair :=
  Recency.erase_map (fun _ => rfl) key l

theorem mem_replace {x y : CacheEntry} {l : List CacheEntry}
    (h : y ∈ Recency.replace CacheEntry.key x l) : y = x ∨ y ∈ l := by
  induction l with
  | nil => exact absurd h List.not_mem_nil
  | cons z l ih =>
    unfold Recency.replace at h
    split_ifs at h
    · rcases List.mem_cons.mp h with rfl | h
      · exact .inl rfl
      · exact .inr (List.mem_cons_of_mem _ h)
    · rcases List.mem_cons.mp h with rfl | h
      · exact .inr List.mem_cons_self
      · exact (ih h).imp_right (List.mem_cons_of_mem _)

theorem mem_put {cap : ℕ} {x y : CacheEntry} {l : List CacheEntry}
    (h : y ∈ Recency.put CacheEntry.key cap x l) : y = x ∨ y ∈ l := by
  unfold Recency.put Recency.push at h
  split_ifs at h <;> rcases List.mem_cons.mp h with rfl | h
  · exact .inl rfl
  · exact .inr (List.mem_of_mem_eraseP h)
  · exact .inl rfl
  · exact .inr h
  · exact .inl rfl
  · exact .inr (l.dropLast_sublist.subset h)

theorem Lasting.put {cap : ℕ} {x : CacheEntry} {l : List CacheEntry} (hl : Lasting l)
    (hexp : x.expire = 0) (hval : x.val ≠ []) : Lasting (Recency.put CacheEntry.key cap x l) where
  expire e he := (mem_put he).elim (fun h => h ▸ hexp) (hl.expire e)
  val e he := (mem_put he).elim (fun h => h ▸ hval) (hl.val e)
  distinct := hl.distinct.put

theorem Lasting.replace {x : CacheEntry} {l : List CacheEntry} (hl : Lasting l)
    (hexp : x.expire = 0) (hval : x.val ≠ []) : Lasting (Recency.replace CacheEntry.key x l) where
  expire e he := (mem_replace he).elim (fun h => h ▸ hexp) (hl.expire e)
  val e he := (mem_replace he).elim (fun h => h ▸ hval) (hl.val e)
  distinct := hl.distinct.replace

theorem Lasting.erase {key : List UInt8} {l : List CacheEntry} (hl : Lasting l) :
    Lasting (Recency.erase CacheEntry.key key l) where
  expire e he := hl.expire e (List.mem_of_mem_eraseP he)
  val e he := hl.val e (List.mem_of_mem_eraseP he)
  distinct := hl.distinct.erase

/-- The value that an increment writes. -/
theorem writeCounter_eq {val : List UInt8} {n : ℤ} (hmin : int64Min ≤ n) (hmax : n ≤ int64Max) :
    writeCounter val n = .ok (counterVal val n) := by
  have hlen := length_padLeft_print (w := 23) (by norm_num) hmin hmax
  unfold writeCounter counterVal
  split_ifs with hsmall
  · have hdrop : val.drop 24 = [] := List.drop_of_length_le (by omega)
    dsimp only
    rw [snprintf_of_lt (by simp [hlen]), store, if_pos (by simp [hlen]), hdrop]
    simp [hlen]
  · dsimp only
    rw [snprintf_of_lt (by omega), store, if_pos (by simp [hlen]; omega)]
    simp [hlen]

/-- What an increment does: an empty value has no last byte, a value whose last byte is not NUL is
left alone, and a sum that is no 64-bit integer overflows. -/
theorem bumpVal_spec (val : List UInt8) (increment : ℤ) (granted : Bool) :
    bumpVal val increment granted =
      if val = [] then .error .outOfBounds
      else if val.getLast? ≠ some 0 then .ok ((-2, none), val)
      else if ¬(int64Min ≤ strtoll (cText val) + increment ∧
          strtoll (cText val) + increment ≤ int64Max) then .error .overflow
      else if val.length < 24 ∧ (!granted) = true then .ok ((-3, none), val)
      else .ok ((1, some (strtoll (cText val) + increment)),
        counterVal val (strtoll (cText val) + increment)) := by
  unfold bumpVal
  cases hlast : val.getLast? with
  | none => rw [if_pos (List.getLast?_eq_none_iff.mp hlast)]
  | some b =>
    have hmem := List.mem_of_getLast? hlast
    rw [if_neg (List.ne_nil_of_mem hmem)]
    by_cases hb : b = 0
    · subst hb
      have htext : loadStr val 0 = .ok (cText val) := by
        rw [loadStr, List.drop_zero, if_pos hmem, cText]
      simp only [ne_eq, not_true, if_false, htext, ok_bind, addInt64]
      by_cases hrange : int64Min ≤ strtoll (cText val) + increment ∧
          strtoll (cText val) + increment ≤ int64Max
      · simp only [if_pos hrange, if_neg (not_not.mpr hrange), ok_bind,
          writeCounter_eq hrange.1 hrange.2, pure_eq_ok]
      · simp only [if_neg hrange, if_pos hrange, error_bind]
    · simp only [if_pos hb, if_pos (fun h => hb (Option.some.inj h) : some b ≠ some 0), pure_eq_ok]

/-- An increment of a value that ends in NUL. -/
theorem bumpVal_eq {val : List UInt8} {increment : ℤ} (hlast : val.getLast? = some 0)
    (hmin : int64Min ≤ strtoll (cText val) + increment)
    (hmax : strtoll (cText val) + increment ≤ int64Max) :
    bumpVal val increment true =
      .ok ((1, some (strtoll (cText val) + increment)),
        counterVal val (strtoll (cText val) + increment)) := by
  have hne : val ≠ [] := List.ne_nil_of_mem (List.mem_of_getLast? hlast)
  rw [bumpVal_spec, if_neg hne, if_neg (not_not.mpr hlast), if_neg (not_not.mpr ⟨hmin, hmax⟩),
    if_neg (by simp)]

/-- An increment that does not fault leaves the value alone or writes the number that it returns. -/
theorem bumpVal_cases {val val' : List UInt8} {increment : ℤ} {granted : Bool} {o : ℤ × Option ℤ}
    (h : bumpVal val increment granted = .ok (o, val')) :
    (o.2 = none ∧ val' = val) ∨ ∃ n, o.2 = some n ∧ val' = counterVal val n := by
  rw [bumpVal_spec] at h
  split_ifs at h <;> obtain ⟨rfl, rfl⟩ := Prod.mk.inj (Except.ok.inj h)
  · exact .inl ⟨rfl, rfl⟩
  · exact .inl ⟨rfl, rfl⟩
  · exact .inr ⟨_, rfl, rfl⟩

/-- An increment of a value that is there does not return -1. -/
theorem bumpVal_rv {val val' : List UInt8} {increment : ℤ} {granted : Bool} {o : ℤ × Option ℤ}
    (h : bumpVal val increment granted = .ok (o, val')) : o.1 ≠ -1 := by
  rw [bumpVal_spec] at h
  split_ifs at h <;> simp [← (Prod.mk.inj (Except.ok.inj h)).1]

/-- An increment leaves its value only when the value is empty, and has no other fault than that
and an overflow. -/
theorem bumpVal_fault {val : List UInt8} {increment : ℤ} {granted : Bool} {f : Fault}
    (h : bumpVal val increment granted = .error f) : f = .overflow ∨ f = .outOfBounds ∧ val = [] := by
  rw [bumpVal_spec] at h
  split_ifs at h with hval hlast hrange hfail
  · exact .inr ⟨(Except.error.inj h).symm, hval⟩
  · exact .inl (Except.error.inj h).symm

/-- A plain call does to a chain what it does to the map's chain. -/
theorem chainStep_refChain {hashlen : ℕ} (cap : ℕ) {r : ℕ → Pairs} {l : List CacheEntry} (now : ℤ)
    (op : CacheOp) (hl : Lasting l) (hr : r (chainIndex hashlen op.key) = l.map pair)
    (hop : Plain hashlen r op) :
    ∃ l', chainStep cap l (now, op) = .ok ((refChain cap (l.map pair) op).1, l') ∧
      (refChain cap (l.map pair) op).2 = l'.map pair ∧ Lasting l' := by
  cases op with
  | get key =>
    simp only [chainStep, chainGet, refChain, lookup_pair]
    cases hlook : Recency.lookup CacheEntry.key key l with
    | none => exact ⟨l, rfl, rfl, hl⟩
    | some e =>
      have hnever : ¬(0 < e.expire ∧ e.expire < now) := by
        rw [hl.expire e (lookup_mem hlook).1]
        exact fun h => lt_irrefl _ h.1
      simp only [if_neg hnever]
      exact ⟨l, rfl, rfl, hl⟩
  | set key val timeout granted =>
    obtain ⟨hval, rfl, rfl⟩ := hop
    -- Whether the key is new or not, its entry is put in front and does not expire.
    obtain ⟨e, hkey, he, hexp, hset⟩ : ∃ e : CacheEntry, e.key = key ∧ e.val = val ∧ e.expire = 0 ∧
        chainSet cap now key val 0 .granted l = (1, Recency.put CacheEntry.key cap e l) := by
      unfold chainSet CacheAllocs.granted
      cases hlook : Recency.lookup CacheEntry.key key l with
      | none => exact ⟨⟨key, val, 0⟩, rfl, rfl, rfl, by simp⟩
      | some e =>
        obtain ⟨hmem, hkey⟩ := lookup_mem hlook
        exact ⟨{ e with val := val }, hkey, rfl, hl.expire e hmem, rfl⟩
    refine ⟨Recency.put CacheEntry.key cap e l, ?_, ?_, hl.put hexp (he ▸ hval)⟩
    · simp only [chainStep, hset, refChain]
    · have hpair : pair e = (key, val) := by rw [pair, hkey, he]
      rw [refChain, ← hpair]
      exact put_pair cap e l
  | del key =>
    simp only [chainStep, chainDel, refChain, lookup_pair]
    cases hlook : Recency.lookup CacheEntry.key key l with
    | none => exact ⟨l, rfl, rfl, hl⟩
    | some e => exact ⟨_, rfl, erase_pair key l, hl.erase⟩
  | cas key oldval newval granted =>
    obtain ⟨hval, rfl⟩ := hop
    simp only [chainStep, chainCas, refChain, lookup_pair]
    cases hlook : Recency.lookup CacheEntry.key key l with
    | none => exact ⟨l, rfl, rfl, hl⟩
    | some e =>
      obtain ⟨hmem, rfl⟩ := lookup_mem hlook
      by_cases hold : e.val = oldval
      · simp only [hold, Option.map_some, pair, ne_eq, not_true, if_false, if_true]
        exact ⟨_, rfl, replace_pair { e with val := newval } l,
          hl.replace (hl.expire e hmem) hval⟩
      · simp only [hold, Option.map_some, pair, ne_eq, not_false_iff, if_true, if_false]
        exact ⟨l, rfl, rfl, hl⟩
  | incr key increment granted =>
    obtain ⟨rfl, hsum⟩ := hop
    rw [CacheOp.key] at hr
    rw [hr, lookup_pair] at hsum
    simp only [chainStep, chainIncr, refChain, lookup_pair]
    cases hlook : Recency.lookup CacheEntry.key key l with
    | none => exact ⟨l, rfl, rfl, hl⟩
    | some e =>
      obtain ⟨hmem, rfl⟩ := lookup_mem hlook
      by_cases hlast : e.val.getLast? = some 0
      · obtain ⟨hmin, hmax⟩ := hsum (pair e) (by rw [hlook]; rfl) hlast
        have hbump := bumpVal_eq hlast hmin hmax
        have hne : counterVal e.val (strtoll (cText e.val) + increment) ≠ [] := by
          simp [counterVal]
        simp only [Option.map_some, pair, hlast, if_true, hbump, ok_bind, pure_eq_ok]
        exact ⟨_, rfl, replace_pair { e with val := counterVal e.val _ } l,
          hl.replace (hl.expire e hmem) hne⟩
      · -- The value is not empty, so it has a last byte, and that byte is not NUL.
        obtain ⟨b, hb⟩ : ∃ b, e.val.getLast? = some b :=
          ⟨_, List.getLast?_eq_some_getLast (hl.val e hmem)⟩
        have hb0 : b ≠ 0 := fun h => hlast (h ▸ hb)
        have hbump : bumpVal e.val increment true = .ok ((-2, none), e.val) := by
          rw [bumpVal, hb]
          simp only [if_pos hb0, pure_eq_ok]
        have hback : Recency.replace CacheEntry.key { e with val := e.val } l = l :=
          Recency.replace_found hlook
        simp only [Option.map_some, pair, hlast, if_false, hbump, ok_bind, pure_eq_ok, hback]
        exact ⟨l, rfl, rfl, hl⟩

/-- The chains hold the map. -/
def HoldsMap (t : ℕ → List CacheEntry) (r : ℕ → Pairs) : Prop :=
  ∀ i, r i = (t i).map pair ∧ Lasting (t i)

/-- A plain call on all chains. -/
theorem chainsStep_refStep {hashlen : ℕ} (cap : ℕ) {t : ℕ → List CacheEntry} {r : ℕ → Pairs}
    (i : ℤ × CacheOp) (ht : HoldsMap t r) (hop : Plain hashlen r i.2) :
    ∃ t', chainsStep hashlen cap t i = .ok ((refStep hashlen cap r i.2).1, t') ∧
      HoldsMap t' (refStep hashlen cap r i.2).2 := by
  obtain ⟨hr, hl⟩ := ht (chainIndex hashlen i.2.key)
  obtain ⟨l', hstep, hpairs, hl'⟩ := chainStep_refChain cap i.1 i.2 hl hr hop
  rw [← hr] at hstep hpairs
  refine ⟨Function.update t (chainIndex hashlen i.2.key) l', ?_, fun j => ?_⟩
  · simp only [chainsStep, hstep, ok_bind, pure_eq_ok, refStep]
  · simp only [refStep]
    by_cases hj : j = chainIndex hashlen i.2.key
    · rw [hj, Function.update_self, Function.update_self]
      exact ⟨hpairs, hl'⟩
    · rw [Function.update_of_ne hj, Function.update_of_ne hj]
      exact ht j

/-- A run of plain calls on all chains. -/
theorem chainsRun_refRun {hashlen cap : ℕ} {t : ℕ → List CacheEntry} {r : ℕ → Pairs}
    {is : List (ℤ × CacheOp)} (ht : HoldsMap t r) (his : PlainRun hashlen cap r is) :
    ∃ t', run (chainsStep hashlen cap) t is = .ok ((refRun hashlen cap r is).1, t') ∧
      HoldsMap t' (refRun hashlen cap r is).2 := by
  induction is generalizing t r with
  | nil => exact ⟨t, rfl, ht⟩
  | cons i is ih =>
    obtain ⟨hi, his⟩ := his
    obtain ⟨t₁, hstep, ht₁⟩ := chainsStep_refStep cap i ht hi
    obtain ⟨t₂, hrun, ht₂⟩ := ih ht₁ his
    refine ⟨t₂, ?_, ht₂⟩
    rw [run, hstep, ok_bind]
    simp only [hrun, ok_bind, pure_eq_ok, refRun]

/-! ## What a call leaves alone -/

/-- A call evicts `k`: it sets a key that is not in the cache, the key's chain is over the meant
length, and its last entry is the one of `k`. -/
def Evicts (cd : Cache) (op : CacheOp) (k : List UInt8) : Prop :=
  ∃ val timeout granted c n, op = .set op.key val timeout granted ∧
    findInCache cd op.key = .ok none ∧ chainAt cd (chainIndex cd.hashlen op.key) = .ok c ∧
    cd.chainlen < c.len ∧ deref cd.heap c.last = .ok n ∧ n.item.key = k

/-- In a cache that holds chains with distinct keys, a call leaves the entry of every other key as
it was, unless it evicts it. -/
theorem cacheStep_entryOf {malloc : Allocator CacheEntry} {hashlen cap : ℕ} (hcap : 0 < cap)
    {cd cd' : Cache} {t : ℕ → List CacheEntry} {i : ℤ × CacheOp} {o : CacheOut} {k : List UInt8}
    (hcd : Holds hashlen cap cd t) (hd : ∀ j, Recency.Distinct CacheEntry.key (t j))
    (h : cacheStep malloc cd i = .ok (o, cd')) (hk : k ≠ i.2.key) :
    entryOf cd' k = entryOf cd k ∨ Evicts cd i.2 k ∧ entryOf cd' k = .ok none := by
  -- The chain of the call's key is the only one that changed.
  obtain ⟨l', hstep, hcd'⟩ := cacheStep_inv hcap hcd h
  rw [hcd.entryOf, hcd'.entryOf]
  obtain ⟨rfl, rfl, cells, hr, rfl⟩ := hcd
  by_cases hidx : chainIndex cd.hashlen k = chainIndex cd.hashlen i.2.key
  · rw [hidx, Function.update_self]
    rcases chainStep_lookup (hd _) hstep hk with heq | ⟨⟨val, timeout, granted, hop⟩, hnone, hlen,
      hlast, hgone⟩
    · exact .inl (by rw [heq])
    · refine .inr ⟨?_, by rw [hgone]⟩
      -- The chain is not empty: its last cell is the entry of `k`.
      obtain ⟨xs, c, hcs⟩ := List.eq_nil_or_concat' (cells (chainIndex cd.hashlen i.2.key))
        |>.resolve_left (by
          intro hnil
          simp [hnil, items] at hlen)
      simp only [hcs] at hlen hlast
      have hfind : findInCache cd i.2.key = .ok none := by
        rw [hr.findInCache]
        rcases hr.find_cases i.2.key with h | ⟨_, _, _, _, _, _, _, _, hsome⟩
        · exact h.1
        · exact absurd (hnone.symm.trans hsome) (by simp)
      have hchain := hr.chainAt i.2.key
      have hnode := (hr.owns.linked (chainIndex cd.hashlen i.2.key))
      rw [hcs] at hchain hnode
      have hderef : deref cd.heap (chainOf (xs ++ [c])).last =
          .ok ⟨c.2, lastOr none xs, none⟩ := by
        rw [chainOf, lastOr_append]
        exact deref_some hnode.lookup
      refine ⟨val, timeout, granted, _, _, hop, hfind, hchain, ?_, hderef, ?_⟩
      · simpa [chainOf] using hlen
      · simpa [items] using hlast
  · exact .inl (by rw [Function.update_of_ne hidx])

/-- A cache gives the outputs of the bounded map on every run of plain calls, and a further call
leaves the entry of every other key as it was, apart from the one that it evicts. -/
theorem cacheRun_refRun {numobjs flags : ℕ} {gc gt : Bool} {cd : Cache} (hnum : 4 ≤ numobjs)
    (hcd : cacheCreate numobjs flags gc gt = .ok (some cd)) (malloc : Allocator CacheEntry)
    {is : List (ℤ × CacheOp)} (his : PlainRun (numobjs / 4) 4 (fun _ => []) is) :
    ∃ cd', run (cacheStep malloc) cd is =
        .ok ((refRun (numobjs / 4) 4 (fun _ => []) is).1, cd') ∧
      ∀ i : ℤ × CacheOp, Plain (numobjs / 4) (refRun (numobjs / 4) 4 (fun _ => []) is).2 i.2 →
        ∃ o cd'', cacheStep malloc cd' i = .ok (o, cd'') ∧ ∀ k ≠ i.2.key,
          entryOf cd'' k = entryOf cd' k ∨ Evicts cd' i.2 k ∧ entryOf cd'' k = .ok none := by
  have hstart : HoldsMap (fun _ => []) (fun _ => []) :=
    fun _ => ⟨rfl, by simp, by simp, List.nodup_nil⟩
  obtain ⟨t', hrun, ht'⟩ := chainsRun_refRun hstart his
  -- The run of the cache ends where the run of the lists does.
  have hagree := run_agree (cacheStep_agree malloc (by norm_num)) (cacheCreate_holds hnum hcd) is
  rw [hrun] at hagree
  obtain ⟨cd', hcd', hholds⟩ : ∃ cd', run (cacheStep malloc) cd is =
      .ok ((refRun (numobjs / 4) 4 (fun _ => []) is).1, cd') ∧ Holds (numobjs / 4) 4 cd' t' := by
    cases hc : run (cacheStep malloc) cd is with
    | error f =>
      rw [hc] at hagree
      exact hagree.elim
    | ok p =>
      rw [hc] at hagree
      exact ⟨p.2, by rw [← hagree.1], hagree.2⟩
  refine ⟨cd', hcd', fun i hi => ?_⟩
  obtain ⟨t'', hstep, -⟩ := chainsStep_refStep 4 i ht' hi
  have hagree' := cacheStep_agree malloc (by norm_num) cd' t' i hholds
  rw [hstep] at hagree'
  cases hc : cacheStep malloc cd' i with
  | error f =>
    rw [hc] at hagree'
    exact hagree'.elim
  | ok p =>
    exact ⟨p.1, p.2, rfl, fun k hk =>
      cacheStep_entryOf (by norm_num) hholds (fun j => (ht' j).2.distinct) hc hk⟩

/-- Calls on a cache with one chain: six keys, so that the first one is evicted, a promotion, a
counter and a compare-and-swap. -/
def sampleCalls : List (ℤ × CacheOp) :=
  [(1, .set [97] [1] 0 .granted), (1, .set [98] [53, 0] 0 .granted), (2, .set [99] [3] 0 .granted),
    (2, .set [100] [4] 0 .granted), (3, .set [101] [5] 0 .granted), (3, .set [102] [6] 0 .granted),
    (4, .get [97]), (4, .incr [98] 2 true), (5, .cas [99] [3] [7] true), (5, .get [99]),
    (6, .set [98] [54, 0] 0 .granted), (6, .del [100])]

/-- The first key is gone, the counter is at 7, and the value swapped in is delivered. -/
theorem cacheRun_sampleCalls :
    ∃ cd cd', cacheCreate 4 0 true true = .ok (some cd) ∧ run (cacheStep bump) cd sampleCalls =
      .ok ([⟨1, none, none⟩, ⟨1, none, none⟩, ⟨1, none, none⟩, ⟨1, none, none⟩, ⟨1, none, none⟩,
        ⟨1, none, none⟩, ⟨0, none, none⟩, ⟨1, none, some 7⟩, ⟨1, none, none⟩, ⟨1, some [7], none⟩,
        ⟨1, none, none⟩, ⟨1, none, none⟩], cd') := by
  have hcreate : cacheCreate 4 0 true true =
      .ok (some ⟨4, 0, 1, 4, [⟨0, none, none⟩], ∅⟩) := rfl
  obtain ⟨cd', hrun, -⟩ := cacheRun_refRun (by norm_num) hcreate bump
    (show PlainRun (4 / 4) 4 (fun _ => []) sampleCalls by decide +kernel)
  refine ⟨_, cd', hcreate, hrun.trans ?_⟩
  congr 2

end Moc
