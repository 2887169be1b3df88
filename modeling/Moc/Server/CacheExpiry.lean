import Moc.Server.CacheMap

/-!
# When an entry expires

A run of calls under the clock, with the last set of each key kept beside the cache: its value as
later calls changed it, its timeout and its time. `Expiry` is what the timeout promises, that
`cache_get` delivers the value up to that time and nothing after it. `cache_set` gives an expiry
time to a new entry only; an entry that it replaces keeps the time of an earlier set. So the promise
holds through a run exactly when no set replaces an entry with another expiry time than its own
(`always_expiry_iff`).
-/

open Bytes Memory Decimal Dll Runs

namespace Moc

/-- The last successful set of a key. -/
structure LastSet where
  /-- The value, as compare-and-swap and increments left it. -/
  val : List UInt8
  /-- The timeout. -/
  timeout : ℤ
  /-- The clock when it was set. -/
  time : ℤ
  deriving DecidableEq

/-- The expiry time that a `cache_set` with this timeout computes. -/
def expireAt (now timeout : ℤ) : ℤ := if timeout = 0 then 0 else now + timeout

/-- A cache in a run. -/
structure History where
  /-- The cache. -/
  cd : Cache
  /-- The clock of the last call. -/
  clock : ℤ
  /-- The last set of each key that was not deleted or evicted since. -/
  last : List UInt8 → Option LastSet

/-- The call took the entry of `k` out of the cache. -/
def gone (cd cd' : Cache) (k : List UInt8) : Bool :=
  match entryOf cd k, entryOf cd' k with
  | .ok (some _), .ok none => true
  | _, _ => false

/-- The last sets after a call that gave `o` and turned the cache `cd` into `cd'`. -/
def lastSets (cd cd' : Cache) (now : ℤ) (op : CacheOp) (o : CacheOut)
    (last : List UInt8 → Option LastSet) (k : List UInt8) : Option LastSet :=
  match op with
  | .get _ => last k
  | .set key val timeout _ =>
    if k = key then if o.rv = 1 then some ⟨val, timeout, now⟩ else last k
    else if gone cd cd' k then none else last k
  | .del key => if k = key then none else last k
  | .cas key _ newval _ =>
    if k = key ∧ o.rv = 1 then (last k).map fun s => { s with val := newval } else last k
  | .incr key _ _ =>
    match o.newval with
    | none => last k
    | some n =>
      if k = key then (last k).map fun s => { s with val := counterVal s.val n } else last k

/-- One call in a run. A run ends (`none`) when a call faults. -/
def History.next (malloc : Allocator CacheEntry) (h : Option History)
    (i : ℤ × CacheOp) : Option History :=
  h.bind fun h =>
    match cacheStep malloc h.cd i with
    | .error _ => none
    | .ok (o, cd') => some ⟨cd', i.1, lastSets h.cd cd' i.1 i.2 o h.last⟩

/-- A run from a cache, before the first tick of the clock. -/
def History.start (cd : Cache) : Option History := some ⟨cd, 0, fun _ => none⟩

/-- The clock does not go back, and timeouts are not negative. -/
def Timely : Option History → ℤ × CacheOp → Prop
  | some h, (now, .set _ _ timeout _) => h.clock ≤ now ∧ 0 ≤ timeout
  | some h, (now, _) => h.clock ≤ now
  | none, _ => True

/-- `cache_get` delivers the value of a key's last set until its timeout is over, and nothing
afterwards. -/
def Expiry : Option History → Prop
  | none => True
  | some h => ∀ k s, h.last k = some s → ∀ now, h.clock ≤ now → ∃ cd',
      cacheGet h.cd now k =
        .ok (if s.timeout = 0 ∨ now ≤ s.time + s.timeout then (1, some s.val) else (0, none), cd')

/-- A set that succeeds and finds an entry finds the expiry time that it asks for. -/
def KeepsExpiry : Option History → ℤ × CacheOp → Prop
  | some h, (now, .set key _ timeout granted) => granted.val = true →
      match entryOf h.cd key with
      | .ok (some e) => e.expire = expireAt now timeout
      | _ => True
  | _, _ => True

/-! ## The invariant -/

/-- An entry is the last set of its key. -/
structure IsLast (e : CacheEntry) (s : LastSet) (clock : ℤ) : Prop where
  /-- It has the current value. -/
  val : e.val = s.val
  /-- It has the expiry time of the last set. -/
  expire : e.expire = expireAt s.time s.timeout
  /-- The timeout is not negative. -/
  timeout : 0 ≤ s.timeout
  /-- The set is in the past. -/
  time : 0 ≤ s.time ∧ s.time ≤ clock

/-- The entry and the last set of a key agree: an entry is the one set last, and a key without an
entry was not set or its timeout is over. -/
def Agrees (clock : ℤ) : Option CacheEntry → Option LastSet → Prop
  | some e, some s => IsLast e s clock
  | some _, none => False
  | none, some s => s.timeout ≠ 0 ∧ s.time + s.timeout < clock
  | none, none => True

/-- The invariant of the runs whose sets meet `KeepsExpiry`. -/
def ExpiryInv (hashlen cap : ℕ) : Option History → Prop
  | none => True
  | some h => 0 ≤ h.clock ∧ ∃ t, Holds hashlen cap h.cd t ∧
      (∀ j, Recency.Distinct CacheEntry.key (t j)) ∧
      ∀ k, Agrees h.clock (Recency.lookup CacheEntry.key k (t (chainIndex hashlen k))) (h.last k)

theorem Agrees.mono {clock clock' : ℤ} (hle : clock ≤ clock') {e : Option CacheEntry}
    {s : Option LastSet} (h : Agrees clock e s) : Agrees clock' e s := by
  cases e <;> cases s
  · trivial
  · exact ⟨h.1, lt_of_lt_of_le h.2 hle⟩
  · exact h
  · exact ⟨h.val, h.expire, h.timeout, h.time.1, h.time.2.trans hle⟩

/-- An expiry time is in the past exactly when there is a timeout and it is over. -/
theorem expireAt_past (now : ℤ) {time timeout : ℤ} (htime : 0 ≤ time) (htimeout : 0 ≤ timeout) :
    (0 < expireAt time timeout ∧ expireAt time timeout < now) ↔
      ¬(timeout = 0 ∨ now ≤ time + timeout) := by
  unfold expireAt
  split_ifs <;> omega

/-- The invariant gives the promise. -/
theorem ExpiryInv.expiry {hashlen cap : ℕ} {h : Option History} (hi : ExpiryInv hashlen cap h) :
    Expiry h := by
  cases h with
  | none => trivial
  | some h =>
    intro k s hs now hnow
    obtain ⟨-, t, ⟨rfl, rfl, cells, hr, rfl⟩, -, hagrees⟩ := hi
    obtain ⟨cd', hget, -⟩ := hr.cacheGet_spec k now
    refine ⟨cd', ?_⟩
    have hk := hagrees k
    dsimp only at hk
    rw [hs] at hk
    rw [hget, chainGet]
    cases hlook : Recency.lookup CacheEntry.key k (items (cells (chainIndex h.cd.hashlen k))) with
    | none =>
      rw [hlook] at hk
      obtain ⟨hT, hover⟩ := hk
      rw [if_neg (by omega)]
    | some e =>
      rw [hlook] at hk
      have hpast := expireAt_past now hk.time.1 hk.timeout
      rw [← hk.expire] at hpast
      dsimp only
      by_cases hover : 0 < e.expire ∧ e.expire < now
      · rw [if_pos hover, if_neg (hpast.mp hover)]
      · rw [if_neg hover, if_pos (not_not.mp fun h => hover (hpast.mpr h)), hk.val]

/-- What a call does to the last set of another key: a set that evicts the key's entry ends it. -/
theorem lastSets_of_ne (cd cd' : Cache) (now : ℤ) {op : CacheOp} (o : CacheOut)
    (last : List UInt8 → Option LastSet) {k : List UInt8} (hk : k ≠ op.key) :
    (lastSets cd cd' now op o last k = last k ∧
        (gone cd cd' k = true → ∀ val timeout granted, op ≠ .set op.key val timeout granted)) ∨
      gone cd cd' k = true ∧ lastSets cd cd' now op o last k = none := by
  cases op with
  | get key => exact .inl ⟨rfl, by simp⟩
  | set key val timeout granted =>
    have hne : k ≠ key := hk
    cases hg : gone cd cd' k with
    | true => exact .inr ⟨rfl, by rw [lastSets, if_neg hne, hg, if_pos rfl]⟩
    | false => exact .inl ⟨by rw [lastSets, if_neg hne, hg, if_neg Bool.false_ne_true], by simp⟩
  | del key => exact .inl ⟨if_neg hk, by simp⟩
  | cas key oldval newval granted => exact .inl ⟨if_neg fun h => hk h.1, by simp⟩
  | incr key increment granted =>
    refine .inl ⟨?_, by simp⟩
    unfold lastSets
    cases o.newval with
    | none => rfl
    | some n => exact if_neg hk

/-- A call keeps the entry and the last set of another key in agreement. -/
theorem agrees_of_ne {hashlen cap : ℕ} {malloc : Allocator CacheEntry} {h : History} {cd' : Cache}
    {t t' : ℕ → List CacheEntry} {i : ℤ × CacheOp} {o : CacheOut} (hcap : 0 < cap)
    (hcd : Holds hashlen cap h.cd t) (hcd' : Holds hashlen cap cd' t')
    (hd : ∀ j, Recency.Distinct CacheEntry.key (t j))
    (hstep : cacheStep malloc h.cd i = .ok (o, cd')) (hclock : h.clock ≤ i.1) {k : List UInt8}
    (hk : k ≠ i.2.key)
    (ha : Agrees h.clock (Recency.lookup CacheEntry.key k (t (chainIndex hashlen k))) (h.last k)) :
    Agrees i.1 (Recency.lookup CacheEntry.key k (t' (chainIndex hashlen k)))
      (lastSets h.cd cd' i.1 i.2 o h.last k) := by
  have hentry := hcd.entryOf k
  have hentry' := hcd'.entryOf k
  have hstored := cacheStep_entryOf hcap hcd hd hstep hk
  rw [hentry, hentry'] at hstored
  have hgone : gone h.cd cd' k = true ↔
      (Recency.lookup CacheEntry.key k (t (chainIndex hashlen k))).isSome ∧
        Recency.lookup CacheEntry.key k (t' (chainIndex hashlen k)) = none := by
    rw [gone, hentry, hentry']
    cases Recency.lookup CacheEntry.key k (t (chainIndex hashlen k)) <;>
      cases Recency.lookup CacheEntry.key k (t' (chainIndex hashlen k)) <;> simp
  rcases lastSets_of_ne h.cd cd' i.1 o h.last hk with
    ⟨hlast, hset⟩ | ⟨hg, hlast⟩
  · rw [hlast]
    rcases hstored with heq | ⟨hev, hnone⟩
    · rw [Except.ok.inj heq]
      exact ha.mono hclock
    · -- Only a set evicts, so the key had no entry to lose.
      obtain ⟨val, timeout, granted, -, -, hop, -⟩ := hev
      have hnot : ¬gone h.cd cd' k = true := fun hg => hset hg val timeout granted hop
      rw [Except.ok.inj hnone] at hgone ⊢
      cases hlook : Recency.lookup CacheEntry.key k (t (chainIndex hashlen k)) with
      | none =>
        rw [hlook] at ha
        exact ha.mono hclock
      | some e => exact absurd (hgone.mpr ⟨by rw [hlook]; rfl, rfl⟩) hnot
  · rw [hlast, (hgone.mp hg).2]
    trivial

theorem lookup_put_entry (cap : ℕ) (e : CacheEntry) {key : List UInt8} (l : List CacheEntry)
    (hkey : e.key = key) :
    Recency.lookup CacheEntry.key key (Recency.put CacheEntry.key cap e l) = some e := by
  subst hkey
  exact Recency.lookup_put_self cap e l

theorem lookup_replace_entry {e : CacheEntry} (e' : CacheEntry) {key : List UInt8} {l : List CacheEntry}
    (hlook : Recency.lookup CacheEntry.key key l = some e) (hkey : e'.key = key) :
    Recency.lookup CacheEntry.key key (Recency.replace CacheEntry.key e' l) = some e' := by
  subst hkey
  exact Recency.lookup_replace_self (by rw [hlook]; rfl)

/-- A new value for an entry and its last set. -/
theorem Agrees.setVal {clock : ℤ} {e : CacheEntry} {s : Option LastSet} (v : List UInt8)
    (h : Agrees clock (some e) s) :
    Agrees clock (some { e with val := v }) (s.map fun s => { s with val := v }) := by
  cases s with
  | none => exact h
  | some s => exact ⟨rfl, h.expire, h.timeout, h.time⟩

/-! A call on a key keeps its entry and its last set in agreement, as long as a set does not
replace an entry with another expiry time than its own. -/

theorem agrees_chainGet {key : List UInt8} {l : List CacheEntry} {now clock : ℤ}
    {s : Option LastSet} (hd : Recency.Distinct CacheEntry.key l) (hclock : clock ≤ now)
    (ha : Agrees clock (Recency.lookup CacheEntry.key key l) s) :
    Agrees now (Recency.lookup CacheEntry.key key (chainGet now key l).2) s := by
  unfold chainGet
  cases hlook : Recency.lookup CacheEntry.key key l with
  | none =>
    rw [hlook] at ha
    simpa only [hlook] using ha.mono hclock
  | some e =>
    rw [hlook] at ha
    dsimp only
    split_ifs with hover
    · -- The lazy deletion: the timeout of the last set is over.
      rw [Recency.lookup_erase_self hd]
      cases s with
      | none => trivial
      | some s =>
        have hpast := expireAt_past now ha.time.1 ha.timeout
        rw [← ha.expire] at hpast
        have := hpast.mp hover
        exact ⟨by omega, by omega⟩
    · simpa only [hlook] using ha.mono hclock

theorem agrees_chainSet {cap : ℕ} {key val : List UInt8} {timeout : ℤ} {granted : CacheAllocs}
    {l : List CacheEntry} {now clock : ℤ} {s : Option LastSet} (hclock : 0 ≤ clock ∧ clock ≤ now)
    (htimeout : 0 ≤ timeout)
    (hkeep : granted.val = true → ∀ e, Recency.lookup CacheEntry.key key l = some e →
      e.expire = expireAt now timeout)
    (ha : Agrees clock (Recency.lookup CacheEntry.key key l) s) :
    Agrees now (Recency.lookup CacheEntry.key key (chainSet cap now key val timeout granted l).2)
      (if (chainSet cap now key val timeout granted l).1 = 1 then some ⟨val, timeout, now⟩
        else s) := by
  have ha' := ha.mono hclock.2
  have hnow := hclock.1.trans hclock.2
  unfold chainSet
  cases hlook : Recency.lookup CacheEntry.key key l with
  | none =>
    by_cases hg : (granted.entry && granted.key && granted.val) = true
    · simp only [if_pos hg, if_true]
      rw [lookup_put_entry _ _ l (by rfl)]
      exact ⟨rfl, rfl, htimeout, hnow, le_rfl⟩
    · rw [hlook] at ha'
      simpa [hg, hlook] using ha'
  | some e =>
    by_cases hg : granted.val = true
    · -- The entry keeps its expiry time, which is that of this set.
      have hput := lookup_put_entry cap { e with val := val } l (lookup_mem hlook).2
      simp only [if_pos hg, if_true, hput]
      exact ⟨rfl, hkeep hg e hlook, htimeout, hnow, le_rfl⟩
    · rw [hlook] at ha'
      simpa [hg, hlook] using ha'

theorem agrees_chainDel {key : List UInt8} {l : List CacheEntry} (now : ℤ)
    (hd : Recency.Distinct CacheEntry.key l) :
    Agrees now (Recency.lookup CacheEntry.key key (chainDel key l).2) none := by
  unfold chainDel
  cases hlook : Recency.lookup CacheEntry.key key l with
  | none => simp [hlook, Agrees]
  | some e => simp [Recency.lookup_erase_self hd, Agrees]

theorem agrees_chainCas {key oldval newval : List UInt8} {granted : Bool} {l : List CacheEntry}
    {now : ℤ} {s : Option LastSet} (ha : Agrees now (Recency.lookup CacheEntry.key key l) s) :
    Agrees now (Recency.lookup CacheEntry.key key (chainCas key oldval newval granted l).2)
      (if (chainCas key oldval newval granted l).1 = 1 then s.map fun s => { s with val := newval }
        else s) := by
  unfold chainCas
  cases hlook : Recency.lookup CacheEntry.key key l with
  | none =>
    rw [hlook] at ha
    simpa [hlook] using ha
  | some e =>
    have hkey := (lookup_mem hlook).2
    rw [hlook] at ha
    by_cases hold : e.val = oldval
    · cases granted with
      | true =>
        simp only [if_neg (not_not.mpr hold), if_true]
        rw [lookup_replace_entry { e with val := newval } hlook hkey]
        exact ha.setVal newval
      | false => simpa [hold, hlook] using ha
    · simpa [hold, hlook] using ha

theorem agrees_chainIncr {key : List UInt8} {increment : ℤ} {granted : Bool}
    {l l' : List CacheEntry} {now rv : ℤ} {newval : Option ℤ} {s : Option LastSet}
    (hincr : chainIncr key increment granted l = .ok ((rv, newval), l'))
    (ha : Agrees now (Recency.lookup CacheEntry.key key l) s) :
    Agrees now (Recency.lookup CacheEntry.key key l')
      (newval.elim s fun n => s.map fun s => { s with val := counterVal s.val n }) := by
  unfold chainIncr at hincr
  cases hlook : Recency.lookup CacheEntry.key key l with
  | none =>
    rw [hlook] at hincr ha
    simp only [Except.ok.injEq, Prod.mk.injEq] at hincr
    obtain ⟨⟨-, rfl⟩, rfl⟩ := hincr
    rwa [hlook]
  | some e =>
    have hkey := (lookup_mem hlook).2
    rw [hlook] at hincr ha
    obtain ⟨⟨out, v⟩, hbump, hincr⟩ := bind_eq_ok.mp hincr
    simp only [pure_eq_ok, Except.ok.injEq, Prod.mk.injEq] at hincr
    obtain ⟨rfl, rfl⟩ := hincr
    rw [lookup_replace_entry { e with val := v } hlook hkey]
    rcases bumpVal_cases hbump with ⟨hnone, rfl⟩ | ⟨n, hn, rfl⟩
    · obtain rfl : newval = none := hnone
      exact ha
    · -- The bumped value is the counter text of the value that both had.
      obtain rfl : newval = some n := hn
      cases s with
      | none => exact ha
      | some s => exact ⟨congrArg (counterVal · n) ha.val, ha.expire, ha.timeout, ha.time⟩

theorem agrees_self {cap : ℕ} {l l' : List CacheEntry} {cd cd' : Cache} {now clock : ℤ}
    {op : CacheOp} {o : CacheOut} {last : List UInt8 → Option LastSet}
    (hd : Recency.Distinct CacheEntry.key l) (hstep : chainStep cap l (now, op) = .ok (o, l'))
    (hclock : 0 ≤ clock ∧ clock ≤ now)
    (hT : ∀ key val timeout granted, op = .set key val timeout granted → 0 ≤ timeout)
    (hkeep : ∀ key val timeout granted, op = .set key val timeout granted → granted.val = true →
      ∀ e, Recency.lookup CacheEntry.key key l = some e → e.expire = expireAt now timeout)
    (ha : Agrees clock (Recency.lookup CacheEntry.key op.key l) (last op.key)) :
    Agrees now (Recency.lookup CacheEntry.key op.key l')
      (lastSets cd cd' now op o last op.key) := by
  cases op with
  | get key =>
    simp only [chainStep, Except.ok.injEq, Prod.mk.injEq] at hstep
    obtain ⟨-, rfl⟩ := hstep
    exact agrees_chainGet hd hclock.2 ha
  | set key val timeout granted =>
    simp only [chainStep, Except.ok.injEq, Prod.mk.injEq] at hstep
    obtain ⟨rfl, rfl⟩ := hstep
    simp only [CacheOp.key, lastSets, if_true]
    exact agrees_chainSet hclock (hT key val timeout granted rfl)
      (hkeep key val timeout granted rfl) ha
  | del key =>
    simp only [chainStep, Except.ok.injEq, Prod.mk.injEq] at hstep
    obtain ⟨-, rfl⟩ := hstep
    simp only [CacheOp.key, lastSets, if_true]
    exact agrees_chainDel now hd
  | cas key oldval newval granted =>
    simp only [chainStep, Except.ok.injEq, Prod.mk.injEq] at hstep
    obtain ⟨rfl, rfl⟩ := hstep
    simp only [CacheOp.key, lastSets, true_and]
    exact agrees_chainCas (ha.mono hclock.2)
  | incr key increment granted =>
    simp only [chainStep] at hstep
    obtain ⟨⟨⟨rv, newval⟩, l₁⟩, hincr, hstep⟩ := bind_eq_ok.mp hstep
    simp only [pure_eq_ok, Except.ok.injEq, Prod.mk.injEq] at hstep
    obtain ⟨rfl, rfl⟩ := hstep
    simp only [CacheOp.key, lastSets, if_true]
    have hagrees := agrees_chainIncr hincr (ha.mono hclock.2)
    cases newval with
    | none => exact hagrees
    | some n => exact hagrees

theorem Timely.clock_le {h : History} {now : ℤ} {op : CacheOp} (hL : Timely (some h) (now, op)) :
    h.clock ≤ now := by
  cases op with
  | set key val timeout granted => exact hL.1
  | _ => exact hL

/-- One call keeps the invariant, when a set in it keeps the expiry time that it finds. -/
theorem ExpiryInv.next {malloc : Allocator CacheEntry} {hashlen cap : ℕ} (hcap : 0 < cap)
    {h : Option History} {i : ℤ × CacheOp} (hi : ExpiryInv hashlen cap h) (hL : Timely h i)
    (hG : KeepsExpiry h i) : ExpiryInv hashlen cap (History.next malloc h i) := by
  cases h with
  | none => trivial
  | some h =>
    obtain ⟨hclock, t, hcd, hd, hagrees⟩ := hi
    obtain ⟨now, op⟩ := i
    have hnow := hL.clock_le
    rw [History.next, Option.bind_some]
    cases hstep : cacheStep malloc h.cd (now, op) with
    | error f => exact True.intro
    | ok p =>
      obtain ⟨o, cd'⟩ := p
      obtain ⟨l', hchain, hcd'⟩ := cacheStep_inv hcap hcd hstep
      dsimp only at hchain hcd'
      have hd' : ∀ j, Recency.Distinct CacheEntry.key
          (Function.update t (chainIndex hashlen op.key) l' j) := by
        intro j
        by_cases hj : j = chainIndex hashlen op.key
        · rw [hj, Function.update_self]
          exact chainStep_distinct (hd _) hchain
        · rw [Function.update_of_ne hj]
          exact hd j
      have hself : Function.update t (chainIndex hashlen op.key) l' (chainIndex hashlen op.key) = l' :=
        Function.update_self ..
      generalize Function.update t (chainIndex hashlen op.key) l' = t' at hcd' hd' hself
      refine ⟨hclock.trans hnow, t', hcd', hd', fun k => ?_⟩
      by_cases hk : k = op.key
      · rw [hk, hself]
        refine agrees_self (hd _) hchain ⟨hclock, hnow⟩ ?_ ?_ (hagrees op.key)
        · rintro key val timeout granted rfl
          exact hL.2
        · rintro key val timeout granted rfl hg e he
          have hset := hG hg
          rw [hcd.entryOf key] at hset
          change Recency.lookup CacheEntry.key key (t (chainIndex hashlen key)) = some e at he
          rw [he] at hset
          exact hset
      · exact agrees_of_ne hcap hcd hcd' hd hstep hnow hk (hagrees k)

/-! ## The exact condition -/

/-- An expiry time that lets an entry through exactly as long as a timeout does is the one that the
timeout gives. -/
theorem expire_eq {E now timeout : ℤ} (hE : 0 ≤ E) (hT : 0 ≤ timeout)
    (h : ∀ n, now ≤ n → ((0 < E ∧ E < n) ↔ ¬(timeout = 0 ∨ n ≤ now + timeout))) :
    E = expireAt now timeout := by
  unfold expireAt
  split_ifs with h0
  · -- Without a timeout, an entry with an expiry time would be lost after it.
    have hlate := h (max now (E + 1)) (le_max_left _ _)
    by_contra hne
    exact hlate.mp ⟨by omega, by omega⟩ (.inl h0)
  · -- With one, the last moment and the moment after it fix the expiry time.
    have hlast := h (now + timeout) (by omega)
    have hafter := h (now + timeout + 1) (by omega)
    have hover := hafter.mpr (by omega)
    have hnot : ¬(0 < E ∧ E < now + timeout) := fun hin => hlast.mp hin (.inr le_rfl)
    omega

/-- A set that replaces an entry with another expiry time than its own breaks the promise. -/
theorem not_expiry_next {malloc : Allocator CacheEntry} {hashlen cap : ℕ} (hcap : 0 < cap)
    {h : Option History} {i : ℤ × CacheOp} (hi : ExpiryInv hashlen cap h) (hL : Timely h i)
    (hG : ¬KeepsExpiry h i) : ¬Expiry (History.next malloc h i) := by
  cases h with
  | none => exact absurd trivial hG
  | some h =>
    obtain ⟨now, op⟩ := i
    cases op with
    | set key val timeout granted =>
      obtain ⟨hclock, t, hcd, -, hagrees⟩ := hi
      have ha := hagrees key
      have hentry := hcd.entryOf key
      simp only [KeepsExpiry, hentry] at hG
      obtain ⟨rfl, rfl, cells, hr, rfl⟩ := hcd
      -- The set finds an entry with another expiry time.
      cases hlook : Recency.lookup CacheEntry.key key
          (items (cells (chainIndex h.cd.hashlen key))) with
      | none => simp [hlook] at hG
      | some e =>
        simp only [hlook] at hG
        obtain ⟨hg, hne⟩ := Classical.not_imp.mp hG
        have hE : 0 ≤ e.expire := by
          cases hs : h.last key with
          | none => simp only [hlook, hs, Agrees] at ha
          | some s =>
            simp only [hlook, hs] at ha
            have hexp := ha.expire
            have htime := ha.time.1
            have htimeout := ha.timeout
            unfold expireAt at hexp
            split_ifs at hexp <;> omega
        obtain ⟨cd', hset, hturns⟩ := hr.cacheSet_spec key malloc hcap now val timeout granted
        simp only [chainSet, hlook, if_pos hg] at hset hturns
        obtain ⟨hhash, -, cs', hr', hcs'⟩ := hturns
        have hfound : Recency.lookup CacheEntry.key key
            (items (Function.update cells (chainIndex h.cd.hashlen key) cs'
              (chainIndex cd'.hashlen key))) = some { e with val := val } := by
          rw [hhash, Function.update_self, hcs']
          exact lookup_put_entry _ { e with val := val } _ (lookup_mem hlook).2
        -- So the cache and the promise differ at some time from now on.
        intro hexpiry
        have hlast : lastSets h.cd cd' now (.set key val timeout granted) ⟨1, none, none⟩ h.last key =
            some ⟨val, timeout, now⟩ := by
          simp [lastSets]
        simp only [History.next, Option.bind_some, cacheStep, hset, ok_bind, pure_eq_ok] at hexpiry
        refine hne (expire_eq hE hL.2 fun n hn => ?_)
        obtain ⟨cd₁, hpromise⟩ := hexpiry key _ hlast n hn
        obtain ⟨cd₂, hget, -⟩ := hr'.cacheGet_spec key n
        rw [hpromise, chainGet, hfound] at hget
        have hboth := (Prod.mk.inj (Except.ok.inj hget)).1
        dsimp only at hboth
        by_cases hover : 0 < e.expire ∧ e.expire < n <;>
          by_cases htime : timeout = 0 ∨ n ≤ now + timeout <;> simp_all
    | _ => exact absurd trivial hG

/-- The promise holds through a run exactly when no successful set in it replaces an entry with
another expiry time than its own. -/
theorem always_expiry_iff {numobjs flags : ℕ} {gc gt : Bool} {cd : Cache} (hnum : 4 ≤ numobjs)
    (hcd : cacheCreate numobjs flags gc gt = .ok (some cd)) (malloc : Allocator CacheEntry)
    {is : List (ℤ × CacheOp)}
    (hL : EachStep (History.next malloc) Timely (History.start cd) is) :
    Always (History.next malloc) Expiry (History.start cd) is ↔
      EachStep (History.next malloc) KeepsExpiry (History.start cd) is := by
  have hstart : ExpiryInv (numobjs / 4) 4 (History.start cd) :=
    ⟨le_rfl, _, cacheCreate_holds hnum hcd, fun _ => List.nodup_nil, fun _ => trivial⟩
  have hkeep : ∀ h i, ExpiryInv (numobjs / 4) 4 h → Timely h i → KeepsExpiry h i →
      ExpiryInv (numobjs / 4) 4 (History.next malloc h i) :=
    fun _ _ hi hL hG => hi.next (by norm_num) hL hG
  have hbreak : ∀ h i, ExpiryInv (numobjs / 4) 4 h → Timely h i → ¬KeepsExpiry h i →
      ¬Expiry (History.next malloc h i) :=
    fun _ _ hi hL hG => not_expiry_next (by norm_num) hi hL hG
  exact always_iff_eachStep (fun _ => ExpiryInv.expiry) hkeep hbreak hstart hL

instance : (h : Option History) → (i : ℤ × CacheOp) → Decidable (Timely h i)
  | some _, (_, .set _ _ _ _) => inferInstanceAs (Decidable (_ ∧ _))
  | some h, (now, .get _) => inferInstanceAs (Decidable (h.clock ≤ now))
  | some h, (now, .del _) => inferInstanceAs (Decidable (h.clock ≤ now))
  | some h, (now, .cas _ _ _ _) => inferInstanceAs (Decidable (h.clock ≤ now))
  | some h, (now, .incr _ _ _) => inferInstanceAs (Decidable (h.clock ≤ now))
  | none, _ => .isTrue trivial

/-- A cache with one chain, as `cache_create` leaves it. -/
def sampleCache : Cache := ⟨4, 0, 1, 4, [⟨0, none, none⟩], ∅⟩

/-- A key set for 10 seconds, and again for 5 seconds when it has 5 left. -/
def steadySets : List (ℤ × CacheOp) :=
  [(100, .set [107] [1] 10 .granted), (105, .set [107] [2] 5 .granted), (107, .get [107])]

theorem always_expiry_steadySets :
    Always (History.next bump) Expiry (History.start sampleCache) steadySets := by
  have hcreate : cacheCreate 4 0 true true = .ok (some sampleCache) := rfl
  refine (always_expiry_iff le_rfl hcreate bump (by decide +kernel)).mpr
    ⟨fun _ => trivial, fun _ => ?_, trivial, trivial⟩
  -- The entry found expires at 110, which is what the second set asks for.
  trivial

/-- A key set for 10 seconds, and 5 seconds later again for 100 seconds. -/
def renewedSets : List (ℤ × CacheOp) :=
  [(100, .set [107] [1] 10 .granted), (105, .set [107] [2] 100 .granted)]

/-- 50 seconds after the second set, the key is gone. -/
theorem not_always_expiry_renewedSets :
    cacheCreate 4 0 true true = .ok (some sampleCache) ∧
      EachStep (History.next bump) Timely (History.start sampleCache) renewedSets ∧
      ¬Always (History.next bump) Expiry (History.start sampleCache) renewedSets := by
  refine ⟨rfl, by decide +kernel, fun ⟨_, _, hexpiry⟩ => ?_⟩
  have hend : ∃ h ∈ renewedSets.foldl (History.next bump) (History.start sampleCache),
      h.last [107] = some ⟨[2], 100, 105⟩ ∧ h.clock = 105 ∧
        (cacheGet h.cd 150 [107]).toOption.map Prod.fst = some (0, none) := by
    decide +kernel
  obtain ⟨h, hmem, hlast, hclock, hget⟩ := hend
  have hh : Expiry (some h) := (Option.mem_def.mp hmem) ▸ hexpiry
  obtain ⟨cd', hpromise⟩ := hh [107] _ hlast 150 (by omega)
  simp [hpromise, Except.toOption] at hget

end Moc
