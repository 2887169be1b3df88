import Moc.Lib.Decimal
import Moc.Lib.Dll

/-!
# The generic cache layer

A hash table of chains, each a doubly linked list of entries with the most recently set one first
(`server/cache.c`). The entries of all chains lie in one heap; an entry's key and value buffers
belong to it alone, so they are part of the heap cell, and their sizes are their lengths. Every
operation takes the clock `g_ctime` it reads and the outcome of each allocation it makes; where an
entry lands is up to the allocator.
-/

open Bytes Memory Decimal Dll

namespace Moc

/-- What a `struct cache_entry` holds besides its links. -/
structure CacheEntry where
  /-- The key. -/
  key : List UInt8
  /-- The value. -/
  val : List UInt8
  /-- When the entry expires, 0 for never. -/
  expire : ℤ
  deriving DecidableEq, Repr

/-- A `struct cache_chain`. -/
structure CacheChain where
  /-- The number of entries. -/
  len : ℕ
  /-- The entry set last. -/
  first : Option ℕ
  /-- The entry set first. -/
  last : Option ℕ
  deriving DecidableEq, Repr

/-- A `struct cache`, with the heap its chains lie in. -/
structure Cache where
  /-- How many objects the creator asked for. -/
  numobjs : ℕ
  /-- The creator's flags. -/
  flags : ℕ
  /-- The number of chains. -/
  hashlen : ℕ
  /-- The length a chain is meant to have. -/
  chainlen : ℕ
  /-- The chains. -/
  table : List CacheChain
  /-- The entries. -/
  heap : Heap CacheEntry

/-- Which of the allocations of `cache_set` succeed: the entry, its key and its value. -/
structure CacheAllocs where
  /-- `malloc(sizeof(struct cache_entry))`. -/
  entry : Bool
  /-- `malloc(ksize)`. -/
  key : Bool
  /-- `malloc(vsize)`, of a new entry or of a replacement. -/
  val : Bool
  deriving DecidableEq, Repr

/-- Every allocation succeeds. -/
def CacheAllocs.granted : CacheAllocs := ⟨true, true, true⟩

/-- `sizeof(struct cache_chain)`. -/
def sizeofCacheChain : ℕ := 24

/-- `cache_create`. The size of the table is computed modulo `2^64`; when it wraps, the loop that
clears the chains runs past the end of what was allocated. -/
def cacheCreate (numobjs flags : ℕ) (cdGranted tableGranted : Bool) :
    Except Fault (Option Cache) :=
  let chainlen := 4
  let hashlen := numobjs / chainlen
  if !cdGranted || !tableGranted then .ok none
  else if 2^64 ≤ sizeofCacheChain * hashlen then .error .outOfBounds
  else
    let table := List.replicate hashlen ⟨0, none, none⟩
    .ok (some { numobjs, flags, hashlen, chainlen, table, heap := ∅ })

/-- `hash(key, ksize) % cd->hashlen`. -/
def bucketOf (cd : Cache) (key : List UInt8) : Except Fault ℕ :=
  if cd.hashlen = 0 then .error .divideByZero
  else .ok ((oneAtATime key).toNat % cd.hashlen)

/-- `cd->table + h`. -/
def chainAt (cd : Cache) (h : ℕ) : Except Fault CacheChain :=
  match cd.table[h]? with
  | none => .error .outOfBounds
  | some c => .ok c

/-- `find_in_chain`: the entry with the key, NULL when there is none. -/
def findInChain (heap : Heap CacheEntry) (c : CacheChain) (key : List UInt8) :
    Except Fault (Option ℕ) :=
  find heap (fun e => key.length = e.key.length && key = e.key) heap.keys.length c.first

/-- `find_in_cache`. -/
def findInCache (cd : Cache) (key : List UInt8) : Except Fault (Option ℕ) := do
  let h ← bucketOf cd key
  let c ← chainAt cd h
  findInChain cd.heap c key

/-! ## Deleting -/

/-- `e->prev->next = e->next; if (e->next != NULL) e->next->prev = e->prev`, for an entry that is
not the first of its chain. -/
def bypass (heap : Heap CacheEntry) (e : ℕ) : Except Fault (Heap CacheEntry) := do
  let n ← deref heap (some e)
  let heap ← setNext heap n.prev n.next
  let n ← deref heap (some e)
  setPrevIf heap n.next n.prev

/-- The part of `cache_del` that takes an entry out of its chain. -/
def unlink (heap : Heap CacheEntry) (c : CacheChain) (e : ℕ) :
    Except Fault (Heap CacheEntry × CacheChain) := do
  let n ← deref heap (some e)
  let (heap, c) ← (if c.first = some e then do
      let heap ← setPrevIf heap n.next none
      return (heap, { c with first := n.next })
    else do
      let heap ← bypass heap e
      return (heap, c))
  let n ← deref heap (some e)
  return (heap, if c.last = some e then { c with last := n.prev } else c)

/-- `cache_del`. -/
def cacheDel (cd : Cache) (key : List UInt8) : Except Fault (ℤ × Cache) := do
  let h ← bucketOf cd key
  let c ← chainAt cd h
  let e ← findInChain cd.heap c key
  match e with
  | none => return (0, cd)
  | some e =>
    let (heap, c) ← unlink cd.heap c e
    let heap ← free heap (some e)
    return (1, { cd with heap, table := cd.table.set h { c with len := c.len - 1 } })

/-! ## Getting -/

/-- `cache_get`: the return value and the value delivered. An entry past its expiry time is deleted
and not delivered. -/
def cacheGet (cd : Cache) (now : ℤ) (key : List UInt8) :
    Except Fault ((ℤ × Option (List UInt8)) × Cache) := do
  let e ← findInCache cd key
  match e with
  | none => return ((0, none), cd)
  | some e =>
    let n ← deref cd.heap (some e)
    if 0 < n.item.expire ∧ n.item.expire < now then do
      let (_, cd) ← cacheDel cd key
      return ((0, none), cd)
    else return ((1, some n.item.val), cd)

/-! ## Setting -/

/-- `new->next = c->first; c->first->prev = new; c->first = new`. -/
def linkFirst (heap : Heap CacheEntry) (c : CacheChain) (new : ℕ) :
    Except Fault (Heap CacheEntry × CacheChain) := do
  let heap ← setNext heap (some new) c.first
  let heap ← setPrev heap c.first (some new)
  return (heap, { c with first := some new })

/-- The part of `cache_set` that evicts the last entry of a full chain. -/
def evictLast (heap : Heap CacheEntry) (c : CacheChain) :
    Except Fault (Heap CacheEntry × CacheChain) := do
  let e := c.last
  let n ← deref heap e
  let c := { c with last := n.prev }
  let heap ← setNext heap c.last none
  let heap ← free heap e
  return (heap, c)

/-- The part of `cache_set` that puts a new entry into its chain. -/
def putIn (chainlen : ℕ) (heap : Heap CacheEntry) (c : CacheChain) (new : ℕ) :
    Except Fault (Heap CacheEntry × CacheChain) :=
  if c.len = 0 then return (heap, ⟨1, some new, some new⟩)
  else if c.len ≤ chainlen then do
    -- Slots are still available, as long as one entry over the meant length.
    let (heap, c) ← linkFirst heap c new
    return (heap, { c with len := c.len + 1 })
  else do
    let (heap, c) ← evictLast heap c
    linkFirst heap c new

/-- The part of `cache_set` that moves an entry to the top of its chain. -/
def promote (heap : Heap CacheEntry) (c : CacheChain) (e : ℕ) :
    Except Fault (Heap CacheEntry × CacheChain) :=
  if c.first = some e then return (heap, c)
  else do
    let n ← deref heap (some e)
    let c := if c.last = some e then { c with last := n.prev } else c
    let heap ← bypass heap e
    let heap ← setPrev heap (some e) none
    linkFirst heap c e

/-- `e->val = v`, for an entry `e` whose old value is freed. -/
def setVal (heap : Heap CacheEntry) (e : ℕ) (v : List UInt8) : Except Fault (Heap CacheEntry) :=
  assign heap (some e) fun n => { n with item := { n.item with val := v } }

/-- `cache_set`. -/
def cacheSet (malloc : Allocator CacheEntry) (cd : Cache) (now : ℤ) (key val : List UInt8)
    (timeout : ℤ) (granted : CacheAllocs) : Except Fault (ℤ × Cache) := do
  let h ← bucketOf cd key
  let c ← chainAt cd h
  let e ← findInChain cd.heap c key
  match e with
  | none =>
    -- A key that was not granted frees the entry again, a value the key and the entry.
    if !granted.entry then return (0, cd)
    else if !granted.key then return (0, cd)
    else if !granted.val then return (0, cd)
    else do
      let new := malloc.pick cd.heap
      let expire := if timeout = 0 then 0 else now + timeout
      let heap := cd.heap.insert new ⟨⟨key, val, expire⟩, none, none⟩
      let (heap, c) ← putIn cd.chainlen heap c new
      return (1, { cd with heap, table := cd.table.set h c })
  | some e =>
    if !granted.val then return (0, cd)
    else do
      let heap ← setVal cd.heap e val
      let (heap, c) ← promote heap c e
      return (1, { cd with heap, table := cd.table.set h c })

/-! ## Compare-and-swap and counters -/

/-- `cache_cas`. -/
def cacheCas (cd : Cache) (key oldval newval : List UInt8) (granted : Bool) :
    Except Fault (ℤ × Cache) := do
  let e ← findInCache cd key
  match e with
  | none => return (-1, cd)
  | some e =>
    let n ← deref cd.heap (some e)
    if n.item.val.length ≠ oldval.length then return (0, cd)
    else if n.item.val ≠ oldval then return (0, cd)
    else if !granted then return (-2, cd)
    else do
      let heap ← setVal cd.heap e newval
      return (1, { cd with heap })

/-- The sum of two `int64_t`. -/
def addInt64 (a b : ℤ) : Except Fault ℤ :=
  if int64Min ≤ a + b ∧ a + b ≤ int64Max then .ok (a + b) else .error .overflow

/-- The bytes of a value after `cache_incr` writes the number `intval` into it: into a new buffer
of 24 bytes when the old one is smaller. -/
def writeCounter (val : List UInt8) (intval : ℤ) : Except Fault (List UInt8) :=
  let val := if val.length < 24 then List.replicate 24 0 else val
  store val 0 (snprintf val.length (padLeft 23 (print intval)))

/-- `cache_incr`: the return value and the new number. The last byte of a value is the one at
`vsize - 1`, which an empty value does not have. -/
def cacheIncr (cd : Cache) (key : List UInt8) (increment : ℤ) (granted : Bool) :
    Except Fault ((ℤ × Option ℤ) × Cache) := do
  let e ← findInCache cd key
  match e with
  | none => return ((-1, none), cd)
  | some e =>
    let n ← deref cd.heap (some e)
    let val := n.item.val
    match val.getLast? with
    | none => .error .outOfBounds
    | some b =>
      if b ≠ 0 then return ((-2, none), cd)
      else do
        let text ← loadStr val 0
        let intval ← addInt64 (strtoll text) increment
        if val.length < 24 ∧ !granted then return ((-3, none), cd)
        else do
          let val ← writeCounter val intval
          let heap ← setVal cd.heap e val
          return ((1, some intval), { cd with heap })

/-! ## Sequences of operations -/

/-- A call of one of the operations, with the outcome of its allocations. -/
inductive CacheOp where
  /-- `cache_get`. -/
  | get (key : List UInt8)
  /-- `cache_set`. -/
  | set (key val : List UInt8) (timeout : ℤ) (granted : CacheAllocs)
  /-- `cache_del`. -/
  | del (key : List UInt8)
  /-- `cache_cas`. -/
  | cas (key oldval newval : List UInt8) (granted : Bool)
  /-- `cache_incr`. -/
  | incr (key : List UInt8) (increment : ℤ) (granted : Bool)
  deriving DecidableEq, Repr

/-- What a call gives its caller: the return value, and the value or number it delivers. -/
structure CacheOut where
  /-- The return value. -/
  rv : ℤ
  /-- `*val` and `*vsize` of a `cache_get`. -/
  val : Option (List UInt8)
  /-- `*newval` of a `cache_incr`. -/
  newval : Option ℤ
  deriving DecidableEq, Repr

/-- The key a call is about. -/
def CacheOp.key : CacheOp → List UInt8
  | .get k => k
  | .set k _ _ _ => k
  | .del k => k
  | .cas k _ _ _ => k
  | .incr k _ _ => k

/-- One call at a time of the clock. -/
def cacheStep (malloc : Allocator CacheEntry) (cd : Cache) : ℤ × CacheOp →
    Except Fault (CacheOut × Cache)
  | (now, .get key) => do
    let ((rv, val), cd) ← cacheGet cd now key
    return (⟨rv, val, none⟩, cd)
  | (now, .set key val timeout granted) => do
    let (rv, cd) ← cacheSet malloc cd now key val timeout granted
    return (⟨rv, none, none⟩, cd)
  | (_, .del key) => do
    let (rv, cd) ← cacheDel cd key
    return (⟨rv, none, none⟩, cd)
  | (_, .cas key oldval newval granted) => do
    let (rv, cd) ← cacheCas cd key oldval newval granted
    return (⟨rv, none, none⟩, cd)
  | (_, .incr key increment granted) => do
    let ((rv, newval), cd) ← cacheIncr cd key increment granted
    return (⟨rv, none, newval⟩, cd)

end Moc
