import Moc.Hdf
import Moc.Lib.Buckets
import Moc.Lib.Runs
import Mathlib.Algebra.Order.Ring.Nat

/-!
# The hash tables

`client/clearsilver/util/neo_hash.c`, under the names `hash_*` the table of users of a plugin, of
modules and callbacks of a client. A table has a power of two of chains and doubles it when `num` reaches
`size`. What a run of calls returns is what a finite map returns (`neHashRun_agree`), whatever
`hash_func` and `comp_func` are and whenever `realloc` fails. `num` counts calls and not nodes
(`neHashRun_num`).
-/

open Buckets Memory

namespace Moc

/-- An `NE_HASHNODE`; `next` is the rest of the chain. The value is a pointer, none for `NULL`. -/
structure NeHashNode (K V : Type) where
  key : K
  value : Option V
  hashv : UInt32

/-- The functions that `ne_hash_init` is given, `NULL` for `comp_func` as none, and which key is a null
pointer. -/
structure NeHashFuncs (K : Type) where
  hashFunc : K → UInt32
  compFunc : Option (K → K → Bool)
  isNull : K → Bool

/-- An `NE_HASH`. -/
structure NeHash (K V : Type) where
  size : ℕ
  num : ℕ
  nodes : List (List (NeHashNode K V))

variable {K V : Type} [DecidableEq K]

/-- `comp_func`, or the comparison of pointers without one. -/
def NeHashFuncs.same (F : NeHashFuncs K) (a b : K) : Bool :=
  match F.compFunc with
  | some comp => comp a b
  | none => a = b

/-- `ne_hash_init` -/
def neHashInit : NeHash K V := ⟨256, 0, List.replicate 256 []⟩

namespace NeHash

variable (F : NeHashFuncs K) (h : NeHash K V)

/-- The bucket of a hash value. -/
def bucket (hashv : UInt32) : ℕ := hashv.toNat &&& (h.size - 1)

/-- `_hash_lookup_node`: the bucket, and the place in its chain where the loop stops. -/
def hashLookupNode (key : K) : ℕ × ℕ :=
  let bucket := h.bucket (F.hashFunc key)
  (bucket, (chain h.nodes bucket).findIdx fun node => F.same node.key key)

/-- The node at a place, none for `NULL`. -/
def deref (node : ℕ × ℕ) : Option (NeHashNode K V) := (chain h.nodes node.1)[node.2]?

/-- The inner loop of `_hash_resize`: what stays in the chain `x`, and the chain `next_bucket`. -/
def resizeChain (mask x : ℕ) (next : List (NeHashNode K V)) :
    List (NeHashNode K V) → List (NeHashNode K V) × List (NeHashNode K V)
  | [] => ([], next)
  | entry :: rest =>
    if entry.hashv.toNat &&& mask ≠ x then resizeChain mask x (entry :: next) rest
    else
      let (stay, next) := resizeChain mask x next rest
      (entry :: stay, next)

/-- The outer loop of `_hash_resize`, from the chain `x` on. -/
def resizeLoop (mask origSize : ℕ) (nodes : List (List (NeHashNode K V))) (x : ℕ) :
    List (List (NeHashNode K V)) :=
  let (stay, next) := resizeChain mask x (chain nodes (x + origSize)) (chain nodes x)
  (nodes.set x stay).set (x + origSize) next

/-- The error of `_hash_resize` without memory. -/
def resizeNomem : NeoErr := ⟨nerrNomem, ascii "Unable to allocate memory to resize NE_HASH"⟩

/-- `_hash_resize`, whose `realloc` succeeds when `grow` says so: the error, none for `STATUS_OK`. -/
def hashResize (grow : Bool) : Option NeoErr × NeHash K V :=
  if h.size > h.num then (none, h)
  else if grow then
    let size := h.size * 2 % 2 ^ 32
    let nodes := h.nodes ++ List.replicate (size - h.size) []
    (none, { h with size, nodes := (List.range h.size).foldl (resizeLoop (size - 1) h.size) nodes })
  else (some resizeNomem, h)

/-- `ne_hash_insert`. `alloc` says whether `malloc` has a node. The code tests `node` where it means
`*node`, so without one it writes through `NULL`. -/
def neHashInsert (key : K) (value : Option V) (alloc grow : Bool) :
    Except Fault (Option NeoErr × NeHash K V) := do
  let node := h.hashLookupNode F key
  let nodes ← (match h.deref node with
    | some n => .ok (h.nodes.set node.1 ((chain h.nodes node.1).set node.2 { n with value := value }))
    | none =>
      if alloc then
        .ok (h.nodes.set node.1 (chain h.nodes node.1 ++ [⟨key, value, F.hashFunc key⟩]))
      else .error .nullPointer)
  return hashResize { h with nodes := nodes, num := (h.num + 1) % 2 ^ 32 } grow

/-- `ne_hash_lookup` -/
def neHashLookup (key : K) : Option V := (h.deref (h.hashLookupNode F key)).bind NeHashNode.value

/-- `ne_hash_has_key` -/
def neHashHasKey (key : K) : Bool := (h.deref (h.hashLookupNode F key)).isSome

/-- `ne_hash_remove`: the value, and the table. -/
def neHashRemove (key : K) : Option V × NeHash K V :=
  let node := h.hashLookupNode F key
  match h.deref node with
  | some rem =>
    (rem.value, { h with
      nodes := h.nodes.set node.1 ((chain h.nodes node.1).eraseIdx node.2)
      num := (h.num + 2 ^ 32 - 1) % 2 ^ 32 })
  | none => (none, h)

/-- The last loop of `ne_hash_next`: the first node of the chains. -/
def firstIn : List (List (NeHashNode K V)) → Option (NeHashNode K V)
  | [] => none
  | [] :: chains => firstIn chains
  | (node :: _) :: _ => some node

/-- The end of `ne_hash_next`, with the bucket and `*key`. -/
def nextFrom (bucket : ℕ) (key : Option K) : Option V × Option K :=
  match firstIn (h.nodes.drop bucket) with
  | some node => (node.value, some node.key)
  | none => (none, key)

/-- `ne_hash_next`: the value, and `*key`, which is none while it is the `NULL` that a walk starts
with. -/
def neHashNext (key : Option K) : Option V × Option K :=
  match key.filter fun k => !F.isNull k with
  | none => h.nextFrom 0 key
  | some k =>
    let node := h.hashLookupNode F k
    match h.deref node with
    | none => h.nextFrom (h.bucket (F.hashFunc k)) key
    | some n =>
      match h.deref (node.1, node.2 + 1) with
      | some next => (next.value, some next.key)
      | none => h.nextFrom (h.bucket n.hashv + 1) key

/-- The nodes in the order in which `ne_hash_destroy` hands them to `destroy_func` and frees them. -/
def entries : List (NeHashNode K V) := h.nodes.flatten

end NeHash

/-! ## Finite maps -/

/-- `comp_func` is an equivalence, and equivalent keys have one hash value. -/
structure NeHashFuncs.Lawful (F : NeHashFuncs K) : Prop where
  refl : ∀ a, F.same a a
  symm : ∀ {a b}, F.same a b → F.same b a
  trans : ∀ {a b c}, F.same a b → F.same b c → F.same a c
  hashFunc_eq : ∀ {a b}, F.same a b → F.hashFunc a = F.hashFunc b

theorem NeHashFuncs.Lawful.cancel {F : NeHashFuncs K} (hF : F.Lawful) {a b c : K}
    (hac : F.same a c) (hbc : F.same b c) : F.same a b := hF.trans hac (hF.symm hbc)

/-- Equivalent keys are equivalent to the same keys. -/
theorem NeHashFuncs.Lawful.same_left {F : NeHashFuncs K} (hF : F.Lawful) {a b : K}
    (hab : F.same a b) (c : K) : F.same a c = F.same b c :=
  Bool.eq_iff_iff.mpr ⟨hF.trans (hF.symm hab), hF.trans hab⟩

/-- `ne_hash_int_hash` and `ne_hash_int_comp`: the keys are numbers cast to pointers. -/
def intFuncs : NeHashFuncs (BitVec 64) where
  hashFunc k := ⟨k.setWidth 32⟩
  compFunc := some fun a b => a = b
  isNull k := k = 0

theorem intFuncs_lawful : intFuncs.Lawful where
  refl _ := decide_eq_true rfl
  symm h := decide_eq_true (of_decide_eq_true h).symm
  trans h h' := decide_eq_true ((of_decide_eq_true h).trans (of_decide_eq_true h'))
  hashFunc_eq h := congrArg intFuncs.hashFunc (of_decide_eq_true h)

/-- A call. `alloc` and `grow` say whether `malloc` and `realloc` succeed. -/
inductive HashCall (K V : Type)
  | insert (key : K) (value : Option V) (alloc grow : Bool)
  | lookup (key : K)
  | hasKey (key : K)
  | remove (key : K)

/-- What a call returns, the status of an insert apart. -/
inductive HashRet (V : Type)
  | inserted
  | value (v : Option V)
  | has (b : Bool)
  deriving DecidableEq

/-- One call on a table. -/
def neHashStep (F : NeHashFuncs K) (h : NeHash K V) : HashCall K V → Except Fault (HashRet V × NeHash K V)
  | .insert key value alloc grow => do
    let (_, h) ← h.neHashInsert F key value alloc grow
    return (.inserted, h)
  | .lookup key => .ok (.value (h.neHashLookup F key), h)
  | .hasKey key => .ok (.has (h.neHashHasKey F key), h)
  | .remove key =>
    let (v, h) := h.neHashRemove F key
    .ok (.value v, h)

/-- One call on a map from keys to pointers. An insert of a key that is not there needs a node. -/
def mapStep (F : NeHashFuncs K) (m : K → Option (Option V)) :
    HashCall K V → Except Fault (HashRet V × (K → Option (Option V)))
  | .insert key value alloc _ =>
    if (m key).isNone ∧ alloc = false then .error .nullPointer
    else .ok (.inserted, fun k => if F.same key k then some value else m k)
  | .lookup key => .ok (.value (m key).join, m)
  | .hasKey key => .ok (.has (m key).isSome, m)
  | .remove key => .ok (.value (m key).join, fun k => if F.same key k then none else m k)

/-- The inserts among some calls. -/
def HashCall.IsInsert : HashCall K V → Bool
  | .insert .. => true
  | _ => false

/-- The map that a table stands for. -/
def NeHash.toMap (F : NeHashFuncs K) (h : NeHash K V) (key : K) : Option (Option V) :=
  (h.entries.find? fun node => F.same node.key key).map NeHashNode.value

namespace NeHash

/-! ## What every call keeps -/

/-- At most `2^31` chains, a power of two, with every node in the chain of its key, no key twice, and no
more nodes than `num`. -/
structure Ok (F : NeHashFuncs K) (h : NeHash K V) : Prop where
  size_eq : ∃ k ≤ 31, h.size = 2 ^ k
  placed : Placed (fun node => node.hashv.toNat) h.size h.nodes
  hashv_eq : ∀ node ∈ h.entries, node.hashv = F.hashFunc node.key
  distinct : Distinct NeHashNode.key F.same h.entries
  length_le : h.entries.length ≤ h.num

variable {F : NeHashFuncs K} {h : NeHash K V}

omit [DecidableEq K] in
theorem bucket_eq (hsize : ∃ k ≤ 31, h.size = 2 ^ k) (hashv : UInt32) :
    h.bucket hashv = hashv.toNat % h.size := by
  obtain ⟨k, -, hk⟩ := hsize
  rw [bucket, hk, Nat.and_two_pow_sub_one_eq_mod]

omit [DecidableEq K] in
theorem size_pos (hsize : ∃ k ≤ 31, h.size = 2 ^ k) : 0 < h.size := by
  obtain ⟨k, -, hk⟩ := hsize
  rw [hk]
  exact Nat.two_pow_pos k

/-- A key is looked up in its chain, and in no other one would it be found. -/
theorem Ok.deref_lookup (hok : h.Ok F) (hF : F.Lawful) (key : K) :
    h.deref (h.hashLookupNode F key) = h.entries.find? fun node => F.same node.key key := by
  rw [deref, hashLookupNode, getElem?_findIdx]
  refine Option.ext fun node => ?_
  rw [hok.distinct.find?_eq_some hF.cancel]
  constructor
  · intro hfind
    have hsame := List.find?_some hfind
    exact ⟨mem_flatten_of_mem_chain (List.mem_of_find?_eq_some hfind), hsame⟩
  · rintro ⟨hmem, hsame⟩
    have hchain := hok.placed.mem_chain hmem
    rw [hok.hashv_eq node hmem, hF.hashFunc_eq hsame, ← bucket_eq hok.size_eq] at hchain
    exact ((hok.distinct.chain _).find?_eq_some hF.cancel).mpr ⟨hchain, hsame⟩

/-! ## Resizing -/

omit [DecidableEq K] in
/-- The loop over a chain keeps the nodes of bucket `x` in order, and puts each other one in front. -/
theorem resizeChain_eq (mask x : ℕ) (next l : List (NeHashNode K V)) :
    resizeChain mask x next l =
      (l.filter fun node => node.hashv.toNat &&& mask = x,
        (l.filter fun node => node.hashv.toNat &&& mask ≠ x).reverse ++ next) := by
  induction l generalizing next with
  | nil => rfl
  | cons entry rest ih =>
    rw [resizeChain]
    split_ifs with hx
    · rw [ih]
      simp [hx]
    · rw [ih]
      simp [not_not.mp hx]

variable {n : ℕ} {t : List (List (NeHashNode K V))}

omit [DecidableEq K] in
/-- One chain more is split, and no node is lost. -/
theorem resizeLoop_step {k x : ℕ} (ht : Splits (fun node => node.hashv.toNat) (2 ^ k) x t)
    (hx : x < 2 ^ k) :
    Splits (fun node => node.hashv.toNat) (2 ^ k) (x + 1) (resizeLoop (2 * 2 ^ k - 1) (2 ^ k) t x) ∧
      (resizeLoop (2 * 2 ^ k - 1) (2 ^ k) t x).flatten.Perm t.flatten := by
  have hmask : ∀ node : NeHashNode K V,
      node.hashv.toNat &&& (2 * 2 ^ k - 1) = node.hashv.toNat % (2 * 2 ^ k) := by
    intro node
    rw [← Nat.pow_succ', Nat.and_two_pow_sub_one_eq_mod]
  have hlength := ht.length_eq
  rw [resizeLoop, resizeChain_eq]
  simp only [hmask]
  constructor
  · apply ht.step hx
    · intro a ha
      simpa using (List.mem_filter.mp ha).2
    · intro a ha
      obtain ha | ha := List.mem_append.mp ha
      · have hmem := List.mem_filter.mp (List.mem_reverse.mp ha)
        exact .inl ⟨hmem.1, by simpa using hmem.2⟩
      · exact .inr ha
  · apply flatten_set_set_perm (by omega) (by omega) (by omega)
    rw [← List.append_assoc]
    apply List.Perm.append_right
    have hsplit := List.filter_append_perm
      (fun node : NeHashNode K V => decide (node.hashv.toNat % (2 * 2 ^ k) = x)) (chain t x)
    simp only [decide_not] at hsplit ⊢
    exact ((List.reverse_perm _).append_left _).trans hsplit

omit [DecidableEq K] in
/-- The outer loop splits every chain. -/
theorem resizeLoop_foldl {k : ℕ} (ht : Placed (fun node => node.hashv.toNat) (2 ^ k) t) :
    let t' := (List.range (2 ^ k)).foldl (resizeLoop (2 * 2 ^ k - 1) (2 ^ k))
      (t ++ List.replicate (2 ^ k) [])
    Placed (fun node => node.hashv.toNat) (2 * 2 ^ k) t' ∧ t'.flatten.Perm t.flatten := by
  intro t'
  suffices hloop : ∀ x ≤ 2 ^ k,
      let s := (List.range x).foldl (resizeLoop (2 * 2 ^ k - 1) (2 ^ k))
        (t ++ List.replicate (2 ^ k) [])
      Splits (fun node => node.hashv.toNat) (2 ^ k) x s ∧ s.flatten.Perm t.flatten by
    obtain ⟨hsplits, hperm⟩ := hloop (2 ^ k) (Nat.le_refl _)
    exact ⟨hsplits.placed, hperm⟩
  intro x hx
  induction x with
  | zero =>
    refine ⟨ht.splits, ?_⟩
    simp
  | succ x ih =>
    obtain ⟨hsplits, hperm⟩ := ih (by omega)
    rw [List.range_succ, List.foldl_concat]
    obtain ⟨hsplits', hperm'⟩ := resizeLoop_step hsplits (by omega)
    exact ⟨hsplits', hperm'.trans hperm⟩

/-- `_hash_resize` keeps the nodes, whether it has memory or not. -/
theorem Ok.hashResize (hok : h.Ok F) (hF : F.Lawful) (hnum : h.num < 2 ^ 31) (grow : Bool) :
    (h.hashResize grow).2.Ok F ∧ (h.hashResize grow).2.entries.Perm h.entries ∧
      (h.hashResize grow).2.num = h.num := by
  unfold NeHash.hashResize
  split_ifs with hsize
  · exact ⟨hok, List.Perm.refl _, rfl⟩
  · obtain ⟨k, hk, hsz⟩ := hok.size_eq
    have hk31 : k < 31 := by
      by_contra hge
      have hpow : 2 ^ 31 ≤ 2 ^ k := Nat.pow_le_pow_right (by omega) (by omega)
      omega
    have hpow : 2 ^ k ≤ 2 ^ 30 := Nat.pow_le_pow_right (by omega) (by omega)
    have hdouble : 2 ^ k * 2 % 2 ^ 32 = 2 * 2 ^ k := by omega
    have hplaced := hok.placed
    rw [hsz] at hplaced
    obtain ⟨hplaced', hperm⟩ := resizeLoop_foldl hplaced
    have hnew : 2 * 2 ^ k - 2 ^ k = 2 ^ k := by omega
    simp only [hsz, hdouble, hnew]
    refine ⟨⟨⟨k + 1, hk31, ?_⟩, hplaced', ?_, ?_, ?_⟩, hperm, trivial⟩
    · exact Nat.pow_succ'.symm
    · intro node hnode
      exact hok.hashv_eq node (hperm.mem_iff.mp hnode)
    · exact hok.distinct.perm hF.symm hperm.symm
    · exact hperm.length_eq.le.trans hok.length_le
  · exact ⟨hok, List.Perm.refl _, rfl⟩

/-! ## The calls -/

omit [DecidableEq K] in
theorem entries_init : (neHashInit : NeHash K V).entries = [] := List.flatten_replicate_nil

theorem ok_init (F : NeHashFuncs K) : (neHashInit : NeHash K V).Ok F where
  size_eq := ⟨8, by norm_num, rfl⟩
  placed := by
    refine ⟨List.length_replicate .., fun i a ha => ?_⟩
    rw [neHashInit, ← List.nil_append (List.replicate 256 _), chain_append_replicate] at ha
    exact absurd ha List.not_mem_nil
  hashv_eq := by simp [entries_init]
  distinct := by simp [entries_init, Distinct]
  length_le := by simp [entries_init]

theorem Ok.neHashLookup_eq (hok : h.Ok F) (hF : F.Lawful) (key : K) :
    h.neHashLookup F key = (h.toMap F key).join := by
  rw [neHashLookup, hok.deref_lookup hF, toMap]
  cases h.entries.find? _ <;> rfl

theorem Ok.neHashHasKey_eq (hok : h.Ok F) (hF : F.Lawful) (key : K) :
    h.neHashHasKey F key = (h.toMap F key).isSome := by
  rw [neHashHasKey, hok.deref_lookup hF, toMap, Option.isSome_map]

/-- A node that is found stands between others in its chain, and can be exchanged or taken out. -/
theorem Ok.found (hok : h.Ok F) (hF : F.Lawful) {key : K} {node : NeHashNode K V}
    (hfind : (h.entries.find? fun node => F.same node.key key) = some node) :
    let place := h.hashLookupNode F key
    h.deref place = some node ∧ ∃ xs ys, h.entries = xs ++ node :: ys ∧
      (∀ node', (h.nodes.set place.1 ((chain h.nodes place.1).set place.2 node')).flatten =
        xs ++ node' :: ys) ∧
      (h.nodes.set place.1 ((chain h.nodes place.1).eraseIdx place.2)).flatten = xs ++ ys := by
  intro place
  have hderef : h.deref place = some node := by rw [hok.deref_lookup hF, hfind]
  exact ⟨hderef, exists_flatten_at hderef⟩

/-- `ne_hash_insert` of a key that is there changes the value of its node. -/
theorem Ok.insert_found (hok : h.Ok F) (hF : F.Lawful) (hnum : h.num + 1 < 2 ^ 31) {key : K}
    {node : NeHashNode K V} (hfind : (h.entries.find? fun node => F.same node.key key) = some node)
    (value : Option V) (alloc grow : Bool) :
    ∃ err h' xs ys, h.neHashInsert F key value alloc grow = .ok (err, h') ∧ h'.Ok F ∧
      h'.num = h.num + 1 ∧ h.entries = xs ++ node :: ys ∧
      h'.entries.Perm (xs ++ { node with value := value } :: ys) := by
  obtain ⟨hderef, xs, ys, hentries, hset, -⟩ := hok.found hF hfind
  have hmod : (h.num + 1) % 2 ^ 32 = h.num + 1 := Nat.mod_eq_of_lt (by omega)
  rw [neHashInsert]
  simp only [hderef, hmod, ok_bind]
  generalize hnodes : h.nodes.set _ _ = nodes
  have hflat : nodes.flatten = xs ++ { node with value := value } :: ys := by rw [← hnodes, hset]
  have hdistinct := hok.distinct
  have hlength := hok.length_le
  have hhashv := hok.hashv_eq
  rw [hentries] at hdistinct hlength hhashv
  have hok' : Ok F { h with nodes := nodes, num := h.num + 1 } := by
    refine ⟨hok.size_eq, ?_, ?_, ?_, ?_⟩
    · rw [← hnodes]
      apply hok.placed.set
      intro a ha
      have hchain := hok.placed.bucket (h.hashLookupNode F key).1
      obtain ha | rfl := List.mem_or_eq_of_mem_set ha
      · exact hchain a ha
      · exact hchain node (List.mem_of_getElem? hderef)
    · rw [entries, hflat]
      intro a ha
      obtain ha | ha := List.mem_append.mp ha
      · exact hhashv a (List.mem_append_left _ ha)
      · obtain rfl | ha := List.mem_cons.mp ha
        · exact hhashv node (List.mem_append_right _ List.mem_cons_self)
        · exact hhashv a (List.mem_append_right _ (List.mem_cons_of_mem _ ha))
    · rw [entries, hflat]
      exact hdistinct.replace rfl
    · rw [entries, hflat]
      simp only [List.length_append, List.length_cons] at hlength ⊢
      omega
  obtain ⟨hres, hperm, hn⟩ := hok'.hashResize hF hnum grow
  exact ⟨_, _, xs, ys, rfl, hres, hn, hentries, hperm.trans (by rw [entries, hflat])⟩

/-- `ne_hash_insert` of a key that is not there adds a node. -/
theorem Ok.insert_new (hok : h.Ok F) (hF : F.Lawful) (hnum : h.num + 1 < 2 ^ 31) {key : K}
    (hfind : (h.entries.find? fun node => F.same node.key key) = none) (value : Option V)
    (grow : Bool) :
    ∃ err h', h.neHashInsert F key value true grow = .ok (err, h') ∧ h'.Ok F ∧
      h'.num = h.num + 1 ∧ h'.entries.Perm (⟨key, value, F.hashFunc key⟩ :: h.entries) := by
  have hderef : h.deref (h.hashLookupNode F key) = none := by rw [hok.deref_lookup hF, hfind]
  have hmod : (h.num + 1) % 2 ^ 32 = h.num + 1 := Nat.mod_eq_of_lt (by omega)
  have hbucket : (h.hashLookupNode F key).1 = (F.hashFunc key).toNat % h.size :=
    bucket_eq hok.size_eq _
  have hlt : (h.hashLookupNode F key).1 < h.nodes.length := by
    rw [hbucket, hok.placed.length_eq]
    exact Nat.mod_lt _ (size_pos hok.size_eq)
  rw [neHashInsert]
  simp only [hderef, hmod, if_true, ok_bind]
  generalize hnodes : h.nodes.set _ _ = nodes
  have hperm : nodes.flatten.Perm (⟨key, value, F.hashFunc key⟩ :: h.entries) := by
    rw [← hnodes, flatten_set hlt, entries, flatten_eq hlt]
    simp only [List.append_assoc, List.singleton_append]
    rw [← List.append_assoc, ← List.append_assoc]
    exact List.perm_middle
  have hok' : Ok F { h with nodes := nodes, num := h.num + 1 } := by
    refine ⟨hok.size_eq, ?_, ?_, ?_, ?_⟩
    · rw [← hnodes]
      apply hok.placed.set
      intro a ha
      obtain ha | ha := List.mem_append.mp ha
      · exact hok.placed.bucket _ a ha
      · rw [List.mem_singleton.mp ha, hbucket]
    · intro a ha
      obtain rfl | ha := List.mem_cons.mp (hperm.mem_iff.mp ha)
      · rfl
      · exact hok.hashv_eq a ha
    · refine Distinct.perm (List.pairwise_cons.mpr ⟨fun a ha hsame => ?_, hok.distinct⟩) hF.symm
        hperm.symm
      exact List.find?_eq_none.mp hfind a ha (hF.symm hsame)
    · have hlength := hperm.length_eq
      rw [List.length_cons] at hlength
      have hle := hok.length_le
      change nodes.flatten.length ≤ h.num + 1
      omega
  obtain ⟨hres, hperm', hn⟩ := hok'.hashResize hF hnum grow
  exact ⟨_, _, rfl, hres, hn, hperm'.trans hperm⟩

/-- Without memory a new key is written through `NULL`. -/
theorem Ok.insert_fault (hok : h.Ok F) (hF : F.Lawful) {key : K}
    (hfind : (h.entries.find? fun node => F.same node.key key) = none) (value : Option V)
    (grow : Bool) : h.neHashInsert F key value false grow = .error .nullPointer := by
  rw [neHashInsert, hok.deref_lookup hF, hfind]
  rfl

/-- `ne_hash_remove` takes one node out. -/
theorem Ok.remove_found (hok : h.Ok F) (hF : F.Lawful) (hnum : h.num < 2 ^ 31) {key : K}
    {node : NeHashNode K V} (hfind : (h.entries.find? fun node => F.same node.key key) = some node) :
    ∃ h' xs ys, h.neHashRemove F key = (node.value, h') ∧ h'.Ok F ∧ h'.num + 1 = h.num ∧
      h'.size = h.size ∧ h.entries = xs ++ node :: ys ∧ h'.entries = xs ++ ys := by
  obtain ⟨hderef, xs, ys, hentries, -, herase⟩ := hok.found hF hfind
  have hlength := hok.length_le
  have hdistinct := hok.distinct
  have hhashv := hok.hashv_eq
  rw [hentries] at hlength hdistinct hhashv
  rw [List.length_append, List.length_cons] at hlength
  have hmod : (h.num + 2 ^ 32 - 1) % 2 ^ 32 = h.num - 1 := by omega
  rw [neHashRemove]
  simp only [hderef, hmod]
  refine ⟨_, xs, ys, rfl, ⟨hok.size_eq, ?_, ?_, ?_, ?_⟩, ?_, rfl, hentries, herase⟩
  · apply hok.placed.set
    intro a ha
    exact hok.placed.bucket _ a (List.mem_of_mem_eraseIdx ha)
  · rw [entries, herase]
    intro a ha
    obtain ha | ha := List.mem_append.mp ha
    · exact hhashv a (List.mem_append_left _ ha)
    · exact hhashv a (List.mem_append_right _ (List.mem_cons_of_mem _ ha))
  · rw [entries, herase]
    exact List.Pairwise.sublist (List.sublist_cons_self node ys |>.append_left xs) hdistinct
  · rw [entries, herase, List.length_append]
    change xs.length + ys.length ≤ h.num - 1
    omega
  · change h.num - 1 + 1 = h.num
    omega

theorem Ok.remove_none (hok : h.Ok F) (hF : F.Lawful) {key : K}
    (hfind : (h.entries.find? fun node => F.same node.key key) = none) :
    h.neHashRemove F key = (none, h) := by
  rw [neHashRemove, hok.deref_lookup hF, hfind]

end NeHash

/-! ## Runs -/

open Runs

variable {F : NeHashFuncs K}

/-- What the inserts among some calls add to `num`. -/
def inserts (calls : List (HashCall K V)) : ℕ := calls.countP HashCall.IsInsert

/-- The table stands for the map, and has room to count the inserts to come. -/
structure StandsFor (F : NeHashFuncs K) (calls : List (HashCall K V)) (h : NeHash K V)
    (m : K → Option (Option V)) : Prop where
  ok : h.Ok F
  map_eq : h.toMap F = m
  room : h.num + inserts calls < 2 ^ 31

namespace NeHash

variable {h h' : NeHash K V} {key : K} {node : NeHashNode K V} {xs ys : List (NeHashNode K V)}

theorem toMap_of_find {r : Option (NeHashNode K V)}
    (hfind : (h.entries.find? fun node => F.same node.key key) = r) :
    h.toMap F key = r.map NeHashNode.value := by
  rw [toMap, hfind]

/-- A table with the nodes in another order, and in other chains, stands for the same map. -/
theorem Ok.toMap_perm (hok : h.Ok F) (hF : F.Lawful) {l : List (NeHashNode K V)}
    (hp : h.entries.Perm l) (k : K) :
    h.toMap F k = (l.find? fun node => F.same node.key k).map NeHashNode.value := by
  rw [toMap, hok.distinct.find?_perm hF.symm hF.cancel hp]

/-- The map with a node more. -/
theorem Ok.toMap_add (hok' : h'.Ok F) (hF : F.Lawful) {value : Option V} {hashv : UInt32}
    (hp : h'.entries.Perm (⟨key, value, hashv⟩ :: h.entries)) (k : K) :
    h'.toMap F k = if F.same key k then some value else h.toMap F k := by
  rw [hok'.toMap_perm hF hp, List.find?_cons]
  cases F.same key k <;> rfl

/-- The map with the value of a node changed. -/
theorem Ok.toMap_change (hok : h.Ok F) (hok' : h'.Ok F) (hF : F.Lawful) {value : Option V}
    (hfind : (h.entries.find? fun node => F.same node.key key) = some node)
    (hentries : h.entries = xs ++ node :: ys)
    (hp : h'.entries.Perm (xs ++ { node with value := value } :: ys)) (k : K) :
    h'.toMap F k = if F.same key k then some value else h.toMap F k := by
  have hdistinct := hok.distinct
  rw [hentries] at hdistinct
  have hkey := List.find?_some hfind
  rw [hok'.toMap_perm hF hp,
    hdistinct.find?_replace (b := { node with value := value }) rfl hF.symm hF.cancel,
    hF.same_left hkey, ← hentries, toMap]
  split_ifs <;> rfl

/-- The map without a node. -/
theorem Ok.toMap_remove (hok : h.Ok F) (hF : F.Lawful)
    (hfind : (h.entries.find? fun node => F.same node.key key) = some node)
    (hentries : h.entries = xs ++ node :: ys) (hentries' : h'.entries = xs ++ ys) (k : K) :
    h'.toMap F k = if F.same key k then none else h.toMap F k := by
  have hdistinct := hok.distinct
  rw [hentries] at hdistinct
  have hkey := List.find?_some hfind
  rw [toMap, hentries', hdistinct.find?_remove hF.symm hF.cancel, hF.same_left hkey, ← hentries, toMap]
  split_ifs <;> rfl

/-- The map without a key that is not there. -/
theorem toMap_absent (hF : F.Lawful)
    (hfind : (h.entries.find? fun node => F.same node.key key) = none) (k : K) :
    h.toMap F k = if F.same key k then none else h.toMap F k := by
  split_ifs with hk
  · refine Option.map_eq_none_iff.mpr (List.find?_eq_none.mpr fun a ha hak => ?_)
    exact List.find?_eq_none.mp hfind a ha (hF.cancel hak hk)
  · rfl

end NeHash

/-- A call returns what the map returns. -/
theorem neHashStep_agree (hF : F.Lawful) (h : NeHash K V) (m : K → Option (Option V))
    (c : HashCall K V) (calls : List (HashCall K V)) (hst : StandsFor F (c :: calls) h m) :
    Agree (StandsFor F calls) (neHashStep F h c) (mapStep F m c) := by
  obtain ⟨hok, rfl, hroom⟩ := hst
  cases c with
  | insert key value alloc grow =>
    rw [inserts, List.countP_cons_of_pos rfl, ← inserts] at hroom
    cases hfind : h.entries.find? fun node => F.same node.key key with
    | none =>
      have hmap := NeHash.toMap_of_find hfind
      cases alloc with
      | false =>
        rw [neHashStep, hok.insert_fault hF hfind, mapStep, hmap]
        exact rfl
      | true =>
        obtain ⟨err, h', hins, hok', hnum, hp⟩ := hok.insert_new hF (by omega) hfind value grow
        rw [neHashStep, hins, mapStep, if_neg fun hand => Bool.noConfusion hand.2]
        exact ⟨rfl, hok', funext (hok'.toMap_add hF hp), by omega⟩
    | some node =>
      have hmap := NeHash.toMap_of_find hfind
      obtain ⟨err, h', xs, ys, hins, hok', hnum, hentries, hp⟩ :=
        hok.insert_found hF (by omega) hfind value alloc grow
      rw [neHashStep, hins, mapStep, hmap, if_neg fun hand => Bool.noConfusion hand.1]
      exact ⟨rfl, hok', funext (hok.toMap_change hok' hF hfind hentries hp), by omega⟩
  | lookup key =>
    rw [neHashStep, hok.neHashLookup_eq hF]
    exact ⟨rfl, hok, rfl, hroom⟩
  | hasKey key =>
    rw [neHashStep, hok.neHashHasKey_eq hF]
    exact ⟨rfl, hok, rfl, hroom⟩
  | remove key =>
    rw [inserts, List.countP_cons_of_neg Bool.false_ne_true, ← inserts] at hroom
    cases hfind : h.entries.find? fun node => F.same node.key key with
    | none =>
      have hmap := NeHash.toMap_of_find hfind
      rw [neHashStep, hok.remove_none hF hfind, mapStep, hmap]
      exact ⟨rfl, hok, funext (NeHash.toMap_absent hF hfind), hroom⟩
    | some node =>
      have hmap := NeHash.toMap_of_find hfind
      obtain ⟨h', xs, ys, hrem, hok', hnum, -, hentries, hentries'⟩ :=
        hok.remove_found hF (by omega) hfind
      rw [neHashStep, hrem, mapStep, hmap]
      exact ⟨rfl, hok', funext (hok.toMap_remove hF hfind hentries hentries'), by omega⟩

theorem StandsFor.init (F : NeHashFuncs K) {calls : List (HashCall K V)}
    (hcalls : inserts calls < 2 ^ 31) : StandsFor F calls neHashInit fun _ => none where
  ok := NeHash.ok_init F
  map_eq := funext fun k => by rw [NeHash.toMap, NeHash.entries_init]; rfl
  room := by
    rw [neHashInit, Nat.zero_add]
    exact hcalls

/-- A run of calls on a new table returns what it returns on the empty map, and the table stands for the
map that it ends in. -/
theorem neHashRun_agree (hF : F.Lawful) (calls : List (HashCall K V)) (hcalls : inserts calls < 2 ^ 31) :
    Agree (StandsFor F []) (run (neHashStep F) neHashInit calls) (run (mapStep F) (fun _ => none) calls) :=
  run_agree_rest (neHashStep_agree hF) (StandsFor.init F hcalls)

/-- Two numbers in one chain, the first one set twice, and the second one taken out. -/
theorem neHashRun_agree_ints :
    let calls : List (HashCall (BitVec 64) ℕ) := [.insert 1 (some 7) true true,
      .insert 257 (some 8) true false, .insert 1 (some 9) false true, .remove 257, .lookup 1, .hasKey 257]
    Agree (StandsFor intFuncs []) (run (neHashStep intFuncs) neHashInit calls)
      (run (mapStep intFuncs) (fun _ => none) calls) :=
  neHashRun_agree intFuncs_lawful _ (by decide)

/-! ## The counter -/

/-- An insert of a key that is there. -/
def HashCall.replaces (m : K → Option (Option V)) : HashCall K V → Bool
  | .insert key .. => (m key).isSome
  | _ => false

/-- How many inserts of a run find their key. -/
def replacing (F : NeHashFuncs K) (m : K → Option (Option V)) : List (HashCall K V) → ℕ
  | [] => 0
  | c :: calls =>
    (c.replaces m).toNat +
      match mapStep F m c with
      | .ok (_, m') => replacing F m' calls
      | .error _ => 0

/-- The calls whose `realloc`, if they need one, succeeds. -/
def HashCall.Grows : HashCall K V → Prop
  | .insert _ _ _ grow => grow
  | _ => True

omit [DecidableEq K] in
/-- With memory a table that is full doubles. -/
theorem NeHash.hashResize_roomy {h : NeHash K V} (hsize : ∃ k ≤ 31, h.size = 2 ^ k)
    (hnum : h.num < 2 ^ 31) (hle : h.num ≤ h.size) :
    (h.hashResize true).2.num < (h.hashResize true).2.size := by
  rw [NeHash.hashResize]
  by_cases hroom : h.size > h.num
  · rw [if_pos hroom]
    exact hroom
  · have hpos : 0 < h.size := size_pos hsize
    rw [if_neg hroom, if_pos rfl]
    change h.num < h.size * 2 % 2 ^ 32
    omega

/-- An insert leaves room for one more when it has memory. -/
theorem NeHash.insert_roomy {h h' : NeHash K V} (hsize : ∃ k ≤ 31, h.size = 2 ^ k)
    (hnum : h.num + 1 < 2 ^ 31) (hlt : h.num < h.size) {key : K} {value : Option V} {alloc : Bool}
    {err : Option NeoErr} (hins : h.neHashInsert F key value alloc true = .ok (err, h')) :
    h'.num < h'.size := by
  rw [neHashInsert] at hins
  obtain ⟨nodes, -, hres⟩ := bind_eq_ok.mp hins
  have hmod : (h.num + 1) % 2 ^ 32 = h.num + 1 := Nat.mod_eq_of_lt (by omega)
  rw [hmod] at hres
  have hroomy := hashResize_roomy (h := { h with nodes := nodes, num := h.num + 1 }) hsize hnum hlt
  rwa [Except.ok.inj hres] at hroomy

/-- What a call does to `num`, to the nodes and to `size`. -/
theorem neHashStep_num (hF : F.Lawful) {h h' : NeHash K V} {m : K → Option (Option V)}
    {c : HashCall K V} {calls : List (HashCall K V)} (hst : StandsFor F (c :: calls) h m)
    {ret : HashRet V} (hstep : neHashStep F h c = .ok (ret, h')) :
    h'.num + h.entries.length = h'.entries.length + h.num + (c.replaces m).toNat ∧
      (c.Grows → h.num < h.size → h'.num < h'.size) := by
  obtain ⟨hok, rfl, hroom⟩ := hst
  cases c with
  | insert key value alloc grow =>
    rw [inserts, List.countP_cons_of_pos rfl, ← inserts] at hroom
    obtain ⟨⟨err, h₁⟩, hins, hret⟩ := bind_eq_ok.mp hstep
    obtain ⟨-, rfl⟩ := Prod.mk.inj (Except.ok.inj hret)
    constructor
    · cases hfind : h.entries.find? fun node => F.same node.key key with
      | none =>
        rw [HashCall.replaces, NeHash.toMap_of_find hfind]
        cases alloc with
        | false =>
          rw [hok.insert_fault hF hfind] at hins
          cases hins
        | true =>
          obtain ⟨err', h₂, hins', -, hnum, hp⟩ := hok.insert_new hF (by omega) hfind value grow
          rw [hins'] at hins
          obtain ⟨-, rfl⟩ := Prod.mk.inj (Except.ok.inj hins)
          rw [hp.length_eq, List.length_cons, hnum]
          simp
          omega
      | some node =>
        rw [HashCall.replaces, NeHash.toMap_of_find hfind]
        obtain ⟨err', h₂, xs, ys, hins', -, hnum, hentries, hp⟩ :=
          hok.insert_found hF (by omega) hfind value alloc grow
        rw [hins'] at hins
        obtain ⟨-, rfl⟩ := Prod.mk.inj (Except.ok.inj hins)
        rw [hp.length_eq, hentries, hnum]
        simp
        omega
    · intro hgrow hlt
      cases grow with
      | false => cases hgrow
      | true => exact NeHash.insert_roomy hok.size_eq (by omega) hlt hins
  | lookup key =>
    obtain ⟨-, rfl⟩ := Prod.mk.inj (Except.ok.inj hstep)
    exact ⟨Nat.add_comm .., fun _ hlt => hlt⟩
  | hasKey key =>
    obtain ⟨-, rfl⟩ := Prod.mk.inj (Except.ok.inj hstep)
    exact ⟨Nat.add_comm .., fun _ hlt => hlt⟩
  | remove key =>
    rw [inserts, List.countP_cons_of_neg Bool.false_ne_true, ← inserts] at hroom
    cases hfind : h.entries.find? fun node => F.same node.key key with
    | none =>
      rw [neHashStep, hok.remove_none hF hfind] at hstep
      obtain ⟨-, rfl⟩ := Prod.mk.inj (Except.ok.inj hstep)
      exact ⟨Nat.add_comm .., fun _ hlt => hlt⟩
    | some node =>
      obtain ⟨h₁, xs, ys, hrem, -, hnum, hsize, hentries, hentries'⟩ :=
        hok.remove_found hF (by omega) hfind
      rw [neHashStep, hrem] at hstep
      obtain ⟨-, rfl⟩ := Prod.mk.inj (Except.ok.inj hstep)
      constructor
      · simp only [hentries, hentries', HashCall.replaces, List.length_append, List.length_cons,
          Bool.toNat_false]
        omega
      · intro _ hlt
        omega

/-- What the calls of a run do to `num`, to the nodes and to `size`. -/
theorem neHashRun_num_from (hF : F.Lawful) {h h' : NeHash K V} {m : K → Option (Option V)}
    {calls : List (HashCall K V)} (hst : StandsFor F calls h m) {rets : List (HashRet V)}
    (hrun : run (neHashStep F) h calls = .ok (rets, h')) :
    h'.num + h.entries.length = h'.entries.length + h.num + replacing F m calls ∧
      ((∀ c ∈ calls, c.Grows) → h.num < h.size → h'.num < h'.size) := by
  induction calls generalizing h m rets with
  | nil =>
    obtain ⟨-, rfl⟩ := Prod.mk.inj (Except.ok.inj hrun)
    exact ⟨Nat.add_comm .., fun _ hlt => hlt⟩
  | cons c calls ih =>
    obtain ⟨⟨ret, h₁⟩, hstep, hrun⟩ := bind_eq_ok.mp hrun
    dsimp only at hrun
    obtain ⟨⟨rets', h₂⟩, hrest, hend⟩ := bind_eq_ok.mp hrun
    dsimp only at hend
    obtain ⟨-, rfl⟩ := Prod.mk.inj (Except.ok.inj hend)
    obtain ⟨hnum, hroomy⟩ := neHashStep_num hF hst hstep
    have hagree := neHashStep_agree hF h m c calls hst
    rw [hstep] at hagree
    cases hmap : mapStep F m c with
    | error e =>
      rw [hmap] at hagree
      exact hagree.elim
    | ok r =>
      obtain ⟨ret', m₁⟩ := r
      rw [hmap] at hagree
      obtain ⟨hnum', hroomy'⟩ := ih hagree.2 hrest
      rw [replacing, hmap]
      constructor
      · dsimp only
        omega
      · intro hgrows hlt
        exact hroomy' (fun d hd => hgrows d (List.mem_cons_of_mem c hd))
          (hroomy (hgrows c List.mem_cons_self) hlt)

/-- `num` counts the nodes and the inserts that found their key. With memory it stays below the number of
chains. -/
theorem neHashRun_num (hF : F.Lawful) (calls : List (HashCall K V)) (hcalls : inserts calls < 2 ^ 31)
    (rets : List (HashRet V)) (h : NeHash K V)
    (hrun : run (neHashStep F) neHashInit calls = .ok (rets, h)) :
    h.num = h.entries.length + replacing F (fun _ => none) calls ∧
      ((∀ c ∈ calls, c.Grows) → h.num < h.size) := by
  obtain ⟨hnum, hroomy⟩ := neHashRun_num_from hF (StandsFor.init F hcalls) hrun
  rw [NeHash.entries_init] at hnum
  exact ⟨hnum, fun hgrows => hroomy hgrows (Nat.succ_pos 255)⟩

/-- A number set twice counts twice. -/
theorem neHashRun_num_twice : ∃ rets h,
    run (neHashStep intFuncs) neHashInit [.insert 1 (some 7) true true, .insert 1 (some 8) true true] =
      .ok (rets, h) ∧
    h.num = h.entries.length + replacing intFuncs (fun _ => none)
      [.insert 1 (some 7) true true, .insert 1 (some 8) true true] ∧ h.num = 2 ∧ h.num < h.size := by
  refine ⟨_, _, rfl, ?_⟩
  have hnum := neHashRun_num intFuncs_lawful [.insert 1 (some 7) true true, .insert 1 (some 8) true true]
    (by decide) _ _ rfl
  exact ⟨hnum.1, rfl, hnum.2 (by simp [HashCall.Grows])⟩

end Moc
