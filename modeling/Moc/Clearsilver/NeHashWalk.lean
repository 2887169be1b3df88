import Moc.Clearsilver.NeHash

/-!
# Walks over a hash table

The loops over a table all have one form: `key = NULL; v = hash_next(h, &key); while (v) { ...; v =
hash_next(h, &key); }`. `ne_hash_next` holds no position. It looks the last key up again and goes on behind
it, or at the head of the bucket when the key is gone. A walk whose body leaves the table alone meets every
node once exactly when no key and no value is null (`visit_iff`); a walk whose body removes the key it is
given meets every node once too, and empties the table (`walk_remove`).
-/

open Buckets Memory

namespace Moc

variable {K V : Type} [DecidableEq K] {F : NeHashFuncs K} {h : NeHash K V}

namespace NeHash

/-- The loop, over a state in which the table stands; none when it is not over after `fuel` calls of
`ne_hash_next`. -/
def walk {σ : Type} (F : NeHashFuncs K) (table : σ → NeHash K V) (body : σ → Option K → V → σ) :
    ℕ → σ → Option K → Option σ
  | 0, _, _ => none
  | fuel + 1, s, key =>
    match (table s).neHashNext F key with
    | (none, _) => some s
    | (some v, key) => walk F table body fuel (body s key v) key

/-- The keys and values that a walk meets which changes nothing. -/
def visit (F : NeHashFuncs K) (h : NeHash K V) : ℕ → Option K → Option (List (Option K × V))
  | 0, _ => none
  | fuel + 1, key =>
    match h.neHashNext F key with
    | (none, _) => some []
    | (some v, key) => (visit F h fuel key).map fun l => (key, v) :: l

/-- No key and no value of the table is a null pointer. -/
def NonNull (F : NeHashFuncs K) (h : NeHash K V) : Prop :=
  ∀ node ∈ h.entries, F.isNull node.key = false ∧ node.value.isSome

/-! ## One call -/

omit [DecidableEq K] in
/-- The loop over the buckets finds the first node. -/
theorem firstIn_eq (chains : List (List (NeHashNode K V))) : firstIn chains = chains.flatten.head? := by
  induction chains with
  | nil => rfl
  | cons c chains ih =>
    cases c with
    | nil => exact ih
    | cons node c => rfl

/-- What `ne_hash_next` returns when `node` is the next one. -/
def nextNode (node : Option (NeHashNode K V)) (key : Option K) : Option V × Option K :=
  match node with
  | some node => (node.value, some node.key)
  | none => (none, key)

omit [DecidableEq K] in
theorem nextFrom_eq (bucket : ℕ) (key : Option K) :
    h.nextFrom bucket key = nextNode (h.nodes.drop bucket).flatten.head? key := by
  rw [nextFrom, firstIn_eq]
  rfl

/-- A walk starts, and starts over at a key that is null, with the first node. -/
theorem neHashNext_start {key : Option K} (hkey : ∀ k, key = some k → F.isNull k) :
    h.neHashNext F key = nextNode h.entries.head? key := by
  have hfilter : (key.filter fun k => !F.isNull k) = none := by
    cases key with
    | none => rfl
    | some k => simp [hkey k rfl]
  rw [neHashNext, hfilter]
  exact nextFrom_eq 0 key

/-- Behind a node comes the one behind it in the table. -/
theorem Ok.neHashNext_eq (hok : h.Ok F) (hF : F.Lawful) {xs ys : List (NeHashNode K V)}
    {node : NeHashNode K V} (hentries : h.entries = xs ++ node :: ys)
    (hkey : F.isNull node.key = false) :
    h.neHashNext F (some node.key) = nextNode ys.head? (some node.key) := by
  have hmem : node ∈ h.entries := by
    rw [hentries]
    exact List.mem_append_right xs List.mem_cons_self
  have hderef : h.deref (h.hashLookupNode F node.key) = some node := by
    rw [hok.deref_lookup hF]
    exact (hok.distinct.find?_eq_some hF.cancel).mpr ⟨hmem, hF.refl _⟩
  have hbucket : h.bucket node.hashv = (h.hashLookupNode F node.key).1 := by
    rw [hok.hashv_eq node hmem]
    rfl
  -- The node stands at one place, so what is behind it there is what is behind it in the table.
  have hdistinct := hok.distinct
  rw [hentries] at hdistinct
  have honce : ∀ l, l ⊆ xs ++ ys → node ∉ l := fun l hl hnode =>
    hdistinct.not_same hF.symm (hl hnode) (hF.refl _)
  have hplace := flatten_eq_at hderef
  rw [← entries, hentries] at hplace
  obtain ⟨-, -, hys⟩ := (List.append_cons_inj_of_notMem (honce xs (List.subset_append_left ..))
    (honce ys (List.subset_append_right ..))).mp hplace
  have hhead : ys.head? = (h.deref ((h.hashLookupNode F node.key).1,
      (h.hashLookupNode F node.key).2 + 1)).or
      (h.nodes.drop ((h.hashLookupNode F node.key).1 + 1)).flatten.head? := by
    rw [hys, List.head?_append, List.head?_drop]
    rfl
  have hfilter : ((some node.key).filter fun k => !F.isNull k) = some node.key := by
    simp [hkey]
  rw [neHashNext, hfilter, hhead]
  simp only [hderef]
  cases h.deref ((h.hashLookupNode F node.key).1, (h.hashLookupNode F node.key).2 + 1) with
  | some next => rfl
  | none =>
    rw [nextFrom_eq, hbucket]
    rfl

/-! ## Walks that leave the table alone -/

/-- What a walk meets, from some nodes on. -/
def met (nodes : List (NeHashNode K V)) : List (Option K × V) :=
  nodes.filterMap fun node => node.value.map fun v => (some node.key, v)

/-- A walk whose body leaves the table alone runs its body once for each node, in the order of the table. -/
theorem walk_still {σ : Type} (table : σ → NeHash K V) (body : σ → Option K → V → σ) (hF : F.Lawful)
    (hstill : ∀ s k v, table (body s k v) = table s) (s : σ) (hok : (table s).Ok F)
    (hnull : (table s).NonNull F) (fuel : ℕ) (hfuel : (table s).entries.length < fuel) :
    walk F table body fuel s none =
      some ((met (table s).entries).foldl (fun s p => body s p.1 p.2) s) := by
  -- The walk stands behind `xs`, and its last key is the one of the last node there.
  suffices hbehind : ∀ (ys xs : List (NeHashNode K V)) (key : Option K) (s : σ) (fuel : ℕ),
      (table s).Ok F → (table s).NonNull F → (table s).entries = xs ++ ys →
      (table s).neHashNext F key = nextNode ys.head? key → ys.length < fuel →
      walk F table body fuel s key = some ((met ys).foldl (fun s p => body s p.1 p.2) s) by
    refine hbehind (table s).entries [] none s fuel hok hnull rfl ?_ hfuel
    exact neHashNext_start fun k hk => by cases hk
  intro ys
  induction ys with
  | nil =>
    intro xs key s fuel hok hnull hentries hnext hfuel
    obtain ⟨fuel, rfl⟩ := Nat.exists_eq_succ_of_ne_zero (Nat.ne_of_gt hfuel)
    rw [walk, hnext]
    rfl
  | cons node ys ih =>
    intro xs key s fuel hok hnull hentries hnext hfuel
    obtain ⟨fuel, rfl⟩ := Nat.exists_eq_succ_of_ne_zero (Nat.ne_of_gt (Nat.zero_lt_of_lt hfuel))
    have hmem : node ∈ (table s).entries := by
      rw [hentries]
      exact List.mem_append_right xs List.mem_cons_self
    obtain ⟨hkey, hvalue⟩ := hnull node hmem
    obtain ⟨v, hv⟩ := Option.isSome_iff_exists.mp hvalue
    have hmet : met (node :: ys) = (some node.key, v) :: met ys := by
      rw [met, List.filterMap_cons, hv]
      rfl
    rw [walk, hnext, hmet, List.foldl_cons]
    simp only [List.head?_cons, nextNode, hv]
    have hbody := hstill s (some node.key) v
    have hsplit : (table s).entries = (xs ++ [node]) ++ ys := by
      rw [hentries, List.append_assoc]
      rfl
    apply ih (xs ++ [node])
    · rwa [hbody]
    · rwa [hbody]
    · rw [hbody, hsplit]
    · rw [hbody]
      exact hok.neHashNext_eq hF hentries hkey
    · rw [List.length_cons] at hfuel
      omega

omit [DecidableEq K] in
theorem met_map {nodes : List (NeHashNode K V)} (hvalue : ∀ node ∈ nodes, node.value.isSome) :
    (met nodes).map (fun p => (p.1, some p.2)) = nodes.map fun node => (some node.key, node.value) := by
  induction nodes with
  | nil => rfl
  | cons node nodes ih =>
    obtain ⟨v, hv⟩ := Option.isSome_iff_exists.mp (hvalue node List.mem_cons_self)
    have hmet : met (node :: nodes) = (some node.key, v) :: met nodes := by
      rw [met, List.filterMap_cons, hv]
      rfl
    rw [hmet, List.map_cons, List.map_cons, ih fun n hn => hvalue n (List.mem_cons_of_mem node hn), hv]

/-- `visit` is the walk that notes what it is given. -/
theorem walk_note (fuel : ℕ) (acc : List (Option K × V)) (key : Option K) :
    walk F (fun _ => h) (fun l k v => l ++ [(k, v)]) fuel acc key =
      (visit F h fuel key).map (acc ++ ·) := by
  induction fuel generalizing acc key with
  | zero => rfl
  | succ fuel ih =>
    rw [walk, visit]
    cases h.neHashNext F key with
    | mk v key =>
      cases v with
      | none => exact congrArg some (List.append_nil acc).symm
      | some v =>
        dsimp only
        rw [ih, Option.map_map]
        refine congrArg (fun f => Option.map f _) (funext fun l => ?_)
        exact List.append_assoc acc [(key, v)] l

/-- A walk that is over meets the same whatever fuel it had. -/
theorem visit_fuel {fuel fuel' : ℕ} {key : Option K} {l l' : List (Option K × V)}
    (hl : visit F h fuel key = some l) (hl' : visit F h fuel' key = some l') : l = l' := by
  induction fuel generalizing fuel' key l l' with
  | zero => cases hl
  | succ fuel ih =>
    cases fuel' with
    | zero => cases hl'
    | succ fuel' =>
      rw [visit] at hl hl'
      cases hnext : h.neHashNext F key with
      | mk v key' =>
        rw [hnext] at hl hl'
        cases v with
        | none => exact (Option.some.inj hl).symm.trans (Option.some.inj hl')
        | some v =>
          obtain ⟨r, hr, rfl⟩ := Option.map_eq_some_iff.mp hl
          obtain ⟨r', hr', rfl⟩ := Option.map_eq_some_iff.mp hl'
          rw [ih hr hr']

/-- From what a walk has met it goes on to less. -/
theorem visit_after {fuel : ℕ} {key : Option K} {l : List (Option K × V)}
    (hl : visit F h fuel key = some l) {p : Option K × V} (hp : p ∈ l) :
    ∃ fuel' l', visit F h fuel' p.1 = some l' ∧ l'.length < l.length := by
  induction fuel generalizing key l with
  | zero => cases hl
  | succ fuel ih =>
    rw [visit] at hl
    cases hnext : h.neHashNext F key with
    | mk v key' =>
      rw [hnext] at hl
      cases v with
      | none =>
        rw [← Option.some.inj hl] at hp
        exact absurd hp List.not_mem_nil
      | some v =>
        obtain ⟨r, hr, rfl⟩ := Option.map_eq_some_iff.mp hl
        obtain rfl | hp := List.mem_cons.mp hp
        · exact ⟨fuel, r, hr, Nat.lt_succ_self _⟩
        · obtain ⟨fuel', l', hl', hlt⟩ := ih hr hp
          exact ⟨fuel', l', hl', hlt.trans (Nat.lt_succ_self _)⟩

/-- At a null key a walk starts over. -/
theorem visit_null {k : K} (hk : F.isNull k) (fuel : ℕ) :
    visit F h fuel (some k) = visit F h fuel none := by
  cases fuel with
  | zero => rfl
  | succ fuel =>
    rw [visit, visit,
      neHashNext_start (F := F) (h := h) fun k' (hk' : some k = some k') => Option.some.inj hk' ▸ hk,
      neHashNext_start (F := F) (h := h) fun k' (hk' : none = some k') => by cases hk']
    cases h.entries.head? with
    | none => rfl
    | some node => rfl

/-- A walk that changes nothing meets every node of the table once exactly when no key and no value is
null. -/
theorem Ok.visit_iff (hok : h.Ok F) (hF : F.Lawful) :
    (∃ fuel l, visit F h fuel none = some l ∧
      (l.map fun p => (p.1, some p.2)).Perm (h.entries.map fun node => (some node.key, node.value))) ↔
      h.NonNull F := by
  constructor
  · rintro ⟨fuel, l, hl, hperm⟩ node hnode
    have hmem := hperm.mem_iff.mpr (List.mem_map_of_mem (f := fun node => (some node.key, node.value)) hnode)
    obtain ⟨⟨key, v⟩, hp, heq⟩ := List.mem_map.mp hmem
    obtain ⟨rfl, hv⟩ := Prod.mk.inj heq
    refine ⟨?_, by rw [← hv]; rfl⟩
    by_contra hnull
    -- Behind a null key the walk meets again all that it meets from its start.
    obtain ⟨fuel', l', hl', hlt⟩ := visit_after hl hp
    rw [visit_null (Bool.not_eq_false _ ▸ hnull)] at hl'
    rw [visit_fuel hl' hl] at hlt
    exact Nat.lt_irrefl _ hlt
  · intro hnull
    have hwalk := walk_still (fun _ => h)
      (fun (l : List (Option K × V)) k v => l ++ [(k, v)]) hF (fun _ _ _ => rfl) [] hok hnull
      (h.entries.length + 1) (Nat.lt_succ_self _)
    rw [walk_note] at hwalk
    obtain ⟨l, hl, heq⟩ := Option.map_eq_some_iff.mp hwalk
    have hmet : (met h.entries).foldl (fun s p => s ++ [(p.1, p.2)]) [] = met h.entries := by
      rw [List.foldl_append_eq_append, List.nil_append, ← List.flatMap_def]
      exact List.flatMap_singleton' _
    rw [hmet, List.nil_append] at heq
    refine ⟨_, l, hl, ?_⟩
    rw [heq, met_map fun node hnode => (hnull node hnode).2]

end NeHash

open Runs in
/-- In every table that a run of calls makes, a walk that changes nothing meets every node once exactly
when no key and no value is null. -/
theorem neHashRun_visit_iff (hF : F.Lawful) (calls : List (HashCall K V))
    (hcalls : inserts calls < 2 ^ 31) (rets : List (HashRet V)) (h : NeHash K V)
    (hrun : run (neHashStep F) neHashInit calls = .ok (rets, h)) :
    (∃ fuel l, h.visit F fuel none = some l ∧
      (l.map fun p => (p.1, some p.2)).Perm (h.entries.map fun node => (some node.key, node.value))) ↔
      h.NonNull F := by
  have hagree := neHashRun_agree hF calls hcalls
  rw [hrun] at hagree
  cases hmap : run (mapStep F) (fun _ => none) calls with
  | error e =>
    rw [hmap] at hagree
    exact hagree.elim
  | ok r =>
    rw [hmap] at hagree
    exact hagree.2.ok.visit_iff hF

open Runs in
/-- A table of numbers with the key 0, which is null: a walk never ends. -/
theorem neHashRun_visit_zero : ∃ rets h,
    run (neHashStep intFuncs) neHashInit [.insert 0 (some 7) true true] = .ok (rets, h) ∧
      ((∃ fuel l, h.visit intFuncs fuel none = some l ∧
        (l.map fun p => (p.1, some p.2)).Perm (h.entries.map fun node => (some node.key, node.value))) ↔
        h.NonNull intFuncs) :=
  ⟨_, _, rfl, neHashRun_visit_iff intFuncs_lawful [.insert 0 (some 7) true true] (by decide) _ _ rfl⟩

namespace NeHash

/-! ## Walks that remove what they are given -/

/-- When the first node is gone, its key leads to the one behind it: the buckets before its own are
empty. -/
theorem Ok.neHashNext_removed (hok : h.Ok F) (hF : F.Lawful) {node : NeHashNode K V}
    {ys : List (NeHashNode K V)} (hentries : h.entries = node :: ys) (hkey : F.isNull node.key = false)
    {h' : NeHash K V} (hok' : h'.Ok F) (hsize : h'.size = h.size) (hentries' : h'.entries = ys) :
    h'.neHashNext F (some node.key) = nextNode ys.head? (some node.key) := by
  have hmem : node ∈ h.entries := by
    rw [hentries]
    exact List.mem_cons_self
  have hderef : h'.deref (h'.hashLookupNode F node.key) = none := by
    have hdistinct := hok.distinct
    rw [hentries] at hdistinct
    rw [hok'.deref_lookup hF, hentries']
    refine List.find?_eq_none.mpr fun a ha hsame => ?_
    exact List.rel_of_pairwise_cons hdistinct ha (hF.symm hsame)
  have hbucket : h'.bucket (F.hashFunc node.key) = node.hashv.toNat % h.size := by
    rw [bucket_eq hok'.size_eq, hsize, hok.hashv_eq node hmem]
  have htake : (h'.nodes.take (node.hashv.toNat % h.size)).flatten = [] := by
    refine List.eq_nil_iff_forall_not_mem.mpr fun a ha => ?_
    obtain ⟨hin, hlt⟩ := hok'.placed.mem_take.mp ha
    rw [← entries, hentries'] at hin
    rw [hsize] at hlt
    have hin' : a ∈ h.nodes.flatten := by
      rw [← entries, hentries]
      exact List.mem_cons_of_mem node hin
    have hempty := hok.placed.take_eq_nil hentries
    exact absurd (hempty ▸ hok.placed.mem_take.mpr ⟨hin', hlt⟩) List.not_mem_nil
  have hdrop : (h'.nodes.drop (node.hashv.toNat % h.size)).flatten = ys := by
    rw [← hentries', entries]
    conv_rhs => rw [← List.take_append_drop (node.hashv.toNat % h.size) h'.nodes,
      List.flatten_append, htake, List.nil_append]
  have hfilter : ((some node.key).filter fun k => !F.isNull k) = some node.key := by
    simp [hkey]
  rw [neHashNext, hfilter]
  simp only [hderef]
  rw [nextFrom_eq, hbucket, hdrop]

/-- A walk whose body removes the key it is given runs its body once for each node, in the order of the
table, and leaves the table empty. -/
theorem walk_remove {σ : Type} (table : σ → NeHash K V) (body : σ → Option K → V → σ) (hF : F.Lawful)
    (s₀ : σ) (hremove : ∀ s, (table s).entries ⊆ (table s₀).entries → ∀ node ∈ (table s).entries,
      ∀ v, node.value = some v →
      table (body s (some node.key) v) = ((table s).neHashRemove F node.key).2)
    (hok : (table s₀).Ok F) (hnum : (table s₀).num < 2 ^ 31) (hnull : (table s₀).NonNull F)
    (fuel : ℕ) (hfuel : (table s₀).entries.length < fuel) :
    ∃ s, walk F table body fuel s₀ none = some s ∧ (table s).entries = [] ∧
      s = (met (table s₀).entries).foldl (fun s p => body s p.1 p.2) s₀ := by
  -- What the walk has met is gone, and its last key leads to the first node that is left.
  suffices hleft : ∀ (ys : List (NeHashNode K V)) (key : Option K) (s : σ) (fuel : ℕ),
      (table s).Ok F → (table s).num < 2 ^ 31 → ys ⊆ (table s₀).entries → (table s).entries = ys →
      (table s).neHashNext F key = nextNode ys.head? key → ys.length < fuel →
      ∃ s', walk F table body fuel s key = some s' ∧ (table s').entries = [] ∧
        s' = (met ys).foldl (fun s p => body s p.1 p.2) s by
    refine hleft (table s₀).entries none s₀ fuel hok hnum (List.Subset.refl _) rfl ?_ hfuel
    exact neHashNext_start fun k hk => by cases hk
  intro ys
  induction ys with
  | nil =>
    intro key s fuel hok hnum hsub hentries hnext hfuel
    obtain ⟨fuel, rfl⟩ := Nat.exists_eq_succ_of_ne_zero (Nat.ne_of_gt hfuel)
    rw [walk, hnext]
    exact ⟨s, rfl, hentries, rfl⟩
  | cons node ys ih =>
    intro key s fuel hok hnum hsub hentries hnext hfuel
    obtain ⟨fuel, rfl⟩ := Nat.exists_eq_succ_of_ne_zero (Nat.ne_of_gt (Nat.zero_lt_of_lt hfuel))
    have hmem : node ∈ (table s).entries := by
      rw [hentries]
      exact List.mem_cons_self
    obtain ⟨hkey, hvalue⟩ := hnull node (hsub List.mem_cons_self)
    obtain ⟨v, hv⟩ := Option.isSome_iff_exists.mp hvalue
    have hmet : met (node :: ys) = (some node.key, v) :: met ys := by
      rw [met, List.filterMap_cons, hv]
      rfl
    have hfind : ((table s).entries.find? fun n => F.same n.key node.key) = some node :=
      (hok.distinct.find?_eq_some hF.cancel).mpr ⟨hmem, hF.refl _⟩
    obtain ⟨h', xs, zs, hrem, hok', hnum', hsize', hsplit, hentries'⟩ :=
      hok.remove_found hF hnum hfind
    -- The node is the first one, so nothing stands before it.
    have hxs : xs = [] := by
      cases xs with
      | nil => rfl
      | cons x xs =>
        have hdistinct := hok.distinct
        rw [hsplit, List.cons_append] at hdistinct
        rw [hentries, List.cons_append] at hsplit
        have hx := (List.cons.inj hsplit).1
        have hnode : node ∈ xs ++ node :: zs := List.mem_append_right xs List.mem_cons_self
        exact absurd (hx ▸ hF.refl _) (List.rel_of_pairwise_cons hdistinct hnode)
    subst hxs
    have hzs : zs = ys := by
      rw [hentries] at hsplit
      exact ((List.cons.inj hsplit).2).symm
    have hbody := hremove s (hentries ▸ hsub) node hmem v hv
    rw [hrem] at hbody
    dsimp only at hbody
    have hentriesb : h'.entries = ys := by rw [hentries', hzs, List.nil_append]
    rw [walk, hnext, hmet, List.foldl_cons]
    simp only [List.head?_cons, nextNode, hv]
    rw [← hbody] at hok' hentriesb hsize' hnum'
    apply ih
    · exact hok'
    · omega
    · exact fun n hn => hsub (List.mem_cons_of_mem node hn)
    · exact hentriesb
    · exact hok.neHashNext_removed hF hentries hkey hok' hsize' hentriesb
    · rw [List.length_cons] at hfuel
      omega

end NeHash

end Moc
