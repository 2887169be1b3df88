import Mathlib.Data.List.Nodup
import Mathlib.Data.List.Infix

/-!
# Trees of named nodes

A tree kept as most programs keep one: a node has its data and the chain of its children, and each child
has a name that is found by walking the chain. `get`, `set` and `erase` are the three operations on one
chain, and `find`, `alter` and `prune` follow a path of names through the tree. The laws say what is
found under each path after each operation (`dataAt_update`, `dataAt_prune`).
-/

/-- A chain of siblings: the name, the data and the children of the first, and the siblings behind it. -/
inductive Siblings (κ α : Type) where
  | nil
  | cons (key : κ) (data : α) (child next : Siblings κ α)
  deriving DecidableEq

/-- A node without its name. -/
structure TreeNode (κ α : Type) where
  data : α
  child : Siblings κ α
  deriving DecidableEq

variable {κ α : Type}

namespace Siblings

/-- The names of the siblings, in order. -/
def keys : Siblings κ α → List κ
  | nil => []
  | cons k _ _ next => k :: next.keys

/-- One chain behind another. -/
def append : Siblings κ α → Siblings κ α → Siblings κ α
  | nil, t => t
  | cons k d c next, t => cons k d c (next.append t)

/-- A chain of one node. -/
def single (key : κ) (m : TreeNode κ α) : Siblings κ α := cons key m.data m.child nil

/-- Siblings have different names, here and below. -/
def Distinct : Siblings κ α → Prop
  | nil => True
  | cons k _ c next => k ∉ next.keys ∧ c.Distinct ∧ next.Distinct

/-- Every node has a name and data with the property. -/
def All (P : κ → α → Prop) : Siblings κ α → Prop
  | nil => True
  | cons k d c next => P k d ∧ c.All P ∧ next.All P

@[simp] theorem append_nil (s : Siblings κ α) : s.append nil = s := by
  induction s with
  | nil => rfl
  | cons k d c next _ ih => rw [append, ih]

theorem append_assoc (s t u : Siblings κ α) : (s.append t).append u = s.append (t.append u) := by
  induction s with
  | nil => rfl
  | cons k d c next _ ih => rw [append, append, append, ih]

@[simp] theorem keys_append (s t : Siblings κ α) : (s.append t).keys = s.keys ++ t.keys := by
  induction s with
  | nil => rfl
  | cons k d c next _ ih => rw [append, keys, keys, ih, List.cons_append]

theorem All.imp {P Q : κ → α → Prop} (h : ∀ k d, P k d → Q k d) {s : Siblings κ α} (hs : s.All P) :
    s.All Q := by
  induction s with
  | nil => trivial
  | cons k d c next ihc ihn => exact ⟨h k d hs.1, ihc hs.2.1, ihn hs.2.2⟩

variable [DecidableEq κ]

/-- The first node of a name. -/
def get : Siblings κ α → κ → Option (TreeNode κ α)
  | nil, _ => none
  | cons k d c next, key => if k = key then some ⟨d, c⟩ else next.get key

/-- The first node of a name replaced, or a new last node. -/
def set : Siblings κ α → κ → TreeNode κ α → Siblings κ α
  | nil, key, m => single key m
  | cons k d c next, key, m => if k = key then cons k m.data m.child next else cons k d c (next.set key m)

/-- The chain without the first node of a name. -/
def erase : Siblings κ α → κ → Siblings κ α
  | nil, _ => nil
  | cons k d c next, key => if k = key then next else cons k d c (next.erase key)

section
variable {s : Siblings κ α} {k key : κ} {m : TreeNode κ α}

theorem get_eq_none : s.get key = none ↔ key ∉ s.keys := by
  induction s with
  | nil => simp [get, keys]
  | cons k d c next _ ih =>
    rw [get, keys, List.mem_cons, not_or, eq_comm (a := key)]
    split_ifs with h <;> simp [h, ih]

theorem get_append (s t : Siblings κ α) (key : κ) :
    (s.append t).get key = (s.get key).or (t.get key) := by
  induction s with
  | nil => rfl
  | cons k d c next _ ih =>
    rw [append, get, get]
    split_ifs with h
    · rfl
    · exact ih

theorem get_append_single (h : key ∉ s.keys) : (s.append (single key m)).get key = some m := by
  rw [get_append, get_eq_none.mpr h]
  exact if_pos rfl

/-- A name that no sibling has comes last. -/
theorem set_of_not_mem (h : key ∉ s.keys) : s.set key m = s.append (single key m) := by
  induction s with
  | nil => rfl
  | cons k d c next _ ih =>
    rw [keys, List.mem_cons, not_or] at h
    rw [set, append, if_neg (Ne.symm h.1), ih h.2]

@[simp] theorem get_set_self : (s.set key m).get key = some m := by
  induction s with
  | nil => exact if_pos rfl
  | cons k d c next _ ih =>
    rw [set]
    split_ifs with h
    · exact if_pos h
    · rw [get, if_neg h, ih]

theorem get_set_of_ne (h : k ≠ key) : (s.set key m).get k = s.get k := by
  induction s with
  | nil => exact if_neg (Ne.symm h)
  | cons k' d c next _ ih =>
    rw [set]
    split_ifs with hk
    · rw [get, get, if_neg (fun he => h (he.symm.trans hk)), if_neg (fun he => h (he.symm.trans hk))]
    · rw [get, get, ih]

theorem set_self (h : s.get key = some m) : s.set key m = s := by
  induction s with
  | nil => cases h
  | cons k d c next _ ih =>
    rw [get] at h
    rw [set]
    split_ifs at h ⊢ with hk
    · cases h
      rfl
    · rw [ih h]

@[simp] theorem set_set (m' : TreeNode κ α) : (s.set key m).set key m' = s.set key m' := by
  induction s with
  | nil => exact if_pos rfl
  | cons k d c next _ ih =>
    rw [set, set]
    split_ifs with hk
    · exact if_pos hk
    · rw [set, if_neg hk, ih]

theorem keys_set : (s.set key m).keys = if key ∈ s.keys then s.keys else s.keys ++ [key] := by
  induction s with
  | nil => rfl
  | cons k d c next _ ih =>
    rw [set]
    by_cases hk : k = key
    · simp [hk, keys]
    · rw [if_neg hk, keys, keys, ih]
      split_ifs with h1 h2 h2 <;> simp_all [eq_comm]

theorem mem_keys_set : k ∈ (s.set key m).keys ↔ k ∈ s.keys ∨ k = key := by
  rw [keys_set]
  split_ifs with h
  · exact ⟨Or.inl, fun hk => hk.elim id fun hk => hk ▸ h⟩
  · simp

theorem Distinct.set (hs : s.Distinct) (hm : m.child.Distinct) : (s.set key m).Distinct := by
  induction s with
  | nil => exact ⟨by simp [keys], hm, trivial⟩
  | cons k d c next _ ih =>
    obtain ⟨hk, hc, hn⟩ := hs
    rw [Siblings.set]
    split_ifs with h
    · exact ⟨hk, hm, hn⟩
    · refine ⟨fun hmem => ?_, hc, ih hn⟩
      exact (mem_keys_set.mp hmem).elim hk h

theorem Distinct.get (hs : s.Distinct) (h : s.get key = some m) : m.child.Distinct := by
  induction s with
  | nil => cases h
  | cons k d c next _ ih =>
    rw [Siblings.get] at h
    split_ifs at h with hk
    · cases h
      exact hs.2.1
    · exact ih hs.2.2 h

theorem All.set {P : κ → α → Prop} (hs : s.All P) (hd : P key m.data) (hm : m.child.All P) :
    (s.set key m).All P := by
  induction s with
  | nil => exact ⟨hd, hm, trivial⟩
  | cons k d c next _ ih =>
    obtain ⟨hk, hc, hn⟩ := hs
    rw [Siblings.set]
    split_ifs with h
    · exact ⟨h ▸ hd, hm, hn⟩
    · exact ⟨hk, hc, ih hn⟩

theorem All.get {P : κ → α → Prop} (hs : s.All P) (h : s.get key = some m) :
    P key m.data ∧ m.child.All P := by
  induction s with
  | nil => cases h
  | cons k d c next _ ih =>
    rw [Siblings.get] at h
    split_ifs at h with hk
    · cases h
      exact ⟨hk ▸ hs.1, hs.2.1⟩
    · exact ih hs.2.2 h

theorem mem_keys_erase (h : k ∈ (s.erase key).keys) : k ∈ s.keys := by
  induction s with
  | nil => exact h
  | cons k' d c next _ ih =>
    rw [erase] at h
    split_ifs at h with hk
    · exact List.mem_cons_of_mem _ h
    · rw [keys, List.mem_cons] at h ⊢
      exact h.imp_right ih

theorem Distinct.erase (hs : s.Distinct) : (s.erase key).Distinct := by
  induction s with
  | nil => trivial
  | cons k d c next _ ih =>
    rw [Siblings.erase]
    split_ifs with hk
    · exact hs.2.2
    · exact ⟨fun hmem => hs.1 (mem_keys_erase hmem), hs.2.1, ih hs.2.2⟩

theorem All.erase {P : κ → α → Prop} (hs : s.All P) : (s.erase key).All P := by
  induction s with
  | nil => trivial
  | cons k d c next _ ih =>
    rw [Siblings.erase]
    split_ifs with hk
    · exact hs.2.2
    · exact ⟨hs.1, hs.2.1, ih hs.2.2⟩

/-- Without two nodes of one name, the erased name is gone. -/
theorem get_erase_self (hs : s.Distinct) : (s.erase key).get key = none := by
  induction s with
  | nil => rfl
  | cons k d c next _ ih =>
    rw [erase]
    split_ifs with hk
    · exact get_eq_none.mpr (hk ▸ hs.1)
    · rw [get, if_neg hk, ih hs.2.2]

theorem get_erase_of_ne (h : k ≠ key) : (s.erase key).get k = s.get k := by
  induction s with
  | nil => rfl
  | cons k' d c next _ ih =>
    rw [erase]
    split_ifs with hk
    · rw [get, if_neg (fun he => h (he.symm.trans hk))]
    · rw [get, get, ih]

theorem erase_of_not_mem (h : key ∉ s.keys) : s.erase key = s := by
  induction s with
  | nil => rfl
  | cons k d c next _ ih =>
    rw [keys, List.mem_cons, not_or] at h
    rw [erase, if_neg (Ne.symm h.1), ih h.2]

/-- Erasing a name undoes setting it anew. -/
@[simp] theorem erase_set : (s.set key m).erase key = s.erase key := by
  induction s with
  | nil => exact if_pos rfl
  | cons k d c next _ ih =>
    rw [set, erase]
    split_ifs with hk
    · exact if_pos hk
    · rw [erase, if_neg hk, ih]

end

end Siblings

namespace TreeNode

open Siblings

variable [DecidableEq κ]

/-- The node under a path. -/
def find (n : TreeNode κ α) : List κ → Option (TreeNode κ α)
  | [] => some n
  | k :: path => (n.child.get k).bind (·.find path)

/-- The node under a path changed; the nodes that miss on the way are made with `fresh`. -/
def alter (fresh : α) (g : TreeNode κ α → TreeNode κ α) (n : TreeNode κ α) :
    List κ → TreeNode κ α
  | [] => g n
  | k :: path => ⟨n.data, n.child.set k (((n.child.get k).getD ⟨fresh, nil⟩).alter fresh g path)⟩

/-- The data under a path changed. -/
def update (fresh : α) (f : α → α) (n : TreeNode κ α) (path : List κ) : TreeNode κ α :=
  n.alter fresh (fun m => ⟨f m.data, m.child⟩) path

/-- The tree without the node under a path. -/
def prune (n : TreeNode κ α) : List κ → TreeNode κ α
  | [] => n
  | [k] => ⟨n.data, n.child.erase k⟩
  | k :: k' :: path =>
    match n.child.get k with
    | none => n
    | some m => ⟨n.data, n.child.set k (m.prune (k' :: path))⟩

/-- The data of the node and of all nodes below it has the property. -/
def Every (P : α → Prop) (n : TreeNode κ α) : Prop := P n.data ∧ n.child.All fun _ d => P d

/-- The data under a path. -/
def dataAt (n : TreeNode κ α) (path : List κ) : Option α := (n.find path).map data

/-- Below the node, siblings have different names. -/
def Distinct (n : TreeNode κ α) : Prop := n.child.Distinct

section
variable {fresh : α} {f : α → α} {g : TreeNode κ α → TreeNode κ α} {n m : TreeNode κ α}
  {path path' : List κ}

@[simp] theorem find_nil : n.find [] = some n := rfl

theorem find_append : n.find (path ++ path') = (n.find path).bind (·.find path') := by
  induction path generalizing n with
  | nil => rfl
  | cons k path ih =>
    rw [List.cons_append, find, find, Option.bind_assoc]
    exact congrArg _ (funext fun m => ih)

/-- The changed node, and what is below it. -/
theorem find_alter_append :
    (n.alter fresh g path).find (path ++ path') =
      (g ((n.find path).getD ⟨fresh, nil⟩)).find path' := by
  induction path generalizing n with
  | nil => rfl
  | cons k path ih =>
    rw [List.cons_append, find, alter, get_set_self, Option.bind_some, ih, find]
    cases n.child.get k with
    | none => cases path <;> rfl
    | some m => rfl

theorem find_alter_self : (n.alter fresh g path).find path = some (g ((n.find path).getD ⟨fresh, nil⟩)) := by
  have h : (n.alter fresh g path).find (path ++ []) = (g ((n.find path).getD ⟨fresh, nil⟩)).find [] :=
    find_alter_append
  rwa [List.append_nil] at h

/-- A change below a node is a change of the node. -/
theorem alter_append :
    n.alter fresh g (path ++ path') = n.alter fresh (fun m => m.alter fresh g path') path := by
  induction path generalizing n with
  | nil => rfl
  | cons k path ih => rw [List.cons_append, alter, alter, ih]

/-- What is put in place of a node depends on the node alone. -/
theorem alter_congr {g' : TreeNode κ α → TreeNode κ α}
    (h : g ((n.find path).getD ⟨fresh, nil⟩) = g' ((n.find path).getD ⟨fresh, nil⟩)) :
    n.alter fresh g path = n.alter fresh g' path := by
  induction path generalizing n with
  | nil => exact h
  | cons k path ih =>
    rw [alter, alter]
    refine congrArg (fun m => TreeNode.mk n.data (n.child.set k m)) (ih ?_)
    rw [find] at h
    cases hget : n.child.get k with
    | none =>
      rw [hget] at h
      cases path <;> exact h
    | some m =>
      rw [hget] at h
      exact h

/-- Two changes of one node. -/
theorem alter_alter {g' : TreeNode κ α → TreeNode κ α} :
    (n.alter fresh g path).alter fresh g' path = n.alter fresh (fun m => g' (g m)) path := by
  induction path generalizing n with
  | nil => rfl
  | cons k path ih => rw [alter, alter, alter, get_set_self, set_set, Option.getD_some, ih]

theorem alter_of_find (h : n.find path = some m) (hg : g m = m) : n.alter fresh g path = n := by
  induction path generalizing n with
  | nil =>
    cases h
    exact hg
  | cons k path ih =>
    obtain ⟨m', hget, hfind⟩ := Option.bind_eq_some_iff.mp h
    rw [alter, hget, Option.getD_some, ih hfind, set_self hget]

theorem Every.find {P : α → Prop} (hn : n.Every P) (h : n.find path = some m) : m.Every P := by
  induction path generalizing n with
  | nil =>
    cases h
    exact hn
  | cons k path ih =>
    obtain ⟨m', hget, hfind⟩ := Option.bind_eq_some_iff.mp h
    exact ih (Siblings.All.get hn.2 hget) hfind

theorem Every.alter {P : α → Prop} (hfresh : P fresh) (hg : ∀ m : TreeNode κ α, m.Every P → (g m).Every P)
    (hn : n.Every P) : (n.alter fresh g path).Every P := by
  induction path generalizing n with
  | nil => exact hg n hn
  | cons k path ih =>
    have hchild : ((n.child.get k).getD ⟨fresh, nil⟩).Every P := by
      cases hget : n.child.get k with
      | none => exact ⟨hfresh, trivial⟩
      | some m => exact Siblings.All.get hn.2 hget
    obtain ⟨hdata, hall⟩ := ih hchild
    exact ⟨hn.1, Siblings.All.set hn.2 hdata hall⟩

theorem Every.prune {P : α → Prop} (hn : n.Every P) : (n.prune path).Every P := by
  induction path generalizing n with
  | nil => exact hn
  | cons k path ih =>
    cases path with
    | nil => exact ⟨hn.1, Siblings.All.erase hn.2⟩
    | cons k' path =>
      rw [TreeNode.prune]
      split
      · exact hn
      · next m hget =>
        obtain ⟨hdata, hall⟩ := ih (Siblings.All.get hn.2 hget)
        exact ⟨hn.1, Siblings.All.set hn.2 hdata hall⟩

theorem dataAt_cons (k : κ) : n.dataAt (k :: path) = (n.child.get k).bind (·.dataAt path) := by
  rw [dataAt, find, Option.map_bind]
  rfl

/-- A node that is not there has nothing below it. -/
theorem dataAt_below (fresh : α) (k : κ) :
    ((n.find path).getD ⟨fresh, nil⟩).dataAt (k :: path') = n.dataAt (path ++ k :: path') := by
  rw [dataAt, dataAt, find_append]
  cases n.find path with
  | none => rfl
  | some m => rfl

/-- What is under each path after a node has changed: the nodes on the way to it are there. -/
theorem dataAt_alter :
    (n.alter fresh g path).dataAt path' =
      if path <+: path' then (g ((n.find path).getD ⟨fresh, nil⟩)).dataAt (path'.drop path.length)
      else if path' <+: path then some ((n.dataAt path').getD fresh) else n.dataAt path' := by
  induction path generalizing n path' with
  | nil => rw [if_pos List.nil_prefix]; rfl
  | cons k path ih =>
    cases path' with
    | nil =>
      rw [if_neg (by simp), if_pos List.nil_prefix]
      rfl
    | cons k' path' =>
      rw [dataAt_cons, alter]
      dsimp only
      by_cases hk : k = k'
      · subst hk
        rw [get_set_self, Option.bind_some, ih, find]
        simp only [List.cons_prefix_cons, true_and, List.length_cons, List.drop_succ_cons, dataAt_cons]
        cases hget : n.child.get k with
        | some m => rfl
        | none =>
          cases path' with
          | nil => cases path <;> rfl
          | cons k' path' => cases path <;> rfl
      · simp only [List.cons_prefix_cons, hk, Ne.symm hk, false_and, if_false]
        rw [get_set_of_ne (Ne.symm hk), dataAt_cons]

/-- What is under each path after the data under one of them has changed. -/
theorem dataAt_update :
    (n.update fresh f path).dataAt path' =
      if path' = path then some (f ((n.dataAt path).getD fresh))
      else if path' <+: path then some ((n.dataAt path').getD fresh) else n.dataAt path' := by
  rw [update, dataAt_alter]
  by_cases hpath : path <+: path'
  · obtain ⟨rest, rfl⟩ := hpath
    rw [if_pos (List.prefix_append ..), List.drop_left]
    cases rest with
    | nil =>
      rw [List.append_nil, if_pos rfl, dataAt, find_nil, Option.map_some, dataAt]
      cases n.find path <;> rfl
    | cons k rest =>
      have hlt : ¬path ++ k :: rest <+: path := fun h => by
        have hlen := h.length_le
        rw [List.length_append, List.length_cons] at hlen
        omega
      have hne : path ++ k :: rest ≠ path := by simp
      rw [if_neg hne, if_neg hlt, ← dataAt_below fresh k, dataAt_cons, dataAt_cons]
  · have hne : path' ≠ path := by
      rintro rfl
      exact hpath (List.prefix_refl _)
    rw [if_neg hpath, if_neg hne]

theorem Distinct.alter (hg : ∀ m : TreeNode κ α, m.Distinct → (g m).Distinct) (hn : n.Distinct) :
    (n.alter fresh g path).Distinct := by
  induction path generalizing n with
  | nil => exact hg n hn
  | cons k path ih =>
    refine Siblings.Distinct.set hn (ih ?_)
    cases hget : n.child.get k with
    | none => trivial
    | some m => exact Siblings.Distinct.get hn hget

theorem Distinct.update (hn : n.Distinct) : (n.update fresh f path).Distinct :=
  Distinct.alter (fun _ h => h) hn

theorem Distinct.find (hn : n.Distinct) (h : n.find path = some m) : m.Distinct := by
  induction path generalizing n with
  | nil => cases h; exact hn
  | cons k path ih =>
    obtain ⟨m', hget, hfind⟩ := Option.bind_eq_some_iff.mp h
    exact ih (Siblings.Distinct.get hn hget) hfind

theorem Distinct.prune (hn : n.Distinct) : (n.prune path).Distinct := by
  induction path generalizing n with
  | nil => exact hn
  | cons k path ih =>
    cases path with
    | nil => exact Siblings.Distinct.erase hn
    | cons k' path =>
      rw [TreeNode.prune]
      split
      · exact hn
      · next m hget => exact Siblings.Distinct.set hn (ih (Siblings.Distinct.get hn hget))

/-- What is under each path after a node is gone: nothing from the node on. -/
theorem dataAt_prune (hn : n.Distinct) (hne : path ≠ []) :
    (n.prune path).dataAt path' = if path <+: path' then none else n.dataAt path' := by
  induction path generalizing n path' with
  | nil => exact absurd rfl hne
  | cons k path ih =>
    cases path' with
    | nil =>
      rw [if_neg (by simp)]
      cases path with
      | nil => rfl
      | cons k' path =>
        rw [prune]
        split <;> rfl
    | cons k₁ path' =>
      simp only [List.cons_prefix_cons]
      cases path with
      | nil =>
        rw [prune, dataAt_cons]
        by_cases hk : k₁ = k
        · rw [hk, get_erase_self hn, if_pos (by simp)]
          rfl
        · rw [get_erase_of_ne hk, if_neg (fun h => hk h.1.symm), dataAt_cons]
      | cons k' path =>
        rw [prune, dataAt_cons (n := n)]
        cases hget : n.child.get k with
        | none =>
          dsimp only
          rw [dataAt_cons]
          split_ifs with h
          · rw [← h.1, hget]
            rfl
          · rfl
        | some m =>
          dsimp only
          rw [dataAt_cons]
          by_cases hk : k₁ = k
          · subst hk
            rw [get_set_self, Option.bind_some, ih (Siblings.Distinct.get hn hget) (by simp),
              hget]
            simp
          · rw [get_set_of_ne hk, if_neg (fun h => hk h.1.symm)]

end

end TreeNode
