import Moc.Clearsilver.HdfTree

/-!
# Datasets as maps

Without links a dataset is a map from paths to fields: `_walk_hdf` looks a path up, `_set_value` changes the
fields under it and makes the nodes on the way, `hdf_remove_tree` drops all paths through it. The map is
what a run of calls shows of a dataset (`hdfRun_agree`), and no call needs room for a link.
-/

open Siblings TreeNode

namespace Moc

/-- No node is a link. -/
def LinkFree (n : HdfNode) : Prop := n.Every fun d => d.value.linkTo = none

/-- The path of a dotted name; the empty name is the node itself. -/
def nameParts (name : List UInt8) : HdfPtr := if name = [] then [] else components name

section
variable {top n : HdfNode} {hdf : HdfPtr} {links : ℕ} {name : List UInt8} {value : HdfValue}
  {attr : HdfAttrs}

theorem LinkFree.linkTo_find (h : LinkFree top) (hdf : HdfPtr) :
    (top.find hdf).bind (·.data.value.linkTo) = none := by
  cases hn : top.find hdf with
  | none => rfl
  | some n => exact (Every.find h hn).1

/-! ## One call -/

theorem walkLoop_eq (h : LinkFree top) (follow : List UInt8 → Except HdfStop (Option HdfPtr))
    (hn : top.find hdf = some n) (parts : List (List UInt8)) :
    walkLoop follow top hdf parts = .ok ((n.find parts).map fun _ => hdf ++ parts) := by
  induction parts generalizing hdf n with
  | nil => rw [walkLoop, List.append_nil]; rfl
  | cons part parts ih =>
    rw [walkLoop, hn, Option.bind_some, find]
    cases hget : n.child.get part with
    | none => rfl
    | some m =>
      have hm : top.find (hdf ++ [part]) = some m := by
        rw [find_append, hn, Option.bind_some, find, hget]
        rfl
      dsimp only
      rw [(Every.find h hm).1, Option.bind_some, ih hm, List.append_assoc]
      rfl

/-- `_walk_hdf` looks the path up. -/
theorem walkHdf_eq (h : LinkFree top) (hn : top.find hdf = some n) :
    walkHdf links top hdf name =
      .ok ((n.find (nameParts name)).map fun _ => hdf ++ nameParts name) := by
  unfold walkHdf walkCall nameParts
  split_ifs with hname
  · rw [List.append_nil]
    rfl
  · rw [h.linkTo_find hdf]
    exact walkLoop_eq h _ hn _

theorem hdfGetValue_eq (h : LinkFree top) (hn : top.find hdf = some n) :
    hdfGetValue links top hdf name = .ok ((n.dataAt (nameParts name)).bind (·.value.text)) := by
  rw [hdfGetValue, walkHdf_eq h hn]
  simp only [dataAt]
  cases hfind : n.find (nameParts name) with
  | none => rfl
  | some m =>
    have hm : top.find (hdf ++ nameParts name) = some m := by rw [find_append, hn]; exact hfind
    simp only [Option.map_some, Option.bind_some, bind, Except.bind, hm]
    rfl

/-- The loop of `_set_value` changes the fields under the path, or makes the nodes up to the empty
component. -/
theorem setLoop_eq (h : n.child.All fun _ d => d.value.linkTo = none) (parts : List (List UInt8))
    (hparts : parts ≠ []) :
    setLoop name value attr n parts =
      if [] ∈ parts then (n.update .empty id (parts.takeWhile (· ≠ [])), .failed (emptyComponent name))
      else (n.update .empty (·.assign value attr) parts, .done parts) := by
  induction parts generalizing n with
  | nil => exact absurd rfl hparts
  | cons part parts ih =>
    rw [setLoop]
    by_cases hpart : part = []
    · simp only [hpart, if_true]
      simp [update, alter]
    · have hmem : [] ∈ part :: parts ↔ [] ∈ parts := by simp [eq_comm, hpart]
      have htake : (part :: parts).takeWhile (· ≠ []) = part :: parts.takeWhile (· ≠ []) :=
        List.takeWhile_cons_of_pos (by simpa using hpart)
      simp only [if_neg hpart, hmem, htake]
      cases hget : n.child.get part with
      | none =>
        have hnew : part ∉ n.child.keys := get_eq_none.mp hget
        dsimp only
        by_cases hrest : parts = []
        · subst hrest
          rw [if_pos rfl, if_neg (by simp), ← set_of_not_mem hnew, update, alter, hget]
          rfl
        · rw [if_neg hrest, ih (n := hdfInit) trivial hrest, ← set_of_not_mem hnew]
          split_ifs with hempty
          · rw [update, update, alter, hget]
            rfl
          · rw [update, update, alter, hget]
            rfl
      | some m =>
        obtain ⟨hlink, hchild⟩ := Siblings.All.get h hget
        dsimp only
        by_cases hrest : parts = []
        · subst hrest
          rw [if_pos rfl, if_neg (by simp), update, alter, hget]
          rfl
        · rw [if_neg hrest, hlink, ih hchild hrest]
          dsimp only
          split_ifs with hempty
          · rw [update, update, alter, hget]
            rfl
          · rw [update, update, alter, hget]
            rfl

theorem components_ne_nil (name : List UInt8) : components name ≠ [] := List.splitOn_ne_nil _ _

/-- `_set_value` -/
theorem setValue_eq (h : LinkFree top) (hn : top.find hdf = some n) :
    setValue links top hdf name value attr =
      if [] ∈ nameParts name then
        .ok (top.update .empty id (hdf ++ (nameParts name).takeWhile (· ≠ [])),
          .error (emptyComponent name))
      else .ok (top.update .empty (·.assign value attr) (hdf ++ nameParts name),
        .ok (hdf ++ nameParts name)) := by
  unfold setValue setCall nameParts
  by_cases hname : name = []
  · simp [hname]
  · have happend : ∀ (f : HdfFields → HdfFields) (path : HdfPtr),
        top.alter .empty (fun _ => n.update .empty f path) hdf = top.update .empty f (hdf ++ path) := by
      intro f path
      unfold update
      rw [alter_append]
      exact alter_congr (by rw [hn]; rfl)
    simp only [if_neg hname, h.linkTo_find hdf]
    simp only [hn, Option.getD_some]
    by_cases hhead : (components name).head? = some []
    · obtain ⟨rest, hrest⟩ : ∃ rest, components name = [] :: rest := by
        cases hcomp : components name with
        | nil => exact absurd hcomp (components_ne_nil name)
        | cons part rest =>
          rw [hcomp, List.head?_cons, Option.some.injEq] at hhead
          exact ⟨rest, by rw [hhead]⟩
      rw [if_pos hhead, hrest, if_pos List.mem_cons_self]
      have hid : top.update .empty id hdf = top := alter_of_find hn rfl
      simp [hid]
    · rw [if_neg hhead, setLoop_eq (Every.find h hn).2 _ (components_ne_nil name)]
      split_ifs with hempty
      · dsimp only
        rw [happend]
      · dsimp only
        rw [happend]

theorem LinkFree.alter (h : LinkFree top) {g : HdfNode → HdfNode}
    (hg : ∀ m : HdfNode, LinkFree m → LinkFree (g m)) (path : HdfPtr) :
    LinkFree (top.alter .empty g path) :=
  have hfresh : HdfFields.empty.value.linkTo = none := rfl
  Every.alter hfresh hg h

theorem LinkFree.update (h : LinkFree top) {f : HdfFields → HdfFields}
    (hf : ∀ d : HdfFields, d.value.linkTo = none → (f d).value.linkTo = none) (path : HdfPtr) :
    LinkFree (top.update .empty f path) :=
  h.alter (g := fun m => ⟨f m.data, m.child⟩) (fun m hm => ⟨hf m.data hm.1, hm.2⟩) path

end

/-! ## Copying -/

/-- Nodes as the library makes them: their names are single components, siblings have different names,
and none is a link. -/
def Proper (s : HdfChain) : Prop :=
  s.Distinct ∧ s.All fun name data => name ≠ [] ∧ 46 ∉ name ∧ data.value.linkTo = none

/-- The node with copies of other nodes among its children. -/
def graft (n : HdfNode) : HdfChain → HdfNode
  | .nil => n
  | .cons name data child next =>
    graft (n.alter .empty (fun m => graft ⟨m.data.assign data.value data.attr, m.child⟩ child) [name]) next

theorem nameParts_of_single {name : List UInt8} (hne : name ≠ []) (hdot : 46 ∉ name) :
    nameParts name = [name] := by
  rw [nameParts, if_neg hne, components, List.splitOn_eq_singleton hdot]

theorem LinkFree.graft {n : HdfNode} (hn : LinkFree n) {s : HdfChain}
    (hs : s.All fun _ d => d.value.linkTo = none) : LinkFree (graft n s) := by
  induction s generalizing n with
  | nil => exact hn
  | cons name data child next ihc ihn =>
    obtain ⟨hdata, hchild, hnext⟩ := hs
    refine ihn (hn.alter (fun m hm => ihc ?_ hchild) _) hnext
    exact ⟨hdata, hm.2⟩

/-- `_copy_nodes` -/
theorem copyNodes_eq {links : ℕ} {s : HdfChain} (hs : Proper s) {top n : HdfNode} (h : LinkFree top)
    {dest : HdfPtr} (hn : top.find dest = some n) :
    copyNodes links top dest s = .ok (top.alter .empty (graft · s) dest, .ok ()) := by
  induction s generalizing top dest n with
  | nil =>
    rw [copyNodes, alter_of_find hn rfl]
  | cons name data child next ihc ihn =>
    obtain ⟨⟨hname, hdc, hdn⟩, ⟨hne, hdot, hlink⟩, hac, han⟩ := hs
    rw [copyNodes, setValue_eq h hn, nameParts_of_single hne hdot,
      if_neg (by simpa using Ne.symm hne)]
    simp only [HdfRun.andThen, Except.bind]
    have hone : LinkFree (top.update .empty (·.assign data.value data.attr) (dest ++ [name])) :=
      h.update (f := (·.assign data.value data.attr)) (fun _ _ => hlink) _
    have htwo := hone.alter
      (fun m hm => LinkFree.graft hm (Siblings.All.imp (fun _ _ hd => hd.2.2) hac)) (dest ++ [name])
    rw [ihc ⟨hdc, hac⟩ hone find_alter_self]
    -- Both changes of the new child are one change of the parent.
    have hparent : (top.update .empty (·.assign data.value data.attr) (dest ++ [name])).alter .empty
        (graft · child) (dest ++ [name]) = top.alter .empty (fun n => n.alter .empty
          (fun m => graft ⟨m.data.assign data.value data.attr, m.child⟩ child) [name]) dest := by
      rw [update, alter_alter, alter_append]
    rw [hparent] at htwo ⊢
    dsimp only
    rw [ihn ⟨hdn, han⟩ htwo find_alter_self, alter_alter]
    rfl

/-- The fields under a path after fields have been assigned there. -/
def overlay (old new : Option HdfFields) : Option HdfFields :=
  match new with
  | none => old
  | some d => some ((old.getD .empty).assign d.value d.attr)

@[simp] theorem graft_data (n : HdfNode) (s : HdfChain) : (graft n s).data = n.data := by
  induction s generalizing n with
  | nil => rfl
  | cons name data child next _ ihn => rw [graft, ihn]; rfl

/-- What is under each path below the node after copying: the fields of the copied nodes, assigned. -/
theorem dataAt_graft {s : HdfChain} (hs : s.Distinct) (n : HdfNode) (k : List UInt8) (path : HdfPtr) :
    (graft n s).dataAt (k :: path) =
      overlay (n.dataAt (k :: path)) ((TreeNode.mk HdfFields.empty s).dataAt (k :: path)) := by
  induction s generalizing n k path with
  | nil => rfl
  | cons name data child next ihc ihn =>
    obtain ⟨hname, hdc, hdn⟩ := hs
    rw [graft, ihn hdn, dataAt_cons, dataAt_cons, dataAt_cons, dataAt_cons, TreeNode.alter,
      Siblings.get]
    dsimp only
    by_cases hk : name = k
    · subst hk
      rw [get_eq_none.mpr hname, if_pos rfl, get_set_self, Option.bind_some, Option.bind_some,
        Option.bind_none, overlay, TreeNode.alter]
      cases path with
      | nil =>
        simp only [dataAt, find_nil, Option.map_some, graft_data]
        cases n.child.get name <;> rfl
      | cons k' path =>
        rw [ihc hdc]
        cases n.child.get name <;> rfl
    · rw [if_neg hk, get_set_of_ne (Ne.symm hk)]

theorem Distinct.graft {n : HdfNode} (hn : n.Distinct) {s : HdfChain} (hs : s.Distinct) :
    (graft n s).Distinct := by
  induction s generalizing n with
  | nil => exact hn
  | cons name data child next ihc ihn =>
    exact ihn (TreeNode.Distinct.alter (fun m hm => ihc hm hs.2.1) hn) hs.2.2

/-! ## Runs of calls -/

/-- A dataset as a map from paths to fields. -/
abbrev HdfMap := HdfPtr → Option HdfFields

namespace HdfMap

/-- The map of a new dataset: its top node. -/
def start : HdfMap := fun p => if p = [] then some .empty else none

/-- The fields under a path changed; the paths on the way are there as well. -/
def put (m : HdfMap) (f : HdfFields → HdfFields) (path : HdfPtr) : HdfMap := fun p =>
  if p = path then some (f ((m path).getD .empty))
  else if p <+: path then some ((m p).getD .empty) else m p

/-- No path goes through `path`. -/
def drop (m : HdfMap) (path : HdfPtr) : HdfMap := fun p => if path <+: p then none else m p

/-- The fields of another map assigned below `path`. -/
def copy (m : HdfMap) (path : HdfPtr) (src : HdfMap) : HdfMap := fun p =>
  if path <+: p ∧ p ≠ path then overlay (m p) (src (p.drop path.length)) else m.put id path p

/-- A name with an empty component is an error, and the nodes before it are made. -/
def named (m : HdfMap) (name : List UInt8) (f : HdfPtr → HdfMap) : HdfMap × Option NeoErr :=
  if (nameParts name).all (· ≠ []) then (f (nameParts name), none)
  else (m.put id ((nameParts name).takeWhile (· ≠ [])), some (emptyComponent name))

theorem named_eq (m : HdfMap) (name : List UInt8) (f : HdfPtr → HdfMap) :
    m.named name f =
      if [] ∈ nameParts name then
        (m.put id ((nameParts name).takeWhile (· ≠ [])), some (emptyComponent name))
      else (f (nameParts name), none) := by
  have hall : (nameParts name).all (· ≠ []) = true ↔ [] ∉ nameParts name := by
    simp only [List.all_eq_true, decide_eq_true_eq]
    exact ⟨fun h hmem => h [] hmem rfl, fun h part hmem hpart => h (hpart ▸ hmem)⟩
  unfold named
  by_cases h : [] ∈ nameParts name
  · rw [if_pos h, if_neg fun hall' => hall.mp hall' h]
  · rw [if_neg h, if_pos (hall.mpr h)]

end HdfMap

/-- A call of the library on a dataset, with another dataset where it copies from one. -/
inductive HdfCall where
  | setValue (name value : List UInt8)
  | setIntValue (name : List UInt8) (value : ℤ)
  | setAttr (name key value : List UInt8)
  | copy (name : List UInt8) (src : HdfNode)
  | removeTree (name : List UInt8)
  | getValue (name : List UInt8)
  | getIntValue (name : List UInt8) (defval : ℤ)
  | getAttr (name : List UInt8)

/-- What a call returns. -/
inductive HdfAnswer where
  | status (err : Option NeoErr)
  | value (v : Option (List UInt8))
  | int (i : ℤ)
  | attrs (attr : HdfAttrs)
  deriving DecidableEq

/-- The error of a call, none for `STATUS_OK`. -/
def statusOf {R : Type} : Except NeoErr R → Option NeoErr
  | .error err => some err
  | .ok _ => none

/-- The dataset after a call that changes it, and its status. -/
def HdfRun.answer {R : Type} (x : HdfRun R) : Except HdfStop (HdfNode × HdfAnswer) :=
  x.bind fun r => .ok (r.1, .status (statusOf r.2))

/-- A call on the dataset itself. -/
def HdfCall.run (links : ℕ) (top : HdfNode) : HdfCall → Except HdfStop (HdfNode × HdfAnswer)
  | setValue name value => (hdfSetValue links top [] name value).answer
  | setIntValue name value => (hdfSetIntValue links top [] name value).answer
  | setAttr name key value => (hdfSetAttr links top [] name key value).answer
  | copy name src => (hdfCopy links top [] name src).answer
  | removeTree name => .ok (hdfRemoveTree top [] name, .status none)
  | getValue name => (hdfGetValue links top [] name).map fun v => (top, .value v)
  | getIntValue name defval => (hdfGetIntValue links top [] name defval).map fun i => (top, .int i)
  | getAttr name => (hdfGetAttr links top [] name).map fun attr => (top, .attrs attr)

/-- A call on the map. -/
def HdfCall.onMap (m : HdfMap) : HdfCall → HdfMap × HdfAnswer
  | setValue name value =>
    let r := m.named name (m.put (·.assign (.value value) []))
    (r.1, .status r.2)
  | setIntValue name value =>
    let r := m.named name (m.put (·.assign (.value (Decimal.print value)) []))
    (r.1, .status r.2)
  | setAttr name key value =>
    if m (nameParts name) = none then
      (m, .status (some (nerrRaise nerrAssert
        (ascii "Unable to set attribute on none existant node"))))
    else (m.put (fun d => ⟨d.value, attrSet d.attr key value⟩) (nameParts name), .status none)
  | copy name src =>
    let r := m.named name fun path => m.copy path (TreeNode.dataAt src)
    (r.1, .status r.2)
  | removeTree name => (m.drop (components name), .status none)
  | getValue name => (m, .value ((m (nameParts name)).bind (·.value.text)))
  | getIntValue name defval =>
    (m, .int ((((m (nameParts name)).bind (·.value.text)).map (intOr defval)).getD defval))
  | getAttr name => (m, .attrs (((m (nameParts name)).map (·.attr)).getD []))

/-- The dataset after a run of calls, and what they return. -/
def hdfCalls (links : ℕ) (top : HdfNode) : List HdfCall → Except HdfStop (HdfNode × List HdfAnswer)
  | [] => .ok (top, [])
  | c :: cs =>
    (c.run links top).bind fun r => (hdfCalls links r.1 cs).map fun q => (q.1, r.2 :: q.2)

/-- The map after a run of calls, and what they return. -/
def HdfMap.calls (m : HdfMap) : List HdfCall → HdfMap × List HdfAnswer
  | [] => (m, [])
  | c :: cs =>
    let q := HdfMap.calls (c.onMap m).1 cs
    (q.1, (c.onMap m).2 :: q.2)

/-- The dataset shows the map, on whose paths no component is empty. -/
structure Shows (top : HdfNode) (m : HdfMap) : Prop where
  linkFree : LinkFree top
  distinct : top.Distinct
  dataAt : TreeNode.dataAt top = m
  names : ∀ p, m p ≠ none → [] ∉ p

section
variable {top : HdfNode} {m : HdfMap} {links : ℕ} {name : List UInt8}

theorem Shows.find (h : Shows top m) (path : HdfPtr) :
    (top.find path).map TreeNode.data = m path := by
  rw [← h.dataAt]
  rfl

theorem Shows.not_mem_of_find (h : Shows top m) {path : HdfPtr} {n : HdfNode}
    (hn : top.find path = some n) : [] ∉ path :=
  h.names path (by rw [← h.find, hn]; simp)

theorem Shows.update (h : Shows top m) {f : HdfFields → HdfFields}
    (hf : ∀ d : HdfFields, d.value.linkTo = none → (f d).value.linkTo = none) {path : HdfPtr}
    (hpath : [] ∉ path) : Shows (top.update .empty f path) (m.put f path) where
  linkFree := h.linkFree.update hf path
  distinct := h.distinct.update
  dataAt := by
    funext p
    rw [dataAt_update, h.dataAt]
    rfl
  names p hp := by
    rw [HdfMap.put] at hp
    split_ifs at hp with heq hpre
    · exact heq ▸ hpath
    · exact fun hmem => hpath (hpre.subset hmem)
    · exact h.names p hp

/-- A proper node has a path without empty components. -/
theorem Proper.not_mem {s : HdfChain} (hs : Proper s) {p : HdfPtr} {n n' : HdfNode}
    (hchild : n.child = s) (hn : n.find p = some n') : [] ∉ p := by
  induction p generalizing s n with
  | nil => exact List.not_mem_nil
  | cons k p ih =>
    obtain ⟨m, hget, hm⟩ := Option.bind_eq_some_iff.mp hn
    rw [hchild] at hget
    have hk := Siblings.All.get hs.2 hget
    have hrest := ih ⟨Siblings.Distinct.get hs.1 hget, hk.2⟩ rfl hm
    exact fun hmem => (List.mem_cons.mp hmem).elim (fun h => hk.1.1 h.symm) hrest

theorem Shows.graft (h : Shows top m) {src : HdfNode} (hsrc : Proper src.child) {path : HdfPtr}
    (hpath : [] ∉ path) :
    Shows (top.alter .empty (graft · src.child) path) (m.copy path src.dataAt) := by
  obtain ⟨hdist, hall⟩ := id hsrc
  refine ⟨h.linkFree.alter (fun n hn => hn.graft (Siblings.All.imp (fun _ _ hd => hd.2.2) hall)) path,
    h.distinct.alter fun n hn => Distinct.graft hn hdist, ?_, fun p hp => ?_⟩
  rotate_left
  · rw [HdfMap.copy] at hp
    split_ifs at hp with hbelow
    · obtain ⟨⟨rest, rfl⟩, -⟩ := hbelow
      rw [List.drop_left] at hp
      cases hnew : src.dataAt rest with
      | none =>
        rw [hnew] at hp
        exact h.names _ hp
      | some d =>
        obtain ⟨n, hn, -⟩ := Option.map_eq_some_iff.mp hnew
        rw [List.mem_append, not_or]
        exact ⟨hpath, hsrc.not_mem rfl hn⟩
    · exact (h.update (f := id) (fun _ hd => hd) hpath).names p hp
  funext p
  rw [dataAt_alter]
  by_cases hpre : path <+: p
  · obtain ⟨rest, rfl⟩ := hpre
    simp only [HdfMap.copy, HdfMap.put]
    rw [if_pos (List.prefix_append ..), List.drop_left]
    cases rest with
    | nil =>
      rw [List.append_nil, if_neg (by simp), if_pos rfl, TreeNode.dataAt, find_nil, Option.map_some,
        graft_data, ← h.find]
      cases top.find path <;> rfl
    | cons k rest =>
      rw [if_pos ⟨List.prefix_append .., by simp⟩, dataAt_graft hdist, dataAt_below, h.dataAt,
        dataAt_cons, dataAt_cons]
  · have hne : p ≠ path := by
      rintro rfl
      exact hpre (List.prefix_refl _)
    simp only [HdfMap.copy, HdfMap.put, hpre, hne, false_and, if_false, h.dataAt]

theorem not_mem_takeWhile (parts : HdfPtr) : [] ∉ parts.takeWhile (· ≠ []) :=
  fun h => by simpa using List.mem_takeWhile_imp h

/-- `_set_value` on the dataset and on the map. -/
theorem Shows.setValue (h : Shows top m) (links : ℕ) (name : List UInt8) {value : HdfValue}
    (hvalue : value.linkTo = none) :
    ∃ top' node, Moc.setValue links top [] name value [] = .ok (top', node) ∧
      Shows top' (m.named name (m.put (·.assign value []))).1 ∧
      statusOf node = (m.named name (m.put (·.assign value []))).2 := by
  rw [setValue_eq h.linkFree find_nil, HdfMap.named_eq]
  split_ifs with hempty
  · exact ⟨_, _, rfl, h.update (fun _ hd => hd) (not_mem_takeWhile _), rfl⟩
  · exact ⟨_, _, rfl, h.update (fun _ _ => hvalue) hempty, rfl⟩

/-- One call. -/
theorem Shows.run (h : Shows top m) (links : ℕ) (c : HdfCall)
    (hsrc : ∀ name src, c = .copy name src → Proper src.child) :
    ∃ top', c.run links top = .ok (top', (c.onMap m).2) ∧ Shows top' (c.onMap m).1 := by
  cases c with
  | setValue name value =>
    obtain ⟨top', node, hset, hshows, herr⟩ := h.setValue links name
      (show (HdfValue.value value).linkTo = none from rfl)
    refine ⟨top', ?_, hshows⟩
    rw [HdfCall.run, hdfSetValue, hset]
    exact congrArg (fun err => Except.ok (top', HdfAnswer.status err)) herr
  | setIntValue name value =>
    obtain ⟨top', node, hset, hshows, herr⟩ := h.setValue links name
      (show (HdfValue.value (Decimal.print value)).linkTo = none from rfl)
    refine ⟨top', ?_, hshows⟩
    rw [HdfCall.run, hdfSetIntValue, hset]
    exact congrArg (fun err => Except.ok (top', HdfAnswer.status err)) herr
  | setAttr name key value =>
    rw [HdfCall.run, hdfSetAttr, walkHdf_eq h.linkFree find_nil, HdfCall.onMap, ← h.find]
    cases hfind : top.find (nameParts name) with
    | none => exact ⟨top, rfl, h⟩
    | some n =>
      exact ⟨_, rfl, h.update (f := fun d => ⟨d.value, attrSet d.attr key value⟩) (fun _ hd => hd)
        (h.not_mem_of_find hfind)⟩
  | copy name src =>
    have hproper := hsrc name src rfl
    rw [HdfCall.run, hdfCopy, walkHdf_eq h.linkFree find_nil, HdfCall.onMap, HdfMap.named_eq]
    cases hfind : top.find (nameParts name) with
    | none =>
      simp only [Except.bind, Option.map_none, setValue_eq h.linkFree find_nil]
      split_ifs with hempty
      · exact ⟨_, rfl, h.update (fun _ hd => hd) (not_mem_takeWhile _)⟩
      · refine ⟨_, ?_, h.graft hproper hempty⟩
        have hset : LinkFree (top.update .empty (·.assign .null []) (nameParts name)) :=
          h.linkFree.update (f := (·.assign .null [])) (fun _ _ => rfl) _
        simp only [HdfRun.andThen, Except.bind, List.nil_append]
        rw [copyNodes_eq hproper hset find_alter_self, TreeNode.update, alter_alter]
        exact congrArg (fun t => Except.ok (t, HdfAnswer.status none)) (alter_congr (by rw [hfind]; rfl))
    | some n =>
      have hempty := h.not_mem_of_find hfind
      rw [if_neg hempty]
      refine ⟨_, ?_, h.graft hproper hempty⟩
      simp only [Except.bind, Option.map_some, List.nil_append]
      rw [copyNodes_eq hproper h.linkFree hfind]
      rfl
  | removeTree name =>
    refine ⟨_, rfl, ⟨Every.prune h.linkFree, h.distinct.prune, ?_, fun p hp => ?_⟩⟩
    · funext p
      rw [← h.dataAt]
      exact dataAt_prune h.distinct (components_ne_nil name)
    · refine h.names p fun hnone => hp ?_
      simp [HdfCall.onMap, HdfMap.drop, hnone]
  | getValue name =>
    refine ⟨top, ?_, h⟩
    rw [HdfCall.run, hdfGetValue_eq h.linkFree find_nil, h.dataAt]
    rfl
  | getIntValue name defval =>
    refine ⟨top, ?_, h⟩
    rw [HdfCall.run, hdfGetIntValue, hdfGetValue_eq h.linkFree find_nil, h.dataAt]
    rfl
  | getAttr name =>
    refine ⟨top, ?_, h⟩
    rw [HdfCall.run, hdfGetAttr, walkHdf_eq h.linkFree find_nil, HdfCall.onMap, ← h.find]
    cases hfind : top.find (nameParts name) with
    | none => rfl
    | some n =>
      simp only [bind, Except.bind, Option.map_some, List.nil_append, Option.bind_some, hfind]
      rfl

end

/-- In any run of calls on a new dataset, which copy from datasets that the library has made, every call
returns what it returns of the map from paths to fields, and none follows a link. -/
theorem hdfRun_agree (links : ℕ) (calls : List HdfCall)
    (hsrc : ∀ name src, .copy name src ∈ calls → Proper src.child) :
    ∃ top, hdfCalls links hdfInit calls = .ok (top, (HdfMap.start.calls calls).2) ∧
      Shows top (HdfMap.start.calls calls).1 := by
  have hstart : Shows hdfInit .start := by
    refine ⟨⟨rfl, trivial⟩, trivial, ?_, fun p hp => ?_⟩
    · funext p
      cases p <;> rfl
    · rw [HdfMap.start] at hp
      split_ifs at hp with h
      · rw [h]
        exact List.not_mem_nil
      · exact absurd rfl hp
  -- The map is shown from any state on.
  have hrun : ∀ (calls : List HdfCall) (top : HdfNode) (m : HdfMap), Shows top m →
      (∀ name src, .copy name src ∈ calls → Proper src.child) →
      ∃ top', hdfCalls links top calls = .ok (top', (m.calls calls).2) ∧ Shows top' (m.calls calls).1 := by
    intro calls
    induction calls with
    | nil => exact fun top m h _ => ⟨top, rfl, h⟩
    | cons c calls ih =>
      intro top m h hsrc
      obtain ⟨top₁, hone, hshows⟩ := h.run links c fun name src hc =>
        hsrc name src (hc ▸ List.mem_cons_self)
      obtain ⟨top', hrest, hend⟩ := ih top₁ _ hshows fun name src hc =>
        hsrc name src (List.mem_cons_of_mem _ hc)
      refine ⟨top', ?_, hend⟩
      rw [hdfCalls, hone]
      simp only [Except.bind]
      rw [hrest]
      rfl
  exact hrun calls _ _ hstart hsrc

/-- `m.x = 7`, a copy of a dataset with `k = v` to `m`, and `m.k`. -/
def sampleHdfCalls : List HdfCall :=
  [.setValue [109, 46, 120] [55], .copy [109] ⟨.empty, .single [107] ⟨⟨.value [118], []⟩, .nil⟩⟩,
    .getValue [109, 46, 107]]

theorem hdfRun_agree_sample :
    (∀ name src, .copy name src ∈ sampleHdfCalls → Proper src.child) ∧
      ∃ top, hdfCalls 0 hdfInit sampleHdfCalls = .ok (top, (HdfMap.start.calls sampleHdfCalls).2) ∧
        Shows top (HdfMap.start.calls sampleHdfCalls).1 := by
  have hsrc : ∀ name src, .copy name src ∈ sampleHdfCalls → Proper src.child := by
    intro name src hmem
    simp only [sampleHdfCalls, List.mem_cons, reduceCtorEq, false_or, or_false, HdfCall.copy.injEq,
      List.not_mem_nil] at hmem
    rw [hmem.2]
    exact ⟨⟨by simp [keys], trivial, trivial⟩, ⟨by simp, by simp, rfl⟩, trivial, trivial⟩
  exact ⟨hsrc, hdfRun_agree 0 _ hsrc⟩

end Moc
