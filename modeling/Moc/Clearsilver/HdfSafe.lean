import Moc.Clearsilver.HdfPaths
import Moc.Clearsilver.HdfText

/-!
# The names of a dataset

The server reads the text of a dataset from its clients. Whatever the text, and whatever the calls before
and after it, the nodes of the dataset stay nodes that a dotted name reaches (`hdfReached_named`).
-/

open CText Siblings TreeNode

namespace Moc

/-! ## Names -/

/-- Siblings have different names, and each name is one component of a dotted name. -/
def Named (n : HdfNode) : Prop := n.Distinct ∧ n.child.All fun name _ => name ≠ [] ∧ 46 ∉ name

theorem Named.child {n m : HdfNode} (h : Named n) {name : List UInt8} (hm : n.child.get name = some m) :
    Named m :=
  ⟨Siblings.Distinct.get h.1 hm, (Siblings.All.get h.2 hm).2⟩

theorem Named.set {n m : HdfNode} (h : Named n) (hm : Named m) {name : List UInt8} (hne : name ≠ [])
    (hdot : 46 ∉ name) : Named ⟨n.data, n.child.set name m⟩ :=
  ⟨Siblings.Distinct.set h.1 hm.1, Siblings.All.set h.2 ⟨hne, hdot⟩ hm.2⟩

theorem Named.find {n m : HdfNode} (h : Named n) {p : HdfPtr} (hm : n.find p = some m) : Named m := by
  induction p generalizing n with
  | nil =>
    cases hm
    exact h
  | cons k p ih =>
    obtain ⟨m', hget, hfind⟩ := Option.bind_eq_some_iff.mp hm
    exact ih (h.child hget) hfind

theorem Named.prune {n : HdfNode} (h : Named n) (p : HdfPtr) : Named (n.prune p) := by
  induction p generalizing n with
  | nil => exact h
  | cons k p ih =>
    cases p with
    | nil => exact ⟨Siblings.Distinct.erase h.1, Siblings.All.erase h.2⟩
    | cons k' p =>
      rw [TreeNode.prune]
      split
      · exact h
      · next m hget =>
        have hk := (Siblings.All.get h.2 hget).1
        exact h.set (ih (h.child hget)) hk.1 hk.2

/-- The names of a path are single components. -/
def NamedPath (p : HdfPtr) : Prop := ∀ k ∈ p, k ≠ [] ∧ 46 ∉ k

theorem NamedPath.append {p q : HdfPtr} (hp : NamedPath p) (hq : NamedPath q) : NamedPath (p ++ q) :=
  fun k hk => (List.mem_append.mp hk).elim (hp k) (hq k)

theorem Named.alter {n : HdfNode} (h : Named n) {g : HdfNode → HdfNode}
    (hg : ∀ m, Named m → Named (g m)) {p : HdfPtr} (hp : NamedPath p) : Named (n.alter .empty g p) := by
  induction p generalizing n with
  | nil => exact hg n h
  | cons k p ih =>
    obtain ⟨hk, hp⟩ := List.forall_mem_cons.mp hp
    refine h.set (ih ?_ hp) hk.1 hk.2
    cases hget : n.child.get k with
    | none => exact ⟨trivial, trivial⟩
    | some m => exact h.child hget

theorem not_mem_components {name part : List UInt8} (h : part ∈ components name) : 46 ∉ part := by
  induction name generalizing part with
  | nil =>
    rw [components, List.splitOn_nil, List.mem_singleton] at h
    rw [h]
    exact List.not_mem_nil
  | cons c name ih =>
    rw [components, List.splitOn_cons_eq_if_modifyHead] at h
    split_ifs at h with hc
    · rcases List.mem_cons.mp h with rfl | h
      · exact List.not_mem_nil
      · exact ih h
    · have hcomp : ∀ part ∈ name.splitOn 46, 46 ∉ part := fun part => ih
      cases hparts : name.splitOn 46 with
      | nil => exact absurd hparts (List.splitOn_ne_nil _ _)
      | cons first rest =>
        rw [hparts] at h hcomp
        rcases List.mem_cons.mp h with rfl | h
        · rw [List.mem_cons, not_or]
          exact ⟨fun hdot => hc (by rw [← hdot]; rfl), hcomp first List.mem_cons_self⟩
        · exact hcomp part (List.mem_cons_of_mem _ h)

section
variable {top : HdfNode} {hdf : HdfPtr} {links : ℕ} {name : List UInt8}

/-- `_walk_hdf` finds nodes by names of the dataset. -/
theorem walkLoop_named (h : Named top) {follow : List UInt8 → Except HdfStop (Option HdfPtr)}
    (hfollow : ∀ dest p, follow dest = .ok (some p) → NamedPath p) {parts : List (List UInt8)}
    (hhdf : NamedPath hdf) {p : HdfPtr} (hwalk : walkLoop follow top hdf parts = .ok (some p)) :
    NamedPath p := by
  induction parts generalizing hdf with
  | nil =>
    cases hwalk
    exact hhdf
  | cons part parts ih =>
    rw [walkLoop] at hwalk
    cases hnode : (top.find hdf).bind (·.child.get part) with
    | none => rw [hnode] at hwalk; cases hwalk
    | some hp =>
      rw [hnode] at hwalk
      dsimp only at hwalk
      cases hlink : hp.data.value.linkTo with
      | none =>
        rw [hlink] at hwalk
        obtain ⟨m, hm, hget⟩ := Option.bind_eq_some_iff.mp hnode
        have hpart := (Siblings.All.get (h.find hm).2 hget).1
        refine ih (hhdf.append ?_) hwalk
        exact fun k hk => List.mem_singleton.mp hk ▸ hpart
      | some dest =>
        rw [hlink] at hwalk
        obtain ⟨q, hq, hrest⟩ := bind_eq_ok_iff.mp hwalk
        cases q with
        | none => cases hrest
        | some q => exact ih (hfollow dest q hq) hrest

theorem walkCall_named (h : Named top) {follow : List UInt8 → Except HdfStop (Option HdfPtr)}
    (hfollow : ∀ dest p, follow dest = .ok (some p) → NamedPath p) (hhdf : NamedPath hdf) {p : HdfPtr}
    (hwalk : walkCall follow top hdf name = .ok (some p)) : NamedPath p := by
  unfold walkCall at hwalk
  split_ifs at hwalk with hname
  · cases hwalk
    exact hhdf
  · cases hlink : (top.find hdf).bind (·.data.value.linkTo) with
    | none =>
      rw [hlink] at hwalk
      exact walkLoop_named h hfollow hhdf hwalk
    | some dest =>
      rw [hlink] at hwalk
      obtain ⟨q, hq, hrest⟩ := bind_eq_ok_iff.mp hwalk
      cases q with
      | none => cases hrest
      | some q => exact walkLoop_named h hfollow (hfollow dest q hq) hrest

theorem walkLink_named (h : Named top) (dest : List UInt8) (p : HdfPtr)
    (hwalk : walkLink top links dest = .ok (some p)) : NamedPath p := by
  induction links generalizing dest p with
  | zero => cases hwalk
  | succ links ih => exact walkCall_named h ih (fun k hk => absurd hk List.not_mem_nil) hwalk

theorem walkHdf_named (h : Named top) (hhdf : NamedPath hdf) {p : HdfPtr}
    (hwalk : walkHdf links top hdf name = .ok (some p)) : NamedPath p :=
  walkCall_named h (walkLink_named h) hhdf hwalk

/-- The loop of `_set_value` names its new nodes by the components. -/
theorem setLoop_named {n : HdfNode} (h : Named n) (name : List UInt8) {parts : List (List UInt8)}
    (hparts : ∀ part ∈ parts, 46 ∉ part) (value : HdfValue) (attr : HdfAttrs) :
    Named (setLoop name value attr n parts).1 ∧
      ∀ p, (setLoop name value attr n parts).2 = .done p → NamedPath p := by
  have hbelow : ∀ {part : List UInt8} {e : SetEnd}, part ≠ [] → 46 ∉ part →
      (∀ p, e = .done p → NamedPath p) → ∀ p, e.below part = .done p → NamedPath p := by
    intro part e hne hdot he p hp
    cases e with
    | failed err => cases hp
    | again name => cases hp
    | done q =>
      cases hp
      exact List.forall_mem_cons.mpr ⟨⟨hne, hdot⟩, he q rfl⟩
  induction parts generalizing n with
  | nil =>
    refine ⟨h, fun p hp => ?_⟩
    cases hp
    exact fun k hk => absurd hk List.not_mem_nil
  | cons part parts ih =>
    obtain ⟨hdot, hparts⟩ := List.forall_mem_cons.mp hparts
    rw [setLoop]
    by_cases hne : part = []
    · rw [if_pos hne]
      exact ⟨h, fun p hp => by cases hp⟩
    · rw [if_neg hne]
      have hone : ∀ p, SetEnd.done [part] = .done p → NamedPath p := fun p hp => by
        cases hp
        exact List.forall_mem_cons.mpr ⟨⟨hne, hdot⟩, fun k hk => absurd hk List.not_mem_nil⟩
      cases hget : n.child.get part with
      | none =>
        dsimp only
        have hnew := get_eq_none.mp hget
        by_cases hrest : parts = []
        · rw [if_pos hrest, ← set_of_not_mem hnew]
          exact ⟨h.set (m := ⟨⟨value, attr⟩, .nil⟩) ⟨trivial, trivial⟩ hne hdot, hone⟩
        · obtain ⟨hsub, hend⟩ := ih (n := hdfInit) ⟨trivial, trivial⟩ hparts
          rw [if_neg hrest, ← set_of_not_mem hnew]
          exact ⟨h.set hsub hne hdot, hbelow hne hdot hend⟩
      | some m =>
        dsimp only
        by_cases hrest : parts = []
        · rw [if_pos hrest]
          have hm := h.child hget
          exact ⟨h.set (m := ⟨m.data.assign value attr, m.child⟩) hm hne hdot, hone⟩
        · rw [if_neg hrest]
          cases hlink : m.data.value.linkTo with
          | some dest => exact ⟨h, fun p hp => by cases hp⟩
          | none =>
            obtain ⟨hsub, hend⟩ := ih (h.child hget) hparts
            exact ⟨h.set hsub hne hdot, hbelow hne hdot hend⟩

/-- A run that keeps the names, and whose result is a path of names. -/
def KeepsNames {R : Type} (x : HdfRun R) (named : R → Prop) : Prop :=
  ∀ top r, x = .ok (top, r) → Named top ∧ ∀ a, r = .ok a → named a

theorem KeepsNames.andThen {R S : Type} {x : HdfRun R} {f : HdfNode → R → HdfRun S} {P : R → Prop}
    {Q : S → Prop} (hx : KeepsNames x P) (hf : ∀ top a, Named top → P a → KeepsNames (f top a) Q) :
    KeepsNames (x.andThen f) Q := by
  intro top r hrun
  obtain ⟨⟨top', r'⟩, hfirst, hrest⟩ := bind_eq_ok_iff.mp hrun
  obtain ⟨htop', hr'⟩ := hx _ _ hfirst
  cases r' with
  | error err =>
    cases hrest
    exact ⟨htop', fun a ha => by cases ha⟩
  | ok a => exact hf top' a htop' (hr' a rfl) _ _ hrest

theorem setCall_named (h : Named top) (hhdf : NamedPath hdf) {again : List UInt8 → HdfRun HdfPtr}
    (hagain : ∀ name, KeepsNames (again name) NamedPath) (value : HdfValue) (attr : HdfAttrs) :
    KeepsNames (setCall again top hdf name value attr) NamedPath := by
  intro top' r hrun
  unfold setCall at hrun
  split_ifs at hrun with hname hempty
  · cases hrun
    refine ⟨h.alter (g := fun m => ⟨m.data.assign value attr, m.child⟩) (fun m hm => hm) hhdf,
      fun a ha => ?_⟩
    cases ha
    exact hhdf
  · cases hrun
    exact ⟨h, fun a ha => by cases ha⟩
  · cases hlink : (top.find hdf).bind (·.data.value.linkTo) with
    | some dest =>
      rw [hlink] at hrun
      exact hagain _ _ _ hrun
    | none =>
      rw [hlink] at hrun
      dsimp only at hrun
      have hnode : Named ((top.find hdf).getD hdfInit) := by
        cases hfind : top.find hdf with
        | none => exact ⟨trivial, trivial⟩
        | some n => exact h.find hfind
      obtain ⟨hloop, hdone⟩ := setLoop_named hnode name
        (fun part hpart => not_mem_components hpart) value attr
      have halter := h.alter (g := fun _ => (setLoop name value attr ((top.find hdf).getD hdfInit)
        (components name)).1) (fun _ _ => hloop) hhdf
      cases hend : (setLoop name value attr ((top.find hdf).getD hdfInit) (components name)).2 with
      | done node =>
        rw [hend] at hrun
        cases hrun
        refine ⟨halter, fun a ha => ?_⟩
        cases ha
        exact hhdf.append (hdone node hend)
      | failed err =>
        rw [hend] at hrun
        cases hrun
        exact ⟨halter, fun a ha => by cases ha⟩
      | again name' =>
        rw [hend] at hrun
        exact hagain _ _ _ hrun

theorem setLink_named (h : Named top) (value : HdfValue) (attr : HdfAttrs) (name : List UInt8) :
    KeepsNames (setLink top value attr links name) NamedPath := by
  induction links generalizing name with
  | zero => exact fun top' r hrun => by cases hrun
  | succ links ih => exact setCall_named h (fun k hk => absurd hk List.not_mem_nil) ih value attr

/-- `_set_value` -/
theorem setValue_named (h : Named top) (hhdf : NamedPath hdf) (value : HdfValue) (attr : HdfAttrs) :
    KeepsNames (setValue links top hdf name value attr) NamedPath :=
  setCall_named h hhdf (setLink_named h value attr) value attr

/-- `_copy_nodes`, whatever the copied nodes are called. -/
theorem copyNodes_named {s : HdfChain} (h : Named top) {dest : HdfPtr} (hdest : NamedPath dest) :
    KeepsNames (copyNodes links top dest s) fun _ => True := by
  induction s generalizing top dest with
  | nil =>
    intro top' r hrun
    cases hrun
    exact ⟨h, fun _ _ => trivial⟩
  | cons name data child next ihc ihn =>
    rw [copyNodes]
    exact (setValue_named h hdest _ _).andThen fun top dt htop hdt =>
      (ihc htop hdt).andThen fun top _ htop _ => ihn htop hdest

theorem openLower_named (h : Named top) (hhdf : NamedPath hdf) (links : ℕ) (name : List UInt8)
    (attr : HdfAttrs) :
    KeepsNames (openLower links top hdf name attr) NamedPath := by
  intro top' r hrun
  obtain ⟨lower, hlower, hrest⟩ := bind_eq_ok_iff.mp hrun
  cases lower with
  | none => exact setValue_named h hhdf _ _ _ _ hrest
  | some lower => exact setValue_named h (walkHdf_named h hhdf hlower) _ _ _ _ hrest

/-- A reader that keeps the names. -/
def ReaderKeeps (again : HdfReader) : Prop :=
  ∀ top hdf str lineno, Named top → NamedPath hdf → KeepsNames (again top hdf str lineno) fun _ => True

theorem ReaderKeeps.readStep {ignore : Bool} {path : List UInt8} {again : HdfReader}
    (h : ReaderKeeps again) : ReaderKeeps (readStep links ignore path again) := by
  intro top hdf str lineno htop hhdf
  have hset : ∀ (name : List UInt8) (value : HdfValue) (attr : HdfAttrs) (str' : List UInt8) (lineno' : ℕ),
      KeepsNames ((setValue links top hdf name value attr).andThen fun top _ => again top hdf str' lineno')
        fun _ => True :=
    fun name value attr str' lineno' => (setValue_named htop hhdf value attr).andThen
      fun top _ htop _ => h top hdf str' lineno' htop hhdf
  unfold Moc.readStep
  split_ifs with hstr
  · intro top' r hrun
    cases hrun
    exact ⟨htop, fun _ _ => trivial⟩
  · intro top' r hrun
    obtain ⟨line, -, hline⟩ := bind_eq_ok_iff.mp hrun
    cases line with
    | blank => exact h _ _ _ _ htop hhdf _ _ hline
    | up =>
      cases hline
      exact ⟨htop, fun _ _ => trivial⟩
    | bad err =>
      cases hline
      exact ⟨htop, fun _ _ => trivial⟩
    | assign name value attr => exact hset _ _ _ _ _ _ _ hline
    | copy name src attr =>
      obtain ⟨value, -, hvalue⟩ := bind_eq_ok_iff.mp hline
      exact hset _ _ _ _ _ _ _ hvalue
    | link name dest attr => exact hset _ _ _ _ _ _ _ hline
    | deeper name attr =>
      have hdeeper := (openLower_named htop hhdf links name attr).andThen
        fun top₁ lower htop₁ hlower =>
          (h top₁ lower (copyLineAdvance str).2 (lineno + 1) htop₁ hlower).andThen
            fun top₂ r₂ htop₂ _ => h top₂ hdf r₂.1 r₂.2 htop₂ hhdf
      exact hdeeper _ _ hline
    | multi name terminator attr => exact hset _ _ _ _ _ _ _ hline

theorem readerKeeps_readLevel {ignore : Bool} {path : List UInt8} (fuel : ℕ) :
    ReaderKeeps (readLevel links ignore path fuel) := by
  induction fuel with
  | zero =>
    intro top hdf str lineno _ _ top' r hrun
    cases hrun
  | succ fuel ih => exact ih.readStep

end

/-! ## Runs of changes -/

/-- A call that changes a dataset. -/
inductive HdfChange where
  | setValue (name value : List UInt8)
  | setIntValue (name : List UInt8) (value : ℤ)
  | setSymlink (src dest : List UInt8)
  | setCopy (dest src : List UInt8)
  | setAttr (name key value : List UInt8)
  | copy (name : List UInt8) (src : HdfNode)
  | getNode (name : List UInt8)
  | removeTree (name : List UInt8)
  | readString (ignore : Bool) (str : List UInt8)

/-- A change of the dataset itself; the error that it may return is not looked at. -/
def HdfChange.run (links : ℕ) (top : HdfNode) : HdfChange → Except HdfStop HdfNode
  | setValue name value => (hdfSetValue links top [] name value).map Prod.fst
  | setIntValue name value => (hdfSetIntValue links top [] name value).map Prod.fst
  | setSymlink src dest => (hdfSetSymlink links top [] src dest).map Prod.fst
  | setCopy dest src => (hdfSetCopy links top [] dest src).map Prod.fst
  | setAttr name key value => (hdfSetAttr links top [] name key value).map Prod.fst
  | copy name src => (hdfCopy links top [] name src).map Prod.fst
  | getNode name => (hdfGetNode links top [] name).map Prod.fst
  | removeTree name => .ok (hdfRemoveTree top [] name)
  | readString ignore str => (hdfReadString links ignore top str).map Prod.fst

/-- The dataset after a run of changes, none of which follows links forever. -/
def hdfChanges (links : ℕ) : HdfNode → List HdfChange → Except HdfStop HdfNode
  | top, [] => .ok top
  | top, c :: cs => (c.run links top).bind fun top => hdfChanges links top cs

theorem KeepsNames.map_fst {R : Type} {x : HdfRun R} {P : R → Prop} (h : KeepsNames x P) {top : HdfNode}
    (hx : x.map Prod.fst = .ok top) : Named top := by
  cases x with
  | error stop => cases hx
  | ok r =>
    cases hx
    exact (h r.1 r.2 rfl).1

theorem HdfChange.run_named {links : ℕ} {top top' : HdfNode} (h : Named top) (c : HdfChange)
    (hrun : c.run links top = .ok top') : Named top' := by
  have hnil : NamedPath [] := fun k hk => absurd hk List.not_mem_nil
  cases c with
  | setValue name value => exact (setValue_named h hnil _ _).map_fst hrun
  | setIntValue name value => exact (setValue_named h hnil _ _).map_fst hrun
  | setSymlink src dest => exact (setValue_named h hnil _ _).map_fst hrun
  | setCopy dest src =>
    refine KeepsNames.map_fst (P := fun _ => True) (x := hdfSetCopy links top [] dest src) ?_ hrun
    intro top₁ r hset
    obtain ⟨v, -, hrest⟩ := bind_eq_ok_iff.mp hset
    cases v with
    | none =>
      cases hrest
      exact ⟨h, fun _ _ => trivial⟩
    | some v =>
      exact ⟨(setValue_named h hnil _ _ _ _ hrest).1, fun _ _ => trivial⟩
  | setAttr name key value =>
    refine KeepsNames.map_fst (P := fun _ => True) (x := hdfSetAttr links top [] name key value) ?_ hrun
    intro top₁ r hset
    obtain ⟨obj, hobj, hrest⟩ := bind_eq_ok_iff.mp hset
    cases obj with
    | none =>
      cases hrest
      exact ⟨h, fun _ _ => trivial⟩
    | some obj =>
      cases hrest
      have hkeep := h.alter (g := fun m => ⟨⟨m.data.value, attrSet m.data.attr key value⟩, m.child⟩)
        (fun m hm => hm) (walkHdf_named h hnil hobj)
      exact ⟨hkeep, fun _ _ => trivial⟩
  | copy name src =>
    refine KeepsNames.map_fst (P := fun _ => True) (x := hdfCopy links top [] name src) ?_ hrun
    intro top₁ r hcopy
    obtain ⟨node, hnode, hrest⟩ := bind_eq_ok_iff.mp hcopy
    cases node with
    | some node => exact copyNodes_named h (walkHdf_named h hnil hnode) _ _ hrest
    | none =>
      have hset : KeepsNames (Moc.setValue links top [] name .null []) NamedPath :=
        setValue_named h hnil .null []
      exact hset.andThen (fun top node htop hnode => copyNodes_named htop hnode) _ _ hrest
  | getNode name =>
    refine KeepsNames.map_fst (P := fun _ => True) (x := hdfGetNode links top [] name) ?_ hrun
    intro top₁ r hget
    obtain ⟨node, -, hrest⟩ := bind_eq_ok_iff.mp hget
    cases node with
    | none => exact ⟨(setValue_named h hnil _ _ _ _ hrest).1, fun _ _ => trivial⟩
    | some node =>
      cases hrest
      exact ⟨h, fun _ _ => trivial⟩
  | removeTree name =>
    cases hrun
    exact h.prune _
  | readString ignore str =>
    have hread : KeepsNames (Moc.readString links ignore (ascii "<string>") top [] str 0) fun _ => True :=
      readerKeeps_readLevel _ _ _ _ _ h hnil
    refine KeepsNames.map_fst (P := fun _ => True) (x := hdfReadString links ignore top str) ?_ hrun
    refine hread.andThen fun top _ htop _ top' r hr => ?_
    cases hr
    exact ⟨htop, fun _ _ => trivial⟩

/-- In every dataset that a run of changes makes, among them texts of any content, siblings have different
names, and each name is a single component that is not empty. -/
theorem hdfReached_named {links : ℕ} {cs : List HdfChange} {top : HdfNode}
    (hrun : hdfChanges links hdfInit cs = .ok top) : Named top := by
  have hall : ∀ (cs : List HdfChange) (top top' : HdfNode), Named top →
      hdfChanges links top cs = .ok top' → Named top' := by
    intro cs
    induction cs with
    | nil =>
      intro top top' h hrun
      cases hrun
      exact h
    | cons c cs ih =>
      intro top top' h hrun
      obtain ⟨top₁, hone, hrest⟩ := bind_eq_ok_iff.mp hrun
      exact ih top₁ top' (c.run_named h hone) hrest
  exact hall cs hdfInit top ⟨trivial, trivial⟩ hrun

/-- `a.b = 1`, then the text of a node `c` with a child `d`, then without `a.b`. -/
theorem hdfReached_named_sample :
    hdfChanges 0 hdfInit [.setValue [97, 46, 98] [49],
        .readString false [99, 123, 10, 100, 61, 50, 10, 125, 10], .removeTree [97, 46, 98]] =
      .ok ⟨.empty, .cons [97] .empty .nil
        (.cons [99] .empty (.cons [100] ⟨.value [50], []⟩ .nil .nil) .nil)⟩ ∧
    Named ⟨.empty, .cons [97] .empty .nil
      (.cons [99] .empty (.cons [100] ⟨.value [50], []⟩ .nil .nil) .nil)⟩ := by
  have hrun : hdfChanges 0 hdfInit [.setValue [97, 46, 98] [49],
        .readString false [99, 123, 10, 100, 61, 50, 10, 125, 10], .removeTree [97, 46, 98]] =
      .ok ⟨.empty, .cons [97] .empty .nil
        (.cons [99] .empty (.cons [100] ⟨.value [50], []⟩ .nil .nil) .nil)⟩ := rfl
  exact ⟨hrun, hdfReached_named hrun⟩

end Moc
