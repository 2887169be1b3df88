import Moc.Hdf
import Moc.Lib.Decimal
import Moc.Lib.Siblings

/-!
# Datasets

The tree of `client/clearsilver/util/neo_hdf.c`. A node has a name, a value, attributes and children, and
is reached by a dotted name. A node can be a link: its value is a dotted name from the top on, and the
functions that take a name go on there. An `HDF` pointer is here the names from the top down to the node,
since siblings have different names.

`_walk_hdf` and `_set_value` call themselves for a link, and nothing in the code stops a chain of links
that leads back to itself. `links` bounds the calls on the stack; a call that needs more is `endless`.
-/

namespace Moc

/-- `value` and `link` of a node: a link has always been given its target. -/
inductive HdfValue where
  | null
  | value (v : List UInt8)
  | link (dest : List UInt8)
  deriving DecidableEq

/-- The `value` pointer. -/
def HdfValue.text : HdfValue → Option (List UInt8)
  | null => none
  | value v => some v
  | link dest => some dest

/-- The target, where `link` is set. -/
def HdfValue.linkTo : HdfValue → Option (List UInt8)
  | link dest => some dest
  | _ => none

/-- The keys and values of an `HDF_ATTR` list. -/
abbrev HdfAttrs := List (List UInt8 × List UInt8)

/-- What a node holds beside its name and its children. -/
structure HdfFields where
  value : HdfValue
  attr : HdfAttrs
  deriving DecidableEq

/-- The fields of a node that only stands above others. -/
def HdfFields.empty : HdfFields := ⟨.null, []⟩

/-- An `HDF` node, or a dataset as its top node. -/
abbrev HdfNode := TreeNode (List UInt8) HdfFields

/-- A chain of `HDF` nodes along `next`. -/
abbrev HdfChain := Siblings (List UInt8) HdfFields

/-- An `HDF` pointer. -/
abbrev HdfPtr := List (List UInt8)

/-- `hdf_init` -/
def hdfInit : HdfNode := ⟨.empty, .nil⟩

/-- Why a call does not return: it follows links without end, or reads behind the end of a string. -/
inductive HdfStop where
  | endless
  | overrun
  deriving DecidableEq

/-- What a call that changes a dataset gives: the dataset after it, and its result or the error that was
raised. -/
abbrev HdfRun (R : Type) := Except HdfStop (HdfNode × Except NeoErr R)

/-- A call and, without an error, what follows it. -/
def HdfRun.andThen {R S : Type} (x : HdfRun R) (f : HdfNode → R → HdfRun S) : HdfRun S :=
  x.bind fun r =>
    match r.2 with
    | .error err => .ok (r.1, .error err)
    | .ok a => f r.1 a

theorem HdfRun.andThen_eq_ok {R S : Type} {x : HdfRun R} {f : HdfNode → R → HdfRun S}
    {top : HdfNode} {b : S} :
    x.andThen f = .ok (top, .ok b) ↔ ∃ top' a, x = .ok (top', .ok a) ∧ f top' a = .ok (top, .ok b) := by
  cases x with
  | error stop => simp [HdfRun.andThen, Except.bind]
  | ok r =>
    obtain ⟨top', r⟩ := r
    cases r with
    | error err => simp [HdfRun.andThen, Except.bind]
    | ok a => simp [HdfRun.andThen, Except.bind]

theorem bind_eq_ok_iff {E A B : Type} {x : Except E A} {f : A → Except E B} {b : B} :
    x.bind f = .ok b ↔ ∃ a, x = .ok a ∧ f a = .ok b := by
  cases x <;> simp [Except.bind]

/-- `NERR_NOT_FOUND` -/
def nerrNotFound : ℕ := 3
/-- `NERR_PARSE` -/
def nerrParse : ℕ := 6

/-- `nerr_raise`, with `desc` of 1024 bytes. -/
def nerrRaise (error : ℕ) (desc : List UInt8) : NeoErr := ⟨error, desc.take 1023⟩

/-- The parts of a dotted name. -/
def components (name : List UInt8) : List (List UInt8) := name.splitOn 46

/-! ## Looking up -/

/-- The loop of `_walk_hdf` from the node `parent` on; `follow` is the call for a link. -/
def walkLoop (follow : List UInt8 → Except HdfStop (Option HdfPtr)) (top : HdfNode) :
    HdfPtr → List (List UInt8) → Except HdfStop (Option HdfPtr)
  | parent, [] => .ok (some parent)
  | parent, n :: rest =>
    match (top.find parent).bind (·.child.get n) with
    | none => .ok none
    | some hp =>
      match hp.data.value.linkTo with
      | none => walkLoop follow top (parent ++ [n]) rest
      | some dest => do
        match ← follow dest with
        | none => return none
        | some hp => walkLoop follow top hp rest

/-- One call of `_walk_hdf`. -/
def walkCall (follow : List UInt8 → Except HdfStop (Option HdfPtr)) (top : HdfNode) (hdf : HdfPtr)
    (name : List UInt8) : Except HdfStop (Option HdfPtr) :=
  if name = [] then .ok (some hdf)
  else
    match (top.find hdf).bind (·.data.value.linkTo) with
    | none => walkLoop follow top hdf (components name)
    | some dest => do
      match ← follow dest with
      | none => return none
      | some hp => walkLoop follow top hp (components name)

/-- `_walk_hdf(hdf->top, hdf->value, ..)` for a link. -/
def walkLink (top : HdfNode) : ℕ → List UInt8 → Except HdfStop (Option HdfPtr)
  | 0, _ => .error .endless
  | links + 1, dest => walkCall (walkLink top links) top [] dest

/-- `_walk_hdf`: the node of a name, or none. -/
def walkHdf (links : ℕ) (top : HdfNode) (hdf : HdfPtr) (name : List UInt8) :
    Except HdfStop (Option HdfPtr) :=
  walkCall (walkLink top links) top hdf name

/-- `hdf_get_value`, none for `defval`. -/
def hdfGetValue (links : ℕ) (top : HdfNode) (hdf : HdfPtr) (name : List UInt8) :
    Except HdfStop (Option (List UInt8)) := do
  let node ← walkHdf links top hdf name
  return (node.bind top.find).bind (·.data.value.text)

/-- The number that `hdf_get_int_value` reads from a value, if the value starts with one. -/
def intOr (defval : ℤ) (v : List UInt8) : ℤ :=
  let s := v.dropWhile Decimal.isSpace
  let s := if s.head? = some 45 ∨ s.head? = some 43 then s.tail else s
  if s.head?.any Decimal.isDigit then (Decimal.strtoll v).bmod (2^32) else defval

/-- `hdf_get_int_value` -/
def hdfGetIntValue (links : ℕ) (top : HdfNode) (hdf : HdfPtr) (name : List UInt8) (defval : ℤ) :
    Except HdfStop ℤ := do
  let v ← hdfGetValue links top hdf name
  return (v.map (intOr defval)).getD defval

/-- `hdf_get_attr` -/
def hdfGetAttr (links : ℕ) (top : HdfNode) (hdf : HdfPtr) (name : List UInt8) :
    Except HdfStop HdfAttrs := do
  let node ← walkHdf links top hdf name
  return ((node.bind top.find).map (·.data.attr)).getD []

/-- `hdf_obj_child(hdf) != NULL` -/
def hdfObjChild (links : ℕ) (top : HdfNode) (hdf : HdfPtr) : Except HdfStop Bool := do
  match (top.find hdf).bind (·.data.value.linkTo) with
  | none => return (top.find hdf).any (·.child ≠ .nil)
  | some dest =>
    let obj ← walkHdf links top [] dest
    return (obj.bind top.find).any (·.child ≠ .nil)

/-! ## Attributes -/

/-- The loop of `hdf_set_attr`: the first attribute of the key gets the value, or a new last one. -/
def attrSet : HdfAttrs → List UInt8 → List UInt8 → HdfAttrs
  | [], key, val => [(key, val)]
  | a :: attr, key, val => if a.1 = key then (key, val) :: attr else a :: attrSet attr key val

/-- The loop of `_merge_attr`, while `ls` is still the entry `sa` itself and after that. -/
def mergeLoop (dest : HdfAttrs) (isFirst : Bool) : HdfAttrs → HdfAttrs
  | [] => dest
  | sa :: src =>
    if sa.1 ∈ dest.map Prod.fst then mergeLoop (attrSet dest sa.1 sa.2) false src
    else if isFirst then
      -- `ls->next` is the `next` that moving the entry to `dest` sets to `NULL`.
      dest ++ [sa]
    else mergeLoop (dest ++ [sa]) false src

/-- `_merge_attr` -/
def mergeAttr (dest src : HdfAttrs) : HdfAttrs := mergeLoop dest true src

/-- `hdf_set_attr` -/
def hdfSetAttr (links : ℕ) (top : HdfNode) (hdf : HdfPtr) (name key value : List UInt8) :
    HdfRun Unit :=
  (walkHdf links top hdf name).bind fun obj =>
    match obj with
    | none =>
      .ok (top, .error (nerrRaise nerrAssert
        (ascii "Unable to set attribute on none existant node")))
    | some obj => .ok (top.update .empty (fun d => ⟨d.value, attrSet d.attr key value⟩) obj, .ok ())

/-! ## Setting -/

/-- What `_set_value` does to the node it has come to: the attributes first, then the value. -/
def HdfFields.assign (value : HdfValue) (attr : HdfAttrs) (d : HdfFields) : HdfFields :=
  ⟨value, if d.attr = [] then attr else mergeAttr d.attr attr⟩

/-- How the loop of `_set_value` ends: at a node, with an error, or at a link. -/
inductive SetEnd where
  | done (node : HdfPtr)
  | failed (err : NeoErr)
  | again (name : List UInt8)

/-- The end as it is seen from the parent. -/
def SetEnd.below (n : List UInt8) : SetEnd → SetEnd
  | done node => done (n :: node)
  | failed err => failed err
  | again name => again name

/-- The error for two dots in a row, or one at an end. -/
def emptyComponent (name : List UInt8) : NeoErr :=
  nerrRaise nerrAssert (ascii "Unable to set Empty component " ++ name)

/-- The loop of `_set_value` from the node `hn` on: the node after it, and how it ends. -/
def setLoop (name : List UInt8) (value : HdfValue) (attr : HdfAttrs) :
    HdfNode → List (List UInt8) → HdfNode × SetEnd
  | hn, [] => (hn, .done [])
  | hn, n :: rest =>
    if n = [] then (hn, .failed (emptyComponent name))
    else
      match hn.child.get n with
      | none =>
        if rest = [] then
          (⟨hn.data, hn.child.append (.single n ⟨⟨value, attr⟩, .nil⟩)⟩, .done [n])
        else
          -- a node between, which has no value
          let r := setLoop name value attr hdfInit rest
          (⟨hn.data, hn.child.append (.single n r.1)⟩, r.2.below n)
      | some hp =>
        if rest = [] then
          (⟨hn.data, hn.child.set n ⟨hp.data.assign value attr, hp.child⟩⟩, .done [n])
        else
          match hp.data.value.linkTo with
          | some dest => (hn, .again (dest ++ 46 :: [46].intercalate rest))
          | none =>
            let r := setLoop name value attr hp rest
            (⟨hn.data, hn.child.set n r.1⟩, r.2.below n)

/-- One call of `_set_value`: the dataset after it, and `*set_node` or the error. `again` is the call for
a link. -/
def setCall (again : List UInt8 → HdfRun HdfPtr) (top : HdfNode)
    (hdf : HdfPtr) (name : List UInt8) (value : HdfValue) (attr : HdfAttrs) :
    HdfRun HdfPtr :=
  if name = [] then .ok (top.update .empty (·.assign value attr) hdf, .ok hdf)
  else if (components name).head? = some [] then .ok (top, .error (emptyComponent name))
  else
    match (top.find hdf).bind (·.data.value.linkTo) with
    | some dest => again (dest ++ 46 :: name)
    | none =>
      let r := setLoop name value attr ((top.find hdf).getD hdfInit) (components name)
      match r.2 with
      | .done node => .ok (top.alter .empty (fun _ => r.1) hdf, .ok (hdf ++ node))
      | .failed err => .ok (top.alter .empty (fun _ => r.1) hdf, .error err)
      | .again name => again name

/-- `_set_value(hdf->top, new_name, ..)` for a link. -/
def setLink (top : HdfNode) (value : HdfValue) (attr : HdfAttrs) : ℕ → List UInt8 → HdfRun HdfPtr
  | 0, _ => .error .endless
  | links + 1, name => setCall (setLink top value attr links) top [] name value attr

/-- `_set_value` -/
def setValue (links : ℕ) (top : HdfNode) (hdf : HdfPtr) (name : List UInt8) (value : HdfValue)
    (attr : HdfAttrs) : HdfRun HdfPtr :=
  setCall (setLink top value attr links) top hdf name value attr

/-- `hdf_set_value` -/
def hdfSetValue (links : ℕ) (top : HdfNode) (hdf : HdfPtr) (name value : List UInt8) :
    HdfRun HdfPtr :=
  setValue links top hdf name (.value value) []

/-- `hdf_set_int_value` -/
def hdfSetIntValue (links : ℕ) (top : HdfNode) (hdf : HdfPtr) (name : List UInt8) (value : ℤ) :
    HdfRun HdfPtr :=
  setValue links top hdf name (.value (Decimal.print value)) []

/-- `hdf_set_symlink` -/
def hdfSetSymlink (links : ℕ) (top : HdfNode) (hdf : HdfPtr) (src dest : List UInt8) :
    HdfRun HdfPtr :=
  setValue links top hdf src (.link dest) []

/-- `hdf_set_copy` -/
def hdfSetCopy (links : ℕ) (top : HdfNode) (hdf : HdfPtr) (dest src : List UInt8) :
    HdfRun HdfPtr :=
  (hdfGetValue links top hdf src).bind fun v =>
    match v with
    | none => .ok (top, .error (nerrRaise nerrNotFound (ascii "Unable to find " ++ src)))
    | some v => setValue links top hdf dest (.value v) []

/-- `hdf_get_node` -/
def hdfGetNode (links : ℕ) (top : HdfNode) (hdf : HdfPtr) (name : List UInt8) :
    HdfRun HdfPtr :=
  (walkHdf links top hdf name).bind fun node =>
    match node with
    | none => setValue links top hdf name .null []
    | some node => .ok (top, .ok node)

/-! ## Removing and copying -/

/-- `hdf_remove_tree`, which follows no link. -/
def hdfRemoveTree (top : HdfNode) (hdf : HdfPtr) (name : List UInt8) : HdfNode :=
  top.alter .empty (·.prune (components name)) hdf

/-- `_copy_nodes`, with the nodes of another dataset from `st` on. -/
def copyNodes (links : ℕ) : HdfNode → HdfPtr → HdfChain → HdfRun Unit
  | top, _, .nil => .ok (top, .ok ())
  | top, dest, .cons name data child next =>
    (setValue links top dest name data.value data.attr).andThen fun top dt =>
      (copyNodes links top dt child).andThen fun top _ => copyNodes links top dest next

/-- `hdf_copy` of a node of another dataset. -/
def hdfCopy (links : ℕ) (dest : HdfNode) (hdf : HdfPtr) (name : List UInt8) (src : HdfNode) :
    HdfRun Unit :=
  (walkHdf links dest hdf name).bind fun node =>
    match node with
    | some node => copyNodes links dest node src.child
    | none =>
      (setValue links dest hdf name .null []).andThen fun dest node =>
        copyNodes links dest node src.child

end Moc
