import Moc.Client.Servers
import Moc.Hdf
import Mathlib.Data.List.AList

/-!
# Loading the modules

`_moc_load_fromhdf` of `client/moc.c`, with `mevt_create` and `mevt_destroy` of `client/internal.c`. It
first asks the servers of `_netmodules` for a configuration, each with a `moc_t` of its own, and then
makes a `moc_t` for every module of the configuration found. The objects are numbered as they are
created; to use or to destroy one that was destroyed is a fault. `settles_iff` says when each object is
stored or destroyed, and only once.
-/

open Bytes Memory Sorting

namespace Moc

/-! ## What it is given -/

/-- A module of a configuration: its name, whether `mevt_create` has memory for it, and the calls of
`moc_add_tcp_server` for its children. -/
structure LocalModule where
  name : List UInt8
  created : Bool
  servers : List AddCall

/-- A dataset as it is read for modules: its children, and those of its node `modules` when it has
one. -/
structure ConfNode where
  children : List LocalModule
  modules : Option (List LocalModule)

/-- A server of `_netmodules`: whether `mevt_create` has memory, the call that connects to it, the
`errcode` that `_mevt_trigger` leaves, and `modules` of the reply. -/
structure NetServer where
  created : Bool
  call : AddCall
  errcode : ℤ
  reply : Option ConfNode

/-- `PROCESS_OK` -/
def processOk (errcode : ℤ) : Bool := repOk ≤ errcode

/-- The modules under `pnode`, which may be `NULL`. -/
def localModules (pnode : Option ConfNode) : List LocalModule :=
  match pnode with
  | none => []
  | some node => node.modules.getD node.children

/-! ## What it does -/

/-- The objects in the order of their creation, none for one that was destroyed, and `evth`. -/
structure Loader where
  objs : List (Option MocServers)
  evth : AList fun _ : List UInt8 => ℕ

namespace Loader

/-- The object at a pointer. -/
def deref (s : Loader) : Option ℕ → Except Fault MocServers
  | none => .error .nullPointer
  | some a =>
    match s.objs[a]? with
    | some (some evt) => .ok evt
    | _ => .error .useAfterFree

/-- `mevt_create` -/
def mevtCreate (s : Loader) (created : Bool) : Option ℕ × Loader :=
  if created then (some s.objs.length, { s with objs := s.objs ++ [some .init] }) else (none, s)

/-- `mevt_destroy` -/
def mevtDestroy (s : Loader) (e : Option ℕ) : Except Fault Loader :=
  match e with
  | none => .ok s
  | some a => do
    let _ ← s.deref e
    return { s with objs := s.objs.set a none }

/-- `moc_add_tcp_server` -/
def addTcpServer (qsort : Qsort TcpSrv) (s : Loader) (a : ℕ) (c : AddCall) :
    Except Fault (ℤ × Loader) := do
  let evt ← s.deref (some a)
  let (rv, evt) := mocAddTcpServer qsort evt c
  return (rv, { s with objs := s.objs.set a (some evt) })

/-- `moc_add_tcp_server` for each server of a module. -/
def addTcpServers (qsort : Qsort TcpSrv) (s : Loader) (a : ℕ) : List AddCall → Except Fault Loader
  | [] => .ok s
  | c :: cs => do
    let (_, s) ← s.addTcpServer qsort a c
    addTcpServers qsort s a cs

/-- The error of `mevt_create` without memory. -/
def memoryGone : NeoErr := ⟨nerrNomem, ascii "memory gone"⟩

/-- The loop over the servers of `_netmodules`: `nevt` and `pnode` at the label `localmodule`. -/
def netmodules (qsort : Qsort TcpSrv) (pnode : ConfNode) (s : Loader) (nevt : Option ℕ) :
    List NetServer → Except Fault (Loader × Except NeoErr (Option ℕ × Option ConfNode))
  | [] => .ok (s, .ok (nevt, some pnode))
  | n :: ns =>
    match s.mevtCreate n.created with
    | (none, s) => .ok (s, .error memoryGone)
    | (some a, s) => do
      let (rv, s) ← s.addTcpServer qsort a n.call
      if rv ≠ 0 then
        -- `_mevt_trigger` works on the object.
        let _ ← s.deref (some a)
        if processOk n.errcode then return (s, .ok (some a, n.reply))
        else
          let s ← s.mevtDestroy (some a)
          netmodules qsort pnode s (some a) ns
      else
        let s ← s.mevtDestroy (some a)
        netmodules qsort pnode s (some a) ns

/-- The loop over the modules. A module without a server is not stored. -/
def localmodules (qsort : Qsort TcpSrv) (s : Loader) :
    List LocalModule → Except Fault (Loader × Option NeoErr)
  | [] => .ok (s, none)
  | m :: ms =>
    match s.mevtCreate m.created with
    | (none, s) => .ok (s, some memoryGone)
    | (some a, s) => do
      let s ← s.addTcpServers qsort a m.servers
      let evt ← s.deref (some a)
      let s := if evt.nservers ≠ 0 then { s with evth := s.evth.insert m.name a } else s
      localmodules qsort s ms

/-- `_moc_load_fromhdf` into an empty table: the objects, the table, and the error, none for
`STATUS_OK`. -/
def mocLoadFromhdf (qsort : Qsort TcpSrv) (pnode : ConfNode) (nets : List NetServer) :
    Except Fault (Loader × Option NeoErr) := do
  let (s, r) ← netmodules qsort pnode ⟨[], ∅⟩ none nets
  match r with
  | .error err => return (s, some err)
  | .ok (nevt, pnode) =>
    let (s, err) ← localmodules qsort s (localModules pnode)
    match err with
    | some err => return (s, some err)
    | none =>
      let s ← s.mevtDestroy nevt
      return (s, none)

/-! ## What it should do -/

/-- Each object is stored under one name and is alive, or was destroyed and is under none. -/
def Settled (s : Loader) : Prop :=
  ∀ a evt, s.objs[a]? = some evt →
    evt.isSome = true ∧ (∃! name, s.evth.lookup name = some a) ∨
      evt = none ∧ ∀ name, s.evth.lookup name ≠ some a

/-- No object is used or destroyed after it was destroyed, and each is stored or destroyed when the
function returns `STATUS_OK`. -/
def Settles (x : Except Fault (Loader × Option NeoErr)) : Prop :=
  ∃ s err, x = .ok (s, err) ∧ (err = none → s.Settled)

end Loader

/-- A server of `_netmodules` that is connected and whose reply is no error. -/
def NetServer.Answers (qsort : Qsort TcpSrv) (n : NetServer) : Prop :=
  (mocAddTcpServer qsort .init n.call).1 ≠ 0 ∧ processOk n.errcode = true

instance (qsort : Qsort TcpSrv) (n : NetServer) : Decidable (n.Answers qsort) :=
  inferInstanceAs (Decidable (_ ∧ _))

/-- The servers of a module after all calls. -/
def LocalModule.evt (qsort : Qsort TcpSrv) (m : LocalModule) : MocServers :=
  m.servers.foldl (fun evt c => (mocAddTcpServer qsort evt c).2) .init

/-- A module that has a server. -/
def LocalModule.Connects (qsort : Qsort TcpSrv) (m : LocalModule) : Prop :=
  (m.evt qsort).nservers ≠ 0

/-- The servers of `_netmodules` up to the first that answers. -/
def tried (qsort : Qsort TcpSrv) : List NetServer → List NetServer
  | [] => []
  | n :: ns => if n.Answers qsort then [n] else n :: tried qsort ns

/-- The modules of the reply of the first server that answers, or of `pnode` when none does. -/
def modulesFound (qsort : Qsort TcpSrv) (pnode : ConfNode) (nets : List NetServer) :
    List LocalModule :=
  match nets.find? fun n => n.Answers qsort with
  | none => localModules (some pnode)
  | some n => localModules n.reply

/-- There is no memory for an object on the way; or the servers of `_netmodules` are none or one of them
answers, and all modules have a server and names of their own. -/
def LoadsCleanly (qsort : Qsort TcpSrv) (pnode : ConfNode) (nets : List NetServer) : Prop :=
  (∃ n ∈ tried qsort nets, n.created = false) ∨
  (∃ m ∈ modulesFound qsort pnode nets, m.created = false) ∨
  (nets = [] ∨ ∃ n ∈ nets, n.Answers qsort) ∧
    (∀ m ∈ modulesFound qsort pnode nets, m.Connects qsort) ∧
    ((modulesFound qsort pnode nets).map LocalModule.name).Nodup

/-! ## The loops -/

namespace Loader

section

variable {qsort : Qsort TcpSrv} {front : List (Option MocServers)}
  {evth : AList fun _ : List UInt8 => ℕ} {evt : MocServers}

theorem mevtCreate_true : mevtCreate ⟨front, evth⟩ true =
    (some front.length, ⟨front ++ [some .init], evth⟩) := rfl

theorem deref_last : deref ⟨front ++ [some evt], evth⟩ (some front.length) = .ok evt := by
  simp [deref]

theorem mevtDestroy_last :
    mevtDestroy ⟨front ++ [some evt], evth⟩ (some front.length) = .ok ⟨front ++ [none], evth⟩ := by
  rw [mevtDestroy, deref_last, ok_bind]
  simp

theorem addTcpServer_last (c : AddCall) :
    addTcpServer qsort ⟨front ++ [some evt], evth⟩ front.length c =
      .ok ((mocAddTcpServer qsort evt c).1,
        ⟨front ++ [some (mocAddTcpServer qsort evt c).2], evth⟩) := by
  rw [addTcpServer, deref_last, ok_bind]
  simp

theorem addTcpServers_last (cs : List AddCall) :
    addTcpServers qsort ⟨front ++ [some evt], evth⟩ front.length cs =
      .ok ⟨front ++ [some (cs.foldl (fun evt c => (mocAddTcpServer qsort evt c).2) evt)], evth⟩ := by
  induction cs generalizing evt with
  | nil => rfl
  | cons c cs ih =>
    rw [addTcpServers, addTcpServer_last, ok_bind]
    exact ih

theorem forall_append_none (h : ∀ o ∈ front, o = none) : ∀ o ∈ front ++ [none], o = none := by
  intro o ho
  rcases List.mem_append.mp ho with ho | ho
  · exact h o ho
  · exact List.mem_singleton.mp ho

/-- A server of `_netmodules` that does not answer leaves a destroyed object. -/
theorem netmodules_next {n : NetServer} {ns : List NetServer} {pnode : ConfNode} {nevt : Option ℕ}
    (hcreated : n.created = true) (hn : ¬n.Answers qsort) :
    netmodules qsort pnode ⟨front, evth⟩ nevt (n :: ns) =
      netmodules qsort pnode ⟨front ++ [none], evth⟩ (some front.length) ns := by
  conv_lhs => rw [netmodules, hcreated, mevtCreate_true]
  dsimp only
  rw [addTcpServer_last, ok_bind]
  dsimp only
  by_cases hrv : (mocAddTcpServer qsort .init n.call).1 ≠ 0
  · have hok : ¬processOk n.errcode = true := fun hok => hn ⟨hrv, hok⟩
    rw [if_pos hrv, deref_last, ok_bind, if_neg hok, mevtDestroy_last, ok_bind]
  · rw [if_neg hrv, mevtDestroy_last, ok_bind]

theorem netmodules_answers {n : NetServer} {ns : List NetServer} {pnode : ConfNode} {nevt : Option ℕ}
    (hcreated : n.created = true) (hn : n.Answers qsort) :
    netmodules qsort pnode ⟨front, evth⟩ nevt (n :: ns) =
      .ok (⟨front ++ [some (mocAddTcpServer qsort .init n.call).2], evth⟩,
        .ok (some front.length, n.reply)) := by
  rw [netmodules, hcreated, mevtCreate_true]
  dsimp only
  rw [addTcpServer_last, ok_bind]
  dsimp only
  rw [if_pos hn.1, deref_last, ok_bind, if_pos hn.2]
  rfl

/-- A module is stored when it has a server. -/
theorem localmodules_next {m : LocalModule} {ms : List LocalModule} (hcreated : m.created = true) :
    localmodules qsort ⟨front, evth⟩ (m :: ms) =
      localmodules qsort ⟨front ++ [some (m.evt qsort)],
        if (m.evt qsort).nservers ≠ 0 then evth.insert m.name front.length else evth⟩ ms := by
  conv_lhs => rw [localmodules, hcreated, mevtCreate_true]
  dsimp only
  rw [addTcpServers_last, ok_bind, deref_last, ok_bind, LocalModule.evt]
  split_ifs <;> rfl

/-- How the loop over the servers of `_netmodules` may end, when it begins at `nevt`. -/
inductive NetEnd (qsort : Qsort TcpSrv) (pnode : ConfNode) (nets : List NetServer)
    (evth : AList fun _ : List UInt8 => ℕ) (nevt : Option ℕ) :
    Loader × Except NeoErr (Option ℕ × Option ConfNode) → Prop where
  | gone {s : Loader} (gone : ∃ n ∈ tried qsort nets, n.created = false) :
      NetEnd qsort pnode nets evth nevt (s, .error memoryGone)
  | answered {n : NetServer} {front : List (Option MocServers)} {evt : MocServers}
      (created : ∀ n ∈ tried qsort nets, n.created = true)
      (find : nets.find? (fun n => n.Answers qsort) = some n) (destroyed : ∀ o ∈ front, o = none) :
      NetEnd qsort pnode nets evth nevt
        (⟨front ++ [some evt], evth⟩, .ok (some front.length, n.reply))
  | failed {front : List (Option MocServers)} {nevt' : Option ℕ}
      (created : ∀ n ∈ tried qsort nets, n.created = true)
      (find : nets.find? (fun n => n.Answers qsort) = none) (destroyed : ∀ o ∈ front, o = none)
      (lt : ∀ a ∈ nevt', a < front.length) (none_iff : nevt' = none ↔ nets = [] ∧ nevt = none) :
      NetEnd qsort pnode nets evth nevt (⟨front, evth⟩, .ok (nevt', some pnode))

theorem netmodules_end {pnode : ConfNode} {nets : List NetServer} {nevt : Option ℕ}
    (hfront : ∀ o ∈ front, o = none) (hnevt : ∀ a ∈ nevt, a < front.length) :
    ∃ r, netmodules qsort pnode ⟨front, evth⟩ nevt nets = .ok r ∧
      NetEnd qsort pnode nets evth nevt r := by
  induction nets generalizing front nevt with
  | nil => exact ⟨_, rfl, .failed (by simp [tried]) rfl hfront hnevt (by simp)⟩
  | cons n ns ih =>
    by_cases hcreated : n.created = true
    · by_cases hn : n.Answers qsort
      · rw [netmodules_answers hcreated hn]
        refine ⟨_, rfl, .answered ?_ (List.find?_cons_of_pos (by simpa using hn)) hfront⟩
        rw [tried, if_pos hn]
        simpa using hcreated
      · have htried : tried qsort (n :: ns) = n :: tried qsort ns := by rw [tried, if_neg hn]
        have hfind : (n :: ns).find? (fun n => n.Answers qsort) = ns.find? fun n => n.Answers qsort :=
          List.find?_cons_of_neg (by simpa using hn)
        have hlast : ∀ a ∈ some front.length, a < (front ++ [none]).length := by simp
        obtain ⟨r, hr, hend⟩ := ih (forall_append_none hfront) hlast
        rw [netmodules_next hcreated hn, hr]
        refine ⟨r, rfl, ?_⟩
        cases hend with
        | gone hgone =>
          obtain ⟨n', hn', hgone⟩ := hgone
          exact .gone ⟨n', by rw [htried]; exact List.mem_cons_of_mem n hn', hgone⟩
        | answered hall hfind' hdestroyed =>
          refine .answered ?_ (hfind.trans hfind') hdestroyed
          rw [htried]
          exact List.forall_mem_cons.mpr ⟨hcreated, hall⟩
        | failed hall hfind' hdestroyed hlt hnone =>
          refine .failed ?_ (hfind.trans hfind') hdestroyed hlt ?_
          · rw [htried]
            exact List.forall_mem_cons.mpr ⟨hcreated, hall⟩
          · rw [hnone]
            exact iff_of_false (by simp) (by simp)
    · have hmem : n ∈ tried qsort (n :: ns) := by
        rw [tried]
        split_ifs <;> simp
      have hgone : n.created = false := by simpa using hcreated
      refine ⟨(⟨front, evth⟩, .error memoryGone), ?_, .gone ⟨n, hmem, hgone⟩⟩
      rw [netmodules, hgone]
      rfl

/-- The table after the modules, the first of which becomes object `k`. -/
def stored (qsort : Qsort TcpSrv) (evth : AList fun _ : List UInt8 => ℕ) (k : ℕ) :
    List LocalModule → AList fun _ : List UInt8 => ℕ
  | [] => evth
  | m :: ms => stored qsort (if (m.evt qsort).nservers ≠ 0 then evth.insert m.name k else evth) (k + 1) ms

theorem localmodules_created {ms : List LocalModule} (hcreated : ∀ m ∈ ms, m.created = true) :
    localmodules qsort ⟨front, evth⟩ ms =
      .ok (⟨front ++ ms.map fun m => some (m.evt qsort), stored qsort evth front.length ms⟩, none) := by
  induction ms generalizing front evth with
  | nil => simp [localmodules, stored]
  | cons m ms ih =>
    obtain ⟨hm, hms⟩ := List.forall_mem_cons.mp hcreated
    rw [localmodules_next hm, ih hms]
    simp [stored]

theorem localmodules_gone {ms : List LocalModule} (hgone : ∃ m ∈ ms, m.created = false) :
    ∃ s, localmodules qsort ⟨front, evth⟩ ms = .ok (s, some memoryGone) := by
  induction ms generalizing front evth with
  | nil => simp at hgone
  | cons m ms ih =>
    by_cases hcreated : m.created = true
    · rw [localmodules_next hcreated]
      refine ih ?_
      obtain ⟨m', hm', hgone⟩ := hgone
      rcases List.mem_cons.mp hm' with rfl | hm'
      · exact absurd hcreated (by simp [hgone])
      · exact ⟨m', hm', hgone⟩
    · have hm : m.created = false := by simpa using hcreated
      refine ⟨⟨front, evth⟩, ?_⟩
      rw [localmodules, hm]
      rfl

/-! ## The table -/

/-- What the table has is from before or from a module with servers. -/
theorem lookup_stored {ms : List LocalModule} {k a : ℕ} {name : List UInt8}
    (h : (stored qsort evth k ms).lookup name = some a) :
    evth.lookup name = some a ∨
      ∃ i m, ms[i]? = some m ∧ m.Connects qsort ∧ m.name = name ∧ a = k + i := by
  induction ms generalizing evth k with
  | nil => exact .inl h
  | cons m ms ih =>
    rcases ih h with h | ⟨i, m', hm', hconnects, hname, ha⟩
    · by_cases hm : (m.evt qsort).nservers ≠ 0
      · rw [if_pos hm] at h
        by_cases hname : name = m.name
        · rw [hname, AList.lookup_insert, Option.some.injEq] at h
          exact .inr ⟨0, m, rfl, hm, hname.symm, h.symm⟩
        · rw [AList.lookup_insert_ne hname] at h
          exact .inl h
      · rw [if_neg hm] at h
        exact .inl h
    · exact .inr ⟨i + 1, m', hm', hconnects, hname, by omega⟩

theorem lookup_stored_of_notMem {ms : List LocalModule} {k : ℕ} {name : List UInt8}
    (h : name ∉ ms.map LocalModule.name) :
    (stored qsort evth k ms).lookup name = evth.lookup name := by
  induction ms generalizing evth k with
  | nil => rfl
  | cons m ms ih =>
    rw [List.map_cons, List.mem_cons, not_or] at h
    rw [stored, ih h.2]
    split_ifs
    · exact AList.lookup_insert_ne h.1
    · rfl

/-- With names of their own no module replaces another. -/
theorem lookup_stored_of_nodup {ms : List LocalModule} {k i : ℕ} {m : LocalModule}
    (hconnects : ∀ m ∈ ms, m.Connects qsort) (hnodup : (ms.map LocalModule.name).Nodup)
    (hm : ms[i]? = some m) : (stored qsort evth k ms).lookup m.name = some (k + i) := by
  induction ms generalizing evth k i with
  | nil => simp at hm
  | cons m' ms ih =>
    obtain ⟨hm', hms⟩ := List.forall_mem_cons.mp hconnects
    rw [List.map_cons, List.nodup_cons] at hnodup
    cases i with
    | zero =>
      obtain rfl : m' = m := by simpa using hm
      have hm' : (m'.evt qsort).nservers ≠ 0 := hm'
      rw [stored, lookup_stored_of_notMem hnodup.1, if_pos hm', AList.lookup_insert]
      rfl
    | succ i =>
      rw [stored, ih hms hnodup.2 hm]
      congr 1
      omega

/-- After destroyed objects, those of the modules are settled when each has its place in the table. -/
theorem settled_iff_lookup {ms : List LocalModule} (hfront : ∀ o ∈ front, o = none) :
    Settled ⟨front ++ ms.map fun m => some (m.evt qsort), stored qsort ∅ front.length ms⟩ ↔
      ∀ i m, ms[i]? = some m →
        m.Connects qsort ∧ (stored qsort ∅ front.length ms).lookup m.name = some (front.length + i) := by
  have hlookup : ∀ {a name}, (stored qsort ∅ front.length ms).lookup name = some a →
      ∃ i m, ms[i]? = some m ∧ m.Connects qsort ∧ m.name = name ∧ a = front.length + i := by
    intro a name h
    rcases lookup_stored h with h | h
    · simp at h
    · exact h
  constructor
  · intro hsettled i m hm
    have hobj : (front ++ ms.map fun m => some (m.evt qsort))[front.length + i]? =
        some (some (m.evt qsort)) := by
      rw [List.getElem?_append_right (by omega)]
      simp [hm]
    rcases hsettled _ _ hobj with ⟨-, name, hname, -⟩ | ⟨hnone, -⟩
    · obtain ⟨i', m', hm', hconnects, rfl, hi⟩ := hlookup hname
      obtain rfl : i = i' := by omega
      obtain rfl : m = m' := by simpa [hm] using hm'
      exact ⟨hconnects, hname⟩
    · cases hnone
  · intro h a evt ha
    rcases Nat.lt_or_ge a front.length with hlt | hge
    · rw [List.getElem?_append_left hlt] at ha
      refine .inr ⟨hfront _ (List.mem_of_getElem? ha), fun name hname => ?_⟩
      obtain ⟨i, -, -, -, -, hi⟩ := hlookup hname
      omega
    · obtain ⟨i, rfl⟩ := Nat.exists_eq_add_of_le hge
      rw [List.getElem?_append_right hge, Nat.add_sub_cancel_left, List.getElem?_map,
        Option.map_eq_some_iff] at ha
      obtain ⟨m, hm, rfl⟩ := ha
      refine .inl ⟨rfl, m.name, (h i m hm).2, fun name hname => ?_⟩
      obtain ⟨i', m', hm', -, rfl, hi⟩ := hlookup hname
      obtain rfl : i = i' := by omega
      obtain rfl : m = m' := by simpa [hm] using hm'
      rfl

theorem settled_iff {ms : List LocalModule} (hfront : ∀ o ∈ front, o = none) :
    Settled ⟨front ++ ms.map fun m => some (m.evt qsort), stored qsort ∅ front.length ms⟩ ↔
      (∀ m ∈ ms, m.Connects qsort) ∧ (ms.map LocalModule.name).Nodup := by
  rw [settled_iff_lookup hfront]
  constructor
  · intro h
    refine ⟨fun m hm => ?_, ?_⟩
    · obtain ⟨i, hi⟩ := List.mem_iff_getElem?.mp hm
      exact (h i m hi).1
    · rw [List.Nodup, List.pairwise_iff_getElem]
      intro i j hi hj hij hname
      rw [List.length_map] at hi hj
      rw [List.getElem_map, List.getElem_map] at hname
      have hat := (h i _ (List.getElem?_eq_getElem hi)).2
      rw [hname, (h j _ (List.getElem?_eq_getElem hj)).2, Option.some.injEq] at hat
      omega
  · rintro ⟨hconnects, hnodup⟩ i m hm
    exact ⟨hconnects m (List.mem_of_getElem? hm), lookup_stored_of_nodup hconnects hnodup hm⟩

end

end Loader

open Loader

variable {qsort : Qsort TcpSrv} {pnode : ConfNode} {nets : List NetServer}

theorem modulesFound_some {n : NetServer} (h : nets.find? (fun n => n.Answers qsort) = some n) :
    modulesFound qsort pnode nets = localModules n.reply := by
  rw [modulesFound, h]

theorem modulesFound_none (h : nets.find? (fun n => n.Answers qsort) = none) :
    modulesFound qsort pnode nets = localModules (some pnode) := by
  rw [modulesFound, h]

/-- With memory for every object only the servers of `_netmodules` and the modules matter. -/
theorem loadsCleanly_iff (hnets : ∀ n ∈ tried qsort nets, n.created = true)
    (hmods : ∀ m ∈ modulesFound qsort pnode nets, m.created = true) :
    LoadsCleanly qsort pnode nets ↔
      (nets = [] ∨ ∃ n ∈ nets, n.Answers qsort) ∧
        (∀ m ∈ modulesFound qsort pnode nets, m.Connects qsort) ∧
        ((modulesFound qsort pnode nets).map LocalModule.name).Nodup := by
  rw [LoadsCleanly, or_iff_right, or_iff_right]
  · rintro ⟨m, hm, hgone⟩
    exact absurd (hmods m hm) (by simp [hgone])
  · rintro ⟨n, hn, hgone⟩
    exact absurd (hnets n hn) (by simp [hgone])

theorem settles_ok {s : Loader} : Settles (.ok (s, none)) ↔ s.Settled := by
  constructor
  · rintro ⟨s', err, h, hsettled⟩
    cases h
    exact hsettled rfl
  · intro h
    exact ⟨s, none, rfl, fun _ => h⟩

theorem not_settles_error {f : Fault} : ¬Settles (.error f) := by
  rintro ⟨s, err, h, -⟩
  cases h

section

variable {front : List (Option MocServers)} {nevt : Option ℕ} {found : Option ConfNode}

theorem settles_of_gone
    (hnets : netmodules qsort pnode ⟨[], ∅⟩ none nets = .ok (⟨front, ∅⟩, .ok (nevt, found)))
    (hgone : ∃ m ∈ localModules found, m.created = false) :
    Settles (mocLoadFromhdf qsort pnode nets) := by
  obtain ⟨s, hs⟩ := localmodules_gone hgone
  rw [mocLoadFromhdf, hnets, ok_bind]
  dsimp only
  rw [hs, ok_bind]
  exact ⟨s, some memoryGone, rfl, by simp⟩

/-- What is left to do for `nevt` when all modules are made. -/
theorem mocLoadFromhdf_created
    (hnets : netmodules qsort pnode ⟨[], ∅⟩ none nets = .ok (⟨front, ∅⟩, .ok (nevt, found)))
    (hcreated : ∀ m ∈ localModules found, m.created = true) :
    mocLoadFromhdf qsort pnode nets =
      mevtDestroy ⟨front ++ (localModules found).map fun m => some (m.evt qsort),
        stored qsort ∅ front.length (localModules found)⟩ nevt >>= fun s => .ok (s, none) := by
  rw [mocLoadFromhdf, hnets, ok_bind]
  dsimp only
  rw [localmodules_created hcreated, ok_bind]
  rfl

end

/-- What `_moc_load_fromhdf` creates is stored or destroyed, and only once, exactly when there is no
memory on the way, or some server of `_netmodules` answers if there are any and all modules have a
server. When all servers of `_netmodules` fail, the last object is destroyed twice. -/
theorem settles_iff (qsort : Qsort TcpSrv) (pnode : ConfNode) (nets : List NetServer) :
    Settles (mocLoadFromhdf qsort pnode nets) ↔ LoadsCleanly qsort pnode nets := by
  obtain ⟨r, hr, hend⟩ : ∃ r, netmodules qsort pnode ⟨[], ∅⟩ none nets = .ok r ∧
      NetEnd qsort pnode nets ∅ none r := netmodules_end (by simp) (by simp)
  cases hend with
  | gone hgone =>
    refine iff_of_true ?_ (.inl hgone)
    rw [mocLoadFromhdf, hr, ok_bind]
    exact ⟨_, some memoryGone, rfl, by simp⟩
  | @answered n front evt hall hfind hdestroyed =>
    have hfound : modulesFound qsort pnode nets = localModules n.reply := modulesFound_some hfind
    by_cases hmods : ∀ m ∈ localModules n.reply, m.created = true
    · have hanswers : ∃ n ∈ nets, n.Answers qsort :=
        ⟨n, List.mem_of_find?_eq_some hfind, by simpa using List.find?_some hfind⟩
      rw [loadsCleanly_iff hall (by rwa [hfound]), hfound, and_iff_right (.inr hanswers),
        ← settled_iff (forall_append_none hdestroyed), ← settles_ok, mocLoadFromhdf_created hr hmods,
        mevtDestroy, deref]
      simp
    · have hgone : ∃ m ∈ localModules n.reply, m.created = false := by simpa using hmods
      exact iff_of_true (settles_of_gone hr hgone) (.inr (.inl (by rwa [hfound])))
  | @failed front nevt hall hfind hdestroyed hlt hnone =>
    have hfound : modulesFound qsort pnode nets = localModules (some pnode) := modulesFound_none hfind
    by_cases hmods : ∀ m ∈ localModules (some pnode), m.created = true
    · have hanswers : ¬∃ n ∈ nets, n.Answers qsort := by simpa using hfind
      rw [loadsCleanly_iff hall (by rwa [hfound]), hfound, or_iff_left hanswers,
        mocLoadFromhdf_created hr hmods]
      cases nevt with
      | none =>
        rw [and_iff_right (hnone.mp rfl).1, ← settled_iff hdestroyed, ← settles_ok]
        rfl
      | some a =>
        -- The object at `nevt` was destroyed when its server failed.
        have hnets : nets ≠ [] := fun h => by simpa using hnone.mpr ⟨h, rfl⟩
        have hat : front[a]? = some none := by
          have ha : a < front.length := hlt a rfl
          rw [List.getElem?_eq_getElem ha, hdestroyed _ (List.getElem_mem ha)]
        refine iff_of_false ?_ (fun h => hnets h.1)
        rw [mevtDestroy, deref]
        dsimp only
        rw [List.getElem?_append_left (hlt a rfl), hat]
        exact not_settles_error
    · have hgone : ∃ m ∈ localModules (some pnode), m.created = false := by simpa using hmods
      exact iff_of_true (settles_of_gone hr hgone) (.inr (.inl (by rwa [hfound])))

/-- A server that could not be reached, and a module without servers. -/
theorem not_settles :
    ¬Settles (mocLoadFromhdf .insertion ⟨[], some []⟩ [⟨true, sampleAdd 2 5000 (-1), 0, none⟩]) ∧
      ¬Settles (mocLoadFromhdf .insertion ⟨[], some [⟨ascii "user", true, []⟩]⟩ []) := by
  constructor
  · have hfault : mocLoadFromhdf .insertion ⟨[], some []⟩ [⟨true, sampleAdd 2 5000 (-1), 0, none⟩] =
        .error .useAfterFree := rfl
    rw [hfault]
    exact not_settles_error
  · have hload : mocLoadFromhdf .insertion ⟨[], some [⟨ascii "user", true, []⟩]⟩ [] =
        .ok (⟨[some .init], ∅⟩, none) := rfl
    rw [hload, settles_ok]
    intro hsettled
    have hobj : [some MocServers.init][0]? = some (some .init) := rfl
    rcases hsettled 0 _ hobj with ⟨-, name, hname, -⟩ | ⟨hnone, -⟩
    · cases hname
    · cases hnone

end Moc
