import Moc.Clearsilver.StrTables
import Moc.Server.Base

/-!
# Loops over the users

The chat plugin tells the other users of a join, a quit or a broadcast in a loop over `userh`
(`USER_START` of `plugin/moc_basem.h`), and `base_info_destroy` destroys the users in another one, which
takes each user out of the table it walks over. `tellOthers` of `Base.lean` goes through the users in the
order of a finite map. Here the loops run on the hash table itself: `tellOthers_exact` says that every
other user is told once, and `baseInfoDestroy_exact` that every user is destroyed once.
-/

open Memory Runs

namespace Moc

variable {ι HDF : Type}

/-! ## Telling the others -/

/-- The body of the loop. -/
def tellOther (uid : Uid) (msgbuf : List UInt8) (w : World ι HDF) (_ : Option Uid) (user : BaseUser) :
    World ι HDF :=
  if uid ≠ user.uid then (baseMsgSend w msgbuf user.fd user.tcpsock).1 else w

/-- The loop of `cmd_join`, `cmd_quit` and `cmd_bcst` over the table of users. -/
def tellOthersLoop (userh : NeHash Uid BaseUser) (uid : Uid) (msgbuf : List UInt8) (fuel : ℕ)
    (w : World ι HDF) : Option (World ι HDF) :=
  NeHash.walk (strFuncs id) (fun _ => userh) (tellOther uid msgbuf) fuel w none

/-- The message for one user, none for the sender and for a descriptor that `base_msg_send` refuses. -/
def messageTo (w : World ι HDF) (uid : Uid) (msgbuf : List UInt8) (user : BaseUser) : Option Sent :=
  if uid ≠ user.uid ∧ 0 < user.fd then some ⟨user.fd, user.tcpsock, w.files user.fd, msgbuf⟩ else none

theorem tellOther_eq (uid : Uid) (msgbuf : List UInt8) (w : World ι HDF) (key : Option Uid)
    (user : BaseUser) :
    tellOther uid msgbuf w key user =
      { w with sent := w.sent ++ (messageTo w uid msgbuf user).toList } := by
  rw [tellOther, messageTo, baseMsgSend]
  by_cases huid : uid = user.uid
  · simp [huid]
  · by_cases hfd : user.fd ≤ 0
    · simp [huid, hfd, Int.not_lt.mpr hfd]
    · simp [huid, hfd, Int.not_le.mp hfd, sendFrame]

/-- What the loop has sent at its end. -/
theorem foldl_tellOther (uid : Uid) (msgbuf : List UInt8) (l : List (Option Uid × BaseUser))
    (w : World ι HDF) :
    l.foldl (fun w p => tellOther uid msgbuf w p.1 p.2) w =
      { w with sent := w.sent ++ l.filterMap fun p => messageTo w uid msgbuf p.2 } := by
  induction l generalizing w with
  | nil => simp
  | cons p l ih =>
    rw [List.foldl_cons, ih, tellOther_eq, List.filterMap_cons]
    cases hmsg : messageTo w uid msgbuf p.2 with
    | none => simp [messageTo]
    | some sent => simp [messageTo]

/-- The loop sends the message to every user but `uid`, once, and changes nothing else. -/
theorem TableHolds.tellOthersLoop {userh : NeHash Uid BaseUser} {users : AList fun _ : Uid => BaseUser}
    (hh : TableHolds id userh users) (uid : Uid) (msgbuf : List UInt8) (w : World ι HDF) {fuel : ℕ}
    (hfuel : users.entries.length < fuel) :
    ∃ sent, tellOthersLoop userh uid msgbuf fuel w = some { w with sent := w.sent ++ sent } ∧
      sent.Perm (users.entries.filterMap fun e => messageTo w uid msgbuf e.2) := by
  have hid : Function.Injective (id : Uid → List UInt8) := Function.injective_id
  have hperm := hh.met_perm hid
  have hlength : userh.entries.length < fuel := by rwa [hh.length_eq hid]
  have hwalk := NeHash.walk_still (fun _ : World ι HDF => userh) (tellOther uid msgbuf)
    (strFuncs_lawful hid) (fun _ _ _ => rfl) w hh.ok (hh.nonNull hid) fuel hlength
  rw [foldl_tellOther] at hwalk
  refine ⟨_, hwalk, ?_⟩
  have hmap := hperm.filterMap fun p => messageTo w uid msgbuf p.2
  rwa [List.filterMap_map] at hmap

/-- Whatever joins and quits made the table of users, a broadcast reaches every user but the sender
once, and does nothing else. -/
theorem tellOthers_exact (ops : List (TableOp Uid BaseUser)) (hops : inserts (ops.map TableOp.call) < 2 ^ 31)
    (uid : Uid) (msgbuf : List UInt8) (w : World ι HDF) :
    let users := ops.foldl TableOp.apply ∅
    ∃ rets userh, run (neHashStep (strFuncs id)) neHashInit (ops.map TableOp.call) = .ok (rets, userh) ∧
      ∀ fuel > users.entries.length, ∃ sent,
        tellOthersLoop userh uid msgbuf fuel w = some { w with sent := w.sent ++ sent } ∧
          sent.Perm (users.entries.filterMap fun e => messageTo w uid msgbuf e.2) := by
  intro users
  obtain ⟨rets, userh, hrun, hholds⟩ := tableHolds_run (Function.injective_id (α := Uid)) ops hops
  exact ⟨rets, userh, hrun, fun fuel hfuel => hholds.tellOthersLoop uid msgbuf w hfuel⟩

/-- Two users, one of them the sender. -/
theorem tellOthers_exact_two :
    let ops : List (TableOp Uid BaseUser) :=
      [.insert [97] ⟨[97], 5, 1⟩ true, .insert [98] ⟨[98], 6, 2⟩ false]
    let users := ops.foldl TableOp.apply ∅
    ∃ rets userh, run (neHashStep (strFuncs id)) neHashInit (ops.map TableOp.call) = .ok (rets, userh) ∧
      ∀ fuel > users.entries.length, ∃ sent,
        tellOthersLoop userh [97] [1, 2, 3] fuel (World.start (ι := ℕ) () (MocTable.empty ℕ)) =
            some { World.start () (MocTable.empty ℕ) with sent := [] ++ sent } ∧
          sent.Perm (users.entries.filterMap fun e =>
            messageTo (World.start (ι := ℕ) () (MocTable.empty ℕ)) [97] [1, 2, 3] e.2) :=
  tellOthers_exact _ (by decide) [97] [1, 2, 3] (World.start () (MocTable.empty ℕ))

/-! ## Destroying the users -/

/-- A `struct base_info`, and the users destroyed so far. -/
structure BaseInfo where
  usernum : ℤ
  userh : NeHash Uid BaseUser
  destroyed : List BaseUser

/-- `base_user_destroy` -/
def BaseInfo.userDestroy (binfo : BaseInfo) (user : BaseUser) : BaseInfo where
  userh := (binfo.userh.neHashRemove (strFuncs id) user.uid).2
  usernum := if binfo.usernum > 0 then binfo.usernum - 1 else binfo.usernum
  destroyed := binfo.destroyed ++ [user]

/-- The loop of `base_info_destroy`. -/
def baseInfoDestroy (fuel : ℕ) (binfo : BaseInfo) : Option BaseInfo :=
  NeHash.walk (strFuncs id) BaseInfo.userh (fun binfo _ user => binfo.userDestroy user) fuel binfo none

/-- Every user of the table is filed under its own id. -/
def UidsMatch (users : AList fun _ : Uid => BaseUser) : Prop := ∀ e ∈ users.entries, e.2.uid = e.1

/-- An insert that files a user files it under its own id. -/
def FilesByUid (op : TableOp Uid BaseUser) : Prop :=
  ∀ key user grow, op = .insert key user grow → user.uid = key

theorem UidsMatch.apply {users : AList fun _ : Uid => BaseUser} {op : TableOp Uid BaseUser}
    (hmatch : UidsMatch users) (hop : FilesByUid op) : UidsMatch (op.apply users) := by
  rintro ⟨uid, user⟩ he
  cases op with
  | insert key user' grow =>
    rw [TableOp.apply, AList.entries_insert] at he
    obtain he | he := List.mem_cons.mp he
    · obtain ⟨rfl, hu⟩ := Sigma.mk.inj he
      rw [eq_of_heq hu]
      exact hop _ _ _ rfl
    · exact hmatch _ ((List.kerase_sublist key _).subset he)
  | remove key => exact hmatch _ ((List.kerase_sublist key _).subset he)

theorem uidsMatch_run {ops : List (TableOp Uid BaseUser)} (hops : ∀ op ∈ ops, FilesByUid op) :
    UidsMatch (ops.foldl TableOp.apply ∅) := by
  have hkeep : ∀ users op, UidsMatch users → FilesByUid op → UidsMatch (TableOp.apply users op) :=
    fun _ _ => UidsMatch.apply
  refine Runs.foldl_of_eachStep hkeep (fun e he => ?_) (Runs.eachStep_of_mem (fun op hop _ => hops op hop) _)
  exact absurd he List.not_mem_nil

theorem foldl_userDestroy (l : List (Option Uid × BaseUser)) (binfo : BaseInfo) :
    let binfo' := l.foldl (fun binfo p => binfo.userDestroy p.2) binfo
    binfo'.destroyed = binfo.destroyed ++ l.map Prod.snd ∧
      (0 ≤ binfo.usernum → binfo'.usernum = max 0 (binfo.usernum - l.length)) := by
  induction l generalizing binfo with
  | nil => exact ⟨(List.append_nil _).symm, fun h => by simp [h]⟩
  | cons p l ih =>
    obtain ⟨hdestroyed, hnum⟩ := ih (binfo.userDestroy p.2)
    constructor
    · rw [List.foldl_cons, hdestroyed]
      simp [BaseInfo.userDestroy]
    · intro hpos
      have hpos' : 0 ≤ (binfo.userDestroy p.2).usernum := by
        simp only [BaseInfo.userDestroy]
        split_ifs <;> omega
      rw [List.foldl_cons, hnum hpos']
      simp only [BaseInfo.userDestroy, List.length_cons]
      split_ifs <;> omega

/-- Every user is destroyed once, although each one leaves the table while the loop walks over it. -/
theorem TableHolds.baseInfoDestroy (binfo : BaseInfo) {users : AList fun _ : Uid => BaseUser}
    (hh : TableHolds id binfo.userh users) (huid : UidsMatch users)
    (hnum : binfo.usernum = users.entries.length) {fuel : ℕ} (hfuel : users.entries.length < fuel) :
    ∃ binfo', baseInfoDestroy fuel binfo = some binfo' ∧ binfo'.userh.entries = [] ∧
      binfo'.usernum = 0 ∧
      ∃ gone, binfo'.destroyed = binfo.destroyed ++ gone ∧
        gone.Perm (users.entries.map fun e => e.2) := by
  have hid : Function.Injective (id : Uid → List UInt8) := Function.injective_id
  have hperm := hh.met_perm hid
  have hlength : binfo.userh.entries.length < fuel := by rwa [hh.length_eq hid]
  -- The user removed is the one that the loop was given: it is filed under its own id.
  have hremove : ∀ s : BaseInfo, s.userh.entries ⊆ binfo.userh.entries → ∀ node ∈ s.userh.entries,
      ∀ user, node.value = some user →
      (s.userDestroy user).userh = (s.userh.neHashRemove (strFuncs id) node.key).2 := by
    intro s hsub node hnode user hv
    have hlookup := (hh.mem_iff hid node.key (some user)).mp ⟨node, hsub hnode, rfl, hv⟩
    obtain ⟨u, hu, hsome⟩ := Option.map_eq_some_iff.mp hlookup
    rw [Option.some.inj hsome] at hu
    have hkey : user.uid = node.key := huid _ (AList.mem_lookup_iff.mp hu)
    rw [BaseInfo.userDestroy, ← hkey]
  obtain ⟨b, hwalk, hempty, hb⟩ := NeHash.walk_remove BaseInfo.userh (fun b _ user => b.userDestroy user)
    (strFuncs_lawful hid) binfo hremove hh.ok hh.num_lt
    (hh.nonNull hid) fuel hlength
  obtain ⟨hdestroyed, hnum'⟩ := foldl_userDestroy (NeHash.met binfo.userh.entries) binfo
  rw [← hb] at hdestroyed hnum'
  refine ⟨b, hwalk, hempty, ?_, _, hdestroyed, ?_⟩
  · rw [hnum' (by omega), hperm.length_eq, List.length_map]
    omega
  · have hmap := hperm.map Prod.snd
    rwa [List.map_map] at hmap

/-- Whatever joins and quits made the table, `base_info_destroy` destroys every user of it once. -/
theorem baseInfoDestroy_exact (ops : List (TableOp Uid BaseUser))
    (hops : inserts (ops.map TableOp.call) < 2 ^ 31) (huid : ∀ op ∈ ops, FilesByUid op) :
    let users := ops.foldl TableOp.apply ∅
    ∃ rets userh, run (neHashStep (strFuncs id)) neHashInit (ops.map TableOp.call) = .ok (rets, userh) ∧
      ∀ fuel > users.entries.length, ∃ binfo,
        baseInfoDestroy fuel ⟨users.entries.length, userh, []⟩ = some binfo ∧
          binfo.userh.entries = [] ∧ binfo.usernum = 0 ∧
          binfo.destroyed.Perm (users.entries.map fun e => e.2) := by
  intro users
  obtain ⟨rets, userh, hrun, hholds⟩ := tableHolds_run (Function.injective_id (α := Uid)) ops hops
  refine ⟨rets, userh, hrun, fun fuel hfuel => ?_⟩
  obtain ⟨binfo, hb, hempty, hnum, gone, hgone, hperm⟩ :=
    TableHolds.baseInfoDestroy ⟨users.entries.length, userh, []⟩ hholds (uidsMatch_run huid) rfl hfuel
  refine ⟨binfo, hb, hempty, hnum, ?_⟩
  rwa [hgone, List.nil_append]

theorem baseInfoDestroy_exact_two :
    let ops : List (TableOp Uid BaseUser) :=
      [.insert [97] ⟨[97], 5, 1⟩ true, .insert [98] ⟨[98], 6, 2⟩ true, .remove [97]]
    let users := ops.foldl TableOp.apply ∅
    ∃ rets userh, run (neHashStep (strFuncs id)) neHashInit (ops.map TableOp.call) = .ok (rets, userh) ∧
      ∀ fuel > users.entries.length, ∃ binfo,
        baseInfoDestroy fuel ⟨users.entries.length, userh, []⟩ = some binfo ∧
          binfo.userh.entries = [] ∧ binfo.usernum = 0 ∧
          binfo.destroyed.Perm (users.entries.map fun e => e.2) := by
  refine baseInfoDestroy_exact _ (by decide) ?_
  rintro op hop key user grow rfl
  simp only [List.mem_cons, TableOp.insert.injEq, reduceCtorEq, List.not_mem_nil, or_false] at hop
  obtain ⟨rfl, rfl, -⟩ | ⟨rfl, rfl, -⟩ := hop <;> rfl

end Moc
