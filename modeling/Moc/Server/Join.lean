import Moc.Server.Drivers
import Moc.Server.Users

/-!
# What a JOIN registers

`base_cmd_join` first gives up a record that another connection has under the same id, and then asks
for a new one. `base_user_quit` only drops a reference of the other socket, and `base_user_new`
returns the old record when it is still there; the command looks at neither result.
-/

open Bytes Memory Runs

namespace Moc

variable {ι HDF : Type} [DecidableEq ι]

/-- The user `uid` of the plugin `p` is registered for the connection and the number of the request. A
fault ends the run. -/
def RegisteredFor (p : ι) (uid : Uid) (req : ReqInfo) : Except Fault (Server ι HDF) → Prop
  | .ok sv => ∃ u, baseUserFind sv.world p uid = some u ∧ u.tcpsock = req.tcpsock ∧ u.fd = req.fd
  | .error _ => True

/-- A JOIN of `uid` ends with a record for the request: the one that is there, or a new one. -/
def World.JoinRegisters (w : World ι HDF) (p : ι) (uid : Uid) (req : ReqInfo) (user : Bool) : Prop :=
  (∃ u, baseUserFind w p uid = some u ∧ u.tcpsock = req.tcpsock ∧ u.fd = req.fd) ∨
    user = true ∧ w.FilesUser p uid req

/-- The step is not the close of the connection `s`, nor a JOIN or a QUIT of the user. -/
def Server.Spares (H : PushLib HDF) (p : ι) (uid : Uid) (s : ℕ) :
    Except Fault (Server ι HDF) → ServerStep ι HDF → Prop
  | .ok sv, i => i ≠ .close s ∧
      ∀ e, sv.runs i = some (p, e) → ¬ Joins H e uid ∧ ¬ Quits H e uid
  | .error _, _ => True

/-- The step drops a reference of the socket `s` that is not the event loop's. -/
inductive Server.Drops (H : PushLib HDF) (sv : Server ι HDF) : ServerStep ι HDF → ℕ → Prop where
  | free {p e} (hrun : sv.world.running p = some e) (hp : sv.processed p = true) :
      Drops H sv (.free p) e.req.tcpsock
  | join {p user e uid u} (hrun : sv.runs (.process p user) = some (p, e)) (hjoin : Joins H e uid)
      (hu : Elsewhere sv.world p uid (some e.req) u) : Drops H sv (.process p user) u.tcpsock
  | quit {p user e uid u} (hrun : sv.runs (.process p user) = some (p, e)) (hquit : Quits H e uid)
      (hu : Elsewhere sv.world p uid none u) : Drops H sv (.process p user) u.tcpsock

/-- The step does not drop the last reference of `s` in the event loop's place. -/
def Server.KeepsOpen (H : PushLib HDF) (s : ℕ) :
    Except Fault (Server ι HDF) → ServerStep ι HDF → Prop
  | .ok sv, i => ∀ sock, sv.world.socks s = some sock → sv.Drops H i s → sock.refcount ≠ 1
  | .error _, _ => True

/-! ## What the command leaves behind -/

/-- A JOIN that succeeds has made its two calls; what it sends does not change the users. -/
theorem baseCmdJoin_eq {H : PushLib HDF} {m : CmdAllocs} {p : ι} {w : World ι HDF}
    {q : QueueEntry HDF} {uid : Uid} {r : CmdResult ι HDF}
    (huid : reqGetParamStr H q.hdfrcv "userid" = .ok uid) (h : baseCmdJoin H m p w q = .ok r) :
    ∃ r₁ r₂, baseUserQuit w p uid (some q.req) = .ok r₁ ∧
      baseUserNew m.user r₁.1 p uid q.req = .ok r₂ ∧
      (r.1 = r₂.1 ∨ ∃ frame, r.1 = sendFrame r₂.1 q.req.fd q.req.tcpsock frame) := by
  unfold baseCmdJoin at h
  rw [huid] at h
  obtain ⟨r₁, h₁, h⟩ := bind_eq_ok.mp h
  obtain ⟨r₂, h₂, h⟩ := bind_eq_ok.mp h
  refine ⟨r₁, r₂, h₁, h₂, ?_⟩
  unfold toldByPush at h
  dsimp only at h
  split_ifs at h
  · rw [← Except.ok.inj h]
    exact .inl rfl
  · obtain ⟨r₃, h₃, h⟩ := bind_eq_ok.mp h
    rw [← Except.ok.inj h]
    exact (baseMsgTouser_eq h₃).imp_right fun ⟨frame, _, heq⟩ => ⟨frame, heq⟩

/-- After the two calls the user is registered exactly when the JOIN had a record to end with. -/
theorem registered_baseUserNew_iff {w : World ι HDF} {calloc : Bool} {p : ι} {uid : Uid}
    {req : ReqInfo} {r₁ : World ι HDF × Bool} {r₂ : World ι HDF × Option BaseUser}
    (hcount : w.Counts) (h₁ : baseUserQuit w p uid (some req) = .ok r₁)
    (h₂ : baseUserNew calloc r₁.1 p uid req = .ok r₂) :
    (∃ u, baseUserFind r₂.1 p uid = some u ∧ u.tcpsock = req.tcpsock ∧ u.fd = req.fd) ↔
      w.JoinRegisters p uid req calloc := by
  have hfiles := baseUserFind_baseUserQuit_iff hcount h₁
  unfold World.JoinRegisters
  rw [← hfiles]
  rcases baseUserNew_cases h₂ with ⟨heq, hold⟩ | ⟨sock, hcalloc, hnone, hs, heq⟩
  · rw [heq]
    -- No record was made, so the one that is left decides.
    have hno : ¬ (calloc = true ∧ baseUserFind r₁.1 p uid = none) := by
      rintro ⟨hcalloc, hnone⟩
      rcases hold with ⟨u, hu⟩ | hfalse
      · rw [hnone] at hu
        cases hu
      · rw [hcalloc] at hfalse
        cases hfalse
    rw [or_iff_left hno]
    rcases baseUserQuit_cases h₁ with ⟨heq₁, -⟩ | ⟨u, hu, hw⟩
    · rw [heq₁]
    · refine iff_of_false ?_ ?_
      · rintro ⟨u', hu', hown⟩
        -- What is found after the call was found before it.
        have hu'w : baseUserFind w p uid = some u' := by
          obtain ⟨sock, hs, ⟨-, hmany⟩ | ⟨-, hfree⟩⟩ := tcpSocketRemoveRef_counts hcount hw
          · rw [hmany] at hu'
            exact hu'
          · rw [hfree.find] at hu'
            split_ifs at hu'
            exact hu'
        rw [hu.1, Option.some.injEq] at hu'w
        exact hu.2 req rfl ⟨(hu'w ▸ hown.1).symm, (hu'w ▸ hown.2).symm⟩
      · rintro ⟨u', hu', hown⟩
        rw [hu.1, Option.some.injEq] at hu'
        exact hu.2 req rfl ⟨(hu' ▸ hown.1).symm, (hu' ▸ hown.2).symm⟩
  · rw [heq]
    refine iff_of_true ⟨_, (baseUserFind_withUser _ _ _ _ _ _ _).trans (if_pos rfl), rfl, rfl⟩ ?_
    exact .inr ⟨hcalloc, hnone⟩

/-! ## How long it stays -/

/-- Dropping a reference that is not the last one of the user's socket leaves the user there. -/
theorem baseUserFind_removeRef {w w' : World ι HDF} {s : ℕ} {p : ι} {uid : Uid} {u : BaseUser}
    (hsound : w.Sound) (hu : baseUserFind w p uid = some u) (h : tcpSocketRemoveRef w s = .ok w')
    (hkeep : s = u.tcpsock → ∀ sock, w.socks s = some sock → sock.refcount ≠ 1) :
    baseUserFind w' p uid = some u := by
  obtain ⟨sock, hs, ⟨-, rfl⟩ | ⟨hone, hfree⟩⟩ := tcpSocketRemoveRef_counts hsound.counts h
  · exact hu
  · rw [hfree.find, if_neg, hu]
    intro happ
    obtain ⟨u', hu', hsock⟩ := hsound.appdata s sock p uid hs happ
    rw [hu, Option.some.injEq] at hu'
    exact hkeep (by rw [hu', hsock]) sock hs hone

/-- A command on another user leaves this one there, unless it drops the last reference of its
socket. -/
theorem baseUserFind_userCommand {H : PushLib HDF} {user : Bool} {p p' : ι} {uid : Uid}
    {w w' : World ι HDF} {q : QueueEntry HDF} {u : BaseUser} (hsound : w.Sound)
    (hu : baseUserFind w p uid = some u) (h : userCommand H user p' w q = .ok w')
    (hspare : p' = p → ¬ Joins H q uid ∧ ¬ Quits H q uid)
    (hkeep : ∀ uid' v, (Joins H q uid' ∧ Elsewhere w p' uid' (some q.req) v ∨
      Quits H q uid' ∧ Elsewhere w p' uid' none v) → v.tcpsock = u.tcpsock →
        ∀ sock, w.socks u.tcpsock = some sock → sock.refcount ≠ 1) :
    baseUserFind w' p uid = some u := by
  have hquit : ∀ {uid' req r}, baseUserQuit w p' uid' req = .ok r →
      (∀ v, Elsewhere w p' uid' req v → v.tcpsock = u.tcpsock →
        ∀ sock, w.socks u.tcpsock = some sock → sock.refcount ≠ 1) →
      baseUserFind r.1 p uid = some u := fun hr hlast => by
    rcases baseUserQuit_cases hr with ⟨heq, -⟩ | ⟨v, hv, hw⟩
    · rw [heq, hu]
    · refine baseUserFind_removeRef hsound hu hw fun hsame sock hs => ?_
      rw [hsame] at hs
      exact hlast v hv hsame sock hs
  rcases userCommand_cases h with ⟨uid', w₁, _, _, hjoin, h₁, h₂⟩ | ⟨uid', _, hq, h₁⟩ | ⟨-, rfl⟩
  · have hfind₁ := hquit h₁ fun v hv => hkeep uid' v (.inl ⟨hjoin, hv⟩)
    rcases baseUserNew_cases h₂ with ⟨heq, -⟩ | ⟨sock, -, -, -, heq⟩ <;> dsimp only at heq hfind₁
    · rw [heq, hfind₁]
    · rw [heq, baseUserFind_withUser, if_neg, hfind₁]
      intro hsame
      obtain ⟨rfl, rfl⟩ := Prod.mk.inj hsame
      exact (hspare rfl).1 hjoin
  · exact hquit h₁ fun v hv => hkeep uid' v (.inr ⟨hq, hv⟩)
  · exact hu

/-- A step that spares the user and keeps its connection open leaves it registered. -/
theorem Server.Effect.find {H : PushLib HDF} {sv : Server ι HDF} {i : ServerStep ι HDF}
    {w' : World ι HDF} {p : ι} {uid : Uid} {u : BaseUser} (hsound : sv.world.Sound)
    (hu : baseUserFind sv.world p uid = some u) (heffect : sv.Effect H i w')
    (hspare : Server.Spares H p uid u.tcpsock (.ok sv) i)
    (hkeep : Server.KeepsOpen H u.tcpsock (.ok sv) i) : baseUserFind w' p uid = some u := by
  have hsame : ∀ {w' : World ι HDF}, w'.userh = sv.world.userh → baseUserFind w' p uid = some u :=
    fun huserh => by
      unfold baseUserFind at hu ⊢
      rw [huserh, hu]
  cases heffect with
  | idle _ _ _ => exact hu
  | accept _ _ _ => exact hsame rfl
  | request _ hw => exact hsame hw.userh
  | refuse _ => exact hsame rfl
  | @close s sock w' hs hw =>
    obtain ⟨hsock, hevt⟩ := registered_eq_some.mp hs
    have hfind : baseUserFind (sv.world.unlisten s sock) p uid = some u := hsame rfl
    refine baseUserFind_removeRef (hsound.unlisten hsock hevt) hfind hw fun heq => ?_
    exact absurd (congrArg ServerStep.close heq) hspare.1
  | take _ _ => exact hsame rfl
  | @process p' user e w' hrun hp hw =>
    have hruns := Server.runs_process user hrun hp
    refine baseUserFind_userCommand hsound hu hw (fun hpp => ?_) fun uid' v hv hsock sock hs => ?_
    · subst hpp
      exact hspare.2 e hruns
    · refine hkeep sock hs ?_
      rw [← hsock]
      exact hv.elim (fun h => .join hruns h.1 h.2) fun h => .quit hruns h.1 h.2
  | reply _ => exact hsame rfl
  | push _ _ => exact hsame rfl
  | @free p' e w' hrun hp hw =>
    have hfind : baseUserFind (sv.world.withoutEntry p') p uid = some u := hsame rfl
    have hsound' : (sv.world.withoutEntry p').Sound := hsound.congr rfl rfl rfl rfl
    refine baseUserFind_removeRef hsound' hfind hw fun heq sock hs => ?_
    rw [heq] at hs
    exact hkeep sock hs (heq ▸ .free hrun hp)

/-! ## Every JOIN -/

/-- Every state that the server reaches is sound. -/
theorem Server.sound_of_run {H : PushLib HDF} {cfg : HDF} {gMoc : MocTable ι}
    {is : List (ServerStep ι HDF)} {sv : Server ι HDF}
    (h : is.foldl (Server.next H) (.ok (.start cfg gMoc)) = .ok sv) : sv.world.Sound := by
  have hrun : ∀ (is : List (ServerStep ι HDF)) (sv₀ : Server ι HDF), sv₀.world.Sound →
      is.foldl (Server.next H) (.ok sv₀) = .ok sv → sv.world.Sound := by
    intro is
    induction is with
    | nil =>
      intro sv₀ hsound heq
      rwa [← Except.ok.inj heq]
    | cons i is ih =>
      intro sv₀ hsound heq
      obtain ⟨sv₁, hstep, hrest⟩ := foldl_next_cons heq
      exact ih sv₁ ((Server.step_effect hsound.counts hstep).sound hsound) hrest
  exact hrun is _ (.start cfg gMoc) h

/-- In every state that the server reaches, a JOIN that ends well has registered its user for its
connection exactly when there was no record, or one for this connection, or one that goes with the
last reference of another socket. The user then stays until its connection is closed or it joins or
quits, unless another step drops the connection's last reference. -/
theorem baseCmdJoin_registers_iff (H : PushLib HDF) (cfg : HDF) (gMoc : MocTable ι)
    (is : List (ServerStep ι HDF)) {sv : Server ι HDF}
    (hrun : is.foldl (Server.next H) (.ok (.start cfg gMoc)) = .ok sv) {m : CmdAllocs} {p : ι}
    {q q' : QueueEntry HDF} {uid : Uid} {w' : World ι HDF}
    (huid : reqGetParamStr H q.hdfrcv "userid" = .ok uid)
    (hok : baseCmdJoin H m p sv.world q = .ok (w', q', none)) :
    (RegisteredFor p uid q.req (.ok ⟨w', Function.update sv.processed p true⟩) ↔
        sv.world.JoinRegisters p uid q.req m.user) ∧
      (sv.world.JoinRegisters p uid q.req m.user → ∀ js : List (ServerStep ι HDF),
        EachStep (Server.next H) (fun x i => Server.Spares H p uid q.req.tcpsock x i ∧
            Server.KeepsOpen H q.req.tcpsock x i)
          (.ok ⟨w', Function.update sv.processed p true⟩) js →
        Always (Server.next H) (RegisteredFor p uid q.req)
          (.ok ⟨w', Function.update sv.processed p true⟩) js) := by
  have hsound := Server.sound_of_run hrun
  obtain ⟨r₁, r₂, h₁, h₂, hsent⟩ := baseCmdJoin_eq huid hok
  have hsound₂ : r₂.1.Sound := (hsound.baseUserQuit h₁).baseUserNew h₂
  have hnow := registered_baseUserNew_iff hsound.counts h₁ h₂
  -- What the command sends leaves users and sockets alone.
  have huserh : w'.userh = r₂.1.userh := by
    rcases hsent with heq | ⟨frame, heq⟩ <;> dsimp only at heq <;> rw [heq]
    rfl
  have hsound' : w'.Sound := by
    rcases hsent with heq | ⟨frame, heq⟩ <;> dsimp only at heq <;> rw [heq]
    · exact hsound₂
    · exact hsound₂.congr rfl rfl rfl rfl
  have hfirst : RegisteredFor p uid q.req (.ok ⟨w', Function.update sv.processed p true⟩) ↔
      sv.world.JoinRegisters p uid q.req m.user := by
    rw [← hnow]
    unfold RegisteredFor baseUserFind
    dsimp only
    rw [huserh]
  refine ⟨hfirst, fun hjoin js hsteps => ?_⟩
  refine always_of_eachStep (I := fun x : Except Fault (Server ι HDF) =>
    RegisteredFor p uid q.req x ∧ ∀ sv, x = .ok sv → sv.world.Sound) (fun x h => h.1) ?_
    ⟨hfirst.mpr hjoin, fun sv heq => by rw [← Except.ok.inj heq]; exact hsound'⟩ hsteps
  rintro x i ⟨hreg, hsoundx⟩ ⟨hspare, hkeep⟩
  cases x with
  | error f => exact ⟨trivial, fun sv heq => by cases heq⟩
  | ok sv =>
    obtain ⟨u, hu, hsock, hfd⟩ := hreg
    rw [← hsock] at hspare hkeep
    unfold Server.next
    rw [ok_bind]
    cases hstep : sv.step H i with
    | error f => exact ⟨trivial, fun sv heq => by cases heq⟩
    | ok sv' =>
      have heffect := Server.step_effect (hsoundx sv rfl).counts hstep
      refine ⟨⟨u, heffect.find (hsoundx sv rfl) hu hspare hkeep, hsock, hfd⟩, fun sv'' heq => ?_⟩
      rw [← Except.ok.inj heq]
      exact heffect.sound (hsoundx sv rfl)

/-- The request record of a JOIN on the connection 0. -/
def firstJoin : QueueEntry (List UInt8) :=
  requestEntry useridHdf.toHdfLib (requestOf 0 (newSocket Unit 5) 1 reqCmdBaseJoin flagsSync)
    (ascii "a") [97]

/-- A new server with one connection. -/
def oneConnection : World Unit (List UInt8) := (World.start [] (.single (ascii "a"))).withSocket 0 5

/-- The first user of a new server is registered. -/
theorem baseCmdJoin_registers_firstJoin :
    RegisteredFor () [97] firstJoin.req (.ok ⟨oneConnection.withUser () [97] firstJoin.req
      (newSocket Unit 5), Function.update (fun _ => false) () true⟩) :=
  (baseCmdJoin_registers_iff useridHdf [] (.single (ascii "a")) [.accept 0 5] (m := .granted)
    (p := ()) (q := firstJoin) rfl rfl rfl).1.mpr (.inr ⟨rfl, .inl rfl⟩)

/-- What a JOIN of the user `[97]` leaves at the end of a run, when it ends well: the socket of its
request and the one that the user is filed with. -/
def joinedSockets (is : List (ServerStep Unit (List UInt8))) : Option (ℕ × Option ℕ) :=
  match is.foldl (Server.next useridHdf) (.ok (.start [] (.single (ascii "a")))) with
  | .error _ => none
  | .ok sv =>
    match sv.world.running () with
    | none => none
    | some q =>
      match reqGetParamStr useridHdf q.hdfrcv "userid", baseCmdJoin useridHdf .granted () sv.world q with
      | .ok uid, .ok (w', _, none) => some (q.req.tcpsock, (baseUserFind w' () uid).map BaseUser.tcpsock)
      | _, _ => none

/-- A JOIN that leaves its user with another socket. -/
theorem exists_of_joinedSockets {is : List (ServerStep Unit (List UInt8))} {s t : ℕ} (hne : t ≠ s)
    (h : joinedSockets is = some (s, some t)) :
    ∃ (sv : Server Unit (List UInt8)) (q q' : QueueEntry (List UInt8)) (uid : Uid)
      (w' : World Unit (List UInt8)),
      is.foldl (Server.next useridHdf) (.ok (.start [] (.single (ascii "a")))) = .ok sv ∧
        sv.world.running () = some q ∧ reqGetParamStr useridHdf q.hdfrcv "userid" = .ok uid ∧
        baseCmdJoin useridHdf .granted () sv.world q = .ok (w', q', none) ∧
        ¬ RegisteredFor () uid q.req (.ok ⟨w', Function.update sv.processed () true⟩) := by
  unfold joinedSockets at h
  split at h
  · cases h
  · rename_i sv hrun
    split at h
    · cases h
    · rename_i q hq
      split at h
      · rename_i uid w' q' huid hok
        obtain ⟨hs, ht⟩ := Prod.mk.inj (Option.some.inj h)
        refine ⟨sv, q, q', uid, w', hrun, hq, huid, hok, ?_⟩
        rintro ⟨u, hu, hsock, -⟩
        dsimp only at hu
        rw [hu, Option.map_some, Option.some.injEq] at ht
        exact hne (ht.symm.trans (hsock.trans hs))
      · cases h

/-- A user joins on the connection 0, which has another request waiting when the user joins on the
connection 1. -/
def joinOnAnother : List (ServerStep Unit (List UInt8)) :=
  [.accept 0 5, .accept 1 6, .request 0 1 reqCmdBaseJoin 0 (ascii "a") [97], .take (),
    .process () true, .free (), .request 0 2 reqCmdStats 0 (ascii "a") [97],
    .request 1 1 reqCmdBaseJoin flagsSync (ascii "a") [97], .take ()]

/-- A JOIN that ends well leaves its user registered for another connection. -/
theorem not_registers_joinOnAnother :
    ¬ ∀ (is : List (ServerStep Unit (List UInt8))) (sv : Server Unit (List UInt8))
      (q q' : QueueEntry (List UInt8)) (uid : Uid) (w' : World Unit (List UInt8)),
      is.foldl (Server.next useridHdf) (.ok (.start [] (.single (ascii "a")))) = .ok sv →
      sv.world.running () = some q → reqGetParamStr useridHdf q.hdfrcv "userid" = .ok uid →
      baseCmdJoin useridHdf .granted () sv.world q = .ok (w', q', none) →
      RegisteredFor () uid q.req (.ok ⟨w', Function.update sv.processed () true⟩) := by
  intro h
  have hsockets : joinedSockets joinOnAnother = some (1, some 0) := by decide +kernel
  obtain ⟨sv, q, q', uid, w', hrun, hq, huid, hok, hno⟩ :=
    exists_of_joinedSockets (by decide) hsockets
  exact hno (h joinOnAnother sv q q' uid w' hrun hq huid hok)

end Moc
