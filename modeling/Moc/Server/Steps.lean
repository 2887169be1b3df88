import Moc.Lib.Runs
import Moc.Server.Accept
import Moc.Server.Base

/-!
# The server as a system of steps

The event loop and the workers of the plugins take turns on the server's state: connections are
accepted and closed, requests are received and queued, entries are taken, processed, answered and
freed. A step that its thread is not ready for changes nothing. A step that touches an object after
it was freed faults, and nothing happens after a fault.
-/

open Bytes Memory

namespace Moc

variable {ι HDF : Type} [DecidableEq ι]

/-- The server, with the place of each worker in `moc_start_base_entry`: whether the entry it has
taken was processed. -/
structure Server (ι HDF : Type) where
  world : World ι HDF
  processed : ι → Bool

/-- The server before its first connection. -/
def Server.start (cfg : HDF) (gMoc : MocTable ι) : Server ι HDF := ⟨.start cfg gMoc, fun _ => false⟩

/-- The table of one plugin. -/
def MocTable.single (name : List UInt8) : MocTable Unit where
  hashlen := 16
  hashlen_pos := Nat.succ_pos 15
  table k := if k = mocdHash name % 16 then [⟨name, ()⟩] else []

/-- A step of the event loop or of a worker. -/
inductive ServerStep (ι HDF : Type) where
  /-- `tcp_newconnection` makes the object `s` for a connection on the number `fd`. -/
  | accept (s : ℕ) (fd : ℤ)
  /-- A request is received on `s` and given to `put_in_queue`. -/
  | request (s id cmd flags : ℕ) (ename : List UInt8) (hdfrcv : HDF)
  /-- The event loop answers a message of `s` that it does not queue. -/
  | refuse (s : ℕ) (frame : List UInt8)
  /-- The end of the stream or an error on `s`. -/
  | close (s : ℕ)
  /-- The worker of `p` takes an entry. -/
  | take (p : ι)
  /-- It runs the entry's command; `user` is the allocation of `base_user_new`. -/
  | process (p : ι) (user : Bool)
  /-- The command ends in an error before it reaches the users. -/
  | fail (p : ι)
  /-- It sends a reply to the request of its entry. -/
  | reply (p : ι) (frame : List UInt8)
  /-- It sends a push to the user `uid`. -/
  | push (p : ι) (uid : Uid) (frame : List UInt8)
  /-- It frees its entry. -/
  | free (p : ι)

/-- The object of a new connection. -/
def newSocket (ι : Type) (fd : ℤ) : TcpSocket ι := ⟨1, fd, true, none⟩

/-- `tcp_newconnection` on a number that is not open. -/
def tcpNewconnection (w : World ι HDF) (s : ℕ) (fd : ℤ) : World ι HDF :=
  if 0 ≤ fd ∧ w.files fd = none ∧ w.socks s = none ∧ s ∉ w.freed.map Prod.fst then
    { w with
      socks := Function.update w.socks s (some (newSocket ι fd))
      files := Function.update w.files fd (some s) }
  else w

/-- The object `s` when the event loop still listens on it. -/
def registered (w : World ι HDF) (s : ℕ) : Option (TcpSocket ι) :=
  match w.socks s with
  | some sock => if sock.evt then some sock else none
  | none => none

/-- The `error_exit` of `tcp_recv` and `process_buf`. -/
def tcpErrorExit (w : World ι HDF) (s : ℕ) : Except Fault (World ι HDF) :=
  match registered w s with
  | none => .ok w
  | some sock =>
    let w := { w with
      files := Function.update w.files sock.fd none
      socks := Function.update w.socks s (some { sock with fd := -1, evt := false }) }
    tcpSocketRemoveRef w s

/-- The request record of a request on `s`, as `init_req` and `parse_message` leave it. -/
def requestOf (s : ℕ) (sock : TcpSocket ι) (id cmd flags : ℕ) : ReqInfo :=
  ⟨sock.fd, [], id, cmd, flags, some 8, 0, s⟩

/-- What JOIN and QUIT do to the users of the plugin `p`, in the base and in the chat plugin. -/
def userCommand (H : PushLib HDF) (user : Bool) (p : ι) (w : World ι HDF) (q : QueueEntry HDF) :
    Except Fault (World ι HDF) :=
  match reqGetParamStr H q.hdfrcv "userid" with
  | .error _ => .ok w
  | .ok uid =>
    if q.operation = reqCmdBaseJoin then do
      let (w, _) ← baseUserQuit w p uid (some q.req)
      let (w, _) ← baseUserNew user w p uid q.req
      return w
    else if q.operation = reqCmdBaseQuit then do
      let (w, _) ← baseUserQuit w p uid none
      return w
    else .ok w

/-- One step. -/
def Server.step (H : PushLib HDF) (sv : Server ι HDF) :
    ServerStep ι HDF → Except Fault (Server ι HDF)
  | .accept s fd => .ok { sv with world := tcpNewconnection sv.world s fd }
  | .request s id cmd flags ename hdfrcv =>
    match registered sv.world s with
    | none => .ok sv
    | some sock => do
      let w ← queueReq H.toHdfLib .granted sv.world (requestOf s sock id cmd flags) ename hdfrcv
      return { sv with world := w }
  | .refuse s frame =>
    match registered sv.world s with
    | none => .ok sv
    | some sock => .ok { sv with world := sendFrame sv.world sock.fd s frame }
  | .close s => do
    let w ← tcpErrorExit sv.world s
    return { sv with world := w }
  | .take p =>
    match sv.world.running p, sv.world.queues p with
    | none, e :: rest =>
      let w := { sv.world with
        queues := Function.update sv.world.queues p rest
        running := Function.update sv.world.running p (some e) }
      .ok ⟨w, Function.update sv.processed p false⟩
    | _, _ => .ok sv
  | .process p user =>
    match sv.world.running p with
    | some e =>
      if sv.processed p then .ok sv
      else do
        let w ← userCommand H user p sv.world e
        return ⟨w, Function.update sv.processed p true⟩
    | none => .ok sv
  | .fail p => .ok { sv with processed := Function.update sv.processed p true }
  | .reply p frame =>
    match sv.world.running p with
    | some e => .ok { sv with world := sendFrame sv.world e.req.fd e.req.tcpsock frame }
    | none => .ok sv
  | .push p uid frame =>
    match baseUserFind sv.world p uid with
    | some u => .ok { sv with world := (baseMsgSend sv.world frame u.fd u.tcpsock).1 }
    | none => .ok sv
  | .free p =>
    match sv.world.running p with
    | some e =>
      if sv.processed p then do
        let w ← queueEntryFree { sv.world with
          running := Function.update sv.world.running p none } e
        return { sv with world := w }
      else .ok sv
    | none => .ok sv

/-- One step of a server that may have faulted. -/
def Server.next (H : PushLib HDF) (x : Except Fault (Server ι HDF)) (i : ServerStep ι HDF) :
    Except Fault (Server ι HDF) :=
  x >>= fun sv => sv.step H i

/-! ## What the commands leave alone -/

theorem baseUserQuit_rest {w : World ι HDF} {p : ι} {uid : Uid} {req : Option ReqInfo}
    {r : World ι HDF × Bool} (h : baseUserQuit w p uid req = .ok r) : w.SameRest r.1 := by
  unfold baseUserQuit at h
  split at h
  · rw [← Except.ok.inj h]
    exact .refl w
  · split_ifs at h
    · rw [← Except.ok.inj h]
      exact .refl w
    · obtain ⟨w₁, h₁, h⟩ := bind_eq_ok.mp h
      rw [← Except.ok.inj h]
      exact tcpSocketRemoveRef_rest h₁

theorem baseUserNew_rest {calloc : Bool} {w : World ι HDF} {p : ι} {uid : Uid} {req : ReqInfo}
    {r : World ι HDF × Option BaseUser} (h : baseUserNew calloc w p uid req = .ok r) :
    w.SameRest r.1 := by
  unfold baseUserNew at h
  split at h
  · rw [← Except.ok.inj h]
    exact .refl w
  · split_ifs at h
    · split at h
      · cases h
      · rw [← Except.ok.inj h]
        exact ⟨rfl, rfl, rfl, rfl, rfl, rfl⟩
    · rw [← Except.ok.inj h]
      exact .refl w

theorem userCommand_rest {H : PushLib HDF} {user : Bool} {p : ι} {w w' : World ι HDF}
    {q : QueueEntry HDF} (h : userCommand H user p w q = .ok w') : w.SameRest w' := by
  unfold userCommand at h
  split at h
  · rw [← Except.ok.inj h]
    exact .refl w
  · split_ifs at h
    · obtain ⟨⟨w₁, _⟩, h₁, h⟩ := bind_eq_ok.mp h
      obtain ⟨⟨w₂, _⟩, h₂, h⟩ := bind_eq_ok.mp h
      rw [← Except.ok.inj h]
      exact (baseUserQuit_rest h₁).trans (baseUserNew_rest h₂)
    · obtain ⟨⟨w₁, _⟩, h₁, h⟩ := bind_eq_ok.mp h
      rw [← Except.ok.inj h]
      exact baseUserQuit_rest h₁
    · rw [← Except.ok.inj h]
      exact .refl w

/-! ## What one step does -/

omit [DecidableEq ι] in
theorem registered_eq_some {w : World ι HDF} {s : ℕ} {sock : TcpSocket ι} :
    registered w s = some sock ↔ w.socks s = some sock ∧ sock.evt = true := by
  unfold registered
  cases w.socks s with
  | none => simp
  | some sock' =>
    dsimp only
    constructor
    · intro h
      split_ifs at h with hevt
      rw [← Option.some.inj h]
      exact ⟨rfl, hevt⟩
    · rintro ⟨h, hevt⟩
      rw [Option.some.inj h, if_pos hevt]

/-- The cases of dropping a reference. -/
theorem tcpSocketRemoveRef_cases {w w' : World ι HDF} {s : ℕ}
    (h : tcpSocketRemoveRef w s = .ok w') : ∃ sock, w.socks s = some sock ∧
      ((sock.refcount ≤ 0 ∧ w' = w) ∨
        (1 < sock.refcount ∧ w' = { w with
          socks := Function.update w.socks s (some { sock with refcount := sock.refcount - 1 }) }) ∨
        (sock.refcount = 1 ∧ w' = tcpSocketFree { w with
          socks := Function.update w.socks s (some { sock with refcount := 0 }) } s
            { sock with refcount := 0 })) := by
  cases hs : w.socks s with
  | none =>
    rw [tcpSocketRemoveRef_of_none hs] at h
    cases h
  | some sock =>
    refine ⟨sock, rfl, ?_⟩
    rcases lt_trichotomy sock.refcount 1 with hlt | hone | hgt
    · rw [tcpSocketRemoveRef_of_le hs (by omega)] at h
      exact .inl ⟨by omega, (Except.ok.inj h).symm⟩
    · rw [tcpSocketRemoveRef_of_one hs hone] at h
      exact .inr (.inr ⟨hone, (Except.ok.inj h).symm⟩)
    · rw [tcpSocketRemoveRef_of_gt hs hgt] at h
      exact .inr (.inl ⟨hgt, (Except.ok.inj h).symm⟩)

/-- The entry that `make_queue_long_entry` makes. -/
def requestEntry (H : HdfLib HDF) (req : ReqInfo) (ename : List UInt8) (hdfrcv : HDF) :
    QueueEntry HDF where
  operation := req.cmd
  req := { req with payload := none, psize := 0 }
  ename := ename
  hdfrcv := hdfrcv
  hdfsnd := H.init

/-- The server with another reference to `s`. -/
def World.withRef (w : World ι HDF) (s : ℕ) (sock : TcpSocket ι) : World ι HDF :=
  let sock := { sock with refcount := sock.refcount + 1 }
  { w with socks := Function.update w.socks s (some sock) }

/-- The entry that `put_in_queue_long` puts into a queue, when it does. -/
def putEntry (H : HdfLib HDF) (w : World ι HDF) (req : ReqInfo) (ename : List UInt8)
    (hdfrcv : HDF) : Option (ι × QueueEntry HDF) :=
  match findEntryInTable w.gMoc ename with
  | none => none
  | some entry =>
    let size := (w.queues entry.opQueue).length
    if size > maxQueueEntry ∧ size % 100 = 0 then none
    else some (entry.opQueue, requestEntry H req ename hdfrcv)

/-- What receiving a request on an allocated socket does: answers on the request's own descriptor,
and one more entry with one more reference, or neither of the two. -/
structure Received (H : HdfLib HDF) (w : World ι HDF) (req : ReqInfo) (ename : List UInt8)
    (hdfrcv : HDF) (w' : World ι HDF) : Prop where
  cfg : w'.cfg = w.cfg
  gMoc : w'.gMoc = w.gMoc
  running : w'.running = w.running
  userh : w'.userh = w.userh
  usernum : w'.usernum = w.usernum
  files : w'.files = w.files
  freed : w'.freed = w.freed
  sent : ∃ frames : List (List UInt8),
    w'.sent = w.sent ++ frames.map fun frame => ⟨req.fd, req.tcpsock, w.files req.fd, frame⟩
  put : match putEntry H w req ename hdfrcv with
    | none => w'.socks = w.socks ∧ w'.queues = w.queues
    | some (p, e) => w'.queues = (enqueue w p (fillSyncFlag req) e).queues ∧
      ∃ sock, w.socks req.tcpsock = some sock ∧ w'.socks = (w.withRef req.tcpsock sock).socks

omit [DecidableEq ι] in
/-- Sending changes nothing of what a later send or reference looks at. -/
@[simp] theorem sendFrame_socks (w : World ι HDF) (fd : ℤ) (meant : ℕ) (frame : List UInt8) :
    (sendFrame w fd meant frame).socks = w.socks := rfl

theorem makeQueueLongEntry_granted (H : HdfLib HDF) {w : World ι HDF} {req : ReqInfo}
    {sock : TcpSocket ι} (hs : w.socks req.tcpsock = some sock) (ename : List UInt8)
    (hdfrcv : HDF) : makeQueueLongEntry H .granted w req ename hdfrcv =
      .ok (w.withRef req.tcpsock sock, some (requestEntry H req ename hdfrcv)) := by
  simp [makeQueueLongEntry, Allocs.granted, tcpSocketAddRef_of_some hs, World.withRef, requestEntry]

/-- A reserved name takes a reference for its entry and drops it again. -/
theorem queueEntryFree_withRef (H : HdfLib HDF) {w : World ι HDF} {req : ReqInfo}
    {sock : TcpSocket ι} (hs : w.socks req.tcpsock = some sock) (hpos : 0 < sock.refcount)
    (ename : List UInt8) (hdfrcv : HDF) (frame : List UInt8) :
    queueEntryFree (repSend (w.withRef req.tcpsock sock) req frame) (requestEntry H req ename hdfrcv) =
      .ok (repSend w req frame) := by
  have href : (repSend (w.withRef req.tcpsock sock) req frame).socks req.tcpsock =
      some { sock with refcount := sock.refcount + 1 } := by
    simp [repSend, World.withRef]
  refine (tcpSocketRemoveRef_of_gt href (by dsimp only; omega)).trans ?_
  simp [repSend, sendFrame, World.withRef, ← hs]

/-- A name that `put_in_queue_long` answers itself: one of the two reserved names, when no plugin has
it. -/
def Reserved (w : World ι HDF) (ename : List UInt8) : Prop :=
  findEntryInTable w.gMoc ename = none ∧
    (strncmpEq ename (ascii "_Reserve.Status" ++ [0]) ∨
      strncmpEq ename (ascii "_Reserve.Clientmod" ++ [0]))

/-- What `put_in_queue` does on a socket that is counted: it answers a reserved name, counts what it
does not queue otherwise, with an answer when one is waited for, and queues the rest. -/
theorem putInQueue_granted (H : HdfLib HDF) {w : World ι HDF} {req : ReqInfo} {sock : TcpSocket ι}
    (hs : w.socks req.tcpsock = some sock) (hpos : 0 < sock.refcount) (ename : List UInt8)
    (hdfrcv : HDF) :
    ∃ w', putInQueue H .granted w req (fillSyncFlag req) ename hdfrcv = .ok (w', true) ∧
      ((putEntry H w req ename hdfrcv = none ∧ Reserved w ename ∧
          ∃ code frame, code ≤ repOk ∧ AnswerFrame req.id code frame ∧ w' = repSend w req frame) ∨
        (putEntry H w req ename hdfrcv = none ∧ ¬ Reserved w ename ∧
          ∃ stat code, code ≤ repOk ∧ w' =
            if fillSyncFlag req then tcpReplyMini { w with stat := stat } req code
            else { w with stat := stat }) ∨
        ∃ p, putEntry H w req ename hdfrcv =
            some (p, requestEntry H req ename hdfrcv) ∧ ¬ Reserved w ename ∧
          w' = enqueue (w.withRef req.tcpsock sock) p (fillSyncFlag req)
            (requestEntry H req ename hdfrcv)) := by
  have hmake := makeQueueLongEntry_granted H hs ename hdfrcv
  have hfree := queueEntryFree_withRef H hs hpos ename hdfrcv
  unfold putInQueue putInQueueLong
  cases hfind : findEntryInTable w.gMoc ename with
  | none =>
    have hput : putEntry H w req ename hdfrcv = none := by rw [putEntry, hfind]
    dsimp only
    by_cases hstatus : strncmpEq ename (ascii "_Reserve.Status" ++ [0]) = true
    · obtain ⟨code, frame, hcode, hframe, hsend⟩ := parseStats_sends H .granted
        (w.withRef req.tcpsock sock) (requestEntry H req ename hdfrcv)
      refine ⟨_, ?_, .inl ⟨hput, ⟨hfind, .inl hstatus⟩, code, frame, hcode, hframe, rfl⟩⟩
      rw [if_pos hstatus, hmake, ok_bind]
      dsimp only
      rw [hsend, ok_bind]
      exact congrArg (· >>= fun w => pure (w, true)) (hfree frame)
    by_cases hmod : strncmpEq ename (ascii "_Reserve.Clientmod" ++ [0]) = true
    · obtain ⟨code, frame, hcode, hframe, hsend⟩ := parseClientmod_sends H .granted
        (w.withRef req.tcpsock sock) (requestEntry H req ename hdfrcv)
      refine ⟨_, ?_, .inl ⟨hput, ⟨hfind, .inr hmod⟩, code, frame, hcode, hframe, rfl⟩⟩
      rw [if_neg hstatus, if_pos hmod, hmake, ok_bind]
      dsimp only
      rw [hsend, ok_bind]
      exact congrArg (· >>= fun w => pure (w, true)) (hfree frame)
    · rw [if_neg hstatus, if_neg hmod]
      exact ⟨_, rfl, .inr (.inl ⟨hput, fun h => h.2.elim hstatus hmod, _, _, by decide, rfl⟩)⟩
  | some entry =>
    have hno : ¬ Reserved w ename := fun hres => by
      rw [hres.1] at hfind
      cases hfind
    dsimp only
    -- A queue over its limit refuses requests at each multiple of a hundred.
    by_cases hbusy : (w.queues entry.opQueue).length > maxQueueEntry ∧
        (w.queues entry.opQueue).length % 100 = 0
    · have hput : putEntry H w req ename hdfrcv = none := by
        simp only [putEntry, hfind, if_pos hbusy]
      rw [if_pos hbusy]
      exact ⟨_, rfl, .inr (.inl ⟨hput, hno, _, _, by decide, rfl⟩)⟩
    · have hput : putEntry H w req ename hdfrcv =
          some (entry.opQueue, requestEntry H req ename hdfrcv) := by
        simp only [putEntry, hfind, if_neg hbusy]
      rw [if_neg hbusy, hmake, ok_bind]
      exact ⟨_, rfl, .inr (.inr ⟨entry.opQueue, hput, hno, rfl⟩)⟩

/-- Queueing on a socket that is counted. -/
theorem putInQueue_received (H : HdfLib HDF) {w : World ι HDF} {req : ReqInfo} {sock : TcpSocket ι}
    (hs : w.socks req.tcpsock = some sock) (hpos : 0 < sock.refcount) (ename : List UInt8)
    (hdfrcv : HDF) : ∃ w', putInQueue H .granted w req (fillSyncFlag req) ename hdfrcv =
      .ok (w', true) ∧ Received H w req ename hdfrcv w' := by
  obtain ⟨w', hw', hcase⟩ := putInQueue_granted H hs hpos ename hdfrcv
  refine ⟨w', hw', ?_⟩
  rcases hcase with ⟨hput, -, _, frame, -, -, rfl⟩ | ⟨hput, -, _, _, -, rfl⟩ |
    ⟨p, hput, -, rfl⟩
  · exact ⟨rfl, rfl, rfl, rfl, rfl, rfl, rfl, ⟨[frame], rfl⟩, by rw [hput]; exact ⟨rfl, rfl⟩⟩
  · split_ifs
    · exact ⟨rfl, rfl, rfl, rfl, rfl, rfl, rfl, ⟨[_], rfl⟩, by rw [hput]; exact ⟨rfl, rfl⟩⟩
    · exact ⟨rfl, rfl, rfl, rfl, rfl, rfl, rfl, ⟨[], (List.append_nil _).symm⟩, by
        rw [hput]; exact ⟨rfl, rfl⟩⟩
  · refine ⟨rfl, rfl, rfl, rfl, rfl, rfl, rfl, ⟨[], (List.append_nil _).symm⟩, ?_⟩
    rw [hput]
    exact ⟨rfl, sock, hs, rfl⟩

/-- Receiving a request never fails on a socket that is counted. -/
theorem queueReq_received (H : HdfLib HDF) {w : World ι HDF} (req : ReqInfo) {sock : TcpSocket ι}
    (hs : w.socks req.tcpsock = some sock) (hpos : 0 < sock.refcount) (ename : List UInt8)
    (hdfrcv : HDF) : ∃ w', queueReq H .granted w req ename hdfrcv = .ok w' ∧
      Received H w req ename hdfrcv w' := by
  obtain ⟨w', hw', heffect⟩ := putInQueue_received H hs hpos ename hdfrcv
  refine ⟨w', ?_, heffect⟩
  rw [queueReq, hw', ok_bind]
  simp

/-- The server with a record for the user `uid` of the plugin `p`, in the `appdata` of the request's
socket. -/
def World.withUser (w : World ι HDF) (p : ι) (uid : Uid) (req : ReqInfo) (sock : TcpSocket ι) :
    World ι HDF :=
  let sock := { sock with appdata := some (p, uid) }
  { w with
    socks := Function.update w.socks req.tcpsock (some sock)
    userh := Function.update w.userh p ((w.userh p).insert uid ⟨uid, req.fd, req.tcpsock⟩)
    usernum := Function.update w.usernum p (w.usernum p + 1) }

/-- A user of the plugin `p` that JOIN and QUIT find on another connection than the request's. -/
def Elsewhere (w : World ι HDF) (p : ι) (uid : Uid) (req : Option ReqInfo) (u : BaseUser) : Prop :=
  baseUserFind w p uid = some u ∧ ∀ r, req = some r → ¬ (r.tcpsock = u.tcpsock ∧ r.fd = u.fd)

omit [DecidableEq ι] in
/-- The cases of `base_user_new`. -/
theorem baseUserNew_cases [DecidableEq ι] {calloc : Bool} {w : World ι HDF} {p : ι} {uid : Uid}
    {req : ReqInfo} {r : World ι HDF × Option BaseUser}
    (h : baseUserNew calloc w p uid req = .ok r) :
    (r.1 = w ∧ ((∃ u, baseUserFind w p uid = some u) ∨ calloc = false)) ∨
      ∃ sock, calloc = true ∧ baseUserFind w p uid = none ∧ w.socks req.tcpsock = some sock ∧
        r.1 = w.withUser p uid req sock := by
  unfold baseUserNew at h
  cases hfind : baseUserFind w p uid with
  | some u =>
    rw [hfind] at h
    rw [← Except.ok.inj h]
    exact .inl ⟨rfl, .inl ⟨u, rfl⟩⟩
  | none =>
    rw [hfind] at h
    cases hcalloc : calloc with
    | false =>
      rw [hcalloc] at h
      rw [← Except.ok.inj h]
      exact .inl ⟨rfl, .inr rfl⟩
    | true =>
      rw [hcalloc] at h
      cases hs : w.socks req.tcpsock with
      | none => simp [hs] at h
      | some sock =>
        simp only [hs, not_true_eq_false, if_false] at h
        rw [← Except.ok.inj h]
        exact .inr ⟨sock, rfl, rfl, rfl, rfl⟩

/-- The cases of `base_user_quit`: it drops a reference of the user's socket, or changes nothing. -/
theorem baseUserQuit_cases {w : World ι HDF} {p : ι} {uid : Uid} {req : Option ReqInfo}
    {r : World ι HDF × Bool} (h : baseUserQuit w p uid req = .ok r) :
    (r.1 = w ∧ ∀ u, ¬ Elsewhere w p uid req u) ∨
      ∃ u, Elsewhere w p uid req u ∧ tcpSocketRemoveRef w u.tcpsock = .ok r.1 := by
  unfold baseUserQuit at h
  cases hfind : baseUserFind w p uid with
  | none =>
    rw [hfind] at h
    rw [← Except.ok.inj h]
    exact .inl ⟨rfl, fun u hu => by simp [Elsewhere, hfind] at hu⟩
  | some user =>
    rw [hfind] at h
    dsimp only at h
    split_ifs at h with hsame
    · rw [← Except.ok.inj h]
      refine .inl ⟨rfl, fun u hu => ?_⟩
      obtain ⟨hu, hne⟩ := hu
      obtain ⟨r, hr, heq⟩ := Option.any_eq_true _ _ |>.mp hsame
      rw [hfind, Option.some.injEq] at hu
      subst hu
      exact hne r hr (by simpa using heq)
    · obtain ⟨w₁, h₁, h⟩ := bind_eq_ok.mp h
      rw [← Except.ok.inj h]
      refine .inr ⟨user, ⟨hfind, fun r hr heq => hsame ?_⟩, h₁⟩
      rw [hr, Option.any_some]
      simpa using heq

/-- The entry is a JOIN of the user `uid`. -/
def Joins (H : PushLib HDF) (q : QueueEntry HDF) (uid : Uid) : Prop :=
  reqGetParamStr H q.hdfrcv "userid" = .ok uid ∧ q.operation = reqCmdBaseJoin

/-- The entry is a QUIT of the user `uid`. -/
def Quits (H : PushLib HDF) (q : QueueEntry HDF) (uid : Uid) : Prop :=
  reqGetParamStr H q.hdfrcv "userid" = .ok uid ∧ q.operation = reqCmdBaseQuit

theorem userCommand_of_joins {H : PushLib HDF} {q : QueueEntry HDF} {uid : Uid}
    (h : Joins H q uid) (user : Bool) (p : ι) (w : World ι HDF) :
    userCommand H user p w q = (do
      let (w, _) ← baseUserQuit w p uid (some q.req)
      let (w, _) ← baseUserNew user w p uid q.req
      return w) := by
  rw [userCommand, h.1]
  exact if_pos h.2

theorem userCommand_of_quits {H : PushLib HDF} {q : QueueEntry HDF} {uid : Uid}
    (h : Quits H q uid) (user : Bool) (p : ι) (w : World ι HDF) :
    userCommand H user p w q = (do
      let (w, _) ← baseUserQuit w p uid none
      return w) := by
  rw [userCommand, h.1]
  dsimp only
  rw [if_neg (by rw [h.2]; decide), if_pos h.2]

theorem userCommand_of_neither {H : PushLib HDF} {q : QueueEntry HDF}
    (h : ∀ uid, ¬ Joins H q uid ∧ ¬ Quits H q uid) (user : Bool) (p : ι) (w : World ι HDF) :
    userCommand H user p w q = .ok w := by
  rw [userCommand]
  cases hparam : reqGetParamStr H q.hdfrcv "userid" with
  | error _ => rfl
  | ok uid =>
    dsimp only
    rw [if_neg fun hop => (h uid).1 ⟨hparam, hop⟩, if_neg fun hop => (h uid).2 ⟨hparam, hop⟩]

/-- The cases of a command, by what it is. -/
theorem joins_or_quits (H : PushLib HDF) (q : QueueEntry HDF) :
    (∃ uid, Joins H q uid) ∨ (∃ uid, Quits H q uid) ∨ ∀ uid, ¬ Joins H q uid ∧ ¬ Quits H q uid := by
  by_cases hjoin : ∃ uid, Joins H q uid
  · exact .inl hjoin
  by_cases hquit : ∃ uid, Quits H q uid
  · exact .inr (.inl hquit)
  · exact .inr (.inr fun uid => ⟨fun h => hjoin ⟨uid, h⟩, fun h => hquit ⟨uid, h⟩⟩)

/-- A JOIN takes its user off, and then makes or finds it. -/
theorem Joins.userCommand_iff {H : PushLib HDF} {q : QueueEntry HDF} {uid : Uid} {user : Bool} {p : ι}
    {w w' : World ι HDF} (h : Joins H q uid) :
    userCommand H user p w q = .ok w' ↔ ∃ w₁ found u,
      baseUserQuit w p uid (some q.req) = .ok (w₁, found) ∧
        baseUserNew user w₁ p uid q.req = .ok (w', u) := by
  rw [userCommand_of_joins h]
  constructor
  · intro hw
    obtain ⟨⟨w₁, found⟩, hquit, hw⟩ := bind_eq_ok.mp hw
    obtain ⟨⟨w₂, u⟩, hnew, hw⟩ := bind_eq_ok.mp hw
    rw [← Except.ok.inj hw]
    exact ⟨w₁, found, u, hquit, hnew⟩
  · rintro ⟨w₁, found, u, hquit, hnew⟩
    rw [hquit, ok_bind]
    dsimp only
    rw [hnew]
    rfl

/-- A QUIT takes its user off. -/
theorem Quits.userCommand_iff {H : PushLib HDF} {q : QueueEntry HDF} {uid : Uid} {user : Bool} {p : ι}
    {w w' : World ι HDF} (h : Quits H q uid) :
    userCommand H user p w q = .ok w' ↔ ∃ found, baseUserQuit w p uid none = .ok (w', found) := by
  rw [userCommand_of_quits h]
  constructor
  · intro hw
    obtain ⟨⟨w₁, found⟩, hquit, hw⟩ := bind_eq_ok.mp hw
    rw [← Except.ok.inj hw]
    exact ⟨found, hquit⟩
  · rintro ⟨found, hquit⟩
    rw [hquit]
    rfl

/-- What a command does, when it does not fault. -/
theorem userCommand_cases {H : PushLib HDF} {q : QueueEntry HDF} {user : Bool} {p : ι}
    {w w' : World ι HDF} (h : userCommand H user p w q = .ok w') :
    (∃ uid w₁ found u, Joins H q uid ∧ baseUserQuit w p uid (some q.req) = .ok (w₁, found) ∧
      baseUserNew user w₁ p uid q.req = .ok (w', u)) ∨
    (∃ uid found, Quits H q uid ∧ baseUserQuit w p uid none = .ok (w', found)) ∨
    (∀ uid, ¬ Joins H q uid ∧ ¬ Quits H q uid) ∧ w' = w := by
  rcases joins_or_quits H q with ⟨uid, hjoin⟩ | ⟨uid, hquit⟩ | hneither
  · obtain ⟨w₁, found, u, hquit, hnew⟩ := hjoin.userCommand_iff.mp h
    exact .inl ⟨uid, w₁, found, u, hjoin, hquit, hnew⟩
  · obtain ⟨found, hfound⟩ := hquit.userCommand_iff.mp h
    exact .inr (.inl ⟨uid, found, hquit, hfound⟩)
  · rw [userCommand_of_neither hneither] at h
    exact .inr (.inr ⟨hneither, (Except.ok.inj h).symm⟩)

/-- The server once the event loop has given up the connection `s`, before it drops its
reference. -/
def World.unlisten (w : World ι HDF) (s : ℕ) (sock : TcpSocket ι) : World ι HDF :=
  { w with
    files := Function.update w.files sock.fd none
    socks := Function.update w.socks s (some { sock with fd := -1, evt := false }) }

/-- The server with a new connection `s` on the number `fd`. -/
def World.withSocket (w : World ι HDF) (s : ℕ) (fd : ℤ) : World ι HDF :=
  { w with
    socks := Function.update w.socks s (some (newSocket ι fd))
    files := Function.update w.files fd (some s) }

/-- The server whose worker of `p` has taken `e` and left `rest`. -/
def World.withTaken (w : World ι HDF) (p : ι) (e : QueueEntry HDF) (rest : List (QueueEntry HDF)) :
    World ι HDF :=
  { w with
    queues := Function.update w.queues p rest
    running := Function.update w.running p (some e) }

/-- The server whose worker of `p` has no entry. -/
def World.withoutEntry (w : World ι HDF) (p : ι) : World ι HDF :=
  { w with running := Function.update w.running p none }

/-- The number `s` was never used. -/
def World.Unused (w : World ι HDF) (s : ℕ) : Prop := w.socks s = none ∧ s ∉ w.freed.map Prod.fst

/-- The entry that a step puts into a queue. -/
def Server.puts (H : PushLib HDF) (sv : Server ι HDF) :
    ServerStep ι HDF → Option (ι × QueueEntry HDF)
  | .request s id cmd flags ename hdfrcv =>
    match registered sv.world s with
    | none => none
    | some sock => putEntry H.toHdfLib sv.world (requestOf s sock id cmd flags) ename hdfrcv
  | _ => none

/-- The entry that a step takes out of a queue. -/
def Server.takes (sv : Server ι HDF) : ServerStep ι HDF → Option (ι × QueueEntry HDF)
  | .take p =>
    match sv.world.running p, sv.world.queues p with
    | none, e :: _ => some (p, e)
    | _, _ => none
  | _ => none

/-- The entry whose command a step runs. -/
def Server.runs (sv : Server ι HDF) : ServerStep ι HDF → Option (ι × QueueEntry HDF)
  | .process p _ =>
    match sv.world.running p with
    | some e => if sv.processed p then none else some (p, e)
    | none => none
  | _ => none

/-- What a step that does not fault does: nothing, or what its thread is ready for. -/
inductive Server.Effect (H : PushLib HDF) (sv : Server ι HDF) :
    ServerStep ι HDF → World ι HDF → Prop where
  | idle {i} (hput : sv.puts H i = none) (htake : sv.takes i = none) (hrun : sv.runs i = none) :
      Effect H sv i sv.world
  | accept {s fd} (hfd : 0 ≤ fd) (hfree : sv.world.files fd = none) (hs : sv.world.Unused s) :
      Effect H sv (.accept s fd) (sv.world.withSocket s fd)
  | request {s id cmd flags ename hdfrcv sock w'} (hs : registered sv.world s = some sock)
      (hw : Received H.toHdfLib sv.world (requestOf s sock id cmd flags) ename hdfrcv w') :
      Effect H sv (.request s id cmd flags ename hdfrcv) w'
  | refuse {s frame sock} (hs : registered sv.world s = some sock) :
      Effect H sv (.refuse s frame) (sendFrame sv.world sock.fd s frame)
  | close {s sock w'} (hs : registered sv.world s = some sock)
      (hw : tcpSocketRemoveRef (sv.world.unlisten s sock) s = .ok w') : Effect H sv (.close s) w'
  | take {p e rest} (hrun : sv.world.running p = none) (hq : sv.world.queues p = e :: rest) :
      Effect H sv (.take p) (sv.world.withTaken p e rest)
  | process {p user e w'} (hrun : sv.world.running p = some e) (hp : sv.processed p = false)
      (hw : userCommand H user p sv.world e = .ok w') : Effect H sv (.process p user) w'
  | reply {p frame e} (hrun : sv.world.running p = some e) :
      Effect H sv (.reply p frame) (sendFrame sv.world e.req.fd e.req.tcpsock frame)
  | push {p uid frame u} (hu : baseUserFind sv.world p uid = some u) (hfd : 0 < u.fd) :
      Effect H sv (.push p uid frame) (sendFrame sv.world u.fd u.tcpsock frame)
  | free {p e w'} (hrun : sv.world.running p = some e) (hp : sv.processed p = true)
      (hw : queueEntryFree (sv.world.withoutEntry p) e = .ok w') : Effect H sv (.free p) w'

/-- Every allocated socket is counted at least once. -/
def World.Counts (w : World ι HDF) : Prop := ∀ s sock, w.socks s = some sock → 0 < sock.refcount

/-- What a step does to the server. -/
theorem Server.step_effect {H : PushLib HDF} {sv sv' : Server ι HDF} {i : ServerStep ι HDF}
    (hcount : sv.world.Counts) (h : sv.step H i = .ok sv') : sv.Effect H i sv'.world := by
  cases i with
  | accept s fd =>
    rw [← Except.ok.inj h]
    -- A number that is in use, or a socket that was used before, is turned away.
    by_cases hnew : 0 ≤ fd ∧ sv.world.files fd = none ∧ sv.world.socks s = none ∧
        s ∉ sv.world.freed.map Prod.fst
    · obtain ⟨hfd, hfree, hs, hunused⟩ := hnew
      have heq : tcpNewconnection sv.world s fd = sv.world.withSocket s fd :=
        if_pos ⟨hfd, hfree, hs, hunused⟩
      dsimp only
      rw [heq]
      exact .accept hfd hfree ⟨hs, hunused⟩
    · have heq : tcpNewconnection sv.world s fd = sv.world := if_neg hnew
      dsimp only
      rw [heq]
      exact .idle rfl rfl rfl
  | request s id cmd flags ename hdfrcv =>
    simp only [Server.step] at h
    cases hs : registered sv.world s with
    | none =>
      rw [hs] at h
      rw [← Except.ok.inj h]
      exact .idle (by rw [Server.puts, hs]) rfl rfl
    | some sock =>
      rw [hs] at h
      -- A registered socket is counted, so that its request is received without a fault.
      have hsock := (registered_eq_some.mp hs).1
      obtain ⟨w', hw', heffect⟩ := queueReq_received H.toHdfLib (w := sv.world)
        (requestOf s sock id cmd flags) hsock (hcount s sock hsock) ename hdfrcv
      dsimp only at h
      rw [hw', ok_bind] at h
      rw [← Except.ok.inj h]
      exact .request hs heffect
  | refuse s frame =>
    simp only [Server.step] at h
    cases hs : registered sv.world s with
    | none =>
      rw [hs] at h
      rw [← Except.ok.inj h]
      exact .idle rfl rfl rfl
    | some sock =>
      rw [hs] at h
      rw [← Except.ok.inj h]
      exact .refuse hs
  | close s =>
    obtain ⟨w', hw', h⟩ := bind_eq_ok.mp h
    rw [← Except.ok.inj h]
    unfold tcpErrorExit at hw'
    cases hs : registered sv.world s with
    | none =>
      rw [hs] at hw'
      rw [← Except.ok.inj hw']
      exact .idle rfl rfl rfl
    | some sock =>
      rw [hs] at hw'
      exact .close hs hw'
  | take p =>
    simp only [Server.step] at h
    split at h
    · rename_i e rest hrun hq
      rw [← Except.ok.inj h]
      exact .take hrun hq
    -- The worker has an entry already or its queue is empty.
    · rename_i hno
      rw [← Except.ok.inj h]
      refine .idle rfl ?_ rfl
      unfold Server.takes
      dsimp only
      split
      · rename_i e rest hrun hq
        exact absurd hq (hno e rest hrun)
      · rfl
  | process p user =>
    simp only [Server.step] at h
    cases hrun : sv.world.running p with
    | none =>
      rw [hrun] at h
      rw [← Except.ok.inj h]
      exact .idle rfl rfl (by simp [Server.runs, hrun])
    | some e =>
      rw [hrun] at h
      dsimp only at h
      split_ifs at h with hp
      · rw [← Except.ok.inj h]
        exact .idle rfl rfl (by simp [Server.runs, hrun, hp])
      · obtain ⟨w', hw', h⟩ := bind_eq_ok.mp h
        rw [← Except.ok.inj h]
        exact .process hrun (by simpa using hp) hw'
  | fail p =>
    rw [← Except.ok.inj h]
    exact .idle rfl rfl rfl
  | reply p frame =>
    simp only [Server.step] at h
    cases hrun : sv.world.running p with
    | none =>
      rw [hrun] at h
      rw [← Except.ok.inj h]
      exact .idle rfl rfl rfl
    | some e =>
      rw [hrun] at h
      rw [← Except.ok.inj h]
      exact .reply hrun
  | push p uid frame =>
    simp only [Server.step] at h
    cases hu : baseUserFind sv.world p uid with
    | none =>
      rw [hu] at h
      rw [← Except.ok.inj h]
      exact .idle rfl rfl rfl
    | some u =>
      rw [hu] at h
      rw [← Except.ok.inj h]
      -- Nothing is sent to a number that is not positive.
      unfold baseMsgSend
      split_ifs with hfd
      · exact .idle rfl rfl rfl
      · exact .push hu (by omega)
  | free p =>
    simp only [Server.step] at h
    cases hrun : sv.world.running p with
    | none =>
      rw [hrun] at h
      rw [← Except.ok.inj h]
      exact .idle rfl rfl rfl
    | some e =>
      rw [hrun] at h
      dsimp only at h
      split_ifs at h with hp
      · obtain ⟨w', hw', h⟩ := bind_eq_ok.mp h
        rw [← Except.ok.inj h]
        exact .free hrun hp hw'
      · rw [← Except.ok.inj h]
        exact .idle rfl rfl rfl

omit [DecidableEq ι] in
theorem putEntry_eq_some {H : HdfLib HDF} {w : World ι HDF} {req : ReqInfo} {ename : List UInt8}
    {hdfrcv : HDF} {p : ι} {e : QueueEntry HDF} (h : putEntry H w req ename hdfrcv = some (p, e)) :
    e = requestEntry H req ename hdfrcv := by
  unfold putEntry at h
  cases hfind : findEntryInTable w.gMoc ename with
  | none =>
    rw [hfind] at h
    cases h
  | some entry =>
    rw [hfind] at h
    dsimp only at h
    split_ifs at h
    exact (Prod.mk.inj (Option.some.inj h)).2.symm

/-- What a step does to the queues. -/
theorem Server.Effect.queues {H : PushLib HDF} {sv : Server ι HDF} {i : ServerStep ι HDF}
    {w' : World ι HDF} (heffect : sv.Effect H i w') : w'.queues =
      match sv.puts H i with
      | some (p, e) => (enqueue sv.world p (fillSyncFlag e.req) e).queues
      | none =>
        match sv.takes i with
        | some (p, _) => Function.update sv.world.queues p (sv.world.queues p).tail
        | none => sv.world.queues := by
  cases heffect with
  | idle hput htake _ => rw [hput, htake]
  | accept => rfl
  | @request s id cmd flags ename hdfrcv sock w' hs hw =>
    have hput := hw.put
    simp only [Server.puts, hs]
    cases hentry : putEntry H.toHdfLib sv.world (requestOf s sock id cmd flags) ename hdfrcv with
    | none =>
      rw [hentry] at hput
      exact hput.2
    | some x =>
      obtain ⟨p, e⟩ := x
      rw [hentry] at hput
      rw [putEntry_eq_some hentry] at hput ⊢
      exact hput.1
  | refuse => rfl
  | close hs hw => exact (tcpSocketRemoveRef_rest hw).queues
  | take hrun hq => simp [Server.puts, Server.takes, World.withTaken, hrun, hq]
  | process hrun hp hw => exact (userCommand_rest hw).queues
  | reply => rfl
  | push => rfl
  | free hrun hp hw => exact (tcpSocketRemoveRef_rest hw).queues

omit [DecidableEq ι] in
theorem Server.runs_process {sv : Server ι HDF} {p : ι} {e : QueueEntry HDF} (user : Bool)
    (hrun : sv.world.running p = some e) (hp : sv.processed p = false) :
    sv.runs (.process p user) = some (p, e) := by
  simp [Server.runs, hrun, hp]

omit [DecidableEq ι] in
theorem Server.runs_eq_some {sv : Server ι HDF} {i : ServerStep ι HDF} {p : ι}
    {e : QueueEntry HDF} (h : sv.runs i = some (p, e)) :
    (∃ user, i = .process p user) ∧ sv.world.running p = some e ∧ sv.processed p = false := by
  cases i with
  | process p' user =>
    simp only [Server.runs] at h
    cases hrun : sv.world.running p' with
    | none =>
      rw [hrun] at h
      cases h
    | some e' =>
      rw [hrun] at h
      dsimp only at h
      split_ifs at h with hp
      obtain ⟨rfl, rfl⟩ := Prod.mk.inj (Option.some.inj h)
      exact ⟨⟨user, rfl⟩, hrun, by simpa using hp⟩
  | _ => cases h

end Moc
