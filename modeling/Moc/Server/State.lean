import Mathlib.Data.List.AList
import Mathlib.Logic.Function.Basic
import Moc.Packet

/-!
# The server's state

The data that the server's functions share: the request record of `server/req.h`, the sockets of
`server/tcp.h`, the queue entries of `server/queue.h`, the plugin table of `server/mocd.h`, the
users of `plugin/moc_base.h`, and the counters of `server/syscmd.h`. A pointer to a `tcp_socket` is
the number of the object, which also names the connection it was accepted for: numbers are not
reused, unlike addresses and descriptors. The plugins are an index type `ι`.

`World` also has what the code reaches through the kernel: the descriptor table, and the frames
written so far with the connection that each one reached.
-/

open Bytes Memory

namespace Moc

/-- `struct stats` -/
structure Stats where
  msgTipc : ℕ
  msgTcp : ℕ
  msgUdp : ℕ
  msgSctp : ℕ
  netVersionMismatch : ℕ
  netBrokenReq : ℕ
  netUnkReq : ℕ
  proBusy : ℕ
  deriving DecidableEq

/-- `struct req_info`. `id` holds what the field holds on a little-endian host: the plain id on a
version mismatch, and the id in network byte order after that check. -/
structure ReqInfo where
  fd : ℤ
  clisa : List UInt8
  id : ℕ
  cmd : ℕ
  flags : ℕ
  /-- Position of the payload in the received message; `NULL` in a queued copy. -/
  payload : Option ℕ
  psize : ℕ
  tcpsock : ℕ
  deriving DecidableEq

/-- `struct queue_entry`. The name is a copy of its `esize` bytes. -/
structure QueueEntry (HDF : Type) where
  operation : ℕ
  req : ReqInfo
  ename : List UInt8
  hdfrcv : HDF
  hdfsnd : HDF

/-- A user id, a C string. -/
abbrev Uid := List UInt8

/-- `struct base_user`, without the printable address. -/
structure BaseUser where
  uid : Uid
  fd : ℤ
  tcpsock : ℕ
  deriving DecidableEq

/-- `struct tcp_socket`, without the receive buffer. `evt` says that the event registration exists,
and `appdata` names the user record that `on_close` destroys. -/
structure TcpSocket (ι : Type) where
  refcount : ℤ
  fd : ℤ
  evt : Bool
  appdata : Option (ι × Uid)

/-- `struct event_entry`: the name a plugin is found under, and its queue. -/
structure EventEntry (ι : Type) where
  name : List UInt8
  opQueue : ι

/-- `struct moc`: the hash table of plugins. `moc_start` makes it with 16 chains. -/
structure MocTable (ι : Type) where
  hashlen : ℕ
  hashlen_pos : 0 < hashlen
  table : ℕ → List (EventEntry ι)

/-- A table without plugins. -/
def MocTable.empty (ι : Type) : MocTable ι := ⟨16, by norm_num, fun _ => []⟩

/-- A frame given to `send()` on the descriptor `fd`: whom it is for, and which connection the
number was open on. -/
structure Sent where
  fd : ℤ
  meant : ℕ
  reached : Option ℕ
  frame : List UInt8
  deriving DecidableEq

/-- The server. -/
structure World (ι HDF : Type) where
  /-- `g_stat` -/
  stat : Stats
  /-- `g_cfg` -/
  cfg : HDF
  /-- `g_moc` -/
  gMoc : MocTable ι
  /-- The allocated `tcp_socket` objects. -/
  socks : ℕ → Option (TcpSocket ι)
  /-- Each plugin's queue, the next entry to take first. -/
  queues : ι → List (QueueEntry HDF)
  /-- The entry that each plugin's worker has taken and not yet freed. -/
  running : ι → Option (QueueEntry HDF)
  /-- Each plugin's `userh`. -/
  userh : ι → AList (fun _ : Uid => BaseUser)
  /-- Each plugin's `usernum`. -/
  usernum : ι → ℤ
  /-- The descriptor table: the connection that each open number belongs to. -/
  files : ℤ → Option ℕ
  /-- What was sent, oldest first. -/
  sent : List Sent
  /-- The sockets freed so far, and whether each was still registered with the event loop. -/
  freed : List (ℕ × Bool)

/-- `sys_stats_init` -/
def sysStatsInit : Stats := ⟨0, 0, 0, 0, 0, 0, 0, 0⟩

/-- The server once its plugins are loaded, before the first connection. -/
def World.start {ι HDF : Type} (cfg : HDF) (gMoc : MocTable ι) : World ι HDF where
  stat := sysStatsInit
  cfg := cfg
  gMoc := gMoc
  socks _ := none
  queues _ := []
  running _ := none
  userh _ := ∅
  usernum _ := 0
  files _ := none
  sent := []
  freed := []

/-- The entry of an updated table. -/
theorem update_eq_some {κ α : Type} [DecidableEq κ] {f : κ → Option α} {k k' : κ} {x : Option α}
    {b : α} : Function.update f k x k' = some b ↔ k' = k ∧ x = some b ∨ k' ≠ k ∧ f k' = some b := by
  by_cases h : k' = k
  · subst h
    simp
  · simp [h]

variable {ι HDF : Type} [DecidableEq ι]

/-! ## Reference counts -/

/-- `base_user_destroy` on the record filed under `uid`, as the `on_close` callback runs it. -/
def baseUserDestroy (w : World ι HDF) (p : ι) (uid : Uid) : World ι HDF :=
  { w with
    userh := Function.update w.userh p ((w.userh p).erase uid)
    usernum := if w.usernum p > 0 then Function.update w.usernum p (w.usernum p - 1)
      else w.usernum }

/-- `tcp_socket_free` of the object `s`, whose fields are `sock`. -/
def tcpSocketFree (w : World ι HDF) (s : ℕ) (sock : TcpSocket ι) : World ι HDF :=
  let w := if sock.fd > 0 then { w with files := Function.update w.files sock.fd none } else w
  let w := match sock.appdata with
    | some (p, uid) => baseUserDestroy w p uid
    | none => w
  { w with socks := Function.update w.socks s none, freed := w.freed ++ [(s, sock.evt)] }

/-- `tcp_socket_add_ref` -/
def tcpSocketAddRef (w : World ι HDF) (s : ℕ) : Except Fault (World ι HDF) :=
  match w.socks s with
  | none => .error .useAfterFree
  | some sock =>
    let sock := { sock with refcount := sock.refcount + 1 }
    .ok { w with socks := Function.update w.socks s (some sock) }

/-- `tcp_socket_remove_ref` -/
def tcpSocketRemoveRef (w : World ι HDF) (s : ℕ) : Except Fault (World ι HDF) :=
  match w.socks s with
  | none => .error .useAfterFree
  | some sock =>
    if sock.refcount ≤ 0 then .ok w
    else
      let sock := { sock with refcount := sock.refcount - 1 }
      let w := { w with socks := Function.update w.socks s (some sock) }
      if sock.refcount = 0 then .ok (tcpSocketFree w s sock) else .ok w

/-- `queue_entry_free` of an entry that has its request record. -/
def queueEntryFree (w : World ι HDF) (e : QueueEntry HDF) : Except Fault (World ι HDF) :=
  tcpSocketRemoveRef w e.req.tcpsock

/-! ## What the reference counts leave alone -/

/-- The same server but for its objects, users and descriptors. -/
structure World.SameRest (w w' : World ι HDF) : Prop where
  stat : w'.stat = w.stat
  cfg : w'.cfg = w.cfg
  gMoc : w'.gMoc = w.gMoc
  queues : w'.queues = w.queues
  running : w'.running = w.running
  sent : w'.sent = w.sent

omit [DecidableEq ι] in
theorem World.SameRest.refl (w : World ι HDF) : w.SameRest w := ⟨rfl, rfl, rfl, rfl, rfl, rfl⟩

omit [DecidableEq ι] in
theorem World.SameRest.trans {w₁ w₂ w₃ : World ι HDF} (h : w₁.SameRest w₂) (h' : w₂.SameRest w₃) :
    w₁.SameRest w₃ :=
  ⟨h'.stat.trans h.stat, h'.cfg.trans h.cfg, h'.gMoc.trans h.gMoc, h'.queues.trans h.queues,
    h'.running.trans h.running, h'.sent.trans h.sent⟩

section
variable (w : World ι HDF) (s : ℕ) (sock : TcpSocket ι)

theorem tcpSocketFree_rest : w.SameRest (tcpSocketFree w s sock) := by
  unfold tcpSocketFree baseUserDestroy
  cases sock.appdata <;> dsimp only <;> split_ifs <;> exact ⟨rfl, rfl, rfl, rfl, rfl, rfl⟩

@[simp] theorem tcpSocketFree_socks :
    (tcpSocketFree w s sock).socks = Function.update w.socks s none := by
  unfold tcpSocketFree baseUserDestroy
  cases sock.appdata <;> dsimp only <;> split_ifs <;> rfl

@[simp] theorem tcpSocketFree_freed :
    (tcpSocketFree w s sock).freed = w.freed ++ [(s, sock.evt)] := by
  unfold tcpSocketFree baseUserDestroy
  cases sock.appdata <;> dsimp only <;> split_ifs <;> rfl

/-- Freeing a socket closes at most its own number. -/
theorem tcpSocketFree_files : (tcpSocketFree w s sock).files =
    if sock.fd > 0 then Function.update w.files sock.fd none else w.files := by
  unfold tcpSocketFree baseUserDestroy
  cases sock.appdata <;> dsimp only <;> split_ifs <;> rfl

/-- Freeing a socket destroys the user in its `appdata`. -/
theorem tcpSocketFree_userh : (tcpSocketFree w s sock).userh =
    match sock.appdata with
    | some (p, uid) => Function.update w.userh p ((w.userh p).erase uid)
    | none => w.userh := by
  unfold tcpSocketFree baseUserDestroy
  cases sock.appdata <;> dsimp only <;> split_ifs <;> rfl

end

omit [DecidableEq ι] in
theorem tcpSocketAddRef_of_some {w : World ι HDF} {s : ℕ} {sock : TcpSocket ι}
    (h : w.socks s = some sock) : tcpSocketAddRef w s = .ok { w with
      socks := Function.update w.socks s (some { sock with refcount := sock.refcount + 1 }) } := by
  rw [tcpSocketAddRef, h]

omit [DecidableEq ι] in
theorem tcpSocketAddRef_rest {w w' : World ι HDF} {s : ℕ} (h : tcpSocketAddRef w s = .ok w') :
    w.SameRest w' := by
  unfold tcpSocketAddRef at h
  split at h
  · cases h
  · rw [← Except.ok.inj h]
    exact ⟨rfl, rfl, rfl, rfl, rfl, rfl⟩

theorem tcpSocketRemoveRef_of_none {w : World ι HDF} {s : ℕ} (h : w.socks s = none) :
    tcpSocketRemoveRef w s = .error .useAfterFree := by
  rw [tcpSocketRemoveRef, h]

/-- Dropping one of several references. -/
theorem tcpSocketRemoveRef_of_gt {w : World ι HDF} {s : ℕ} {sock : TcpSocket ι}
    (h : w.socks s = some sock) (hgt : 1 < sock.refcount) :
    tcpSocketRemoveRef w s = .ok { w with
      socks := Function.update w.socks s (some { sock with refcount := sock.refcount - 1 }) } := by
  rw [tcpSocketRemoveRef, h]
  dsimp only
  rw [if_neg (by omega), if_neg (by omega)]

/-- Dropping the last reference. -/
theorem tcpSocketRemoveRef_of_one {w : World ι HDF} {s : ℕ} {sock : TcpSocket ι}
    (h : w.socks s = some sock) (hone : sock.refcount = 1) :
    tcpSocketRemoveRef w s = .ok (tcpSocketFree { w with
      socks := Function.update w.socks s (some { sock with refcount := 0 }) } s
        { sock with refcount := 0 }) := by
  rw [tcpSocketRemoveRef, h]
  dsimp only
  rw [if_neg (by omega), if_pos (by omega), hone]
  rfl

/-- Dropping a reference that is not counted. -/
theorem tcpSocketRemoveRef_of_le {w : World ι HDF} {s : ℕ} {sock : TcpSocket ι}
    (h : w.socks s = some sock) (hle : sock.refcount ≤ 0) : tcpSocketRemoveRef w s = .ok w := by
  rw [tcpSocketRemoveRef, h]
  dsimp only
  rw [if_pos hle]

theorem tcpSocketRemoveRef_rest {w w' : World ι HDF} {s : ℕ}
    (h : tcpSocketRemoveRef w s = .ok w') : w.SameRest w' := by
  unfold tcpSocketRemoveRef at h
  split at h
  · cases h
  · dsimp only at h
    split_ifs at h
    · rw [← Except.ok.inj h]
      exact .refl w
    · rw [← Except.ok.inj h]
      refine World.SameRest.trans ?_ (tcpSocketFree_rest _ _ _)
      exact ⟨rfl, rfl, rfl, rfl, rfl, rfl⟩
    · rw [← Except.ok.inj h]
      exact ⟨rfl, rfl, rfl, rfl, rfl, rfl⟩

end Moc
