import Mathlib.Data.List.FinRange
import Moc.Server.Base

/-!
# The bang plugin

`plugin/moc_bang.c` and `plugin/private/bang_internal.c`: clients join, look for a table, are
invited to one, and turn. A user is an object of its own here, whose fields are null after
`calloc()`, and everything that the C code reads through a null pointer is a fault. The commands run
on the entries of the plugin's queue, one after the other; connections come and go between them.

A hash is a finite map, and `HashOrder` is the order in which `hash_next` walks it, which depends on
the checksums of the ids.
-/

open Bytes Memory

namespace Moc

/-! ## Data -/

/-- `BANG_ROOM_TABLE_MAXIMUM` -/
def bangRoomTableMaximum : ℕ := 25

/-- `BANG_TABLE_USER_MAXIMUM` -/
def bangTableUserMaximum : ℤ := 100 / 25

/-- `REP_ERR_BANG_ERROR` -/
def repErrBangError : ℕ := 132

/-- `enum bang_battle_state` -/
inductive BattleState where
  | idle
  | toBattle
  | receiveBattle
  | acceptBattle
  | singleBattle
  | battling
  | unknown
  deriving DecidableEq

/-- The value of the enumeration. -/
def BattleState.num : BattleState → ℕ
  | .idle => 0
  | .toBattle => 1
  | .receiveBattle => 2
  | .acceptBattle => 3
  | .singleBattle => 4
  | .battling => 5
  | .unknown => 6

/-- The number of a table in the room. -/
abbrev TableId := Fin bangRoomTableMaximum

/-- A connection: the number of its `tcp_socket`, where 0 is `NULL`, and its descriptor. Every
request that is received on it carries both. -/
structure BangConn where
  tcpsock : ℕ
  fd : ℤ
  deriving DecidableEq

/-- `struct bang_user` -/
structure BangUser where
  uid : Option Uid
  conn : BangConn
  /-- `current_battling_table` -/
  table : Option TableId
  state : BattleState
  deriving DecidableEq

/-- What `calloc()` gives. -/
def BangUser.blank : BangUser := ⟨none, ⟨0, 0⟩, none, .idle⟩

/-- A hash from user ids to user objects. -/
abbrev UserHash := AList fun _ : Uid => ℕ

/-- `struct bang_table` -/
structure BangTable where
  /-- `battling_user_number` -/
  number : ℤ
  /-- `battling_user_hash` -/
  hash : UserHash

/-- `struct tcp_socket`. `evt` says that the event loop listens, and `appdata` is the user that
`on_close` destroys. -/
structure BangSocket where
  refcount : ℤ
  evt : Bool
  appdata : Option ℕ

/-- The commands of the plugin, with their parameters. -/
inductive BangCmd where
  | join (userid : Option Uid)
  | quit
  | toBattle
  | acceptBattle
  | turn (redirection : Option (List UInt8))

/-- A queue entry. -/
structure BangRequest where
  conn : BangConn
  cmd : BangCmd
  sync : Bool

/-- The plugin: `m_bang` with its room, the objects, and the worker's queue. User objects and
sockets get numbers that were not used before. -/
structure Bang where
  users : ℕ → Option BangUser
  nextUser : ℕ
  socks : BangConn → Option BangSocket
  nextSock : ℕ
  /-- `userh` and `usernum` of the base plugin. -/
  userh : UserHash
  usernum : ℤ
  /-- `bang_idle_user_hash` -/
  idleHash : UserHash
  /-- `bang_idle_user_number` -/
  idleNumber : ℤ
  tables : TableId → BangTable
  queue : List BangRequest
  /-- The entry that the worker has processed and not yet freed. -/
  running : Option BangRequest

/-- `bang_info_init` -/
def Bang.start : Bang where
  users _ := none
  nextUser := 0
  socks _ := none
  nextSock := 1
  userh := ∅
  usernum := 0
  idleHash := ∅
  idleNumber := 0
  tables _ := ⟨0, ∅⟩
  queue := []
  running := none

/-- An order in which a hash is walked. -/
structure HashOrder where
  visit : List (Σ _ : Uid, ℕ) → List (Σ _ : Uid, ℕ)
  perm : ∀ l, (visit l).Perm l

def HashOrder.listed : HashOrder := ⟨id, .refl⟩

/-- What a command finds outside the plugin: whether `calloc()` grants the user object, the error of
`base_msg_new` for the user object at hand, the order of the hashes, and what `uid` holds in
`cmd_accept_battle`, where nothing is assigned to it. -/
structure BangEnv where
  calloc : Bool
  msgNew : ℕ → Option NeoErr
  order : HashOrder
  uid : Uid

namespace Bang

/-- What a function of the plugin returns: the plugin and the error, none for `STATUS_OK`. -/
abbrev Result := Except Fault (Bang × Option NeoErr)

/-- The user object that a pointer leads to. -/
def derefUser (b : Bang) (a : ℕ) : Except Fault BangUser :=
  match b.users a with
  | none => .error .useAfterFree
  | some user => .ok user

/-- A string that is read. -/
def readStr : Option Uid → Except Fault Uid
  | none => .error .nullPointer
  | some uid => .ok uid

/-- `user->state = state;` -/
def setState (b : Bang) (a : ℕ) (state : BattleState) : Bang :=
  { b with users := Function.update b.users a ((b.users a).map fun u => { u with state := state }) }

/-- A counter that is not taken below zero. -/
def decNumber (n : ℤ) : ℤ := if n > 0 then n - 1 else n

/-- A user is taken out of the idle hash. -/
def removeIdle (b : Bang) (uid : Uid) : Bang :=
  { b with idleHash := b.idleHash.erase uid, idleNumber := decNumber b.idleNumber }

/-- `current_battling_table` is set, and the table's hash and number follow. -/
def seat (b : Bang) (t : TableId) (a : ℕ) (uid : Uid) : Bang :=
  { b with
    users := Function.update b.users a ((b.users a).map fun u => { u with table := some t })
    tables := Function.update b.tables t
      ⟨(b.tables t).number + 1, (b.tables t).hash.insert uid a⟩ }

/-- The entry `uid` is removed from the table's hash, and the number follows. -/
def leave (b : Bang) (t : TableId) (uid : Uid) : Bang :=
  { b with
    tables := Function.update b.tables t
      ⟨(b.tables t).number - 1, (b.tables t).hash.erase uid⟩ }

/-! ## Users and sockets -/

/-- `base_user_destroy` -/
def baseUserDestroy (b : Bang) (a : ℕ) (uid : Uid) : Bang :=
  { b with
    userh := b.userh.erase uid
    usernum := decNumber b.usernum
    users := Function.update b.users a none }

/-- `bang_user_destroy` -/
def bangUserDestroy (b : Bang) (a : ℕ) : Except Fault Bang := do
  let user ← b.derefUser a
  let uid ← readStr user.uid
  let b := if (b.idleHash.lookup uid).isSome then b.removeIdle uid else b
  let b := { b with userh := b.userh.erase uid, usernum := decNumber b.usernum }
  match user.table with
  | none => .error .nullPointer
  | some t => return (b.leave t uid).baseUserDestroy a uid

/-- `tcp_socket_free` of the connection `c`, whose socket is `sock`. -/
def tcpSocketFree (b : Bang) (c : BangConn) (sock : BangSocket) : Except Fault Bang := do
  let b ← (match sock.appdata with
    | some a => b.bangUserDestroy a
    | none => .ok b)
  return { b with socks := Function.update b.socks c none }

/-- `tcp_socket_remove_ref` -/
def tcpSocketRemoveRef (b : Bang) (c : BangConn) : Except Fault Bang :=
  match b.socks c with
  | none => .error .useAfterFree
  | some sock =>
    if sock.refcount ≤ 0 then .ok b
    else
      let sock := { sock with refcount := sock.refcount - 1 }
      let b := { b with socks := Function.update b.socks c (some sock) }
      if sock.refcount = 0 then b.tcpSocketFree c sock else .ok b

/-- `base_user_quit` for the request `q`, which compares socket and descriptor. -/
def baseUserQuit (b : Bang) (uid : Uid) (q : BangRequest) : Except Fault (Bang × Bool) :=
  match b.userh.lookup uid with
  | none => .ok (b, false)
  | some a => do
    let user ← b.derefUser a
    if q.conn = user.conn then return (b, false)
    else
      let b ← b.tcpSocketRemoveRef user.conn
      return (b, true)

/-- `base_user_new` for the request `q` with the object `ruser`. A user that is filed under `uid`
already is returned instead. -/
def baseUserNew (b : Bang) (uid : Uid) (q : BangRequest) (ruser : ℕ) : Except Fault (Bang × ℕ) :=
  match b.userh.lookup uid with
  | some a => .ok (b, a)
  | none => do
    let user ← b.derefUser ruser
    match b.socks q.conn with
    | none => .error .useAfterFree
    | some sock =>
      let user := { user with uid := some uid, conn := q.conn }
      return ({ b with
        users := Function.update b.users ruser (some user)
        socks := Function.update b.socks q.conn (some { sock with appdata := some ruser })
        userh := b.userh.insert uid ruser
        usernum := b.usernum + 1 }, ruser)

/-- `REQ_GET_PARAM_STR` -/
def getParamStr (key : String) : Option (List UInt8) → Except NeoErr (List UInt8)
  | none => .error ⟨repErrBadparam, ascii "need " ++ ascii key⟩
  | some val => if val = [] then .error ⟨repErrBadparam, ascii "need " ++ ascii key⟩ else .ok val

/-- `base_msg_send` as far as the plugin sees it. -/
def baseMsgSend (fd : ℤ) : Option NeoErr :=
  if fd ≤ 0 then some ⟨nerrAssert, utf8 "fd 非法"⟩ else none

/-! ## States -/

/-- `bang_state_transit_idle` -/
def bangStateTransitIdle (b : Bang) (a : ℕ) : Except Fault Bang := do
  let user ← b.derefUser a
  let uid ← readStr user.uid
  if (b.idleHash.lookup uid).isSome then return b.setState a .idle
  else
    let b := { b with idleHash := b.idleHash.insert uid a, idleNumber := b.idleNumber + 1 }
    return b.setState a .idle

/-- `bang_state_transit_battling` -/
def bangStateTransitBattling (b : Bang) (env : BangEnv) (a : ℕ) : Result := do
  let user ← b.derefUser a
  let uid ← readStr user.uid
  if (b.idleHash.lookup uid).isNone then return (b.setState a .unknown, none)
  else
    let b := (b.removeIdle uid).setState a .battling
    match user.table with
    | none => .error .nullPointer
    | some _ =>
      match env.msgNew a with
      | some err => return (b, some err)
      | none => return (b, baseMsgSend user.conn.fd)

/-- `bang_user_new` -/
def bangUserNew (b : Bang) (env : BangEnv) (q : BangRequest) (userid : Option Uid) : Result :=
  match getParamStr "userid" userid with
  | .error err => .ok (b, some err)
  | .ok userid =>
    if ¬ env.calloc then
      .ok (b, some ⟨nerrNomem, ascii "error occurs when allocating for bang user"⟩)
    else do
      let ruser := b.nextUser
      let b := { b with
        users := Function.update b.users ruser (some .blank), nextUser := b.nextUser + 1 }
      let (b, _) ← b.baseUserQuit userid q
      let (b, _) ← b.baseUserNew userid q ruser
      let b ← b.bangStateTransitIdle ruser
      return (b, none)

/-! ## Tables -/

/-- `bang_autoselect_table_in_room` -/
def bangAutoselectTableInRoom (b : Bang) : Option TableId :=
  match (List.finRange bangRoomTableMaximum).find? fun t =>
      1 ≤ (b.tables t).number ∧ (b.tables t).number ≤ bangTableUserMaximum - 1 with
  | some t => some t
  | none => (List.finRange bangRoomTableMaximum).find? fun t => (b.tables t).number = 0

/-- The loop of `bang_broadcast_to_battle_message` over the idle users. A failed `base_msg_send` is
only traced. -/
def inviteIdle (t : TableId) (a : ℕ) (noticenum : ℤ) :
    Bang → List (Σ _ : Uid, ℕ) → Except Fault Bang
  | b, [] => .ok b
  | b, ⟨_, o⟩ :: rest => do
    let ouser ← b.derefUser o
    if o = a ∨ ouser.state ≠ .idle then inviteIdle t a noticenum b rest
    else if (b.tables t).number > noticenum then return b
    else
      let uid ← readStr ouser.uid
      inviteIdle t a noticenum ((b.seat t o uid).setState o .receiveBattle) rest

/-- `noticenum` -/
def noticenum (b : Bang) : ℤ :=
  if b.idleNumber < bangTableUserMaximum then b.idleNumber else bangTableUserMaximum - 1

/-- `bang_broadcast_to_battle_message` -/
def bangBroadcastToBattleMessage (b : Bang) (env : BangEnv) (a : ℕ) : Result := do
  let user ← b.derefUser a
  if user.state ≠ .idle then
    return (b, some ⟨repErrBangError, Decimal.print user.state.num ++ utf8 " 状态非空闲，不可接受"⟩)
  else
    match b.bangAutoselectTableInRoom with
    | none => .error .nullPointer
    | some t =>
      let uid ← readStr user.uid
      let b := b.seat t a uid
      if (b.tables t).number > 1 ∧ (b.tables t).number ≤ 4 then b.bangStateTransitBattling env a
      else if b.noticenum ≤ 1 then return (b.setState a .singleBattle, none)
      else
        match env.msgNew a with
        -- The user stays idle, at the table.
        | some err => return (b, some err)
        | none =>
          let b ← inviteIdle t a b.noticenum b (env.order.visit b.idleHash.entries)
          return (b.setState a .toBattle, none)

/-! ## Commands -/

/-- `BASE_GET_USER`: the user in the `appdata` of the request's socket, or the error. -/
def baseGetUser (b : Bang) (q : BangRequest) : Except Fault (Except NeoErr ℕ) :=
  match b.socks q.conn with
  | none => .error .useAfterFree
  | some sock =>
    match sock.appdata with
    | none => .ok (.error ⟨repErrBadparam, utf8 "请先登陆"⟩)
    | some a => .ok (.ok a)

/-- `cmd_join` -/
def cmdJoin (b : Bang) (env : BangEnv) (q : BangRequest) (userid : Option Uid) : Result := do
  let ruser := b.nextUser
  let (b, err) ← b.bangUserNew env q userid
  match err with
  | some err => return (b, some err)
  | none =>
    if q.sync then return (b, none)
    else
      -- `base_msg_touser`
      match env.msgNew ruser with
      | some err => return (b, some err)
      | none => return (b, baseMsgSend q.conn.fd)

/-- `cmd_quit`. A null id is not found by `base_user_find`. -/
def cmdQuit (b : Bang) (q : BangRequest) : Result := do
  match ← b.baseGetUser q with
  | .error err => return (b, some err)
  | .ok a =>
    let user ← b.derefUser a
    match user.uid with
    | none => return (b, none)
    | some uid =>
      let (b, _) ← b.baseUserQuit uid q
      return (b, none)

/-- `cmd_to_battle` -/
def cmdToBattle (b : Bang) (env : BangEnv) (q : BangRequest) : Result := do
  match ← b.baseGetUser q with
  | .error err => return (b, some err)
  | .ok a => b.bangBroadcastToBattleMessage env a

/-- The first loop of `cmd_accept_battle`, on the hash of the table. An entry that was removed is
not reached any more; `hash_next` goes on at the front of its chain, where it changes nothing again.
-/
def rejectOthers (b : Bang) (a : ℕ) (uid : Uid) :
    UserHash → List (Σ _ : Uid, ℕ) → Except Fault UserHash
  | hash, [] => .ok hash
  | hash, ⟨k, o⟩ :: rest => do
    if (hash.lookup k).isNone then rejectOthers b a uid hash rest
    else
      let ouser ← b.derefUser o
      if o ≠ a ∧ ouser.state ≠ .toBattle then rejectOthers b a uid (hash.erase uid) rest
      else rejectOthers b a uid hash rest

/-- The second loop of `cmd_accept_battle`. -/
def battleAll (env : BangEnv) : Bang → List (Σ _ : Uid, ℕ) → Result
  | b, [] => .ok (b, none)
  | b, ⟨_, o⟩ :: rest => do
    let (b, err) ← b.bangStateTransitBattling env o
    match err with
    | some err => return (b, some err)
    | none => battleAll env b rest

/-- `cmd_accept_battle` -/
def cmdAcceptBattle (b : Bang) (env : BangEnv) (q : BangRequest) : Result := do
  match ← b.baseGetUser q with
  | .error err => return (b, some err)
  | .ok a =>
    let user ← b.derefUser a
    let b := b.setState a .acceptBattle
    match user.table with
    | none => .error .nullPointer
    | some t =>
      let table := b.tables t
      let hash ← b.rejectOthers a env.uid table.hash (env.order.visit table.hash.entries)
      let b := { b with tables := Function.update b.tables t { table with hash := hash } }
      battleAll env b (env.order.visit hash.entries)

/-- The loop of `cmd_turn`, which sends to the users that are battling. -/
def tellTable (b : Bang) : List (Σ _ : Uid, ℕ) → Except Fault Unit
  | [] => .ok ()
  | ⟨_, o⟩ :: rest => do
    let _ ← b.derefUser o
    b.tellTable rest

/-- `cmd_turn` -/
def cmdTurn (b : Bang) (env : BangEnv) (q : BangRequest) (redirection : Option (List UInt8)) :
    Result := do
  match ← b.baseGetUser q with
  | .error err => return (b, some err)
  | .ok a =>
    let appdata ← b.derefUser a
    match getParamStr "redirection" redirection with
    | .error err => return (b, some err)
    | .ok _ =>
      let uid ← readStr appdata.uid
      let found := b.userh.lookup uid
      match env.msgNew a with
      | some err => return (b, some err)
      | none =>
        match found with
        | none => .error .nullPointer
        | some a =>
          let user ← b.derefUser a
          match user.table with
          | none => .error .nullPointer
          | some t =>
            b.tellTable (env.order.visit (b.tables t).hash.entries)
            return (b, none)

/-- The commands of `bang_process_driver`. -/
def processDriver (b : Bang) (env : BangEnv) (q : BangRequest) : Result :=
  match q.cmd with
  | .join userid => b.cmdJoin env q userid
  | .quit => b.cmdQuit q
  | .toBattle => b.cmdToBattle env q
  | .acceptBattle => b.cmdAcceptBattle env q
  | .turn redirection => b.cmdTurn env q redirection

end Bang

/-! ## Steps -/

/-- A step of the event loop or of the worker. -/
inductive BangStep where
  /-- A connection on the number `fd`. -/
  | accept (fd : ℤ)
  /-- A request on the connection `c` goes to the queue. -/
  | request (c : BangConn) (cmd : BangCmd) (sync : Bool)
  /-- The end of the stream or an error on `c`. -/
  | close (c : BangConn)
  /-- The worker takes an entry and processes it. -/
  | process (env : BangEnv)
  /-- It frees the entry. -/
  | free

/-- One step. A step that its thread is not ready for changes nothing. -/
def Bang.step (b : Bang) : BangStep → Except Fault Bang
  | .accept fd =>
    if fd < 0 then .ok b
    else .ok { b with
      socks := Function.update b.socks ⟨b.nextSock, fd⟩ (some ⟨1, true, none⟩)
      nextSock := b.nextSock + 1 }
  | .request c cmd sync =>
    match b.socks c with
    | none => .ok b
    | some sock =>
      if sock.evt then
        .ok { b with
          socks := Function.update b.socks c (some { sock with refcount := sock.refcount + 1 })
          queue := b.queue ++ [⟨c, cmd, sync⟩] }
      else .ok b
  | .close c =>
    match b.socks c with
    | none => .ok b
    | some sock =>
      if sock.evt then
        let sock := { sock with evt := false }
        { b with socks := Function.update b.socks c (some sock) }.tcpSocketRemoveRef c
      else .ok b
  | .process env =>
    match b.running, b.queue with
    | none, q :: rest => do
      let (b, _) ← { b with queue := rest, running := some q }.processDriver env q
      return b
    | _, _ => .ok b
  | .free =>
    match b.running with
    | none => .ok b
    | some q => { b with running := none }.tcpSocketRemoveRef q.conn

/-- One step of a plugin that may have faulted. -/
def Bang.next (x : Except Fault Bang) (i : BangStep) : Except Fault Bang := x >>= fun b => b.step i

end Moc
