import Moc.Server.Cache
import Moc.Server.Parse

/-!
# The base and chat plugins

`plugin/private/base_internal.c`, `plugin/moc_base.c` and `plugin/moc_chat.c`, with the cache
commands of `server/syscmd.c` and the worker's part of `server/mocd.c`. Each plugin has its own
users; a connection's `tcp_socket` has one `appdata` slot for all of them. A command returns the
queue entry, whose datasets it changes, and its error. Frames are sent whole here.
-/

open Bytes Memory Dll

namespace Moc

variable {ι HDF : Type} [DecidableEq ι]

/-! ## Users -/

/-- `base_user_find` -/
def baseUserFind (w : World ι HDF) (p : ι) (uid : Uid) : Option BaseUser := (w.userh p).lookup uid

/-- `base_user_new` for the request `req`, when no user data is given and `base_user_destroy` is the
callback; `calloc` says whether the record is granted. -/
def baseUserNew (calloc : Bool) (w : World ι HDF) (p : ι) (uid : Uid) (req : ReqInfo) :
    Except Fault (World ι HDF × Option BaseUser) :=
  match baseUserFind w p uid with
  | some user => .ok (w, some user)
  | none =>
    if ¬ calloc then .ok (w, none)
    else
      match w.socks req.tcpsock with
      | none => .error .useAfterFree
      | some sock =>
        let user : BaseUser := ⟨uid, req.fd, req.tcpsock⟩
        .ok ({ w with
          socks := Function.update w.socks req.tcpsock (some { sock with appdata := some (p, uid) })
          userh := Function.update w.userh p ((w.userh p).insert uid user)
          usernum := Function.update w.usernum p (w.usernum p + 1) }, some user)

/-- `base_user_quit`; `req` is the request of the entry, when the caller passes one. -/
def baseUserQuit (w : World ι HDF) (p : ι) (uid : Uid) (req : Option ReqInfo) :
    Except Fault (World ι HDF × Bool) :=
  match baseUserFind w p uid with
  | none => .ok (w, false)
  | some user =>
    if req.any fun r => r.tcpsock = user.tcpsock && r.fd = user.fd then .ok (w, false)
    else do
      let w ← tcpSocketRemoveRef w user.tcpsock
      return (w, true)

/-! ## Messages -/

/-- The outcomes of the allocations a command makes. -/
structure CmdAllocs where
  /-- The record of `base_user_new`. -/
  user : Bool
  /-- The message buffer of `base_msg_new`. -/
  msg : Bool
  /-- The allocations of `cache_set`. -/
  cache : CacheAllocs
  /-- The cache structure and the table of `cache_create`. -/
  table : Bool × Bool

/-- Every allocation succeeds. -/
def CmdAllocs.granted : CmdAllocs := ⟨true, true, .granted, (true, true)⟩

/-- `base_msg_new`: the dataset, to which the command was added, and the frame of a push or an
error. -/
def baseMsgNew (H : PushLib HDF) (calloc : Bool) (cmd : List UInt8) (datanode : HDF) :
    Except Fault (HDF × Except NeoErr (List UInt8)) :=
  let datanode := H.setValue datanode "_Reserve" (ascii "moc")
  match H.setAttr datanode "_Reserve" (ascii "cmd") cmd with
  | none =>
    .ok (datanode, .error ⟨nerrAssert, ascii "Unable to set attribute on none existant node"⟩)
  | some datanode => do
    let (buf, vsize) ← packHdf H.toHdfLib datanode (List.replicate maxPacketLen 0) 0 maxPacketLen
    if vsize = 0 then return (datanode, .error ⟨nerrAssert, ascii "packet error"⟩)
    else if ¬ calloc then return (datanode, .error ⟨nerrNomem, ascii "alloc msg buffer"⟩)
    else return (datanode, .ok (longFrame 0 10000 (buf.take vsize)))

/-- `base_msg_send` of a frame for the connection `meant`, when the kernel takes the whole frame. -/
def baseMsgSend (w : World ι HDF) (frame : List UInt8) (fd : ℤ) (meant : ℕ) :
    World ι HDF × Option NeoErr :=
  if fd ≤ 0 then (w, some ⟨nerrAssert, utf8 "fd 非法"⟩) else (sendFrame w fd meant frame, none)

/-- `base_msg_touser` -/
def baseMsgTouser (H : PushLib HDF) (calloc : Bool) (w : World ι HDF) (cmd : List UInt8)
    (datanode : HDF) (fd : ℤ) (meant : ℕ) : Except Fault (World ι HDF × HDF × Option NeoErr) := do
  let (datanode, buf) ← baseMsgNew H calloc cmd datanode
  match buf with
  | .error err => return (w, datanode, some err)
  | .ok buf =>
    let (w, err) := baseMsgSend w buf fd meant
    return (w, datanode, err)

/-! ## Commands -/

/-- `REQ_GET_PARAM_STR`: the parameter, or the error of a missing or empty one. -/
def reqGetParamStr (H : PushLib HDF) (hdf : HDF) (key : String) : Except NeoErr (List UInt8) :=
  match H.getValue hdf key with
  | none => .error ⟨repErrBadparam, ascii "need " ++ ascii key⟩
  | some val => if val = [] then .error ⟨repErrBadparam, ascii "need " ++ ascii key⟩ else .ok val

/-- What a command returns: the server, the entry and the error, none for `STATUS_OK`. -/
abbrev CmdResult (ι HDF : Type) := World ι HDF × QueueEntry HDF × Option NeoErr

/-- The end of `base_cmd_join` and `base_cmd_quit`: an asynchronous request is told by a push. -/
def toldByPush (H : PushLib HDF) (m : CmdAllocs) (w : World ι HDF) (q : QueueEntry HDF)
    (cmd : List UInt8) : Except Fault (CmdResult ι HDF) := do
  let q := { q with hdfsnd := H.setValue q.hdfsnd "success" (ascii "1") }
  if fillSyncFlag q.req then return (w, q, none)
  else
    let (w, hdfsnd, err) ← baseMsgTouser H m.msg w cmd q.hdfsnd q.req.fd q.req.tcpsock
    return (w, { q with hdfsnd := hdfsnd }, err)

/-- `base_cmd_join` -/
def baseCmdJoin (H : PushLib HDF) (m : CmdAllocs) (p : ι) (w : World ι HDF) (q : QueueEntry HDF) :
    Except Fault (CmdResult ι HDF) :=
  match reqGetParamStr H q.hdfrcv "userid" with
  | .error err => .ok (w, q, some err)
  | .ok uid => do
    let (w, _) ← baseUserQuit w p uid (some q.req)
    let (w, _) ← baseUserNew m.user w p uid q.req
    toldByPush H m w q (ascii "login")

/-- `base_cmd_quit` -/
def baseCmdQuit (H : PushLib HDF) (m : CmdAllocs) (p : ι) (w : World ι HDF) (q : QueueEntry HDF) :
    Except Fault (CmdResult ι HDF) :=
  match reqGetParamStr H q.hdfrcv "userid" with
  | .error err => .ok (w, q, some err)
  | .ok uid => do
    let (w, _) ← baseUserQuit w p uid none
    toldByPush H m w q (ascii "logout")

/-- The loop over the users of the plugin `p` that sends a message to everybody but `uid`. -/
def tellOthers (w : World ι HDF) (p : ι) (uid : Uid) (msgbuf : List UInt8) : World ι HDF :=
  (w.userh p).entries.foldl (fun w user =>
    if uid ≠ user.2.uid then (baseMsgSend w msgbuf user.2.fd user.2.tcpsock).1 else w) w

/-- The message of a chat command: the node `PRE_OUTPUT` of the request as a push. -/
def chatMsg (H : PushLib HDF) (m : CmdAllocs) (cmd : List UInt8) (hdfrcv : HDF) :
    Except Fault (Except NeoErr (List UInt8)) :=
  match H.getObj hdfrcv "Output" with
  | none => .ok (.error H.nullParam)
  | some msgnode => do
    let (_, msg) ← baseMsgNew H m.msg cmd msgnode
    return msg

/-- `cmd_join` of the chat plugin. -/
def chatCmdJoin (H : PushLib HDF) (m : CmdAllocs) (p : ι) (w : World ι HDF) (q : QueueEntry HDF) :
    Except Fault (CmdResult ι HDF) :=
  match reqGetParamStr H q.hdfrcv "userid" with
  | .error err => .ok (w, q, some err)
  | .ok uid => do
    let (w, _) ← baseUserQuit w p uid (some q.req)
    let (w, _) ← baseUserNew m.user w p uid q.req
    let q := { q with hdfrcv := H.setValue q.hdfrcv "Output.userid" uid }
    let msg ← chatMsg H m (ascii "join") q.hdfrcv
    match msg with
    | .error err => return (w, q, some err)
    | .ok msgbuf => return (tellOthers w p uid msgbuf, q, none)

/-- `cmd_quit` of the chat plugin. -/
def chatCmdQuit (H : PushLib HDF) (m : CmdAllocs) (p : ι) (w : World ι HDF) (q : QueueEntry HDF) :
    Except Fault (CmdResult ι HDF) :=
  match reqGetParamStr H q.hdfrcv "userid" with
  | .error err => .ok (w, q, some err)
  | .ok uid => do
    let q := { q with hdfrcv := H.setValue q.hdfrcv "Output.userid" uid }
    let msg ← chatMsg H m (ascii "quit") q.hdfrcv
    match msg with
    | .error err => return (w, q, some err)
    | .ok msgbuf =>
      let w := tellOthers w p uid msgbuf
      let (w, _) ← baseUserQuit w p uid none
      return (w, q, none)

/-- `cmd_bcst` of the chat plugin. The name of the sender is that of the user record in the `appdata`
of its connection. -/
def chatCmdBcst (H : PushLib HDF) (m : CmdAllocs) (p : ι) (w : World ι HDF) (q : QueueEntry HDF) :
    Except Fault (CmdResult ι HDF) :=
  match w.socks q.req.tcpsock with
  | none => .error .useAfterFree
  | some sock =>
    match sock.appdata with
    | none => .ok (w, q, some ⟨repErrBadparam, utf8 "请先登陆"⟩)
    | some (_, uid) =>
      match reqGetParamStr H q.hdfrcv "msg" with
      | .error err => .ok (w, q, some err)
      | .ok msg => do
        let hdfrcv := H.setValue q.hdfrcv "Output.userid" uid
        let q := { q with hdfrcv := H.setValue hdfrcv "Output.msg" msg }
        let msg ← chatMsg H m (ascii "bcst") q.hdfrcv
        match msg with
        | .error err => return (w, q, some err)
        | .ok msgbuf => return (tellOthers w p uid msgbuf, q, none)

/-- `cmd_pm` of the chat plugin. -/
def chatCmdPm (H : PushLib HDF) (w : World ι HDF) (q : QueueEntry HDF) : Except Fault (CmdResult ι HDF) :=
  match reqGetParamStr H q.hdfrcv "userid" with
  | .error err => .ok (w, q, some err)
  | .ok _ => .ok (w, q, none)

/-! ## The cache commands -/

/-- What the code around a command depends on: the clock and the allocator of cache entries. -/
structure CmdEnv where
  now : ℤ
  malloc : Allocator CacheEntry

/-- What a cache command returns: the cache, the reply dataset and the error. -/
abbrev SysResult (HDF : Type) := Option Cache × HDF × Option NeoErr

/-- The start of the cache commands: the cache and the key, or the error. -/
def cacheKey (H : PushLib HDF) (q : QueueEntry HDF) (cd : Option Cache) :
    Except NeoErr (Cache × List UInt8) :=
  match cd with
  | none => .error ⟨repErr, ascii "param null"⟩
  | some cd =>
    match H.getValue q.hdfrcv "cachekey" with
    | none => .error ⟨repErrBadparam, ascii "need cachekey"⟩
    | some key => .ok (cd, key)

/-- `sys_cmd_cache_get` without a reply. The value is read as a C string. -/
def sysCmdCacheGet (H : PushLib HDF) (env : CmdEnv) (q : QueueEntry HDF) (cd : Option Cache) :
    Except Fault (SysResult HDF) :=
  match cacheKey H q cd with
  | .error err => .ok (cd, q.hdfsnd, some err)
  | .ok (cd, key) => do
    let ((rv, val), cd) ← cacheGet cd env.now key
    if rv = 0 then return (some cd, q.hdfsnd, some ⟨repErrCacheMiss, ascii "miss " ++ key⟩)
    else
      match val with
      | none => return (some cd, q.hdfsnd, none)
      | some val =>
        if val = [] then return (some cd, q.hdfsnd, none)
        else
          let text ← loadStr val 0
          return (some cd, H.setValue q.hdfsnd "cacheval" text, none)

/-- `sys_cmd_cache_set` without a reply. A node without a value makes `strlen` read through
`NULL`. -/
def sysCmdCacheSet (H : PushLib HDF) (m : CmdAllocs) (env : CmdEnv) (q : QueueEntry HDF)
    (cd : Option Cache) : Except Fault (SysResult HDF) :=
  match cacheKey H q cd with
  | .error err => .ok (cd, q.hdfsnd, some err)
  | .ok (cd, key) =>
    match H.getObj q.hdfrcv "cacheval" with
    | none => .ok (some cd, q.hdfsnd, some ⟨repErrBadparam, ascii "need cacheval"⟩)
    | some node =>
      match H.objValue node with
      | none => .error .nullPointer
      | some val => do
        let (_, cd) ← cacheSet env.malloc cd env.now key (val ++ [0]) 0 m.cache
        return (some cd, q.hdfsnd, none)

/-- `sys_cmd_cache_del` without a reply. -/
def sysCmdCacheDel (H : PushLib HDF) (q : QueueEntry HDF) (cd : Option Cache) :
    Except Fault (SysResult HDF) :=
  match cacheKey H q cd with
  | .error err => .ok (cd, q.hdfsnd, some err)
  | .ok (cd, key) => do
    let (_, cd) ← cacheDel cd key
    return (some cd, q.hdfsnd, none)

/-- `sys_cmd_cache_empty` without a reply. -/
def sysCmdCacheEmpty (m : CmdAllocs) (q : QueueEntry HDF) (cd : Option Cache) :
    Except Fault (SysResult HDF) :=
  match cd with
  | none => .ok (none, q.hdfsnd, some ⟨repErr, ascii "param null"⟩)
  | some cd => do
    let cd ← cacheCreate cd.numobjs 0 m.table.1 m.table.2
    return (cd, q.hdfsnd, none)

/-! ## The process drivers -/

/-- `struct base_stats` and `struct chat_stats` -/
structure PluginStats where
  msgTotal : ℕ
  msgUnrec : ℕ
  msgBadparam : ℕ
  msgStats : ℕ
  procSuc : ℕ
  procFai : ℕ
  deriving DecidableEq

/-- The two plugins that are modelled. -/
inductive Plugin where
  | base
  | chat
  deriving DecidableEq

/-- `struct base_entry` and `struct chat_entry`: the cache and the counters. -/
structure PluginEntry where
  cd : Option Cache
  st : PluginStats

/-- The counters that `REQ_CMD_STATS` reports, under their names. -/
def reportedPluginStats (st : PluginStats) : List (String × ℕ) :=
  [("msg_total", st.msgTotal), ("msg_unrec", st.msgUnrec), ("msg_badparam", st.msgBadparam),
    ("msg_stats", st.msgStats), ("proc_suc", st.procSuc), ("proc_fai", st.procFai)]

/-- `REQ_CMD_CACHE_GET` -/
def reqCmdCacheGet : ℕ := 100
/-- `REQ_CMD_CACHE_SET` -/
def reqCmdCacheSet : ℕ := 101
/-- `REQ_CMD_CACHE_DEL` -/
def reqCmdCacheDel : ℕ := 102
/-- `REQ_CMD_CACHE_EMPTY` -/
def reqCmdCacheEmpty : ℕ := 103
/-- `REQ_CMD_STATS` -/
def reqCmdStats : ℕ := 1000
/-- `REQ_CMD_BASE_JOIN` -/
def reqCmdBaseJoin : ℕ := 1001
/-- `REQ_CMD_BASE_QUIT` -/
def reqCmdBaseQuit : ℕ := 1002
/-- `REQ_CMD_CHAT_BCST` -/
def reqCmdChatBcst : ℕ := 1011
/-- `REQ_CMD_CHAT_PM` -/
def reqCmdChatPm : ℕ := 1012

/-- What the switch of a process driver returns: the server, the plugin, the entry and the error. -/
abbrev DriverResult (ι HDF : Type) := World ι HDF × PluginEntry × QueueEntry HDF × Option NeoErr

/-- A branch of `CASE_SYS_CMD`. -/
def sysCase (w : World ι HDF) (e : PluginEntry) (q : QueueEntry HDF)
    (r : Except Fault (SysResult HDF)) : Except Fault (DriverResult ι HDF) := do
  let (cd, hdfsnd, err) ← r
  return (w, { e with cd := cd }, { q with hdfsnd := hdfsnd }, err)

/-- A branch that runs a command of the plugin. -/
def cmdCase (e : PluginEntry) (r : Except Fault (CmdResult ι HDF)) :
    Except Fault (DriverResult ι HDF) := do
  let (w, q, err) ← r
  return (w, e, q, err)

/-- The branches that both plugins have for the commands that are none of their own. -/
def sharedCases (H : PushLib HDF) (m : CmdAllocs) (env : CmdEnv) (w : World ι HDF)
    (e : PluginEntry) (q : QueueEntry HDF) : Except Fault (DriverResult ι HDF) :=
  if q.operation = reqCmdCacheGet then sysCase w e q (sysCmdCacheGet H env q e.cd)
  else if q.operation = reqCmdCacheSet then sysCase w e q (sysCmdCacheSet H m env q e.cd)
  else if q.operation = reqCmdCacheDel then sysCase w e q (sysCmdCacheDel H q e.cd)
  else if q.operation = reqCmdCacheEmpty then sysCase w e q (sysCmdCacheEmpty m q e.cd)
  else if q.operation = reqCmdStats then
    let st := { e.st with msgStats := e.st.msgStats + 1 }
    let hdfsnd := (reportedPluginStats st).foldl
      (fun hdf stat => H.setIntValue hdf stat.1 (cInt stat.2)) q.hdfsnd
    .ok (w, { e with st := st }, { q with hdfsnd := hdfsnd }, none)
  else
    let st := { e.st with msgUnrec := e.st.msgUnrec + 1 }
    .ok (w, { e with st := st }, q,
      some ⟨repErrUnkreq, ascii "unknown command " ++ Decimal.print q.operation⟩)

/-- The switch of `base_process_driver`. -/
def baseSwitch (H : PushLib HDF) (m : CmdAllocs) (env : CmdEnv) (p : ι) (w : World ι HDF)
    (e : PluginEntry) (q : QueueEntry HDF) : Except Fault (DriverResult ι HDF) :=
  if q.operation = reqCmdBaseJoin then cmdCase e (baseCmdJoin H m p w q)
  else if q.operation = reqCmdBaseQuit then cmdCase e (baseCmdQuit H m p w q)
  else sharedCases H m env w e q

/-- The switch of `chat_process_driver`. -/
def chatSwitch (H : PushLib HDF) (m : CmdAllocs) (env : CmdEnv) (p : ι) (w : World ι HDF)
    (e : PluginEntry) (q : QueueEntry HDF) : Except Fault (DriverResult ι HDF) :=
  if q.operation = reqCmdBaseJoin then cmdCase e (chatCmdJoin H m p w q)
  else if q.operation = reqCmdBaseQuit then cmdCase e (chatCmdQuit H m p w q)
  else if q.operation = reqCmdChatBcst then cmdCase e (chatCmdBcst H m p w q)
  else if q.operation = reqCmdChatPm then cmdCase e (chatCmdPm H w q)
  else sharedCases H m env w e q

/-- The switch of the plugin's process driver. -/
def driverSwitch (H : PushLib HDF) (m : CmdAllocs) (env : CmdEnv) (kind : Plugin) (p : ι)
    (w : World ι HDF) (e : PluginEntry) (q : QueueEntry HDF) : Except Fault (DriverResult ι HDF) :=
  match kind with
  | .base => baseSwitch H m env p w e q
  | .chat => chatSwitch H m env p w e q

/-- `TRACE_ERR`: the error goes to the reply dataset. -/
def traceErr (H : PushLib HDF) (hdfsnd : HDF) (err : NeoErr) : HDF :=
  let hdfsnd := H.setValue hdfsnd "Output.errtrace" (H.traceback err)
  let hdfsnd := H.setIntValue hdfsnd "Output.errcode" err.error
  H.setValue hdfsnd "Output.errmsg" err.desc

/-- What a process driver does about an error before it replies. Only the base plugin tells an
asynchronous request by a push. -/
def onError (H : PushLib HDF) (m : CmdAllocs) (kind : Plugin) (w : World ι HDF) (e : PluginEntry)
    (q : QueueEntry HDF) (err : NeoErr) :
    Except Fault (World ι HDF × PluginEntry × QueueEntry HDF) := do
  let st := { e.st with procFai := e.st.procFai + 1 }
  let st := if err.error = repErrBadparam then { st with msgBadparam := st.msgBadparam + 1 } else st
  let e := { e with st := st }
  let q := { q with hdfsnd := traceErr H q.hdfsnd err }
  if kind = .base ∧ ¬ fillSyncFlag q.req then
    let (w, hdfsnd, _) ←
      baseMsgTouser H m.msg w (ascii "error") q.hdfsnd q.req.fd q.req.tcpsock
    return (w, e, { q with hdfsnd := hdfsnd })
  else return (w, e, q)

/-- `base_process_driver` and `chat_process_driver`, which differ in their switch and in what
`onError` does. `calloc` says whether the packing buffer of `reply_trigger` is granted. -/
def processDriver (H : PushLib HDF) (m : CmdAllocs) (calloc : Bool) (env : CmdEnv) (kind : Plugin)
    (p : ι) (w : World ι HDF) (e : PluginEntry) (q : QueueEntry HDF) :
    Except Fault (World ι HDF × PluginEntry) := do
  let e := { e with st := { e.st with msgTotal := e.st.msgTotal + 1 } }
  let (w, e, q, err) ← driverSwitch H m env kind p w e q
  let ret := match err with
    | none => repOk
    | some err => err.error
  let (w, e, q) ← (match err with
    | some err =>
      if ret ≥ repOk then
        .ok (w, { e with st := { e.st with procSuc := e.st.procSuc + 1 } }, q)
      else onError H m kind w e q err
    | none => .ok (w, { e with st := { e.st with procSuc := e.st.procSuc + 1 } }, q))
  if fillSyncFlag q.req then
    let (w, _) ← replyTrigger H.toHdfLib calloc w q ret
    return (w, e)
  else return (w, e)

end Moc
