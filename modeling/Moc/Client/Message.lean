import Moc.Client.Eloop
import Moc.Client.Receive
import Moc.Client.Trigger
import Moc.Lib.Decimal

/-!
# What becomes of a reply

`msparse_msg` of `client/mscli.c`, to which the event loop gives each message, and the second half of
`_mevt_trigger` in `client/moc.c`: the wait for the event loop, and the wait for `tcp_get_rep`. The
two ways decode a frame by different tests and hand its code over in different ways.
-/

open Bytes Memory Socket

namespace Moc

variable {HDF : Type}

/-- `struct msqueue_entry`, without the dataset that nothing fills. -/
structure MsqueueEntry (HDF : Type) where
  ename : List UInt8
  cmd : List UInt8
  hdfrcv : HDF

/-- What `msparse_msg` works on: the module of the server, the queue of the callback thread, and how
often each of the two conditions was signalled. -/
structure MsState (HDF : Type) where
  evt : MocT HDF
  callbackqueue : List (MsqueueEntry HDF)
  callbacksync : ℕ
  mainsync : ℕ

/-- The loop over the attributes of a push: the last one with the name `cmd`. -/
def pushCmd (attrs : List (List UInt8 × List UInt8)) : Option (List UInt8) :=
  attrs.foldl (fun cmd attr => if attr.1 = ascii "cmd" then some attr.2 else cmd) none

/-- `msparse_msg` on the first `len` bytes of the block `buf`, with the request counter at `gReqid`;
`calloc` says whether the queue entry is granted. -/
def msparseMsg (H : PushLib HDF) (gReqid : ℕ) (calloc : Bool) (st : MsState HDF)
    (buf : List UInt8) (len : ℕ) : Except Fault (MsState HDF × Option NeoErr) := do
  if len < 8 then return (st, some ⟨nerrAssert, ascii "illegal packet"⟩)
  let id ← load32 buf 0
  let reply ← load32 buf 4
  let psize := len - 8
  if id = 0 ∧ reply = 10000 then
    if psize < 4 then return (st, some ⟨nerrAssert, ascii "server pushed empty message"⟩)
    if ¬ calloc then return (st, some ⟨nerrNomem, ascii "alloc msqueue entry"⟩)
    let (rv, hdfrcv) ← unpackHdf H.toHdfLib buf 12 (psize - 4)
    if rv = 0 then return (st, some ⟨nerrAssert, ascii "server pushed illegal message"⟩)
    match pushCmd (H.getAttr hdfrcv "_Reserve") with
    | none => return (st, some ⟨nerrAssert, ascii "cmd not supplied"⟩)
    | some cmd =>
      let e : MsqueueEntry HDF := ⟨st.evt.ename, cmd, H.removeTree hdfrcv "_Reserve"⟩
      return ({ st with
        callbackqueue := st.callbackqueue ++ [e], callbacksync := st.callbacksync + 1 }, none)
  else
    if id < gReqid then
      return (st, some ⟨nerrAssert,
        ascii "id not match " ++ Decimal.print gReqid ++ ascii " " ++ Decimal.print id⟩)
    if psize ≥ 4 then
      let (rv, hdfrcv) ← unpackHdf H.toHdfLib buf 12 (psize - 4)
      let st := { st with evt := { st.evt with hdfrcv := hdfrcv } }
      if rv = 0 then return (st, some ⟨nerrAssert, ascii "server responsed illegal message"⟩)
      return ({ st with mainsync := st.mainsync + 1 }, none)
    else return ({ st with mainsync := st.mainsync + 1 }, none)

/-- The message left in a dataset when the server does not answer. -/
def noResponse : List UInt8 := utf8 "服务器暂无响应，请稍后再试"

/-- The end of `_mevt_trigger` in a client with an event loop, once the timed wait has ended; `woken`
says that it was not by the timeout. The code of the reply is not known here. -/
def mevtTriggerWait (H : HdfLib HDF) (woken : Bool) (evt : MocT HDF) : ℤ × MocT HDF :=
  if woken then (repOk, evt)
  else (repErr, { evt with hdfrcv := H.setValue evt.hdfrcv "Output.errmsg" noResponse })

@[simp] theorem mevtTriggerWait_true (H : HdfLib HDF) (evt : MocT HDF) :
    mevtTriggerWait H true evt = ((repOk : ℤ), evt) := rfl

@[simp] theorem mevtTriggerWait_false (H : HdfLib HDF) (evt : MocT HDF) :
    mevtTriggerWait H false evt =
      ((repErr : ℤ), { evt with hdfrcv := H.setValue evt.hdfrcv "Output.errmsg" noResponse }) := rfl

/-- The end of `_mevt_trigger` in a client without an event loop, for a synchronous request. A code
of `2^32 - 1` is the `-1` of a failed wait. -/
def mevtTriggerRecv (H : HdfLib HDF) (gReqid : ℕ) (sock : Sock) (evt : MocT HDF) :
    Except Fault (ℤ × MocT HDF × Sock) := do
  let (r, sock, rcvbuf) ← tcpGetRep gReqid sock evt.rcvbuf maxPacketLen
  let (rv, vsize) := r.getD (2^32 - 1, 0)
  let (rv, hdfrcv) := if rv = 2^32 - 1 then
      (repErr, H.setValue evt.hdfrcv "Output.errmsg" noResponse)
    else (rv, evt.hdfrcv)
  let evt := { evt with rcvbuf := rcvbuf, errcode := cInt rv, hdfrcv := hdfrcv }
  if vsize > 8 then
    let (_, hdfrcv) ← unpackHdf H rcvbuf 16 (vsize - 4)
    return (cInt rv, { evt with hdfrcv := hdfrcv }, sock)
  else return (cInt rv, evt, sock)

/-- The event loop handles one message while the trigger waits for it: what the trigger returns, and
the state it leaves. -/
def mevtTriggerEloop (H : PushLib HDF) (gReqid : ℕ) (calloc : Bool) (st : MsState HDF)
    (buf : List UInt8) (len : ℕ) : Except Fault (ℤ × MsState HDF) := do
  let (st', _) ← msparseMsg H gReqid calloc st buf len
  let (rv, evt) := mevtTriggerWait H.toHdfLib (st.mainsync < st'.mainsync) st'.evt
  return (rv, { st' with evt := evt })

/-! ## The server's frames as the client sees them -/

/-- A reply of the server: the function that sends it and what it is given. -/
inductive ReplyFrame where
  /-- `tcp_reply_mini` -/
  | mini (reply : ℕ)
  /-- `rep_send_error` -/
  | error (code : ℕ)
  /-- `tcp_reply_long` with a packed dataset of this text. -/
  | long (reply : ℕ) (text : List UInt8)

namespace ReplyFrame

/-- The bytes sent for the request `id`, whose record has the id in network order. -/
def bytes (id : ℕ) : ReplyFrame → List UInt8
  | mini reply => miniFrame (bswap32 id) reply
  | error code => errorFrame (bswap32 id) code
  | long reply text => longFrame (bswap32 id) reply (packedVal text)

/-- The reply code. -/
def code : ReplyFrame → ℕ
  | mini reply => reply
  | error _ => repErr
  | long reply _ => reply

/-- What follows the code. -/
def payload : ReplyFrame → List UInt8
  | mini _ => []
  | error code => be32 code
  | long _ text => be32 (packedVal text).length ++ packedVal text

theorem length_payload_le (f : ReplyFrame) : 12 + f.payload.length ≤ maxPacketLen := by
  rw [maxPacketLen]
  cases f with
  | mini reply => simp [payload]
  | error code => simp [payload]
  | long reply text =>
    simp only [payload, List.length_append, length_be32, length_packedVal]
    omega

/-- A reply as a frame of the reference. -/
def toRepFrame (id : ℕ) (f : ReplyFrame) (hid : id < 2^32) (hcode : f.code < 2^32) : RepFrame :=
  ⟨id, f.code, f.payload, hid, hcode, f.length_payload_le⟩

/-- The three functions of the server build the frames that the client expects. -/
theorem bytes_eq (id : ℕ) (f : ReplyFrame) (hid : id < 2^32) (hcode : f.code < 2^32) :
    f.bytes id = (f.toRepFrame id hid hcode).bytes := by
  cases f with
  | mini reply => simp [bytes, toRepFrame, RepFrame.bytes, miniFrame, payload, code, le32_bswap32]
  | error c => simp [bytes, toRepFrame, RepFrame.bytes, errorFrame, payload, code, le32_bswap32]
  | long reply text =>
    have hlen : 16 + (packedVal text).length = 12 + (4 + (packedVal text).length) := by omega
    simp [bytes, toRepFrame, RepFrame.bytes, longFrame, payload, code, le32_bswap32, hlen]

/-- The value of a long reply starts behind the sixteen bytes of its header. -/
theorem long_bytes_append (id reply : ℕ) (text rest : List UInt8) :
    (long reply text).bytes id ++ rest =
      (be32 (16 + (packedVal text).length) ++ le32 (bswap32 id) ++ be32 reply ++
        be32 (packedVal text).length) ++ (packedVal text ++ rest) := by
  simp [bytes, longFrame]

end ReplyFrame

/-! ## The wait for `tcp_get_rep` -/

/-- The code that a trigger without an event loop returns. -/
def recvCode (code : ℕ) : ℕ := if code = 2^32 - 1 then repErr else code

/-- The dataset that the trigger leaves when the reply brings none. -/
def recvEmpty (H : HdfLib HDF) (code : ℕ) (hdfrcv : HDF) : HDF :=
  if code = 2^32 - 1 then H.setValue hdfrcv "Output.errmsg" noResponse else hdfrcv

/-- The wait once `tcp_get_rep` has a reply. -/
theorem mevtTriggerRecv_of_rep (H : HdfLib HDF) {g reply vsize : ℕ} {sock s' : Sock}
    {evt : MocT HDF} {buf' : List UInt8}
    (h : tcpGetRep g sock evt.rcvbuf maxPacketLen = .ok (some (reply, vsize), s', buf')) :
    mevtTriggerRecv H g sock evt =
      if vsize > 8 then do
        let (_, hdfrcv) ← unpackHdf H buf' 16 (vsize - 4)
        return (cInt (recvCode reply), { evt with
          rcvbuf := buf', errcode := cInt (recvCode reply), hdfrcv := hdfrcv }, s')
      else .ok (cInt (recvCode reply), { evt with
        rcvbuf := buf', errcode := cInt (recvCode reply),
        hdfrcv := recvEmpty H reply evt.hdfrcv }, s') := by
  rw [mevtTriggerRecv, h, ok_bind]
  dsimp only [Option.getD_some]
  have hpair : (if reply = 2^32 - 1 then
      (repErr, H.setValue evt.hdfrcv "Output.errmsg" noResponse) else (reply, evt.hdfrcv)) =
      (recvCode reply, recvEmpty H reply evt.hdfrcv) := by
    unfold recvCode recvEmpty
    split_ifs <;> rfl
  rw [hpair]
  rfl

section
variable (H : HdfLib HDF) {g : ℕ} (id : ℕ) {sock : Sock} (evt : MocT HDF) {f : ReplyFrame}
  {s' : List Event}

omit evt in
/-- `tcp_get_rep` on a reply whose id is not old. -/
theorem tcpGetRep_reply {buf : List UInt8} (hid : id < 2^32) (hcode : f.code < 2^32) (hg : g ≤ id)
    (hlen : buf.length = maxPacketLen) (hopen : sock.isOpen = true)
    (hwhole : Whole (f.bytes id) sock.script s') :
    tcpGetRep g sock buf maxPacketLen = .ok (some (f.code, f.payload.length),
      { sock with script := s' }, f.bytes id ++ buf.drop (f.bytes id).length) := by
  have hbytes := f.bytes_eq id hid hcode
  rw [hbytes] at hwhole ⊢
  rw [tcpGetRep_frame g (f.toRepFrame id hid hcode) hlen hopen hwhole,
    if_neg (by simpa [ReplyFrame.toRepFrame] using hg)]
  rfl

/-- A reply in time gives its code to the caller and to `errcode`, and its dataset to `hdfrcv`. -/
theorem mevtTriggerRecv_frame (hid : id < 2^32) (hcode : f.code < 2^32) (hg : g ≤ id)
    (hlen : evt.rcvbuf.length = maxPacketLen) (hopen : sock.isOpen = true)
    (hwhole : Whole (f.bytes id) sock.script s') (hnul : ∀ reply text, f = .long reply text → 0 ∉ text) :
    ∃ evt', mevtTriggerRecv H g sock evt =
        .ok (cInt (recvCode f.code), evt', { sock with script := s' }) ∧
      evt'.errcode = cInt (recvCode f.code) ∧
      evt'.hdfrcv = match f with
        | .long _ text => H.readString H.init (text.take 65024)
        | _ => recvEmpty H f.code evt.hdfrcv := by
  rw [mevtTriggerRecv_of_rep H (tcpGetRep_reply id hid hcode hg hlen hopen hwhole)]
  cases f with
  | mini reply =>
    rw [if_neg (by simp [ReplyFrame.payload])]
    refine ⟨_, rfl, ?_⟩
    dsimp only
    exact ⟨rfl, rfl⟩
  | error c =>
    rw [if_neg (by simp [ReplyFrame.payload])]
    refine ⟨_, rfl, ?_⟩
    dsimp only
    exact ⟨rfl, rfl⟩
  | long reply text =>
    -- The value of a long reply takes more than eight bytes.
    have hsize : (ReplyFrame.long reply text).payload.length > 8 := by
      simp only [ReplyFrame.payload, List.length_append, length_be32, length_packedVal]
      omega
    rw [if_pos hsize, ReplyFrame.long_bytes_append,
      unpackHdf_packedVal H (by simp) (hnul reply text rfl), ok_bind]
    dsimp only
    rw [pure_eq_ok]
    refine ⟨_, rfl, ?_⟩
    dsimp only
    exact ⟨rfl, rfl⟩

end

/-! ## The wait for the event loop -/

section
variable (f : RepFrame) (behind : List UInt8)

theorem RepFrame.load_msg_id : load32 (f.bytes.drop 4 ++ behind) 0 = .ok f.id := by
  have h : load32 ([] ++ (be32 f.id ++ (be32 f.reply ++ f.payload ++ behind))) 0 =
      .ok (f.id % 2^32) := load32_between rfl
  rw [RepFrame.bytes, List.drop_left' (length_be32 _), List.append_assoc]
  rwa [List.nil_append, Nat.mod_eq_of_lt f.id_lt] at h

theorem RepFrame.load_msg_reply : load32 (f.bytes.drop 4 ++ behind) 4 = .ok f.reply := by
  rw [RepFrame.bytes, List.drop_left' (length_be32 _), List.append_assoc, List.append_assoc,
    load32_between (length_be32 _).symm, Nat.mod_eq_of_lt f.reply_lt]

end

/-- The value of a long reply in the message that the event loop hands on. -/
theorem ReplyFrame.long_msg_append (id reply : ℕ) (text behind : List UInt8) :
    ((long reply text).bytes id).drop 4 ++ behind =
      (le32 (bswap32 id) ++ be32 reply ++ be32 (packedVal text).length) ++
        (packedVal text ++ behind) := by
  have hbytes : (long reply text).bytes id = be32 (16 + (packedVal text).length) ++
      (le32 (bswap32 id) ++ be32 reply ++ be32 (packedVal text).length ++ packedVal text) := by
    simp only [bytes, longFrame, List.append_assoc]
  rw [hbytes, List.drop_left' (length_be32 _), List.append_assoc]

section
variable (H : PushLib HDF) {g : ℕ} (calloc : Bool) (st : MsState HDF) (behind : List UInt8)

/-- `msparse_msg` on a reply whose id is not old. -/
theorem msparseMsg_reply (f : RepFrame) (hg : g ≤ f.id) (hid : 1 ≤ f.id) :
    msparseMsg H g calloc st (f.bytes.drop 4 ++ behind) (f.bytes.length - 4) =
      if f.payload.length ≥ 4 then do
        let (rv, hdfrcv) ← unpackHdf H.toHdfLib (f.bytes.drop 4 ++ behind) 12 (f.payload.length - 4)
        let st := { st with evt := { st.evt with hdfrcv := hdfrcv } }
        if rv = 0 then return (st, some ⟨nerrAssert, ascii "server responsed illegal message"⟩)
        return ({ st with mainsync := st.mainsync + 1 }, none)
      else .ok ({ st with mainsync := st.mainsync + 1 }, none) := by
  have hlen : f.bytes.length - 4 = 8 + f.payload.length := by
    rw [f.length_bytes]
    omega
  rw [msparseMsg, hlen, if_neg (by omega), f.load_msg_id, ok_bind, f.load_msg_reply, ok_bind]
  dsimp only
  rw [if_neg (by omega), if_neg (by omega), Nat.add_sub_cancel_left]
  rfl

end

section
variable (H : PushLib HDF) {g id : ℕ} (calloc : Bool) (st : MsState HDF) (behind : List UInt8)

/-- A reply without a dataset wakes the trigger and leaves the module as it is. -/
theorem msparseMsg_mini {reply : ℕ} (hid : id < 2^32)
    (hcode : (ReplyFrame.mini reply).code < 2^32) (hg : g ≤ id) (hpos : 1 ≤ id) :
    msparseMsg H g calloc st (((ReplyFrame.mini reply).bytes id).drop 4 ++ behind)
        (((ReplyFrame.mini reply).bytes id).length - 4) =
      .ok ({ st with mainsync := st.mainsync + 1 }, none) := by
  have hmsg := msparseMsg_reply H calloc st behind
    ((ReplyFrame.mini reply).toRepFrame id hid hcode) hg hpos
  rwa [if_neg (by simp [ReplyFrame.toRepFrame, ReplyFrame.payload]), ← ReplyFrame.bytes_eq] at hmsg

/-- A reply with a dataset wakes the trigger with the dataset. -/
theorem msparseMsg_long {reply : ℕ} {text : List UInt8} (hid : id < 2^32)
    (hcode : (ReplyFrame.long reply text).code < 2^32) (hg : g ≤ id) (hpos : 1 ≤ id)
    (hnul : 0 ∉ text) :
    msparseMsg H g calloc st (((ReplyFrame.long reply text).bytes id).drop 4 ++ behind)
        (((ReplyFrame.long reply text).bytes id).length - 4) =
      .ok ({ st with
        evt := { st.evt with hdfrcv := H.readString H.init (text.take 65024) }
        mainsync := st.mainsync + 1 }, none) := by
  have hmsg := msparseMsg_reply H calloc st behind
    ((ReplyFrame.long reply text).toRepFrame id hid hcode) hg hpos
  have hne : 20 + min 65024 (text.length + 1) ≠ 0 := by omega
  rw [if_pos (by simp [ReplyFrame.toRepFrame, ReplyFrame.payload]), ← ReplyFrame.bytes_eq,
    ReplyFrame.long_msg_append, unpackHdf_packedVal H.toHdfLib (by simp) hnul, ok_bind] at hmsg
  dsimp only at hmsg
  rwa [if_neg hne, ← ReplyFrame.long_msg_append] at hmsg

end

/-! ## Which reads stay inside the frame -/

section
variable (H : PushLib HDF) (g : ℕ)

/-- `msparse_msg` decodes the dataset of this body: a push that gets its queue entry, or a reply
whose id is not old, and in both at least a size word behind the header. -/
def MsgDecoded (calloc : Bool) (body : List UInt8) : Prop :=
  12 ≤ body.length ∧
    if word body 0 = 0 ∧ word body 4 = 10000 then calloc = true else g ≤ word body 0

instance (calloc : Bool) (body : List UInt8) : Decidable (MsgDecoded g calloc body) :=
  inferInstanceAs (Decidable (_ ∧ ite _ _ _))

/-- `msparse_msg` stays inside the body unless it decodes a dataset whose cell does not. -/
theorem msparseMsg_inBounds_iff (calloc : Bool) (st : MsState HDF) (body : List UInt8) :
    InBounds (msparseMsg H g calloc st body body.length) ↔
      (MsgDecoded g calloc body → CellInside body 12) := by
  have hpost : ∀ (len : ℕ) (f : ℕ × HDF → Except Fault (MsState HDF × Option NeoErr)),
      (∀ r, InBounds (f r)) →
      (InBounds (unpackHdf H.toHdfLib body 12 len >>= f) ↔ CellInside body 12) := fun len f hf =>
    (inBounds_bind_iff hf).trans (unpackHdf_inBounds_iff H.toHdfLib body 12 len)
  unfold msparseMsg MsgDecoded
  by_cases h8 : body.length < 8
  · rw [if_pos h8, pure_eq_ok]
    simp only [inBounds_ok, true_iff]
    rintro ⟨h12, -⟩
    omega
  rw [if_neg h8, load32_of_le (by omega), ok_bind, load32_of_le (by omega), ok_bind]
  dsimp only
  by_cases hpush : word body 0 = 0 ∧ word body 4 = 10000
  · rw [if_pos hpush, if_pos hpush]
    by_cases h4 : body.length - 8 < 4
    · rw [if_pos h4, pure_eq_ok]
      simp only [inBounds_ok, true_iff]
      rintro ⟨h12, -⟩
      omega
    rw [if_neg h4]
    cases calloc with
    | false => simp
    | true =>
      rw [if_neg (by simp), hpost, imp_iff_right ⟨by omega, rfl⟩]
      -- What follows the decoding reads nothing of the frame.
      rintro ⟨rv, hdfrcv⟩
      dsimp only
      split_ifs
      · exact inBounds_ok _
      · cases pushCmd (H.getAttr hdfrcv "_Reserve") with
        | none => exact inBounds_ok _
        | some cmd => exact inBounds_ok _
  · rw [if_neg hpush, if_neg hpush]
    by_cases hold : word body 0 < g
    · rw [if_pos hold, pure_eq_ok]
      simp only [inBounds_ok, true_iff]
      rintro ⟨-, hg⟩
      omega
    rw [if_neg hold]
    by_cases h4 : body.length - 8 ≥ 4
    · rw [if_pos h4, hpost, imp_iff_right ⟨by omega, by omega⟩]
      rintro ⟨rv, hdfrcv⟩
      dsimp only
      split_ifs
      · exact inBounds_ok _
      · exact inBounds_ok _
    · rw [if_neg h4, pure_eq_ok]
      simp only [inBounds_ok, true_iff]
      rintro ⟨h12, -⟩
      omega

/-- Of a body that it stays inside, `msparse_msg` makes the same whatever stands behind it. -/
theorem msparseMsg_append {calloc : Bool} {st : MsState HDF} {body : List UInt8}
    (h : MsgDecoded g calloc body → CellInside body 12) (behind : List UInt8) :
    msparseMsg H g calloc st (body ++ behind) body.length =
      msparseMsg H g calloc st body body.length := by
  unfold msparseMsg
  by_cases h8 : body.length < 8
  · rw [if_pos h8, if_pos h8]
  rw [if_neg h8, if_neg h8, load32_append (by omega), load32_append (by omega),
    load32_of_le (by omega), ok_bind, load32_of_le (by omega), ok_bind, ok_bind, ok_bind]
  dsimp only
  -- A push, an old answer, and the answer to the request in flight.
  by_cases hpush : word body 0 = 0 ∧ word body 4 = 10000
  · simp only [if_pos hpush]
    by_cases h4 : body.length - 8 < 4
    · simp only [if_pos h4]
    simp only [if_neg h4]
    cases calloc with
    | false => rfl
    | true =>
      have hcell := h ⟨by omega, by rw [if_pos hpush]⟩
      rw [unpackHdf_append H.toHdfLib hcell]
  · simp only [if_neg hpush]
    by_cases hold : word body 0 < g
    · simp only [if_pos hold]
    simp only [if_neg hold]
    by_cases h4 : body.length - 8 ≥ 4
    · have hcell := h ⟨by omega, by rw [if_neg hpush]; omega⟩
      simp only [if_pos h4, unpackHdf_append H.toHdfLib hcell]
    · simp only [if_neg h4]

end

section
variable (H : HdfLib HDF) (g : ℕ)

/-- What `tcp_get_rep` and the end of `_mevt_trigger` read of the `rv` bytes of a frame at the front
of `b`: none for an old id, else the code and, when the frame brings one, the dataset. -/
def repDecode (b : List UInt8) (rv : ℕ) : Except Fault (Option (ℕ × Option HDF)) := do
  let id ← load32 b 4
  let reply ← load32 b 8
  if id < g then return none
  if sizeSub rv 12 > 8 then
    let (_, hdfrcv) ← unpackHdf H b 16 (sizeSub rv 12 - 4)
    return some (reply, some hdfrcv)
  else return some (reply, none)

/-- The wait of `_mevt_trigger` decodes each frame that `recv_msg` leaves in the receive buffer. -/
theorem mevtTriggerRecv_of_msg {sock s' : Sock} {evt : MocT HDF} {buf' : List UInt8} {rv : ℕ}
    (h : recvMsg sock evt.rcvbuf maxPacketLen = .ok (some rv, s', buf')) (hrv : rv ≠ 0) :
    mevtTriggerRecv H g sock evt = match repDecode H g buf' rv with
      | .error e => .error e
      | .ok none => mevtTriggerRecv H g s' { evt with rcvbuf := buf' }
      | .ok (some (reply, hdfrcv)) => .ok (cInt (recvCode reply), { evt with
          rcvbuf := buf', errcode := cInt (recvCode reply),
          hdfrcv := hdfrcv.getD (recvEmpty H reply evt.hdfrcv) }, s') := by
  unfold repDecode
  rcases Nat.lt_or_ge buf'.length 12 with hshort | hlong
  · -- The code of the reply lies outside the receive buffer.
    have hrep : load32 buf' 8 = .error .outOfBounds := load32_of_lt (by omega)
    have hget : tcpGetRep g sock evt.rcvbuf maxPacketLen = .error .outOfBounds := by
      rw [tcpGetRep]
      split
      · simp_all
      · simp_all
      · rename_i rv₁ s₁ buf₁ heq
        rw [h] at heq
        cases heq
        rw [dif_neg hrv, hrep]
        cases load32 buf' 4 <;> rfl
    rw [mevtTriggerRecv, hget, error_bind, hrep]
    cases hid : load32 buf' 4 with
    | ok id => rfl
    | error e => rw [(checked_load32 buf' 4) e hid, error_bind]
  have hid : load32 buf' 4 = .ok (word buf' 4) := load32_of_le (by omega)
  have hreply : load32 buf' 8 = .ok (word buf' 8) := load32_of_le (by omega)
  have hget := tcpGetRep_of_msg g h hrv hid hreply
  rw [hid, ok_bind, hreply, ok_bind]
  -- An old answer goes on to the next frame.
  by_cases hold : word buf' 4 < g
  · rw [if_pos hold] at hget ⊢
    rw [mevtTriggerRecv, hget, pure_eq_ok]
    dsimp only
    rw [mevtTriggerRecv]
  rw [if_neg hold] at hget ⊢
  rw [mevtTriggerRecv_of_rep H hget]
  by_cases hsize : sizeSub rv 12 > 8
  · rw [if_pos hsize, if_pos hsize]
    cases unpackHdf H buf' 16 (sizeSub rv 12 - 4) with
    | error e => rfl
    | ok r => rfl
  · rw [if_neg hsize, if_neg hsize, pure_eq_ok]
    rfl

/-- The decoding of a frame of the receive buffer stays inside it when its header does, and its
dataset, which a new id and more than eight bytes behind the header bring. -/
theorem repDecode_inBounds_iff {frame : List UInt8} (hmax : frame.length ≤ maxPacketLen) :
    InBounds (repDecode H g frame frame.length) ↔
      12 ≤ frame.length ∧ (g ≤ word frame 4 → 20 < frame.length → CellInside frame 16) := by
  unfold repDecode
  rw [maxPacketLen] at hmax
  by_cases h12 : frame.length < 12
  -- A frame without a whole header is read outside of it.
  · have hout : ¬InBounds (do
        let id ← load32 frame 4
        let reply ← load32 frame 8
        if id < g then return none
        if sizeSub frame.length 12 > 8 then
          let (_, hdfrcv) ← unpackHdf H frame 16 (sizeSub frame.length 12 - 4)
          return some (reply, some hdfrcv)
        else return some (reply, none)) := by
      rw [(checked_load32 frame 4).inBounds_bind_iff]
      rintro ⟨id, -, hid⟩
      rw [load32_of_lt (by omega), error_bind] at hid
      exact (inBounds_error _).mp hid rfl
    simp only [hout, false_iff]
    omega
  have hsub : sizeSub frame.length 12 = frame.length - 12 := by
    rw [sizeSub]
    omega
  rw [load32_of_le (by omega), ok_bind, load32_of_le (by omega), ok_bind, hsub]
  by_cases hold : word frame 4 < g
  · rw [if_pos hold, pure_eq_ok]
    simp only [inBounds_ok, true_iff]
    exact ⟨by omega, fun hg => absurd hg (Nat.not_le_of_lt hold)⟩
  rw [if_neg hold]
  by_cases hsize : frame.length - 12 > 8
  · rw [if_pos hsize, inBounds_bind_iff (fun r => by simp), unpackHdf_inBounds_iff]
    exact ⟨fun h => ⟨by omega, fun _ _ => h⟩, fun h => h.2 (by omega) (by omega)⟩
  · rw [if_neg hsize, pure_eq_ok]
    simp only [inBounds_ok, true_iff]
    exact ⟨by omega, fun _ h20 => absurd h20 (by omega)⟩

end

/-- Both decoders of the client read only bytes of the frame exactly when its header lies in it and
so does every byte to which the cell of its dataset leads, when that is decoded at all. -/
theorem decoders_inBounds_iff (H : PushLib HDF) (g : ℕ) :
    (∀ calloc st body, InBounds (msparseMsg H g calloc st body body.length) ↔
        (MsgDecoded g calloc body → CellInside body 12)) ∧
      ∀ frame : List UInt8, frame.length ≤ maxPacketLen →
        (InBounds (repDecode H.toHdfLib g frame frame.length) ↔
          12 ≤ frame.length ∧ (g ≤ word frame 4 → 20 < frame.length → CellInside frame 16)) :=
  ⟨msparseMsg_inBounds_iff H g, fun _ hmax => repDecode_inBounds_iff H.toHdfLib g hmax⟩

/-- A client with the module `a` and nothing received. -/
def sampleMsState : MsState (List UInt8) := ⟨mevtCreate useridHdf.toHdfLib (ascii "a"), [], 0, 0⟩

/-- A reply of `tcp_reply_mini` stays inside both decoders. -/
theorem decoders_inBounds_mini :
    InBounds (msparseMsg useridHdf 1 true sampleMsState ((miniFrame (bswap32 1) repOk).drop 4) 8) ∧
      InBounds (repDecode useridHdf.toHdfLib 1 (miniFrame (bswap32 1) repOk) 12) := by
  obtain ⟨heloop, hsync⟩ := decoders_inBounds_iff useridHdf 1
  exact ⟨(heloop true sampleMsState ((miniFrame (bswap32 1) repOk).drop 4)).mpr (by decide),
    (hsync (miniFrame (bswap32 1) repOk) (by decide)).mpr (by decide)⟩

/-- A reply of `rep_send_error` ends before the type word that the event loop reads. -/
theorem decoders_outOfBounds_error :
    ¬∀ body : List UInt8, 5 ≤ body.length →
      InBounds (msparseMsg useridHdf 1 true sampleMsState body body.length) := fun h =>
  (msparseMsg_inBounds_iff useridHdf 1 true sampleMsState
    ((errorFrame (bswap32 1) repErrBadparam).drop 4)).not.mpr (by decide) (h _ (by decide))

end Moc
