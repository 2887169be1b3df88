import Mathlib.Data.Int.DivMod
import Moc.Server.Reply

/-!
# Parsing a request

`server/parse.c` and the lookup of `server/mocd.c`. A message is a block of memory; the length that
`parse_message` is given is a separate number, and the decoding below it follows the lengths found
in the message. `malloc()` outcomes are arguments.
-/

open Bytes Memory

namespace Moc

variable {ι HDF : Type} [DecidableEq ι]

/-! ## Finding the plugin -/

/-- `hash` of `server/mocd.c`. -/
def mocdHash (key : List UInt8) : ℕ := (oneAtATime key).toNat

/-- `find_entry_in_table`: the first entry of the chain with the same size and bytes. -/
def findEntryInTable (evt : MocTable ι) (key : List UInt8) : Option (EventEntry ι) :=
  (evt.table (mocdHash key % evt.hashlen)).find? fun e => key = e.name

/-- `strncmp(name, lit, n) == 0` for a name of `n` bytes and a literal with its NUL. Nothing is
compared behind a NUL. -/
def strncmpEq : List UInt8 → List UInt8 → Bool
  | [], _ => true
  | _ :: _, [] => false
  | x :: name, y :: lit => x = y && (x = 0 || strncmpEq name lit)

/-! ## Queueing -/

/-- The outcomes of the allocations on the way of one request: the four of `make_queue_long_entry`
and the `calloc` of `reply_trigger`. -/
structure Allocs where
  entry : Bool
  ecopy : Bool
  req : Bool
  clisa : Bool
  reply : Bool

/-- Every allocation succeeds. -/
def Allocs.granted : Allocs := ⟨true, true, true, true, true⟩

/-- `make_queue_long_entry`. When the name is not copied, `queue_entry_free` tests the `req` pointer
that `queue_entry_create` did not set; when the address is not copied, it drops a reference that was
not taken. -/
def makeQueueLongEntry (H : HdfLib HDF) (m : Allocs) (w : World ι HDF) (req : ReqInfo)
    (ename : List UInt8) (hdfrcv : HDF) :
    Except Fault (World ι HDF × Option (QueueEntry HDF)) :=
  if ¬ m.entry then .ok (w, none)
  else if ¬ m.ecopy then .error .uninitialised
  else if ¬ m.req then .ok (w, none)
  else if ¬ m.clisa then do
    let w ← tcpSocketRemoveRef w req.tcpsock
    return (w, none)
  else do
    let w ← tcpSocketAddRef w req.tcpsock
    return (w, some
      { operation := req.cmd
        req := { req with payload := none, psize := 0 }
        ename := ename
        hdfrcv := hdfrcv
        hdfsnd := H.init })

/-- A counter of `struct stats` passed as an `int`. -/
def cInt (n : ℕ) : ℤ := Int.bmod n (2^32)

/-- The counters that `parse_stats` reports, under their names in the reply. -/
def reportedStats (s : Stats) : List (String × ℕ) :=
  [("msg_tipc", s.msgTipc), ("msg_tcp", s.msgTcp), ("msg_udp", s.msgUdp),
    ("msg_sctp", s.msgSctp), ("net_version_mismatch", s.netVersionMismatch),
    ("net_broken_req", s.netBrokenReq), ("net_unk_req", s.netUnkReq), ("pro_busy", s.proBusy)]

/-- The reply dataset of `parse_stats`. -/
def setStats (H : HdfLib HDF) (s : Stats) (hdfsnd : HDF) : HDF :=
  (reportedStats s).foldl (fun hdf stat => H.setIntValue hdf stat.1 (cInt stat.2)) hdfsnd

/-- `parse_stats` -/
def parseStats (H : HdfLib HDF) (m : Allocs) (w : World ι HDF) (q : QueueEntry HDF) :
    Except Fault (World ι HDF) := do
  let q := { q with hdfsnd := setStats H w.stat q.hdfsnd }
  let (w, _) ← replyTrigger H m.reply w q repOk
  return w

/-- `parse_clientmod` -/
def parseClientmod (H : HdfLib HDF) (m : Allocs) (w : World ι HDF) (q : QueueEntry HDF) :
    Except Fault (World ι HDF) := do
  match H.getObj w.cfg "Client.modules" with
  | some node =>
    let (w, _) ← replyTrigger H m.reply w { q with hdfsnd := H.copy q.hdfsnd "modules" node } repOk
    return w
  | none => return tcpReplyMini w q.req repErrUnkreq

/-- `MAX_QUEUE_ENTRY` -/
def maxQueueEntry : ℕ := 2097152

/-- `queue_cas` or `queue_put`: a synchronous request goes to the end that the worker takes from
next. -/
def enqueue (w : World ι HDF) (p : ι) (sync : Bool) (e : QueueEntry HDF) : World ι HDF :=
  let queue := if sync then e :: w.queues p else w.queues p ++ [e]
  { w with queues := Function.update w.queues p queue }

/-- `put_in_queue_long`: the server afterwards, and whether there was memory. -/
def putInQueueLong (H : HdfLib HDF) (m : Allocs) (w : World ι HDF) (req : ReqInfo) (sync : Bool)
    (ename : List UInt8) (hdfrcv : HDF) : Except Fault (World ι HDF × Bool) :=
  match findEntryInTable w.gMoc ename with
  | none =>
    if strncmpEq ename (ascii "_Reserve.Status" ++ [0]) then do
      let (w, e) ← makeQueueLongEntry H m w req ename hdfrcv
      match e with
      | none => return (w, false)
      | some e =>
        let w ← parseStats H m w e
        let w ← queueEntryFree w e
        return (w, true)
    else if strncmpEq ename (ascii "_Reserve.Clientmod" ++ [0]) then do
      let (w, e) ← makeQueueLongEntry H m w req ename hdfrcv
      match e with
      | none => return (w, false)
      | some e =>
        let w ← parseClientmod H m w e
        let w ← queueEntryFree w e
        return (w, true)
    else
      let w := { w with stat := { w.stat with netUnkReq := w.stat.netUnkReq + 1 } }
      .ok (if sync then tcpReplyMini w req repErrUnkreq else w, true)
  | some entry =>
    let size := (w.queues entry.opQueue).length
    if size > maxQueueEntry ∧ size % 100 = 0 then
      let w := { w with stat := { w.stat with proBusy := w.stat.proBusy + 1 } }
      .ok (if sync then tcpReplyMini w req repErrBusy else w, true)
    else do
      let (w, e) ← makeQueueLongEntry H m w req ename hdfrcv
      match e with
      | none => return (w, false)
      | some e => return (enqueue w entry.opQueue sync e, true)

/-- `put_in_queue` -/
def putInQueue (H : HdfLib HDF) (m : Allocs) (w : World ι HDF) (req : ReqInfo) (sync : Bool)
    (ename : List UInt8) (hdfrcv : HDF) : Except Fault (World ι HDF × Bool) :=
  putInQueueLong H m w req sync ename hdfrcv

/-! ## The message -/

/-- `FILL_SYNC_FLAG` -/
def fillSyncFlag (req : ReqInfo) : Bool := req.flags &&& flagsSync ≠ 0

/-- The end of `parse_event` once the request is known to be broken. -/
def brokenReq (w : World ι HDF) (req : ReqInfo) : World ι HDF :=
  let w := { w with stat := { w.stat with netBrokenReq := w.stat.netBrokenReq + 1 } }
  if fillSyncFlag req then tcpReplyMini w req repErrBroken else w

/-- `parse_event` of the request whose payload starts at `pos` of the block `b`. The sizes are
`uint32_t`, and the pointer moves by the name's size before that size is checked. -/
def parseEvent (H : HdfLib HDF) (m : Allocs) (w : World ι HDF) (req : ReqInfo) (b : List UInt8)
    (pos : ℕ) : Except Fault (World ι HDF) := do
  let esize ← load32 b pos
  let (ttsize, hdfrcv) ←
    unpackHdf H b (pos + 4 + esize) (sizeSub (sizeSub req.psize esize) 4)
  let rsize := ttsize % 2^32
  if rsize = 0 ∨ (rsize + esize) % 2^32 + 4 > maxPacketLen ∨ req.psize < esize then
    return brokenReq w req
  let ename ← load b (pos + 4) esize
  let (w, rv) ← putInQueue H m w req (fillSyncFlag req) ename hdfrcv
  return if ¬ rv ∧ fillSyncFlag req then tcpReplyMini w req repErrMem else w

/-- The version nibble of a request header. -/
def hdrVer (hdr : ℕ) : ℕ := (hdr &&& 0xF0000000) >>> 28

/-- The request id of a request header. -/
def hdrId (hdr : ℕ) : ℕ := hdr &&& 0x0FFFFFFF

/-- `parse_message` on the block `b`, with the length `len` it is told: the server, the request
record, and whether the connection stays. -/
def parseMessage (H : HdfLib HDF) (m : Allocs) (w : World ι HDF) (req : ReqInfo) (b : List UInt8)
    (len : ℕ) : Except Fault (World ι HDF × ReqInfo × Bool) := do
  if len < 17 then
    let w := { w with stat := { w.stat with netBrokenReq := w.stat.netBrokenReq + 1 } }
    return (tcpReplyMini w req repErrBroken, req, false)
  let hdr ← load32 b 0
  let req := { req with id := hdrId hdr }
  let cmd ← load16 b 4
  let flags ← load16 b 6
  if hdrVer hdr ≠ protoVer then
    let w := { w with stat := { w.stat with netVersionMismatch := w.stat.netVersionMismatch + 1 } }
    return (tcpReplyMini w req repErrVer, req, false)
  let req := { req with
    id := bswap32 (hdrId hdr), cmd := cmd, flags := flags, payload := some 8, psize := len - 8 }
  let w ← parseEvent H m w req b 8
  return (w, req, true)

/-! ## Which reads stay inside the message -/

/-- The lengths of a message keep its decoding inside it. -/
def LengthsInside (b : List UInt8) : Prop :=
  hdrVer (word b 0) = protoVer →
    word b 8 + 16 ≤ b.length ∧
      (word b (12 + word b 8) = dataTypeString →
        word b 8 + word b (16 + word b 8) + 24 ≤ b.length ∧
          0 ∈ b.drop (24 + word b 8 + word b (16 + word b 8)))

instance (b : List UInt8) : Decidable (LengthsInside b) :=
  inferInstanceAs (Decidable (_ → _ ∧ (_ → _ ∧ _)))

omit [DecidableEq ι] in
/-- Answering a request stays inside the packing buffer, and sends one frame and changes nothing
else. The code is the caller's or that of an error. -/
theorem replyTrigger_sends (H : HdfLib HDF) (calloc : Bool) (w : World ι HDF) (q : QueueEntry HDF)
    (reply : ℕ) : ∃ code frame b, (code = reply ∨ code ≤ repOk) ∧ AnswerFrame q.req.id code frame ∧
      replyTrigger H calloc w q reply = .ok (repSend w q.req frame, b) := by
  obtain ⟨⟨buf, vsize⟩, hbuf⟩ := packHdf_ok H q.hdfsnd (List.replicate maxPacketLen 0)
    (by rw [List.length_replicate]; decide)
  rw [List.length_replicate] at hbuf
  rw [replyTrigger, hbuf]
  by_cases hchild : ¬ H.objChild q.hdfsnd
  · exact ⟨reply, _, _, .inl rfl, .inl rfl, if_pos hchild⟩
  by_cases hcalloc : ¬ calloc
  · rw [if_neg hchild, if_pos hcalloc]
    exact ⟨repErrMem, _, _, .inr (by decide), .inl rfl, rfl⟩
  rw [if_neg hchild, if_neg hcalloc, ok_bind]
  by_cases hsize : vsize = 0
  · exact ⟨repErrPack, _, _, .inr (by decide), .inl rfl, if_pos hsize⟩
  · exact ⟨reply, _, _, .inl rfl, .inr ⟨_, rfl⟩, if_neg hsize⟩

omit [DecidableEq ι] in
theorem parseStats_sends (H : HdfLib HDF) (m : Allocs) (w : World ι HDF) (q : QueueEntry HDF) :
    ∃ code frame, code ≤ repOk ∧ AnswerFrame q.req.id code frame ∧
      parseStats H m w q = .ok (repSend w q.req frame) := by
  obtain ⟨code, frame, b, hcode, hframe, hsend⟩ := replyTrigger_sends H m.reply w
    { q with hdfsnd := setStats H w.stat q.hdfsnd } repOk
  exact ⟨code, frame, hcode.elim le_of_eq id, hframe,
    by simp only [parseStats, hsend, ok_bind, pure_eq_ok]⟩

omit [DecidableEq ι] in
theorem parseClientmod_sends (H : HdfLib HDF) (m : Allocs) (w : World ι HDF) (q : QueueEntry HDF) :
    ∃ code frame, code ≤ repOk ∧ AnswerFrame q.req.id code frame ∧
      parseClientmod H m w q = .ok (repSend w q.req frame) := by
  unfold parseClientmod
  cases H.getObj w.cfg "Client.modules" with
  | none => exact ⟨repErrUnkreq, _, by decide, .inl rfl, rfl⟩
  | some node =>
    obtain ⟨code, frame, b, hcode, hframe, hsend⟩ := replyTrigger_sends H m.reply w
      { q with hdfsnd := H.copy q.hdfsnd "modules" node } repOk
    exact ⟨code, frame, hcode.elim le_of_eq id, hframe, by simp only [hsend, ok_bind, pure_eq_ok]⟩

omit [DecidableEq ι] in
theorem tcpSocketAddRef_inBounds (w : World ι HDF) (s : ℕ) : InBounds (tcpSocketAddRef w s) := by
  unfold tcpSocketAddRef
  cases w.socks s <;> simp

theorem tcpSocketRemoveRef_inBounds (w : World ι HDF) (s : ℕ) :
    InBounds (tcpSocketRemoveRef w s) := by
  unfold tcpSocketRemoveRef
  cases w.socks s with
  | none => simp
  | some sock =>
    dsimp only
    split_ifs <;> simp

theorem makeQueueLongEntry_inBounds (H : HdfLib HDF) (m : Allocs) (w : World ι HDF)
    (req : ReqInfo) (ename : List UInt8) (hdfrcv : HDF) :
    InBounds (makeQueueLongEntry H m w req ename hdfrcv) := by
  unfold makeQueueLongEntry
  by_cases hentry : ¬ m.entry
  · simp [hentry]
  by_cases hecopy : ¬ m.ecopy
  · simp [hentry, hecopy]
  by_cases hreq : ¬ m.req
  · simp [hentry, hecopy, hreq]
  rw [if_neg hentry, if_neg hecopy, if_neg hreq]
  split_ifs
  · exact inBounds_bind (tcpSocketAddRef_inBounds w _) fun _ => by simp
  · exact inBounds_bind (tcpSocketRemoveRef_inBounds w _) fun _ => by simp

/-- Answering a reserved name and freeing its entry stays inside. -/
theorem answerEntry_inBounds {e : QueueEntry HDF} {w' : World ι HDF}
    {x : Except Fault (World ι HDF)} (hx : x = .ok w') :
    InBounds (do
      let w ← x
      let w ← queueEntryFree w e
      return (w, true)) := by
  rw [hx, ok_bind]
  exact inBounds_bind (tcpSocketRemoveRef_inBounds w' _) fun _ => by simp

/-- Queueing a decoded request reads nothing of the message. -/
theorem putInQueue_inBounds (H : HdfLib HDF) (m : Allocs) (w : World ι HDF) (req : ReqInfo)
    (sync : Bool) (ename : List UInt8) (hdfrcv : HDF) :
    InBounds (putInQueue H m w req sync ename hdfrcv) := by
  have hentry := makeQueueLongEntry_inBounds H m w req ename hdfrcv
  unfold putInQueue putInQueueLong
  cases findEntryInTable w.gMoc ename with
  | none =>
    dsimp only
    split_ifs
    · refine inBounds_bind hentry fun ⟨w, e⟩ => ?_
      cases e with
      | none => simp
      | some e =>
        obtain ⟨_, _, -, -, hsend⟩ := parseStats_sends H m w e
        exact answerEntry_inBounds hsend
    · refine inBounds_bind hentry fun ⟨w, e⟩ => ?_
      cases e with
      | none => simp
      | some e =>
        obtain ⟨_, _, -, -, hsend⟩ := parseClientmod_sends H m w e
        exact answerEntry_inBounds hsend
    · simp
    · simp
  | some entry =>
    dsimp only
    split_ifs
    · simp
    · simp
    · refine inBounds_bind hentry fun ⟨w, e⟩ => ?_
      cases e <;> simp

/-- `parse_event` stays inside exactly when the type word does, and for a string also the words
that follow the two names and the text up to its NUL. -/
theorem parseEvent_inBounds_iff (H : HdfLib HDF) (m : Allocs) (w : World ι HDF) (req : ReqInfo)
    {b : List UInt8} {pos : ℕ} (hpos : pos + 4 ≤ b.length) :
    InBounds (parseEvent H m w req b pos) ↔
      pos + word b pos + 8 ≤ b.length ∧
        (word b (pos + 4 + word b pos) = dataTypeString →
          pos + word b pos + word b (pos + 8 + word b pos) + 16 ≤ b.length ∧
            0 ∈ b.drop (pos + 16 + word b pos + word b (pos + 8 + word b pos))) := by
  have hk : pos + 4 + word b pos + 4 = pos + 8 + word b pos := by omega
  have hv : pos + 4 + word b pos + word b (pos + 8 + word b pos) + 12 =
      pos + 16 + word b pos + word b (pos + 8 + word b pos) := by omega
  rw [parseEvent, load32_of_le hpos, ok_bind, unpackHdf_eq, hk, hv]
  -- One case for each read of the decoder, in the order it makes them.
  by_cases h0 : b.length < pos + 8 + word b pos
  · rw [if_pos h0, error_bind, inBounds_error]
    exact iff_of_false (by simp) fun h => by omega
  rw [if_neg h0]
  by_cases hty : word b (pos + 4 + word b pos) ≠ dataTypeString
  · rw [if_pos hty, ok_bind]
    exact iff_of_true (by simp) ⟨by omega, fun h => absurd h hty⟩
  rw [if_neg hty]
  by_cases h1 : b.length < pos + 16 + word b pos + word b (pos + 8 + word b pos)
  · rw [if_pos h1, error_bind, inBounds_error]
    refine iff_of_false (by simp) fun h => ?_
    have := (h.2 (not_not.mp hty)).1
    omega
  rw [if_neg h1]
  by_cases hnul : 0 ∈ b.drop (pos + 16 + word b pos + word b (pos + 8 + word b pos))
  · rw [if_pos hnul, ok_bind]
    refine iff_of_true ?_ ⟨by omega, fun _ => ⟨by omega, hnul⟩⟩
    -- The name lies before the type word, so copying it is safe once the size test is passed.
    dsimp only
    split_ifs
    · simp
    · rw [load_of_le (by omega), ok_bind]
      exact inBounds_bind (putInQueue_inBounds H m w req _ _ _) fun _ => by simp
  · rw [if_neg hnul, error_bind, inBounds_error]
    exact iff_of_false (by simp) fun h => hnul (h.2 (not_not.mp hty)).2

/-- Decoding a message of at least 17 bytes stays inside it exactly when its lengths do: no check
of `parse_message` and `parse_event` comes before the reads that it would have to guard. -/
theorem parseMessage_inBounds_iff (H : HdfLib HDF) (m : Allocs) (w : World ι HDF) (req : ReqInfo)
    (b : List UInt8) (hlen : 17 ≤ b.length) :
    InBounds (parseMessage H m w req b b.length) ↔ LengthsInside b := by
  rw [parseMessage, if_neg (by omega), load32_of_le (by omega), ok_bind, load16_of_le (by omega),
    ok_bind, load16_of_le (by omega), ok_bind]
  by_cases hver : hdrVer (word b 0) ≠ protoVer
  · rw [if_pos hver]
    exact iff_of_true (by simp) fun h => absurd h hver
  have h12 : 8 + 4 + word b 8 = 12 + word b 8 := by omega
  have h16 : 8 + 8 + word b 8 = 16 + word b 8 := by omega
  have h24 : 8 + 16 + word b 8 = 24 + word b 8 := by omega
  rw [if_neg hver, LengthsInside, imp_iff_right (not_not.mp hver),
    inBounds_bind_iff fun _ => by simp, parseEvent_inBounds_iff H m w _ (by omega), h12, h16, h24]
  refine and_congr (by omega) (imp_congr_right fun _ => and_congr (by omega) Iff.rfl)

/-- A message of 17 bytes whose name claims to have `2^32 - 1` bytes. -/
def hugeNameMsg : List UInt8 :=
  [0x10, 0, 0, 1, 0, 0, 0, 0, 0xFF, 0xFF, 0xFF, 0xFF, 0, 0, 0, 0, 0]

/-- The message of a name and a text that fit. -/
def fittingMsg : List UInt8 :=
  [0x10, 0, 0, 1, 0, 0, 0, 2] ++ be32 1 ++ [0x61] ++ dataCell (ascii "root") [0x62, 0] ++
    be32 dataTypeEof

/-- The request record of a connection on which nothing was parsed yet. -/
def ReqInfo.fresh (fd : ℤ) (tcpsock : ℕ) : ReqInfo := ⟨fd, [], 0, 0, 0, none, 0, tcpsock⟩

/-- The name's length moves the read of the type word out of the message. -/
theorem parseMessage_hugeNameMsg :
    17 ≤ hugeNameMsg.length ∧
      ¬ InBounds (parseMessage textHdf .granted (.start [] (.empty Unit)) (.fresh 5 0)
        hugeNameMsg hugeNameMsg.length) := by
  decide +kernel

theorem parseMessage_fittingMsg :
    InBounds (parseMessage textHdf .granted (.start [] (.empty Unit)) (.fresh 5 0) fittingMsg
      fittingMsg.length) :=
  (parseMessage_inBounds_iff _ _ _ _ _ (by decide)).mpr (by decide)

/-! ## A well-formed request -/

/-- The header word of a request. -/
def hdrWord (id : ℕ) : ℕ := protoVer <<< 28 ||| id

/-- The bytes of a request behind its length word. -/
def requestMsg (id cmd flags : ℕ) (name text : List UInt8) : List UInt8 :=
  be32 (hdrWord id) ++ be16 cmd ++ be16 flags ++ be32 name.length ++ name ++
    dataCell (ascii "root") (text ++ [0]) ++ be32 dataTypeEof

@[simp] theorem length_requestMsg (id cmd flags : ℕ) (name text : List UInt8) :
    (requestMsg id cmd flags name text).length = 33 + name.length + text.length := by
  simp [requestMsg]
  omega

theorem hdrWord_eq {id : ℕ} (h : id < 2^28) : hdrWord id = 2^28 + id := by
  have hor := Nat.two_pow_add_eq_or_of_lt h 1
  rw [mul_one] at hor
  rw [hdrWord, protoVer, Nat.one_shiftLeft, hor]

/-- An id of 28 bits leaves the version nibble alone. -/
theorem hdrVer_hdrWord {id : ℕ} (h : id < 2^28) : hdrVer (hdrWord id) = protoVer := by
  rw [hdrVer, Nat.shiftRight_and_distrib, hdrWord_eq h, Nat.shiftRight_eq_div_pow,
    Nat.add_div_left _ (by norm_num), Nat.div_eq_of_lt h]
  rfl

/-- The id comes back from the header. -/
theorem hdrId_hdrWord {id : ℕ} (h : id < 2^28) : hdrId (hdrWord id) = id := by
  have hmask : (0x0FFFFFFF : ℕ) = 2^28 - 1 := by norm_num
  rw [hdrId, hdrWord_eq h, hmask, Nat.and_two_pow_sub_one_eq_mod, Nat.add_mod_left,
    Nat.mod_eq_of_lt h]

section
variable {id cmd flags : ℕ} {name text : List UInt8}

theorem load32_requestMsg_hdr (hid : id < 2^28) :
    load32 (requestMsg id cmd flags name text) 0 = .ok (hdrWord id) := by
  have hsplit : requestMsg id cmd flags name text = [] ++ (be32 (hdrWord id) ++ (be16 cmd ++
      be16 flags ++ be32 name.length ++ name ++ dataCell (ascii "root") (text ++ [0]) ++
        be32 dataTypeEof)) := by
    simp [requestMsg]
  rw [hsplit, load32_between (by simp), hdrWord_eq hid, Nat.mod_eq_of_lt (by omega)]

theorem load16_requestMsg_cmd (hcmd : cmd < 2^16) :
    load16 (requestMsg id cmd flags name text) 4 = .ok cmd := by
  have hsplit : requestMsg id cmd flags name text = be32 (hdrWord id) ++ (be16 cmd ++
      (be16 flags ++ be32 name.length ++ name ++ dataCell (ascii "root") (text ++ [0]) ++
        be32 dataTypeEof)) := by
    simp [requestMsg]
  rw [hsplit, load16_between (by simp), Nat.mod_eq_of_lt hcmd]

theorem load16_requestMsg_flags (hflags : flags < 2^16) :
    load16 (requestMsg id cmd flags name text) 6 = .ok flags := by
  have hsplit : requestMsg id cmd flags name text = be32 (hdrWord id) ++ be16 cmd ++
      (be16 flags ++ (be32 name.length ++ name ++ dataCell (ascii "root") (text ++ [0]) ++
        be32 dataTypeEof)) := by
    simp [requestMsg]
  rw [hsplit, load16_between (by simp), Nat.mod_eq_of_lt hflags]

theorem load32_requestMsg_esize (hname : name.length < 2^32) :
    load32 (requestMsg id cmd flags name text) 8 = .ok name.length := by
  have hsplit : requestMsg id cmd flags name text = be32 (hdrWord id) ++ be16 cmd ++ be16 flags ++
      (be32 name.length ++ (name ++ dataCell (ascii "root") (text ++ [0]) ++
        be32 dataTypeEof)) := by
    simp [requestMsg]
  rw [hsplit, load32_between (by simp), Nat.mod_eq_of_lt hname]

theorem load_requestMsg_ename :
    load (requestMsg id cmd flags name text) 12 name.length = .ok name := by
  have hsplit : requestMsg id cmd flags name text = be32 (hdrWord id) ++ be16 cmd ++ be16 flags ++
      be32 name.length ++ (name ++ (dataCell (ascii "root") (text ++ [0]) ++
        be32 dataTypeEof)) := by
    simp [requestMsg]
  rw [hsplit, load_between (by simp) rfl]

theorem unpackHdf_requestMsg (H : HdfLib HDF) {len : ℕ} (hnul : 0 ∉ text)
    (hsize : 21 + text.length < 2^32) :
    unpackHdf H (requestMsg id cmd flags name text) (12 + name.length) len =
      .ok (21 + text.length, H.readString H.init text) := by
  have hsplit : requestMsg id cmd flags name text = be32 (hdrWord id) ++ be16 cmd ++ be16 flags ++
      be32 name.length ++ name ++ (dataCell (ascii "root") (text ++ [0]) ++ be32 dataTypeEof) := by
    simp [requestMsg]
  rw [hsplit, unpackHdf_dataCell H (by simp; omega) hnul (by rw [length_root]; omega), length_root]

end

/-- The request record that `parse_message` hands on. -/
def parsedReq (req : ReqInfo) (id cmd flags len : ℕ) : ReqInfo :=
  { req with id := bswap32 id, cmd := cmd, flags := flags, payload := some 8, psize := len - 8 }

/-- What `parse_event` does with a request that it can read. -/
def queueReq (H : HdfLib HDF) (m : Allocs) (w : World ι HDF) (req : ReqInfo) (ename : List UInt8)
    (hdfrcv : HDF) : Except Fault (World ι HDF) := do
  let (w, rv) ← putInQueue H m w req (fillSyncFlag req) ename hdfrcv
  return if ¬ rv ∧ fillSyncFlag req then tcpReplyMini w req repErrMem else w

/-- Decoding a well-formed request is queueing what was encoded. -/
theorem parseMessage_requestMsg (H : HdfLib HDF) (m : Allocs) (w : World ι HDF) (req : ReqInfo)
    {id cmd flags : ℕ} {name text : List UInt8} (hid : id < 2^28) (hcmd : cmd < 2^16)
    (hflags : flags < 2^16) (hnul : 0 ∉ text)
    (hsize : 37 + name.length + text.length ≤ maxPacketLen) :
    parseMessage H m w req (requestMsg id cmd flags name text)
        (requestMsg id cmd flags name text).length = (do
      let req := parsedReq req id cmd flags (33 + name.length + text.length)
      let w ← queueReq H m w req name (H.readString H.init text)
      return (w, req, true)) := by
  rw [maxPacketLen] at hsize
  have hrsize : (21 + text.length) % 2^32 = 21 + text.length := Nat.mod_eq_of_lt (by omega)
  have hsum : (21 + text.length + name.length) % 2^32 = 21 + text.length + name.length :=
    Nat.mod_eq_of_lt (by omega)
  rw [length_requestMsg, parseMessage, if_neg (by omega), load32_requestMsg_hdr hid, ok_bind,
    load16_requestMsg_cmd hcmd, ok_bind, load16_requestMsg_flags hflags, ok_bind,
    if_neg (by rw [hdrVer_hdrWord hid]; simp), hdrId_hdrWord hid]
  dsimp only
  rw [parseEvent, load32_requestMsg_esize (by omega), ok_bind,
    unpackHdf_requestMsg H hnul (by omega), ok_bind]
  dsimp only
  rw [hrsize, hsum, maxPacketLen, if_neg (by omega), load_requestMsg_ename, ok_bind]
  rfl

end Moc
