import Moc.Client.Agree
import Moc.Server.Base

/-!
# The client's decoders undo the server's encoders

`reply_trigger` sends a short frame or a long one, `base_msg_new` makes the frame of a push, and the
client decodes them by `tcp_get_rep` or by `msparse_buf` and `msparse_msg`. That the text of a dataset
and its reader undo each other is the library's business (`RoundTrips`, `Reserves`).
-/

open Bytes Memory Socket

namespace Moc

variable {ι HDF : Type}

/-! ## What is sent -/

/-- The reply of `reply_trigger` with the dataset's text at hand. -/
def replyOf (H : HdfLib HDF) (hdfsnd : HDF) (reply : ℕ) (text : List UInt8) : ReplyFrame :=
  if H.objChild hdfsnd then .long reply text else .mini reply

@[simp] theorem replyOf_code (H : HdfLib HDF) (hdfsnd : HDF) (reply : ℕ) (text : List UInt8) :
    (replyOf H hdfsnd reply text).code = reply := by
  unfold replyOf
  split_ifs <;> rfl

/-- `reply_trigger` sends that frame. -/
theorem replyTrigger_eq {H : HdfLib HDF} (w : World ι HDF) {q : QueueEntry HDF} {id : ℕ} (reply : ℕ)
    {text : List UInt8} (hid : q.req.id = bswap32 id) (htext : H.writeString q.hdfsnd = some text) :
    replyTrigger H true w q reply =
      .ok (repSend w q.req ((replyOf H q.hdfsnd reply text).bytes id), true) := by
  unfold replyTrigger replyOf
  by_cases hchild : H.objChild q.hdfsnd = true
  · obtain ⟨rest, hpack⟩ := packHdf_block htext List.length_replicate
    have hne : (packedVal text).length ≠ 0 := by
      rw [length_packedVal]
      omega
    rw [if_neg (not_not.mpr hchild), if_neg (by decide), hpack, ok_bind, if_pos hchild]
    dsimp only
    rw [if_neg hne, List.take_left, pure_eq_ok]
    simp [tcpReplyLong, ReplyFrame.bytes, hid]
  · rw [if_pos hchild, if_neg hchild, pure_eq_ok]
    simp [tcpReplyMini, ReplyFrame.bytes, hid]

/-- The frame of a push is a long frame with the id 0. -/
theorem longFrame_zero (text : List UInt8) :
    longFrame 0 10000 (packedVal text) = (ReplyFrame.long 10000 text).bytes 0 := rfl

/-- `base_msg_new` makes the frame of a dataset to which the command was added. -/
theorem baseMsgNew_eq {H : PushLib HDF} {cmd : List UInt8} {datanode node : HDF}
    {text : List UInt8}
    (hnode : H.setAttr (H.setValue datanode "_Reserve" (ascii "moc")) "_Reserve" (ascii "cmd") cmd =
      some node) (htext : H.writeString node = some text) :
    baseMsgNew H true cmd datanode = .ok (node, .ok ((ReplyFrame.long 10000 text).bytes 0)) := by
  obtain ⟨rest, hpack⟩ := packHdf_block htext List.length_replicate
  have hne : (packedVal text).length ≠ 0 := by
    rw [length_packedVal]
    omega
  unfold baseMsgNew
  dsimp only
  rw [hnode]
  dsimp only
  rw [hpack, ok_bind]
  dsimp only
  rw [if_neg hne, if_neg (by decide), List.take_left, pure_eq_ok, longFrame_zero]

/-- The length word of a frame is within the limits of the client. -/
theorem ReplyFrame.word_length {f : ReplyFrame} {id : ℕ} (hid : id < 2^32) (hcode : f.code < 2^32) :
    word (f.bytes id) 0 = (f.bytes id).length ∧ 8 < word (f.bytes id) 0 ∧
      word (f.bytes id) 0 ≤ maxPacketLen := by
  have hle := f.length_payload_le
  have hlen : (f.bytes id).length = 12 + f.payload.length := by
    rw [f.bytes_eq id hid hcode, RepFrame.length_bytes]
    rfl
  have hword : word (f.bytes id) 0 = (f.bytes id).length := by
    rw [f.bytes_eq id hid hcode, RepFrame.word_size]
  exact ⟨hword, by omega, by omega⟩

/-! ## The decoder without an event loop -/

/-- `tcp_get_rep` followed by `unpack_hdf`, as `_mevt_trigger` calls them for a dataset that was just
made: the id and the code of the frame that was taken, and the dataset. -/
def getRepDecoded (H : HdfLib HDF) (gReqid : ℕ) (sock : Sock) (buf : List UInt8) :
    Except Fault (Option (ℕ × ℕ × HDF)) := do
  let (r, _, buf) ← tcpGetRep gReqid sock buf maxPacketLen
  match r with
  | none => return none
  | some (reply, vsize) =>
    let id ← load32 buf 4
    if vsize > 8 then
      let (_, hdfrcv) ← unpackHdf H buf 16 (vsize - 4)
      return some (id, reply, hdfrcv)
    else return some (id, reply, H.init)

/-- The dataset of a reply. -/
def ReplyFrame.dataset (H : HdfLib HDF) : ReplyFrame → HDF
  | .long _ text => H.readString H.init (text.take 65024)
  | _ => H.init

/-- A text of at most 65023 bytes is not cut, so the dataset of the reply is the one that was sent. -/
theorem dataset_replyOf {H : HdfLib HDF} (hlaws : H.RoundTrips) {hdfsnd : HDF} (reply : ℕ)
    {text : List UInt8} (htext : H.writeString hdfsnd = some text) (hlen : text.length ≤ 65023) :
    (replyOf H hdfsnd reply text).dataset H = hdfsnd := by
  unfold replyOf
  by_cases hchild : H.objChild hdfsnd = true
  · rw [if_pos hchild, ReplyFrame.dataset, List.take_of_length_le (by omega),
      hlaws.read_write _ _ htext]
  · rw [if_neg hchild, hlaws.childless (Bool.eq_false_iff.mpr hchild)]
    rfl

theorem getRepDecoded_frame (H : HdfLib HDF) {g id : ℕ} {sock : Sock} {buf : List UInt8}
    (f : ReplyFrame) {s' : List Event} (hid : id < 2^32) (hcode : f.code < 2^32) (hg : g ≤ id)
    (hlen : buf.length = maxPacketLen) (hopen : sock.isOpen = true)
    (hwhole : Whole (f.bytes id) sock.script s') (hnul : ∀ reply text, f = .long reply text → 0 ∉ text)
    (hval : ∀ c, f ≠ .error c) :
    getRepDecoded H g sock buf = .ok (some (id, f.code, f.dataset H)) := by
  -- The id is read again from the buffer that the frame was received into.
  have hload : load32 (f.bytes id ++ buf.drop (f.bytes id).length) 4 = .ok id := by
    rw [f.bytes_eq id hid hcode]
    exact RepFrame.load_id _ _
  rw [getRepDecoded, tcpGetRep_reply id hid hcode hg hlen hopen hwhole, ok_bind]
  dsimp only
  rw [hload, ok_bind]
  -- Only a reply with a dataset is longer than its id and its code.
  cases f with
  | mini reply =>
    have hsize : ¬ (ReplyFrame.mini reply).payload.length > 8 := by simp [ReplyFrame.payload]
    rw [if_neg hsize]
    rfl
  | error c => exact absurd rfl (hval c)
  | long reply text =>
    have hsize : (ReplyFrame.long reply text).payload.length > 8 := by
      simp only [ReplyFrame.payload, List.length_append, length_be32, length_packedVal]
      omega
    rw [if_pos hsize, ReplyFrame.long_bytes_append, unpackHdf_packedVal H (by simp)
      (hnul reply text rfl), ok_bind]
    rfl

/-! ## The decoder of the event loop -/

/-- `msparse_msg` as `msparse_buf` calls it, with the id and the code that it finds written down. -/
def seenMsg (H : PushLib HDF) (gReqid : ℕ) (calloc : Bool) :
    MsgHandler (List (ℕ × ℕ) × MsState HDF) := fun s buf len => do
  let id ← load32 buf 0
  let reply ← load32 buf 4
  let (st, _) ← msparseMsg H gReqid calloc s.2 buf len
  return (s.1 ++ [(id, reply)], st)

/-- A connection without leftovers that gets exactly one message hands it over. -/
theorem msparseBuf_whole {σ : Type} (cap : Option ℕ) (malloc : Bool) (handle : MsgHandler σ)
    {v : MocSrv σ} {fb : List UInt8} (behind : List UInt8) (hbuf : v.buf = none)
    (hexcess : v.excess = 0) (hword : word fb 0 = fb.length) (hmin : 8 < word fb 0)
    (hmax : word fb 0 ≤ maxPacketLen) :
    msparseBuf cap malloc handle v (fb ++ behind) fb.length = (do
      let st ← handle v.st (fb.drop 4 ++ behind) (fb.length - 4)
      return { v with st := st }) := by
  rw [maxPacketLen] at hmax
  have htake : (fb ++ behind).take fb.length = fb := List.take_left
  have hget : totaltoget fb = fb.length := by
    rw [totaltoget, if_pos (by omega), hword]
  have hnext : serverFramer.next ((fb ++ behind).take fb.length) = .frame fb.length := by
    rw [htake, serverFramer_next, hget, hword, if_neg (by omega), if_neg (by omega)]
  have hdrop : (fb ++ behind).drop 4 = fb.drop 4 ++ behind :=
    List.drop_append_of_le_length (by omega)
  rw [msparseBuf_frame (by simp) hnext hexcess, hdrop]
  simp only [Nat.lt_irrefl, if_false, MocSrv.release, hbuf, Option.isSome_none, Bool.false_eq_true]
  rcases handle v.st (fb.drop 4 ++ behind) (fb.length - 4) with e | st <;> rfl

/-- The last attribute of the name `cmd` is the command. -/
theorem pushCmd_append {before after : List (List UInt8 × List UInt8)} (cmd : List UInt8)
    (h : ∀ attr ∈ after, attr.1 ≠ ascii "cmd") :
    pushCmd (before ++ (ascii "cmd", cmd) :: after) = some cmd := by
  have hafter : ∀ l : List (List UInt8 × List UInt8), (∀ attr ∈ l, attr.1 ≠ ascii "cmd") →
      l.foldl (fun cmd attr => if attr.1 = ascii "cmd" then some attr.2 else cmd) (some cmd) =
        some cmd := by
    intro l
    induction l with
    | nil => exact fun _ => rfl
    | cons attr l ih =>
      intro hl
      rw [List.foldl_cons, if_neg (hl attr List.mem_cons_self)]
      exact ih fun a ha => hl a (List.mem_cons_of_mem _ ha)
  rw [pushCmd, List.foldl_append, List.foldl_cons, if_pos rfl]
  exact hafter after h

section
variable {H : PushLib HDF} {g id : ℕ} {calloc : Bool} {st : MsState HDF}

/-- `msparse_msg` recovers the id, the code and the dataset of a reply. -/
theorem seenMsg_reply {hdfsnd : HDF} {reply : ℕ} {text : List UInt8} (hround : H.RoundTrips)
    (behind : List UInt8) (hid : id < 2^32) (hreply : reply < 2^32) (hg : g ≤ id) (hpos : 1 ≤ id)
    (htext : H.writeString hdfsnd = some text) (hlen : text.length ≤ 65023)
    (hfresh : H.objChild hdfsnd = false → st.evt.hdfrcv = H.init) :
    seenMsg H g calloc ([], st)
        (((replyOf H.toHdfLib hdfsnd reply text).bytes id).drop 4 ++ behind)
        (((replyOf H.toHdfLib hdfsnd reply text).bytes id).length - 4) =
      .ok ([(id, reply)], { st with
        evt := { st.evt with hdfrcv := hdfsnd }, mainsync := st.mainsync + 1 }) := by
  have hcode : (replyOf H.toHdfLib hdfsnd reply text).code < 2^32 := by rwa [replyOf_code]
  -- The handler finds the id and the code at the front of the message.
  have hloadid : load32 (((replyOf H.toHdfLib hdfsnd reply text).bytes id).drop 4 ++ behind) 0 =
      .ok id := by
    rw [ReplyFrame.bytes_eq _ _ hid hcode]
    exact RepFrame.load_msg_id _ _
  have hloadreply : load32 (((replyOf H.toHdfLib hdfsnd reply text).bytes id).drop 4 ++ behind) 4 =
      .ok reply := by
    rw [ReplyFrame.bytes_eq _ _ hid hcode, RepFrame.load_msg_reply]
    exact congrArg _ (replyOf_code H.toHdfLib hdfsnd reply text)
  have hdata := dataset_replyOf hround reply htext hlen
  -- The dataset comes from the message, or is the fresh one that was waiting.
  have hmsg : msparseMsg H g calloc st
      (((replyOf H.toHdfLib hdfsnd reply text).bytes id).drop 4 ++ behind)
      (((replyOf H.toHdfLib hdfsnd reply text).bytes id).length - 4) =
        .ok ({ st with evt := { st.evt with hdfrcv := hdfsnd }, mainsync := st.mainsync + 1 },
          none) := by
    unfold replyOf at hdata hcode ⊢
    by_cases hchild : H.objChild hdfsnd = true
    · simp only [if_pos hchild] at hdata hcode ⊢
      rw [msparseMsg_long H calloc st behind hid hcode hg hpos (H.writeString_nul _ _ htext)]
      rw [ReplyFrame.dataset] at hdata
      rw [hdata]
    · simp only [if_neg hchild] at hdata hcode ⊢
      rw [msparseMsg_mini H calloc st behind hid hcode hg hpos, ← hdata]
      rw [ReplyFrame.dataset, ← hfresh (Bool.eq_false_iff.mpr hchild)]
      intro _ _ h
      cases h
  unfold seenMsg
  rw [hloadid, ok_bind, hloadreply, ok_bind, hmsg]
  rfl

/-- The command in the node `_Reserve` of a push, and the dataset without the node. -/
theorem PushLib.Reserves.push (hres : H.Reserves) {cmd : List UInt8} {datanode node : HDF}
    (hnode : H.setAttr (H.setValue datanode "_Reserve" (ascii "moc")) "_Reserve" (ascii "cmd") cmd =
      some node) :
    pushCmd (H.getAttr node "_Reserve") = some cmd ∧
      H.removeTree node "_Reserve" = H.removeTree datanode "_Reserve" := by
  constructor
  · obtain ⟨before, after, hattrs, hlast⟩ := hres.getAttr_setAttr _ _ _ _ hnode
    rw [hattrs]
    exact pushCmd_append cmd hlast
  · rw [hres.removeTree_setAttr _ _ _ _ hnode, hres.removeTree_setValue]

/-- `msparse_msg` takes the frame of a push for one, whatever the request counter is. -/
theorem seenMsg_push {cmd : List UInt8} {node : HDF} {text : List UInt8} (hround : H.RoundTrips)
    (behind : List UInt8) (htext : H.writeString node = some text) (hlen : text.length ≤ 65023)
    (hcmd : pushCmd (H.getAttr node "_Reserve") = some cmd) :
    seenMsg H g true ([], st) (((ReplyFrame.long 10000 text).bytes 0).drop 4 ++ behind)
        (((ReplyFrame.long 10000 text).bytes 0).length - 4) =
      .ok ([(0, 10000)], { st with
        callbackqueue := st.callbackqueue ++ [⟨st.evt.ename, cmd, H.removeTree node "_Reserve"⟩]
        callbacksync := st.callbacksync + 1 }) := by
  have hcode : (ReplyFrame.long 10000 text).code < 2^32 := by
    rw [ReplyFrame.code]
    norm_num
  let f := (ReplyFrame.long 10000 text).toRepFrame 0 (by norm_num) hcode
  have hbytes : (ReplyFrame.long 10000 text).bytes 0 = f.bytes :=
    ReplyFrame.bytes_eq _ _ (by norm_num) hcode
  -- The words at the front are those of a push: no id, and the code 10000.
  have hloadid : load32 (((ReplyFrame.long 10000 text).bytes 0).drop 4 ++ behind) 0 = .ok 0 := by
    rw [hbytes]
    exact RepFrame.load_msg_id _ _
  have hloadreply :
      load32 (((ReplyFrame.long 10000 text).bytes 0).drop 4 ++ behind) 4 = .ok 10000 := by
    rw [hbytes]
    exact RepFrame.load_msg_reply _ _
  have hsize : ((ReplyFrame.long 10000 text).bytes 0).length =
      16 + (20 + min 65024 (text.length + 1)) := by
    rw [ReplyFrame.bytes, longFrame]
    simp [length_packedVal]
    omega
  -- Behind them stands the packed node, which has not been cut.
  have hunpack (len : ℕ) :
      unpackHdf H.toHdfLib (((ReplyFrame.long 10000 text).bytes 0).drop 4 ++ behind) 12 len =
        .ok (20 + min 65024 (text.length + 1), node) := by
    rw [ReplyFrame.long_msg_append, unpackHdf_packedVal H.toHdfLib (by simp)
      (H.writeString_nul _ _ htext), List.take_of_length_le (by omega), hround.read_write _ _ htext]
  -- The handler queues the command that the node names, with what is left of the node.
  have hmsg : msparseMsg H g true st (((ReplyFrame.long 10000 text).bytes 0).drop 4 ++ behind)
      (((ReplyFrame.long 10000 text).bytes 0).length - 4) = .ok ({ st with
        callbackqueue := st.callbackqueue ++ [⟨st.evt.ename, cmd, H.removeTree node "_Reserve"⟩]
        callbacksync := st.callbacksync + 1 }, none) := by
    unfold msparseMsg
    rw [if_neg (by omega), hloadid, ok_bind, hloadreply, ok_bind]
    dsimp only
    rw [if_pos ⟨rfl, rfl⟩, if_neg (by omega), if_neg (by decide), hunpack, ok_bind]
    dsimp only
    rw [if_neg (by omega), hcmd]
    rfl
  unfold seenMsg
  rw [hloadid, ok_bind, hloadreply, ok_bind, hmsg]
  rfl

end

/-! ## Both ways -/

/-- What the server encodes the client decodes: the id, the code and the dataset of a reply by
both of its decoders, the module, the command and the dataset of a push by the event loop. Only a
reply that carries no dataset relies on the one that the trigger has just made. -/
theorem client_decodes_server {H : PushLib HDF} (hround : H.RoundTrips) (hres : H.Reserves) :
    (∀ (w : World ι HDF) (q : QueueEntry HDF) (id reply : ℕ) (text : List UInt8),
      1 ≤ id → id < 2^32 → reply < 2^32 → q.req.id = bswap32 id →
      H.writeString q.hdfsnd = some text → text.length ≤ 65023 →
      ∃ frame, replyTrigger H.toHdfLib true w q reply = .ok (repSend w q.req frame, true) ∧
        word frame 0 = frame.length ∧ 8 < word frame 0 ∧ word frame 0 ≤ maxPacketLen ∧
        (∀ sock buf s', buf.length = maxPacketLen → sock.isOpen = true →
          Whole frame sock.script s' →
          getRepDecoded H.toHdfLib id sock buf = .ok (some (id, reply, q.hdfsnd))) ∧
        (∀ cap malloc calloc v st behind, v.buf = none → v.excess = 0 → v.st = ([], st) →
          (H.objChild q.hdfsnd = false → st.evt.hdfrcv = H.init) →
          msparseBuf cap malloc (seenMsg H id calloc) v (frame ++ behind) frame.length =
            .ok { v with st := ([(id, reply)], { st with
              evt := { st.evt with hdfrcv := q.hdfsnd }, mainsync := st.mainsync + 1 }) })) ∧
    (∀ (cmd : List UInt8) (datanode node : HDF) (text : List UInt8),
      H.setAttr (H.setValue datanode "_Reserve" (ascii "moc")) "_Reserve" (ascii "cmd") cmd =
        some node →
      H.writeString node = some text → text.length ≤ 65023 →
      ∃ frame, baseMsgNew H true cmd datanode = .ok (node, .ok frame) ∧
        word frame 0 = frame.length ∧ 8 < word frame 0 ∧ word frame 0 ≤ maxPacketLen ∧
        (∀ g cap malloc v st behind, v.buf = none → v.excess = 0 → v.st = ([], st) →
          msparseBuf cap malloc (seenMsg H g true) v (frame ++ behind) frame.length =
            .ok { v with st := ([(0, 10000)], { st with
              callbackqueue := st.callbackqueue ++
                [⟨st.evt.ename, cmd, H.removeTree datanode "_Reserve"⟩]
              callbacksync := st.callbacksync + 1 }) })) := by
  constructor
  · intro w q id reply text hpos hid hreply hreq htext hlen
    have hcode : (replyOf H.toHdfLib q.hdfsnd reply text).code < 2^32 := by rwa [replyOf_code]
    obtain ⟨hword, hmin, hmax⟩ := ReplyFrame.word_length hid hcode
    refine ⟨_, replyTrigger_eq w reply hreq htext, hword, hmin, hmax, ?_, ?_⟩
    · intro sock buf s' hbuf hopen hwhole
      -- A frame with a dataset comes from the library, and none is an error.
      have hnul : ∀ r t, replyOf H.toHdfLib q.hdfsnd reply text = .long r t → 0 ∉ t := by
        intro r t h
        unfold replyOf at h
        split_ifs at h
        cases h
        exact H.writeString_nul _ _ htext
      have hval : ∀ c, replyOf H.toHdfLib q.hdfsnd reply text ≠ .error c := by
        intro c h
        unfold replyOf at h
        split_ifs at h
      rw [getRepDecoded_frame H.toHdfLib _ hid hcode (le_refl id) hbuf hopen hwhole hnul hval,
        replyOf_code, dataset_replyOf hround reply htext hlen]
    · intro cap malloc calloc v st behind hbuf hexcess hst hfresh
      rw [msparseBuf_whole cap malloc _ behind hbuf hexcess hword hmin hmax, hst,
        seenMsg_reply hround behind hid hreply (le_refl id) hpos htext hlen hfresh]
      rfl
  · intro cmd datanode node text hnode htext hlen
    have hcode : (ReplyFrame.long 10000 text).code < 2^32 := by
      rw [ReplyFrame.code]
      norm_num
    have hzero : 0 < 2^32 := by norm_num
    obtain ⟨hword, hmin, hmax⟩ := ReplyFrame.word_length hzero hcode
    refine ⟨_, baseMsgNew_eq hnode htext, hword, hmin, hmax, ?_⟩
    intro g cap malloc v st behind hbuf hexcess hst
    -- The library gives the command back, and the dataset without it.
    obtain ⟨hcmd, htree⟩ := hres.push hnode
    rw [msparseBuf_whole cap malloc _ behind hbuf hexcess hword hmin hmax, hst,
      seenMsg_push hround behind htext hlen hcmd, htree]
    rfl

/-- A request with the id 1 whose answer is the text `b`. -/
def answeredEntry : QueueEntry (Option (List UInt8) × List UInt8) :=
  ⟨0, ⟨5, [], bswap32 1, 0, flagsSync, none, 0, 0⟩, [97], (none, []), (none, [98])⟩

/-- The reply with that text and the push of the command `c` with the text `d`. -/
theorem client_decodes_server_texts :
    (∃ frame, replyTrigger reserveHdf.toHdfLib true (World.start (none, []) (.empty Unit))
        answeredEntry repOk =
          .ok (repSend (World.start (none, []) (.empty Unit)) answeredEntry.req frame, true) ∧
      getRepDecoded reserveHdf.toHdfLib 1 ⟨[.data frame], .other, true⟩
        (List.replicate maxPacketLen 0) = .ok (some (1, repOk, (none, [98])))) ∧
    ∃ frame, baseMsgNew reserveHdf true [99] (none, [100]) = .ok ((some [99], [100]), .ok frame) ∧
      msparseBuf none true (seenMsg reserveHdf 1 true)
        (.new ([], ⟨mevtCreate reserveHdf.toHdfLib [97], [], 0, 0⟩)) (frame ++ []) frame.length =
        .ok (.new ([(0, 10000)], ⟨mevtCreate reserveHdf.toHdfLib [97],
          [⟨[97], [99], (none, [100])⟩], 1, 0⟩)) := by
  obtain ⟨hreply, hpush⟩ := client_decodes_server (ι := Unit) reserveHdf_roundTrips
    reserveHdf_reserves
  constructor
  · obtain ⟨frame, hsent, -, hmin, -, hrecv, -⟩ := hreply (World.start (none, []) (.empty Unit))
      answeredEntry 1 repOk [1, 98] (by decide) (by decide) (by decide) rfl (by decide) (by decide)
    refine ⟨frame, hsent, hrecv _ _ [] (List.length_replicate ..) rfl (whole_arrived ?_)⟩
    rintro rfl
    exact absurd hmin (by decide)
  · obtain ⟨frame, hnew, -, -, -, hrecv⟩ := hpush [99] (none, [100]) (some [99], [100])
      [2, 99, 1, 100] (by decide) (by decide) (by decide)
    exact ⟨frame, hnew, hrecv 1 none true
      (.new ([], ⟨mevtCreate reserveHdf.toHdfLib [97], [], 0, 0⟩)) _ [] rfl rfl rfl⟩

end Moc
