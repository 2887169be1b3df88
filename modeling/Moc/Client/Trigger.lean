import Moc.Server.Tcp

/-!
# Sending a request

The first half of `_mevt_trigger` in `client/moc.c`, down to `tcp_srv_send` in `client/tcp.c` on a
connected socket. The frame is built in the payload buffer of the module's `moc_t`, which keeps
whatever the requests before it left there. The request counter is shared by all modules.
-/

open Bytes Memory Framing

namespace Moc

variable {κ HDF : Type} [DecidableEq κ]

/-- `struct _moc_t`, without its servers. The name is a C string without its NUL. -/
structure MocT (HDF : Type) where
  ename : List UInt8
  cmd : ℕ
  flags : ℕ
  errcode : ℤ
  psize : ℕ
  rcvbuf : List UInt8
  payload : List UInt8
  hdfrcv : HDF
  hdfsnd : HDF

/-- `mevt_create`, when there is memory. -/
def mevtCreate (H : HdfLib HDF) (name : List UInt8) : MocT HDF where
  ename := name
  cmd := 0
  flags := 0
  errcode := 0
  psize := 0
  rcvbuf := List.replicate maxPacketLen 0
  payload := List.replicate maxPacketLen 0
  hdfrcv := H.init
  hdfsnd := H.init

/-- The client: `g_reqid` and the modules. -/
structure Client (κ HDF : Type) where
  gReqid : ℕ
  evth : κ → MocT HDF

/-- A client whose modules were just created. -/
def Client.new (H : HdfLib HDF) (names : κ → List UInt8) : Client κ HDF :=
  ⟨0, fun k => mevtCreate H (names k)⟩

/-- `if (g_reqid++ > 0x0FFFFFFC) g_reqid = 1;` -/
def nextReqid (gReqid : ℕ) : ℕ := if gReqid > 0x0FFFFFFC then 1 else (gReqid + 1) % 2^32

/-- `TCP_MSG_OFFSET` -/
def tcpMsgOffset : ℕ := 4

/-- The packing half of `_mevt_trigger`. -/
def packRequest (H : HdfLib HDF) (gReqid : ℕ) (evt : MocT HDF) (cmd flags : UInt16) :
    Except Fault (MocT HDF) := do
  let ksize := evt.ename.length
  let payload ← store evt.payload tcpMsgOffset (be32 (protoVer <<< 28 ||| gReqid))
  let payload ← store payload (tcpMsgOffset + 4) (be16 cmd.toNat)
  let payload ← store payload (tcpMsgOffset + 6) (be16 flags.toNat)
  let payload ← store payload (tcpMsgOffset + 8) (be32 ksize)
  let payload ← store payload (tcpMsgOffset + 12) evt.ename
  let psize := tcpMsgOffset + 12 + ksize
  let (payload, vsize) ← packHdf H evt.hdfsnd payload psize maxPacketLen
  let psize := psize + vsize
  let evt := { evt with cmd := cmd.toNat, flags := flags.toNat, payload := payload, psize := psize }
  if psize < 17 then
    let payload ← store payload psize (be32 dataTypeEof)
    return { evt with payload := payload, psize := psize + 4 }
  else return evt

/-- `tcp_srv_send`: the length goes to the front of the buffer, and the frame is given to
`ssend`. -/
def tcpSrvSend (evt : MocT HDF) : Except Fault (MocT HDF × List UInt8) := do
  let payload ← store evt.payload 0 (be32 evt.psize)
  let frame ← load payload 0 evt.psize
  return ({ evt with payload := payload }, frame)

/-- `_mevt_trigger` up to the wait for a reply: the client and the frame. `sent` says whether
`ssend` took the whole frame. -/
def mevtTriggerSend (H : HdfLib HDF) (sent : Bool) (c : Client κ HDF) (k : κ) (cmd flags : UInt16) :
    Except Fault (Client κ HDF × List UInt8) := do
  let gReqid := nextReqid c.gReqid
  let evt ← packRequest H gReqid (c.evth k) cmd flags
  let (evt, frame) ← tcpSrvSend evt
  let evt := if sent then { evt with hdfsnd := H.init, hdfrcv := H.init }
    else { evt with errcode := repErrSend }
  return (⟨gReqid, Function.update c.evth k evt⟩, frame)

/-- A use of the client: the application fills the module's dataset and triggers. -/
structure Call (κ HDF : Type) where
  module : κ
  hdfsnd : HDF
  cmd : UInt16
  flags : UInt16
  sent : Bool

/-- The client once the application has filled the module's dataset. -/
def Client.fill (c : Client κ HDF) (x : Call κ HDF) : Client κ HDF :=
  ⟨c.gReqid, Function.update c.evth x.module { c.evth x.module with hdfsnd := x.hdfsnd }⟩

/-- One call. -/
def Client.call (H : HdfLib HDF) (c : Client κ HDF) (x : Call κ HDF) :
    Except Fault (Client κ HDF × List UInt8) :=
  mevtTriggerSend H x.sent (c.fill x) x.module x.cmd x.flags

/-- A run of calls. -/
def Client.calls (H : HdfLib HDF) (c : Client κ HDF) : List (Call κ HDF) →
    Except Fault (Client κ HDF)
  | [] => .ok c
  | x :: xs => do
    let (c, _) ← c.call H x
    c.calls H xs

/-! ## The request counter -/

/-- The counter stays between 0 and `0x0FFFFFFD`, and is at least 1 once it has moved. -/
theorem nextReqid_mem {g : ℕ} (h : g ≤ 0x0FFFFFFD) :
    1 ≤ nextReqid g ∧ nextReqid g ≤ 0x0FFFFFFD := by
  unfold nextReqid
  split_ifs <;> omega

/-- Packing a request keeps the module's name and the size of its buffer. -/
theorem packRequest_keeps {H : HdfLib HDF} {g : ℕ} {evt evt' : MocT HDF} {cmd flags : UInt16}
    (h : packRequest H g evt cmd flags = .ok evt') :
    evt'.ename = evt.ename ∧ evt'.payload.length = evt.payload.length := by
  simp only [packRequest, bind_eq_ok] at h
  obtain ⟨b₁, h₁, b₂, h₂, b₃, h₃, b₄, h₄, b₅, h₅, ⟨b₆, n⟩, h₆, h⟩ := h
  have hlen : b₆.length = evt.payload.length := by
    rw [length_packHdf h₆, length_store h₅, length_store h₄, length_store h₃, length_store h₂,
      length_store h₁]
  dsimp only at h
  split_ifs at h
  · obtain ⟨b₇, h₇, h⟩ := bind_eq_ok.mp h
    rw [← Except.ok.inj h]
    exact ⟨rfl, (length_store h₇).trans hlen⟩
  · rw [← Except.ok.inj h]
    exact ⟨rfl, hlen⟩

theorem tcpSrvSend_keeps {evt evt' : MocT HDF} {frame : List UInt8}
    (h : tcpSrvSend evt = .ok (evt', frame)) :
    evt'.ename = evt.ename ∧ evt'.payload.length = evt.payload.length := by
  simp only [tcpSrvSend, bind_eq_ok] at h
  obtain ⟨b, hb, f, -, h⟩ := h
  rw [← (Prod.mk.inj (Except.ok.inj h)).1]
  exact ⟨rfl, length_store hb⟩

/-- A trigger moves the counter and changes one module, whose name and buffer size stay. -/
theorem mevtTriggerSend_keeps {H : HdfLib HDF} {sent : Bool} {c c' : Client κ HDF} {k : κ}
    {cmd flags : UInt16} {frame : List UInt8}
    (h : mevtTriggerSend H sent c k cmd flags = .ok (c', frame)) :
    ∃ evt, c' = ⟨nextReqid c.gReqid, Function.update c.evth k evt⟩ ∧
      evt.ename = (c.evth k).ename ∧ evt.payload.length = (c.evth k).payload.length := by
  simp only [mevtTriggerSend, bind_eq_ok] at h
  obtain ⟨evt₁, hpack, ⟨evt₂, f⟩, hsend, h⟩ := h
  obtain ⟨hname₁, hlen₁⟩ := packRequest_keeps hpack
  obtain ⟨hname₂, hlen₂⟩ := tcpSrvSend_keeps hsend
  refine ⟨_, (Prod.mk.inj (Except.ok.inj h)).1.symm, ?_, ?_⟩
  · cases sent <;> exact hname₂.trans hname₁
  · cases sent <;> exact hlen₂.trans hlen₁

/-- What holds of a client between calls. -/
structure Client.Ok (names : κ → List UInt8) (c : Client κ HDF) : Prop where
  gReqid_le : c.gReqid ≤ 0x0FFFFFFD
  ename_eq : ∀ k, (c.evth k).ename = names k
  length_payload : ∀ k, (c.evth k).payload.length = maxPacketLen

omit [DecidableEq κ] in
theorem Client.new_ok (H : HdfLib HDF) (names : κ → List UInt8) :
    (Client.new H names).Ok names where
  gReqid_le := by simp [Client.new]
  ename_eq _ := rfl
  length_payload _ := List.length_replicate

/-- Changing a module without its name and buffer size keeps it. -/
theorem Client.Ok.update {names : κ → List UInt8} {c : Client κ HDF} {g : ℕ} {k : κ}
    {evt : MocT HDF} (hok : c.Ok names) (hg : g ≤ 0x0FFFFFFD) (hname : evt.ename = (c.evth k).ename)
    (hlen : evt.payload.length = (c.evth k).payload.length) :
    Client.Ok names ⟨g, Function.update c.evth k evt⟩ where
  gReqid_le := hg
  ename_eq j := by
    by_cases hj : j = k
    · subst hj
      simp [hname, hok.ename_eq]
    · simp [hj, hok.ename_eq]
  length_payload j := by
    by_cases hj : j = k
    · subst hj
      simp [hlen, hok.length_payload]
    · simp [hj, hok.length_payload]

theorem Client.Ok.fill {names : κ → List UInt8} {c : Client κ HDF} (hok : c.Ok names)
    (x : Call κ HDF) : (c.fill x).Ok names :=
  hok.update hok.gReqid_le rfl rfl

/-- A call keeps it. -/
theorem Client.Ok.call {H : HdfLib HDF} {names : κ → List UInt8} {c c' : Client κ HDF}
    {x : Call κ HDF} {frame : List UInt8} (hok : c.Ok names) (h : c.call H x = .ok (c', frame)) :
    c'.Ok names := by
  obtain ⟨evt, rfl, hname, hlen⟩ := mevtTriggerSend_keeps h
  exact (hok.fill x).update (nextReqid_mem hok.gReqid_le).2 hname hlen

/-- A run of calls keeps it. -/
theorem Client.Ok.calls {H : HdfLib HDF} {names : κ → List UInt8} {c c' : Client κ HDF}
    {xs : List (Call κ HDF)} (hok : c.Ok names) (h : c.calls H xs = .ok c') : c'.Ok names := by
  induction xs generalizing c with
  | nil => rwa [← Except.ok.inj h]
  | cons x xs ih =>
    obtain ⟨⟨c₁, frame⟩, hcall, hrest⟩ := bind_eq_ok.mp h
    exact ih (hok.call hcall) hrest

/-! ## The frame -/

/-- Packing a request that fits writes `requestMsg` behind the first four bytes. -/
theorem packRequest_eq (H : HdfLib HDF) (g : ℕ) (evt : MocT HDF) (cmd flags : UInt16)
    {text : List UInt8} (hpayload : evt.payload.length = maxPacketLen)
    (htext : H.writeString evt.hdfsnd = some text) (hlen : text.length ≤ 65023)
    (hsize : 37 + evt.ename.length + text.length ≤ maxPacketLen) :
    ∃ evt' rest, packRequest H g evt cmd flags = .ok evt' ∧
      evt'.payload = evt.payload.take 4 ++
        (requestMsg g cmd.toNat flags.toNat evt.ename text ++ rest) ∧
      evt'.psize = 37 + evt.ename.length + text.length := by
  have hpacked : packedText (some text) maxPacketLen = text ++ [0] := by
    rw [packedText, List.take_of_length_le]
    · simp
    · simp [sizeSub, maxPacketLen, reserveSize]
      omega
  rw [maxPacketLen] at hpayload hsize
  obtain ⟨front, back, hfb, hfront⟩ : ∃ front back, evt.payload = front ++ back ∧
      front.length = 4 := ⟨_, _, (List.take_append_drop 4 _).symm, by simp [hpayload]⟩
  have hback : back.length = 65532 := by
    rw [hfb, List.length_append, hfront] at hpayload
    omega
  rw [packRequest, hfb, List.take_left' hfront, tcpMsgOffset,
    store_append hfront.symm (by simp; omega), ok_bind,
    store_append (by simp [hfront]) (by simp; omega), ok_bind,
    store_append (by simp [hfront]) (by simp; omega), ok_bind,
    store_append (by simp [hfront]) (by simp; omega), ok_bind,
    store_append (by simp [hfront]) (by simp; omega), ok_bind]
  dsimp only
  rw [packHdf_append htext (by simp [hfront]; omega) (by rw [hpacked]; simp; omega), ok_bind,
    hpacked]
  dsimp only
  rw [if_neg (by omega), pure_eq_ok]
  simp only [requestMsg, hdrWord, List.append_assoc]
  exact ⟨_, _, rfl, rfl, by simp; omega⟩

/-- The frame of a request. -/
def requestFrame (id cmd flags : ℕ) (name text : List UInt8) : List UInt8 :=
  be32 (4 + (requestMsg id cmd flags name text).length) ++ requestMsg id cmd flags name text

/-- Sending puts the length in front of a packed request. -/
theorem tcpSrvSend_eq {evt : MocT HDF} {front msg rest : List UInt8}
    (hpayload : evt.payload = front ++ (msg ++ rest)) (hfront : front.length = 4)
    (hpsize : evt.psize = 4 + msg.length) :
    tcpSrvSend evt = .ok ({ evt with payload := be32 (4 + msg.length) ++ (msg ++ rest) },
      be32 (4 + msg.length) ++ msg) := by
  have hstore : store (front ++ (msg ++ rest)) 0 (be32 (4 + msg.length)) =
      .ok (be32 (4 + msg.length) ++ (msg ++ rest)) := by
    rw [store, if_pos (by simp; omega), List.take_zero, List.nil_append, length_be32, Nat.zero_add,
      List.drop_left' hfront]
  have hframe : load ([] ++ ((be32 (4 + msg.length) ++ msg) ++ rest)) 0 (4 + msg.length) =
      .ok (be32 (4 + msg.length) ++ msg) := load_between rfl (by simp)
  rw [List.nil_append, List.append_assoc] at hframe
  rw [tcpSrvSend, hpayload, hpsize, hstore, ok_bind, hframe, ok_bind]
  rfl

/-- A request that fits is sent as its frame. -/
theorem Client.Ok.call_eq {H : HdfLib HDF} {names : κ → List UInt8} {c : Client κ HDF}
    (hok : c.Ok names) {x : Call κ HDF} {text : List UInt8}
    (htext : H.writeString x.hdfsnd = some text) (hlen : text.length ≤ 65023)
    (hsize : 37 + (names x.module).length + text.length ≤ maxPacketLen) :
    ∃ c', c.call H x = .ok (c', requestFrame (nextReqid c.gReqid) x.cmd.toNat x.flags.toNat
        (names x.module) text) ∧ c'.gReqid = nextReqid c.gReqid := by
  have hname := (hok.fill x).ename_eq x.module
  obtain ⟨evt, rest, hpack, hpayload, hpsize⟩ := packRequest_eq H (nextReqid c.gReqid)
    ((c.fill x).evth x.module) x.cmd x.flags ((hok.fill x).length_payload x.module)
    (by simp [Client.fill, htext]) hlen
    (by rw [hname]; exact hsize)
  rw [hname] at hpayload hpsize
  have hfront : (((c.fill x).evth x.module).payload.take 4).length = 4 := by
    rw [List.length_take, (hok.fill x).length_payload, maxPacketLen]
    rfl
  have hsend := tcpSrvSend_eq hpayload hfront (by rw [hpsize, length_requestMsg]; omega)
  have hcall : ∃ c', c.call H x = .ok (c', requestFrame (nextReqid c.gReqid) x.cmd.toNat
      x.flags.toNat (names x.module) text) := by
    rw [Client.call, mevtTriggerSend]
    dsimp only
    have hfill : (c.fill x).gReqid = c.gReqid := rfl
    rw [hfill, hpack, ok_bind, hsend, ok_bind]
    exact ⟨_, rfl⟩
  obtain ⟨c', hcall⟩ := hcall
  obtain ⟨evt', rfl, -, -⟩ := mevtTriggerSend_keeps hcall
  exact ⟨_, hcall, rfl⟩

/-- Whatever was triggered before, a request that fits reaches the server as it was given to the
client: `process_buf` takes the frame for one message, the version is `PROTO_VER`, the id is
`g_reqid` and lies between 1 and `0x0FFFFFFD`, and `parse_message` queues the same command, flags
and name with the dataset read back from the same text. -/
theorem Client.call_decoded (H : HdfLib HDF) (names : κ → List UInt8) (xs : List (Call κ HDF))
    (c : Client κ HDF) (hrun : (Client.new H names).calls H xs = .ok c) (x : Call κ HDF)
    (text : List UInt8) (htext : H.writeString x.hdfsnd = some text) (hlen : text.length ≤ 65023)
    (hsize : 36 + (names x.module).length + text.length + 1 ≤ maxPacketLen) :
    ∃ c' frame, c.call H x = .ok (c', frame) ∧
      1 ≤ c'.gReqid ∧ c'.gReqid ≤ 0x0FFFFFFD ∧
      hdrVer (word frame 4) = protoVer ∧ hdrId (word frame 4) = c'.gReqid ∧
      ∀ (ι : Type) [DecidableEq ι] (m : Allocs) (w : World ι HDF) (req : ReqInfo),
        processBuf true (parseHandler H m) (.new (w, req)) frame = (do
          let req := parsedReq req c'.gReqid x.cmd.toNat x.flags.toNat (frame.length - 4)
          let w ← queueReq H m (countMsg w) req (names x.module) (H.readString H.init text)
          return .new (w, req)) := by
  have hok := (Client.new_ok H names).calls hrun
  have hsize' : 37 + (names x.module).length + text.length ≤ maxPacketLen := by omega
  obtain ⟨c', hcall, hreqid⟩ := hok.call_eq htext hlen hsize'
  obtain ⟨hpos, hle⟩ := nextReqid_mem hok.gReqid_le
  have hid : nextReqid c.gReqid < 2^28 := by omega
  have hhdr : word (requestFrame (nextReqid c.gReqid) x.cmd.toNat x.flags.toNat
      (names x.module) text) 4 = hdrWord (nextReqid c.gReqid) := by
    rw [requestFrame, requestMsg]
    simp only [List.append_assoc]
    rw [word_between (length_be32 _).symm, hdrWord_eq hid, Nat.mod_eq_of_lt (by omega)]
  refine ⟨c', _, hcall, by rwa [hreqid], by rwa [hreqid], ?_, ?_, fun ι _ m w req => ?_⟩
  · rw [hhdr, hdrVer_hdrWord hid]
  · rw [hhdr, hdrId_hdrWord hid, hreqid]
  · have hmsg : (requestFrame (nextReqid c.gReqid) x.cmd.toNat x.flags.toNat (names x.module)
        text).length - 4 = 33 + (names x.module).length + text.length := by
      simp [requestFrame]
    rw [maxPacketLen] at hsize
    rw [hmsg, requestFrame, processBuf_single (by simp; omega) (by simp; omega), hreqid]
    simp only [parseHandler]
    rw [parseMessage_requestMsg H m _ _ hid x.cmd.toNat_lt x.flags.toNat_lt
      (H.writeString_nul _ _ htext) hsize']
    dsimp only
    cases queueReq H m (countMsg w) (parsedReq req (nextReqid c.gReqid) x.cmd.toNat x.flags.toNat
      (33 + (names x.module).length + text.length)) (names x.module)
      (H.readString H.init text) <;> rfl

/-- A synchronous command 7 to the module `a` with the text `k=1`. -/
def sampleCall : Call Unit (List UInt8) := ⟨(), ascii "k=1", 7, 2, true⟩

/-- The second of two such calls. -/
theorem Client.call_decoded_second :
    ∃ c c' frame, (Client.new textHdf fun _ => [97]).calls textHdf [sampleCall] = .ok c ∧
      c.call textHdf sampleCall = .ok (c', frame) ∧
      hdrVer (word frame 4) = protoVer ∧ hdrId (word frame 4) = c'.gReqid := by
  have htext : textHdf.writeString sampleCall.hdfsnd = some (ascii "k=1") := by decide
  obtain ⟨c, hcall, -⟩ := (Client.new_ok textHdf fun _ : Unit => [97]).call_eq htext (by decide)
    (by decide)
  have hrun : (Client.new textHdf fun _ => [97]).calls textHdf [sampleCall] = .ok c := by
    rw [Client.calls, hcall]
    rfl
  obtain ⟨c', frame, h, -, -, hver, hid, -⟩ := Client.call_decoded textHdf (fun _ => [97])
    [sampleCall] c hrun sampleCall (ascii "k=1") htext (by decide) (by decide)
  exact ⟨c, c', frame, hrun, h, hver, hid⟩

/-! ## The room of a request -/

/-- The bytes of the payload buffer that a request takes. -/
def requestSize (H : HdfLib HDF) (ename : List UInt8) (hdfsnd : HDF) : ℕ :=
  match H.writeString hdfsnd with
  | some text => 36 + ename.length + min 65024 (text.length + 1)
  | none => if ename = [] then 20 else 16 + ename.length

/-- The end word of a request without name and dataset counts with them. -/
theorem requestSize_eq (H : HdfLib HDF) (ename : List UInt8) (hdfsnd : HDF) :
    requestSize H ename hdfsnd =
      if 16 + ename.length + packedSize (H.writeString hdfsnd) maxPacketLen < 17 then 20
      else 16 + ename.length + packedSize (H.writeString hdfsnd) maxPacketLen := by
  rw [requestSize]
  cases H.writeString hdfsnd with
  | none =>
    dsimp only
    rw [packedSize_none]
    by_cases hname : ename = []
    · simp [hname]
    · have hpos := List.length_pos_iff.mpr hname
      rw [if_neg hname, if_neg (by omega), Nat.add_zero]
  | some text =>
    dsimp only
    rw [packedSize_some, if_neg (by omega)]
    omega

/-- Packing a request can only leave the payload buffer. -/
theorem checked_packRequest (H : HdfLib HDF) (g : ℕ) (evt : MocT HDF) (cmd flags : UInt16) :
    Checked (packRequest H g evt cmd flags) := by
  unfold packRequest
  refine checked_bind (checked_store _ _ _) fun b₁ => checked_bind (checked_store _ _ _) fun b₂ =>
    checked_bind (checked_store _ _ _) fun b₃ => checked_bind (checked_store _ _ _) fun b₄ =>
    checked_bind (checked_store _ _ _) fun b₅ => checked_bind (checked_packHdf _ _ _ _ _) fun r => ?_
  exact checked_ite (checked_bind (checked_store _ _ _) fun b => checked_ok _) (checked_ok _)

/-- A request that was packed has its size, and that is inside the buffer. -/
theorem packRequest_fits {H : HdfLib HDF} {g : ℕ} {evt evt' : MocT HDF} {cmd flags : UInt16}
    (h : packRequest H g evt cmd flags = .ok evt') :
    evt'.psize = requestSize H evt.ename evt.hdfsnd ∧ evt'.psize ≤ evt.payload.length := by
  simp only [packRequest, bind_eq_ok] at h
  obtain ⟨b₁, h₁, b₂, h₂, b₃, h₃, b₄, h₄, b₅, h₅, ⟨b₆, n⟩, h₆, h⟩ := h
  have hname := store_eq_ok_iff.mp ⟨_, h₅⟩
  have hlen : b₅.length = evt.payload.length := by
    rw [length_store h₅, length_store h₄, length_store h₃, length_store h₂, length_store h₁]
  rw [← length_store h₅, tcpMsgOffset] at hname
  obtain ⟨hn, hfit⟩ := packHdf_fits h₆ (by rw [tcpMsgOffset]; exact hname)
  rw [tcpMsgOffset] at h hfit
  rw [requestSize_eq, ← hn]
  dsimp only at h
  split_ifs at h with hsmall
  · obtain ⟨b₇, h₇, h⟩ := bind_eq_ok.mp h
    have hend := store_eq_ok_iff.mp ⟨_, h₇⟩
    rw [length_packHdf h₆, length_be32] at hend
    rw [← Except.ok.inj h, if_pos (by omega)]
    dsimp only
    omega
  · rw [← Except.ok.inj h, if_neg (by omega)]
    dsimp only
    omega

/-- A request whose size fits the buffer is packed. -/
theorem packRequest_of_fits {H : HdfLib HDF} {evt : MocT HDF}
    (hfit : requestSize H evt.ename evt.hdfsnd ≤ evt.payload.length) (g : ℕ) (cmd flags : UInt16) :
    ∃ evt', packRequest H g evt cmd flags = .ok evt' := by
  rw [requestSize_eq] at hfit
  have hroom : 16 + evt.ename.length + packedSize (H.writeString evt.hdfsnd) maxPacketLen ≤
      evt.payload.length := by
    split_ifs at hfit <;> omega
  obtain ⟨b₁, h₁⟩ := store_eq_ok_iff.mpr (show 4 + (be32 (protoVer <<< 28 ||| g)).length ≤
    evt.payload.length by rw [length_be32]; omega)
  have l₁ := length_store h₁
  obtain ⟨b₂, h₂⟩ := store_eq_ok_iff.mpr (show 4 + 4 + (be16 cmd.toNat).length ≤ b₁.length by
    rw [length_be16]; omega)
  have l₂ := length_store h₂
  obtain ⟨b₃, h₃⟩ := store_eq_ok_iff.mpr (show 4 + 6 + (be16 flags.toNat).length ≤ b₂.length by
    rw [length_be16]; omega)
  have l₃ := length_store h₃
  obtain ⟨b₄, h₄⟩ := store_eq_ok_iff.mpr (show 4 + 8 + (be32 evt.ename.length).length ≤ b₃.length by
    rw [length_be32]; omega)
  have l₄ := length_store h₄
  obtain ⟨b₅, h₅⟩ := store_eq_ok_iff.mpr (show 4 + 12 + evt.ename.length ≤ b₄.length by omega)
  have l₅ := length_store h₅
  have hdata : 4 + 12 + evt.ename.length + packedSize (H.writeString evt.hdfsnd) maxPacketLen ≤
      b₅.length := by omega
  obtain ⟨⟨b₆, n⟩, h₆⟩ := packHdf_of_fits H evt.hdfsnd hdata
  obtain ⟨hn, -⟩ := packHdf_fits h₆ (by omega)
  have l₆ := length_packHdf h₆
  rw [packRequest, tcpMsgOffset, h₁, ok_bind, h₂, ok_bind, h₃, ok_bind, h₄, ok_bind, h₅, ok_bind]
  dsimp only
  rw [h₆, ok_bind]
  dsimp only
  split_ifs with hsmall
  · -- The end word of an empty request ends at byte 20, which the size counts.
    rw [if_pos (by omega)] at hfit
    obtain ⟨b₇, h₇⟩ := store_eq_ok_iff.mpr (show 4 + 12 + evt.ename.length + n +
      (be32 dataTypeEof).length ≤ b₆.length by rw [length_be32]; omega)
    rw [h₇, ok_bind]
    exact ⟨_, rfl⟩
  · exact ⟨_, rfl⟩

/-- Sending a packed request stays inside the buffer. -/
theorem tcpSrvSend_of_fits {evt : MocT HDF} (h4 : 4 ≤ evt.payload.length)
    (hfit : evt.psize ≤ evt.payload.length) : ∃ r, tcpSrvSend evt = .ok r := by
  obtain ⟨b, hb⟩ := store_eq_ok_iff.mpr (show 0 + (be32 evt.psize).length ≤ evt.payload.length by
    rw [length_be32]; omega)
  have hlen := length_store hb
  rw [tcpSrvSend, hb, ok_bind, load_of_le (by omega), ok_bind]
  exact ⟨_, rfl⟩

theorem checked_tcpSrvSend (evt : MocT HDF) : Checked (tcpSrvSend evt) :=
  checked_bind (checked_store _ _ _) fun _ => checked_bind (checked_load _ _ _) fun _ => checked_ok _

theorem Client.checked_call (H : HdfLib HDF) (c : Client κ HDF) (x : Call κ HDF) :
    Checked (c.call H x) :=
  checked_bind (checked_packRequest _ _ _ _ _) fun _ =>
    checked_bind (checked_tcpSrvSend _) fun _ => checked_ok _

/-- A call returns exactly when its request fits. -/
theorem Client.Ok.call_eq_ok_iff {H : HdfLib HDF} {names : κ → List UInt8} {c : Client κ HDF}
    (hok : c.Ok names) (x : Call κ HDF) :
    (∃ r, c.call H x = .ok r) ↔ requestSize H (names x.module) x.hdfsnd ≤ maxPacketLen := by
  have hname := (hok.fill x).ename_eq x.module
  have hlen := (hok.fill x).length_payload x.module
  have hsnd : ((c.fill x).evth x.module).hdfsnd = x.hdfsnd := by simp [Client.fill]
  rw [← hname, ← hlen, ← hsnd]
  constructor
  · rintro ⟨r, hr⟩
    obtain ⟨evt, hpack, -⟩ := bind_eq_ok.mp hr
    obtain ⟨hsize, hfit⟩ := packRequest_fits hpack
    rwa [← hsize]
  · intro hfit
    obtain ⟨evt, hpack⟩ := packRequest_of_fits hfit (nextReqid (c.fill x).gReqid) x.cmd x.flags
    obtain ⟨hsize, hle⟩ := packRequest_fits hpack
    have hkeep := (packRequest_keeps hpack).2
    have h4 : 4 ≤ evt.payload.length := by
      rw [hkeep, hlen, maxPacketLen]
      omega
    obtain ⟨⟨evt', frame⟩, hsend⟩ := tcpSrvSend_of_fits h4 (by rwa [hkeep])
    rw [Client.call, mevtTriggerSend]
    dsimp only
    rw [hpack, ok_bind, hsend, ok_bind]
    exact ⟨_, rfl⟩

/-- Whatever is triggered, all writes lie in the payload buffers exactly when the header, the name
and the packed dataset of each request have together at most `MAX_PACKET_LEN` bytes. -/
theorem Client.calls_inBounds_iff (H : HdfLib HDF) (names : κ → List UInt8)
    (xs : List (Call κ HDF)) :
    InBounds ((Client.new H names).calls H xs) ↔
      ∀ x ∈ xs, requestSize H (names x.module) x.hdfsnd ≤ maxPacketLen := by
  have hrun : ∀ c : Client κ HDF, c.Ok names → (InBounds (c.calls H xs) ↔
      ∀ x ∈ xs, requestSize H (names x.module) x.hdfsnd ≤ maxPacketLen) := by
    induction xs with
    | nil => simp [Client.calls]
    | cons x xs ih =>
      intro c hok
      rw [Client.calls, (Client.checked_call H c x).inBounds_bind_iff, List.forall_mem_cons,
        ← hok.call_eq_ok_iff x]
      constructor
      · rintro ⟨r, hcall, hrest⟩
        exact ⟨⟨r, hcall⟩, (ih r.1 (hok.call hcall)).mp hrest⟩
      · rintro ⟨⟨r, hcall⟩, hfit⟩
        exact ⟨r, hcall, (ih r.1 (hok.call hcall)).mpr hfit⟩
  exact hrun _ (Client.new_ok H names)

/-- A name of 477 bytes and a text of 65023 bytes are one byte too many. -/
theorem Client.calls_outOfBounds :
    ¬∀ (names : Unit → List UInt8) (x : Call Unit (List UInt8)),
      InBounds ((Client.new textHdf names).calls textHdf [x]) := by
  intro h
  have hones : ∀ n, (0 : UInt8) ∉ List.replicate n 97 := by simp
  obtain ⟨text, hnul, hlen⟩ : ∃ s : List UInt8, 0 ∉ s ∧ s.length = 65023 :=
    ⟨List.replicate 65023 97, hones _, List.length_replicate⟩
  have hname : (List.replicate 477 (97 : UInt8)).length = 477 := List.length_replicate
  have hbounds := h (fun _ => List.replicate 477 97) ⟨(), text, 7, 2, true⟩
  rw [Client.calls, (Client.checked_call _ _ _).inBounds_bind_iff] at hbounds
  obtain ⟨r, hcall, -⟩ := hbounds
  have hfit := ((Client.new_ok _ _).call_eq_ok_iff _).mp ⟨r, hcall⟩
  rw [requestSize, textHdf_writeString hnul] at hfit
  dsimp only at hfit
  rw [hname, hlen, maxPacketLen] at hfit
  omega

end Moc
