import Moc.Server.Answer
import Moc.Server.Dispatch
import Moc.Server.Sends
import Moc.Server.Tcp

/-!
# The id in a reply

Each reply function copies the four bytes of `req->id` into its frame. `parse_message` writes the id
there in the byte order of the host, looks at the version, and turns the id round only then; and a
message that is too short is answered before its id is looked at, with whatever the record of the
connection holds. `always_echo_iff` says when the replies carry the id of their request.
-/

open Bytes Memory Runs

namespace Moc

variable {ι HDF : Type} [DecidableEq ι]

/-! ## The replies to one message -/

/-- The bytes of a frame that hold the id. -/
def frameId (frame : List UInt8) : List UInt8 := (frame.drop 4).take 4

/-- The id of the message `b`, as its replies should carry it. -/
def echoId (b : List UInt8) : List UInt8 := be32 (hdrId (word b 0))

/-- The frames that `rep_send` may send for a reply: the reply, and when a `send()` fails the frame
of `rep_send_error`. -/
def repSendFrames (req : ReqInfo) (frame : List UInt8) : List (List UInt8) :=
  [frame, (sendErrorFrame req.id).bytes]

/-- `init_req`. The id, the command and the flags stay. -/
def initReq (req : ReqInfo) (fd : ℤ) (clisa : List UInt8) (tcpsock : ℕ) : ReqInfo :=
  { req with fd := fd, clisa := clisa, tcpsock := tcpsock }

/-- The frames sent between two states of the server. -/
def sentBetween (w w' : World ι HDF) : List (List UInt8) :=
  (w'.sent.drop w.sent.length).map Sent.frame

/-- `w'` is what a process driver makes of `w` for the entry `q`, and `frames` are its replies. Its
command sends pushes and sets the dataset and the code to reply with, and a synchronous request ends
in `reply_trigger`. The drivers of the plugins differ in their commands only. -/
def Drives (H : HdfLib HDF) (q : QueueEntry HDF) (w w' : World ι HDF)
    (frames : List (List UInt8)) : Prop :=
  ∃ w₁ q₁, (∃ l, w₁.sent = w.sent ++ l ∧ ∀ x ∈ l, IsPush x.frame = true) ∧ q₁.req = q.req ∧
    frames = sentBetween w₁ w' ∧
    if fillSyncFlag q.req then ∃ calloc ret b, replyTrigger H calloc w₁ q₁ ret = .ok (w', b)
    else w' = w₁

/-- The drivers of the base and the chat plugin are such drivers. -/
theorem Drives.processDriver {H : PushLib HDF} {m : CmdAllocs} {calloc : Bool} {env : CmdEnv}
    {kind : Plugin} {p : ι} {w : World ι HDF} {e : PluginEntry} {q : QueueEntry HDF}
    {r : World ι HDF × PluginEntry} (hrun : w.running p = some q)
    (h : processDriver H m calloc env kind p w e q = .ok r) :
    ∃ frames, Drives H.toHdfLib q w r.1 frames := by
  obtain ⟨sw, w₁, q₁, -, hworks, hreq, hend⟩ :=
    Works.processDriver (d := fun _ => false) hrun rfl h
  refine ⟨_, w₁, q₁, hworks.sent, hreq, rfl, ?_⟩
  by_cases hsync : fillSyncFlag q.req = true
  · rw [if_pos hsync] at hend ⊢
    exact ⟨calloc, _, hend⟩
  · rw [if_neg hsync] at hend ⊢
    exact hend

/-- A message as `process_buf` passes it on: the buffer behind the length word, and the server. -/
structure Message (ι HDF : Type) where
  world : World ι HDF
  m : Allocs
  /-- The connection's descriptor, its peer and its object. -/
  fd : ℤ
  clisa : List UInt8
  tcpsock : ℕ
  buf : List UInt8
  len : ℕ
  min : 5 ≤ len
  le : len ≤ buf.length

/-- `process_buf` counting the message and parsing it. -/
def Message.parse (H : HdfLib HDF) (x : Message ι HDF) (req : ReqInfo) :
    Except Fault (World ι HDF × ReqInfo × Bool) :=
  parseMessage H x.m (countMsg x.world) req x.buf x.len

/-- The replies to the message `x` of the record `req` carry its id: those of the event loop and,
when the message is queued, those of the driver, whenever it runs and whatever its command does. -/
def Echoes (H : HdfLib HDF) (req : ReqInfo) (x : Message ι HDF) : Prop :=
  ∀ w req' keep, x.parse H req = .ok (w, req', keep) →
    (∀ frame ∈ sentBetween x.world w, ∀ f ∈ repSendFrames req' frame, frameId f = echoId x.buf) ∧
      ∀ p e, (w.queues p).Perm (e :: x.world.queues p) →
        ∀ (v v' : World ι HDF) frames, Drives H e v v' frames →
          ∀ frame ∈ frames, ∀ f ∈ repSendFrames e.req frame, frameId f = echoId x.buf

/-- The condition: a short message finds its id in the record, and the id of a message of another
version reads the same from both ends. -/
def EchoWhen (req : ReqInfo) (x : Message ι HDF) : Prop :=
  if x.len < 17 then le32 req.id = echoId x.buf
  else hdrVer (word x.buf 0) ≠ protoVer → le32 (hdrId (word x.buf 0)) = echoId x.buf

/-! ## A connection -/

/-- A connection: its record, and the last message with the record it was parsed with. -/
structure Talk (ι HDF : Type) where
  req : ReqInfo
  isOpen : Bool
  last : Option (ReqInfo × Message ι HDF)

/-- A new connection, with what `malloc()` left in the record. -/
def Talk.start (req : ReqInfo) : Talk ι HDF := ⟨req, true, none⟩

/-- One more message, unless the connection was closed. -/
def Talk.step (H : HdfLib HDF) (s : Talk ι HDF) (x : Message ι HDF) :
    Except Fault (Talk ι HDF) :=
  if ¬ s.isOpen then .ok s
  else do
    let req := initReq s.req x.fd x.clisa x.tcpsock
    let (_, req', keep) ← x.parse H req
    return ⟨req', keep, some (req, x)⟩

/-- One more message for a server that may have faulted. -/
def Talk.next (H : HdfLib HDF) (s : Except Fault (Talk ι HDF)) (x : Message ι HDF) :
    Except Fault (Talk ι HDF) :=
  s >>= fun s => s.step H x

/-- The replies to the last message carry its id. -/
def Talk.Echoes (H : HdfLib HDF) : Except Fault (Talk ι HDF) → Prop
  | .ok s => ∀ y ∈ s.last, Moc.Echoes H y.1 y.2
  | .error _ => True

/-- The next message meets the condition. -/
def Talk.When : Except Fault (Talk ι HDF) → Message ι HDF → Prop
  | .ok s, x => s.isOpen = true → EchoWhen (initReq s.req x.fd x.clisa x.tcpsock) x
  | .error _, _ => True

/-! ## The id in the record -/

/-- The id in the record while a message is answered. -/
def recordId (req : ReqInfo) (x : Message ι HDF) : ℕ :=
  if x.len < 17 then req.id
  else if hdrVer (word x.buf 0) ≠ protoVer then hdrId (word x.buf 0)
  else bswap32 (hdrId (word x.buf 0))

omit [DecidableEq ι] in
/-- A record whose id was turned round has the id that the replies should carry. -/
theorem echoWhen_iff (req : ReqInfo) (x : Message ι HDF) :
    EchoWhen req x ↔ le32 (recordId req x) = echoId x.buf := by
  unfold EchoWhen recordId
  split_ifs with hmin hver
  · rfl
  · exact imp_iff_right hver
  · exact iff_of_true (fun h => absurd h hver) (le32_bswap32 _)

theorem frameId_answerFrame {id code : ℕ} {frame : List UInt8} (h : AnswerFrame id code frame) :
    frameId frame = le32 id := by
  rcases h with rfl | ⟨val, rfl⟩ <;> rfl

theorem frameId_sendErrorFrame (id : ℕ) : frameId (sendErrorFrame id).bytes = le32 id := rfl

/-- Replies with the id `id` were sent, and an entry with that id was queued or none. -/
structure Handled (id : ℕ) (w w' : World ι HDF) : Prop where
  sent : ∃ l, w'.sent = w.sent ++ l ∧ ∀ x ∈ l, frameId x.frame = le32 id
  queues : ∀ p, w'.queues p = w.queues p ∨
    ∃ e : QueueEntry HDF, e.req.id = id ∧ (w'.queues p).Perm (e :: w.queues p)

omit [DecidableEq ι] in
/-- Nothing was sent and nothing queued. -/
theorem Handled.of_eq {id : ℕ} {w w' : World ι HDF} (hsent : w'.sent = w.sent)
    (hqueues : w'.queues = w.queues) : Handled id w w' where
  sent := ⟨[], by rw [hsent, List.append_nil], by simp⟩
  queues p := .inl (by rw [hqueues])

omit [DecidableEq ι] in
/-- One more reply. -/
theorem Handled.reply {id : ℕ} {w w' : World ι HDF} {req : ReqInfo} {frame : List UInt8}
    (h : Handled id w w') (hframe : frameId frame = le32 id) :
    Handled id w (repSend w' req frame) where
  sent := by
    obtain ⟨l, hl, hids⟩ := h.sent
    refine ⟨l ++ [⟨req.fd, req.tcpsock, w'.files req.fd, frame⟩], ?_, fun x hx => ?_⟩
    · rw [← List.append_assoc, ← hl]
      rfl
    · rcases List.mem_append.mp hx with hx | hx
      · exact hids x hx
      · rwa [List.mem_singleton.mp hx]
  queues := h.queues

omit [DecidableEq ι] in
/-- Only what was sent and queued counts. -/
theorem Handled.congr {id : ℕ} {w w₁ w' : World ι HDF} (h : Handled id w w₁)
    (hsent : w'.sent = w₁.sent) (hqueues : w'.queues = w₁.queues) : Handled id w w' where
  sent := by
    rw [hsent]
    exact h.sent
  queues := by
    rw [hqueues]
    exact h.queues

/-- An entry is queued. -/
theorem Handled.enqueue {w w' : World ι HDF} {e : QueueEntry HDF} (hw : w.SameRest w') (p : ι)
    (sync : Bool) : Handled e.req.id w (Moc.enqueue w' p sync e) where
  sent := ⟨[], by rw [List.append_nil]; exact hw.sent, by simp⟩
  queues q := by
    unfold Moc.enqueue
    dsimp only
    rw [hw.queues]
    by_cases hq : q = p
    · subst hq
      refine .inr ⟨e, rfl, ?_⟩
      rw [Function.update_self]
      cases sync
      · exact List.perm_append_singleton _ _
      · exact .refl _
    · exact .inl (Function.update_of_ne hq _ _)

omit [DecidableEq ι] in
/-- An answer to a request that nothing else is done about. -/
theorem Handled.mini {w w' : World ι HDF} {req : ReqInfo} {sync : Bool} {code : ℕ}
    (hsent : w'.sent = w.sent) (hqueues : w'.queues = w.queues) :
    Handled req.id w (if sync then tcpReplyMini w' req code else w') := by
  cases sync
  · exact .of_eq hsent hqueues
  · exact (Handled.of_eq hsent hqueues).reply (frameId_answerFrame (.inl rfl))

/-- A reserved name is answered, and its entry is not queued. -/
theorem Handled.reserved {H : HdfLib HDF} {m : Allocs} {w w' : World ι HDF} {req : ReqInfo}
    {sync rv : Bool} {ename : List UInt8} {hdfrcv : HDF} {dest : Dest ι}
    (hdest : dest = .status ∨ dest = .clientmod)
    (h : handOn H m w req sync ename hdfrcv dest = .ok (w', rv)) : Handled req.id w w' := by
  rcases handOn_reserved hdest h with hrest | ⟨w₁, r, code, frame, hrest, -, hframe, hsent⟩
  · exact .of_eq hrest.sent hrest.queues
  · exact ((Handled.of_eq hrest.sent hrest.queues).reply (frameId_answerFrame hframe)).congr
      hsent.sent hsent.queues

/-- What `put_in_queue` does for a record is done with the record's id. -/
theorem putInQueue_handled {H : HdfLib HDF} {m : Allocs} {w w' : World ι HDF} {req : ReqInfo}
    {sync rv : Bool} {ename : List UInt8} {hdfrcv : HDF}
    (h : putInQueue H m w req sync ename hdfrcv = .ok (w', rv)) : Handled req.id w w' := by
  rw [putInQueue, putInQueueLong_eq_codeDest] at h
  cases hdest : codeDest w.gMoc ename with
  | plugin entry =>
    rw [hdest] at h
    unfold handOn at h
    dsimp only at h
    by_cases hbusy : (w.queues entry.opQueue).length > maxQueueEntry ∧
        (w.queues entry.opQueue).length % 100 = 0
    · rw [if_pos hbusy] at h
      obtain ⟨rfl, -⟩ := Prod.mk.inj (Except.ok.inj h)
      exact Handled.mini rfl rfl
    · rw [if_neg hbusy] at h
      obtain ⟨⟨w₁, e⟩, hentry, h⟩ := bind_eq_ok.mp h
      have hrest := makeQueueLongEntry_rest hentry
      cases e with
      | none =>
        obtain ⟨rfl, -⟩ := Prod.mk.inj (Except.ok.inj h)
        exact .of_eq hrest.sent hrest.queues
      | some e =>
        obtain ⟨rfl, -⟩ := Prod.mk.inj (Except.ok.inj h)
        rw [← makeQueueLongEntry_id hentry]
        exact .enqueue hrest entry.opQueue sync
  | status => exact .reserved (.inl rfl) (hdest ▸ h)
  | clientmod => exact .reserved (.inr rfl) (hdest ▸ h)
  | unknown =>
    rw [hdest] at h
    obtain ⟨rfl, -⟩ := Prod.mk.inj (Except.ok.inj h)
    exact Handled.mini rfl rfl

/-- What `parse_event` does for a record is done with the record's id. -/
theorem parseEvent_handled {H : HdfLib HDF} {m : Allocs} {w w' : World ι HDF} {req : ReqInfo}
    {b : List UInt8} {pos : ℕ} (h : parseEvent H m w req b pos = .ok w') : Handled req.id w w' := by
  obtain ⟨esize, -, h⟩ := bind_eq_ok.mp h
  obtain ⟨⟨ttsize, hdfrcv⟩, -, h⟩ := bind_eq_ok.mp h
  dsimp only at h
  split_ifs at h
  · rw [← Except.ok.inj h]
    exact Handled.mini rfl rfl
  · obtain ⟨ename, -, h⟩ := bind_eq_ok.mp h
    obtain ⟨⟨w₁, rv⟩, hput, h⟩ := bind_eq_ok.mp h
    have hw₁ := putInQueue_handled hput
    dsimp only at h
    rw [← Except.ok.inj h]
    split_ifs
    · exact hw₁.reply (frameId_answerFrame (.inl rfl))
    · exact hw₁

/-! ## The replies of one message -/

omit [DecidableEq ι] in
theorem sentBetween_of_sent {w w' : World ι HDF} {l : List Sent} (h : w'.sent = w.sent ++ l) :
    sentBetween w w' = l.map Sent.frame := by
  rw [sentBetween, h, List.drop_left]

omit [DecidableEq ι] in
theorem Handled.frameId {id : ℕ} {w w' : World ι HDF} (h : Handled id w w') {frame : List UInt8}
    (hframe : frame ∈ sentBetween w w') : Moc.frameId frame = le32 id := by
  obtain ⟨l, hl, hids⟩ := h.sent
  rw [sentBetween_of_sent hl] at hframe
  obtain ⟨x, hx, rfl⟩ := List.mem_map.mp hframe
  exact hids x hx

omit [DecidableEq ι] in
/-- The entry that was queued. -/
theorem Handled.entry {id : ℕ} {w w' : World ι HDF} (h : Handled id w w') {p : ι}
    {e : QueueEntry HDF} (he : (w'.queues p).Perm (e :: w.queues p)) : e.req.id = id := by
  rcases h.queues p with hsame | ⟨e', rfl, he'⟩
  · have hlen := he.length_eq
    rw [hsame, List.length_cons] at hlen
    omega
  · have hcons : (e :: w.queues p).Perm (e' :: w.queues p) := he.symm.trans he'
    rw [← Multiset.coe_eq_coe, ← Multiset.cons_coe, ← Multiset.cons_coe,
      Multiset.cons_inj_left] at hcons
    rw [hcons]

omit [DecidableEq ι] in
/-- A driver replies with the id of the entry's record. -/
theorem Drives.frameId {H : HdfLib HDF} {q : QueueEntry HDF} {w w' : World ι HDF}
    {frames : List (List UInt8)} (h : Drives H q w w' frames) {frame : List UInt8}
    (hframe : frame ∈ frames) : Moc.frameId frame = le32 q.req.id := by
  obtain ⟨w₁, q₁, -, hreq, rfl, hend⟩ := h
  by_cases hsync : fillSyncFlag q.req = true
  · rw [if_pos hsync] at hend
    obtain ⟨calloc, ret, b, hend⟩ := hend
    obtain ⟨_, _, _, -, hanswer, hsend⟩ := replyTrigger_sends H calloc w₁ q₁ ret
    obtain ⟨rfl, -⟩ := Prod.mk.inj (Except.ok.inj (hend.symm.trans hsend))
    rw [sentBetween_of_sent rfl] at hframe
    rw [List.mem_singleton.mp hframe, ← hreq]
    exact frameId_answerFrame hanswer
  · rw [if_neg hsync] at hend
    rw [hend, sentBetween_of_sent (List.append_nil _).symm] at hframe
    cases hframe

section
variable {H : HdfLib HDF} {req : ReqInfo} {x : Message ι HDF}

/-- A message that is too short or of another version is answered at once. -/
theorem Message.parse_refused (h : x.len < 17 ∨ hdrVer (word x.buf 0) ≠ protoVer) :
    ∃ w code, w.sent = x.world.sent ∧ w.queues = x.world.queues ∧
      x.parse H req = .ok (tcpReplyMini w { req with id := recordId req x } code,
        { req with id := recordId req x }, false) := by
  have hle := x.le
  unfold parse parseMessage recordId
  by_cases hmin : x.len < 17
  · rw [if_pos hmin, if_pos hmin]
    refine ⟨_, _, ?_, ?_, rfl⟩ <;> rfl
  · have hver := h.resolve_left hmin
    rw [if_neg hmin, if_neg hmin, if_pos hver, load32_of_le (by omega), ok_bind,
      load16_of_le (by omega), ok_bind, load16_of_le (by omega), ok_bind, if_pos hver]
    refine ⟨_, _, ?_, ?_, rfl⟩ <;> rfl

/-- What is done for a message is done with the id that the record has then. -/
theorem Message.parse_handled {w : World ι HDF} {req' : ReqInfo} {keep : Bool}
    (h : x.parse H req = .ok (w, req', keep)) :
    req'.id = recordId req x ∧ Handled (recordId req x) x.world w := by
  have hle := x.le
  by_cases hrefused : x.len < 17 ∨ hdrVer (word x.buf 0) ≠ protoVer
  · obtain ⟨w₁, code, hsent, hqueues, hparse⟩ := Message.parse_refused (H := H) hrefused
    obtain ⟨rfl, hreq⟩ := Prod.mk.inj (Except.ok.inj (h.symm.trans hparse))
    obtain ⟨rfl, -⟩ := Prod.mk.inj hreq
    exact ⟨rfl, (Handled.of_eq hsent hqueues).reply (frameId_answerFrame (.inl rfl))⟩
  · obtain ⟨hmin, hver⟩ := not_or.mp hrefused
    have hid : recordId req x = bswap32 (hdrId (word x.buf 0)) := by
      rw [recordId, if_neg hmin, if_neg hver]
    rw [parse, parseMessage_of_header H x.m (countMsg x.world) req (by omega) hle (not_not.mp hver)]
      at h
    obtain ⟨w₁, hevent, h⟩ := bind_eq_ok.mp h
    obtain ⟨rfl, hreq⟩ := Prod.mk.inj (Except.ok.inj h)
    obtain ⟨rfl, -⟩ := Prod.mk.inj hreq
    refine ⟨hid.symm, ?_⟩
    rw [hid]
    have hhandled := parseEvent_handled hevent
    exact ⟨hhandled.sent, hhandled.queues⟩

/-- A message is answered with its id exactly when it meets the condition. -/
theorem echoes_iff : Echoes H req x ↔ EchoWhen req x := by
  constructor
  · intro h
    by_cases hrefused : x.len < 17 ∨ hdrVer (word x.buf 0) ≠ protoVer
    · obtain ⟨w, code, hsent, -, hparse⟩ := Message.parse_refused (H := H) hrefused
      rw [echoWhen_iff]
      refine (h _ _ _ hparse).1 (miniFrame (recordId req x) code) ?_ _ List.mem_cons_self
      have hsent' : (tcpReplyMini w { req with id := recordId req x } code).sent =
          x.world.sent ++ [⟨req.fd, req.tcpsock, w.files req.fd, miniFrame (recordId req x) code⟩] :=
        congrArg (· ++ _) hsent
      rw [sentBetween_of_sent hsent']
      exact List.mem_singleton.mpr rfl
    · obtain ⟨hmin, hver⟩ := not_or.mp hrefused
      rw [EchoWhen, if_neg hmin]
      exact fun hne => absurd hne hver
  · intro h w req' keep hparse
    obtain ⟨hid, hhandled⟩ := Message.parse_handled hparse
    rw [echoWhen_iff] at h
    -- The error frame has the id of the record too.
    have hboth : ∀ {req : ReqInfo} {frame : List UInt8}, frameId frame = le32 req.id →
        le32 req.id = echoId x.buf → ∀ f ∈ repSendFrames req frame, frameId f = echoId x.buf := by
      intro req frame hframe hecho f hf
      rcases List.mem_cons.mp hf with rfl | hf
      · rw [hframe, hecho]
      · rw [List.mem_singleton.mp hf, frameId_sendErrorFrame, hecho]
    refine ⟨fun frame hframe => ?_, fun p e he v v' frames hdrives frame hframe => ?_⟩
    · rw [← hid] at hhandled h
      exact hboth (hhandled.frameId hframe) h
    · rw [← hhandled.entry he] at h
      exact hboth (hdrives.frameId hframe) h

end

/-! ## Every connection -/

/-- One more message is answered with its id exactly when it meets the condition. -/
theorem Talk.echoes_next_iff {H : HdfLib HDF} {s : Except Fault (Talk ι HDF)} (hs : Talk.Echoes H s)
    (x : Message ι HDF) : Talk.Echoes H (Talk.next H s x) ↔ Talk.When s x := by
  cases s with
  | error f => exact Iff.rfl
  | ok s =>
    rw [next, ok_bind, step]
    by_cases hopen : s.isOpen = true
    · rw [if_neg (not_not.mpr hopen)]
      refine Iff.trans ?_ (imp_iff_right hopen).symm
      rw [← echoes_iff (H := H)]
      dsimp only
      cases hparse : x.parse H (initReq s.req x.fd x.clisa x.tcpsock) with
      | error f =>
        -- Nothing is answered.
        refine iff_of_true trivial fun w req' keep h => ?_
        rw [hparse] at h
        cases h
      | ok r => simp [Echoes]
    · rw [if_pos hopen]
      exact iff_of_true hs fun h => absurd h hopen

/-- The replies of a connection carry the id of their request as long as each message meets the
condition. -/
theorem always_echo_iff (H : HdfLib HDF) (req : ReqInfo) (xs : List (Message ι HDF)) :
    Always (Talk.next H) (Talk.Echoes H) (.ok (.start req)) xs ↔
      EachStep (Talk.next H) Talk.When (.ok (.start req)) xs := by
  have hstart : Talk.Echoes H (.ok (.start req : Talk ι HDF)) := fun _ h => by cases h
  exact always_iff_eachStep (I := Talk.Echoes H) (L := fun _ _ => True) (fun _ h => h)
    (fun _ x hs _ => (Talk.echoes_next_iff hs x).mpr)
    (fun _ x hs _ hwhen h => hwhen ((Talk.echoes_next_iff hs x).mp h)) hstart
    (eachStep_of_forall (fun _ _ => trivial) _ xs)

/-- A message of version 2 with the id 1. -/
def otherVersionMsg : Message Unit (List UInt8) where
  world := onePlugin
  m := .granted
  fd := 5
  clisa := []
  tcpsock := 0
  buf := [0x20, 0, 0, 1, 0, 0, 0, 2, 0, 0, 0, 0, 0, 0, 0, 0, 0]
  len := 17
  min := by decide
  le := by decide

/-- A message of five bytes with the id 2. -/
def shortMsg : Message Unit (List UInt8) :=
  { otherVersionMsg with buf := [0x10, 0, 0, 2, 0], len := 5, min := le_refl 5, le := le_refl 5 }

/-- A broken message with the id 1. -/
def brokenMsg : Message Unit (List UInt8) :=
  { otherVersionMsg with
    buf := [0x10, 0, 0, 1, 0, 0, 0, 2, 0, 0, 0, 0, 0, 0, 0, 0, 0]
    le := by decide }

/-- A message of another version is answered with its id turned round, and a short one with the id
of the message before. -/
theorem not_always_echo_otherVersion :
    ¬Always (Talk.next textHdf) (Talk.Echoes textHdf) (.ok (.start (.fresh 5 0))) [otherVersionMsg] ∧
      ¬Always (Talk.next textHdf) (Talk.Echoes textHdf) (.ok (.start (.fresh 5 0)))
        [brokenMsg, shortMsg] := by
  constructor
  · intro h
    have hlast := (h.2.head _ rfl _ _ _ rfl).1 (miniFrame 1 repErrVer) (by decide) _
      List.mem_cons_self
    exact absurd hlast (by decide)
  · intro h
    have hlast := (h.2.2.head _ rfl _ _ _ rfl).1 (miniFrame (bswap32 1) repErrBroken) (by decide) _
      List.mem_cons_self
    exact absurd hlast (by decide)

end Moc
