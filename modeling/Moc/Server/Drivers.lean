import Moc.Server.Steps

/-!
# The process drivers as steps

The steps of `Steps.lean` take a command apart: what it does to the users, and the frames it sends.
Every command of the base and the chat plugin is a sequence of steps of its plugin's worker that
sends only pushes; a synchronous request is answered with one more frame behind it.
-/

open Bytes Memory

namespace Moc

variable {ι HDF : Type} [DecidableEq ι]

/-! ## The steps of a worker -/

/-- The frame carries the id 0 and the code 10000, as `base_msg_new` writes them. -/
def IsPush (frame : List UInt8) : Bool := word frame 4 = 0 && word frame 8 = 10000

/-- A step that the worker of `p` makes in a command. -/
def WorkOf (p : ι) : ServerStep ι HDF → Prop
  | .process p' _ => p' = p
  | .fail p' => p' = p
  | .reply p' frame => p' = p ∧ IsPush frame
  | .push p' _ frame => p' = p ∧ IsPush frame
  | _ => False

/-- Steps of the worker of `p` lead from the one server to the other. -/
def Works (H : PushLib HDF) (p : ι) (sv sv' : Server ι HDF) : Prop :=
  ∃ is : List (ServerStep ι HDF), (∀ i ∈ is, WorkOf p i) ∧ is.foldl (Server.next H) (.ok sv) = .ok sv'

theorem Works.refl (H : PushLib HDF) (p : ι) (sv : Server ι HDF) : Works H p sv sv :=
  ⟨[], by simp, rfl⟩

theorem Works.trans {H : PushLib HDF} {p : ι} {sv₁ sv₂ sv₃ : Server ι HDF} (h : Works H p sv₁ sv₂)
    (h' : Works H p sv₂ sv₃) : Works H p sv₁ sv₃ := by
  obtain ⟨is, his, hrun⟩ := h
  obtain ⟨is', his', hrun'⟩ := h'
  refine ⟨is ++ is', fun i hi => ?_, by rw [List.foldl_append, hrun, hrun']⟩
  exact (List.mem_append.mp hi).elim (his i) (his' i)

theorem Works.step {H : PushLib HDF} {p : ι} {sv sv' : Server ι HDF} {i : ServerStep ι HDF}
    (hi : WorkOf p i) (h : sv.step H i = .ok sv') : Works H p sv sv' :=
  ⟨[i], by simpa using hi, h⟩

section
variable {H : PushLib HDF} {p : ι} {w w' : World ι HDF} {d : ι → Bool} {q : QueueEntry HDF}

/-- A push to the connection of the entry. -/
theorem Works.send (hrun : w.running p = some q) {frame : List UInt8} (hpush : IsPush frame) :
    Works H p ⟨w, d⟩ ⟨sendFrame w q.req.fd q.req.tcpsock frame, d⟩ :=
  .step (i := .reply p frame) ⟨rfl, hpush⟩ (by simp only [Server.step, hrun])

/-- The users' part of a command. -/
theorem Works.command (hrun : w.running p = some q) (hp : d p = false) (user : Bool)
    (hw : userCommand H user p w q = .ok w') :
    Works H p ⟨w, d⟩ ⟨w', Function.update d p true⟩ := by
  refine .step (i := .process p user) rfl ?_
  simp only [Server.step, hrun, hp, Bool.false_eq_true, if_false, hw, ok_bind, pure_eq_ok]

/-- A command that does not reach the users. -/
theorem Works.fail : Works H p ⟨w, d⟩ ⟨w, Function.update d p true⟩ :=
  .step (i := .fail p) rfl rfl

/-- A push to a user of the plugin. -/
theorem Works.push {uid : Uid} {u : BaseUser} (hu : baseUserFind w p uid = some u)
    {frame : List UInt8} (hpush : IsPush frame) :
    Works H p ⟨w, d⟩ ⟨(baseMsgSend w frame u.fd u.tcpsock).1, d⟩ :=
  .step (i := .push p uid frame) ⟨rfl, hpush⟩ (by simp only [Server.step, hu])

end

theorem foldl_next_error (H : PushLib HDF) (f : Fault) (is : List (ServerStep ι HDF)) :
    is.foldl (Server.next H) (.error f) = .error f := by
  induction is with
  | nil => rfl
  | cons i is ih => exact ih

/-- A run that ends well begins with a step that does. -/
theorem foldl_next_cons {H : PushLib HDF} {i : ServerStep ι HDF} {is : List (ServerStep ι HDF)}
    {sv sv' : Server ι HDF} (h : (i :: is).foldl (Server.next H) (.ok sv) = .ok sv') :
    ∃ sv₁, sv.step H i = .ok sv₁ ∧ is.foldl (Server.next H) (.ok sv₁) = .ok sv' := by
  rw [List.foldl_cons, Server.next, ok_bind] at h
  cases hstep : sv.step H i with
  | error f =>
    rw [hstep, foldl_next_error] at h
    cases h
  | ok sv₁ =>
    rw [hstep] at h
    exact ⟨sv₁, rfl, h⟩

/-- A step of a command leaves the worker its entry. -/
theorem running_of_workOf {H : PushLib HDF} {p : ι} {sv sv₁ : Server ι HDF} {i : ServerStep ι HDF}
    (hi : WorkOf p i) (hstep : sv.step H i = .ok sv₁) : sv₁.world.running = sv.world.running := by
  cases i with
  | process p' user =>
    simp only [Server.step] at hstep
    split at hstep
    · split_ifs at hstep
      · rw [Except.ok.inj hstep]
      · obtain ⟨w', hw', hstep⟩ := bind_eq_ok.mp hstep
        rw [← Except.ok.inj hstep]
        exact (userCommand_rest hw').running
    · rw [Except.ok.inj hstep]
  | fail p' => rw [← Except.ok.inj hstep]
  | reply p' frame =>
    simp only [Server.step] at hstep
    split at hstep <;> rw [← Except.ok.inj hstep]
    rfl
  | push p' uid frame =>
    simp only [Server.step] at hstep
    split at hstep <;> rw [← Except.ok.inj hstep]
    unfold baseMsgSend
    split_ifs <;> rfl
  | _ => exact hi.elim

/-- A worker keeps its entry while it processes it. -/
theorem Works.running {H : PushLib HDF} {p : ι} {sv sv' : Server ι HDF} (h : Works H p sv sv') :
    sv'.world.running = sv.world.running := by
  obtain ⟨is, his, hrun⟩ := h
  induction is generalizing sv with
  | nil => rw [Except.ok.inj hrun]
  | cons i is ih =>
    have hi := his i List.mem_cons_self
    obtain ⟨sv₁, hstep, hrest⟩ := foldl_next_cons hrun
    rw [ih (fun j hj => his j (List.mem_cons_of_mem _ hj)) hrest, running_of_workOf hi hstep]

/-! ## Messages -/

/-- The frame of `base_msg_new` is a push. -/
theorem isPush_longFrame (val : List UInt8) : IsPush (longFrame 0 10000 val) = true := by
  have hid : word (longFrame 0 10000 val) 4 = 0 := by
    have hsplit : longFrame 0 10000 val =
        be32 (16 + val.length) ++ (be32 0 ++ (be32 10000 ++ be32 val.length ++ val)) := by
      simp [longFrame, le32, be32]
    rw [hsplit, word_between (by simp)]
    rfl
  have hcode : word (longFrame 0 10000 val) 8 = 10000 := by
    have hsplit : longFrame 0 10000 val =
        (be32 (16 + val.length) ++ le32 0) ++ (be32 10000 ++ (be32 val.length ++ val)) := by
      simp [longFrame]
    rw [hsplit, word_between (by simp)]
    rfl
  simp [IsPush, hid, hcode]

/-- A push, or an error below the success codes. -/
def PushOrError : Except NeoErr (List UInt8) → Prop
  | .ok buf => IsPush buf
  | .error err => err.error < repOk

/-- `base_msg_new` stays inside its buffer. -/
theorem baseMsgNew_ok (H : PushLib HDF) (calloc : Bool) (cmd : List UInt8) (datanode : HDF) :
    ∃ r, baseMsgNew H calloc cmd datanode = .ok r ∧ PushOrError r.2 := by
  have hassert : nerrAssert < repOk := by decide
  have hnomem : nerrNomem < repOk := by decide
  unfold baseMsgNew
  dsimp only
  cases H.setAttr (H.setValue datanode "_Reserve" (ascii "moc")) "_Reserve" (ascii "cmd") cmd with
  | none => exact ⟨_, rfl, hassert⟩
  | some node =>
    obtain ⟨⟨buf, vsize⟩, hbuf⟩ := packHdf_ok H.toHdfLib node (List.replicate maxPacketLen 0)
      (by rw [List.length_replicate]; decide)
    rw [List.length_replicate] at hbuf
    dsimp only
    rw [hbuf, ok_bind]
    dsimp only
    split_ifs
    · exact ⟨_, rfl, hassert⟩
    · exact ⟨_, rfl, isPush_longFrame _⟩
    · exact ⟨_, rfl, hnomem⟩

theorem pushOrError_of_baseMsgNew {H : PushLib HDF} {calloc : Bool} {cmd : List UInt8}
    {datanode : HDF} {r : HDF × Except NeoErr (List UInt8)}
    (h : baseMsgNew H calloc cmd datanode = .ok r) : PushOrError r.2 := by
  obtain ⟨r', h', hpush⟩ := baseMsgNew_ok H calloc cmd datanode
  rw [h, Except.ok.injEq] at h'
  rwa [h']

/-! ## The size of a frame -/

/-- A buffer of `MAX_PACKET_LEN` holds the packed dataset with its last 492 bytes to spare. -/
theorem packHdf_maxPacketLen {HDF : Type} (H : HdfLib HDF) (hdf : HDF) :
    ∃ buf n, packHdf H hdf (List.replicate maxPacketLen 0) 0 maxPacketLen = .ok (buf, n) ∧
      n ≤ maxPacketLen - 492 := by
  have hlen : (List.replicate maxPacketLen (0 : UInt8)).length = maxPacketLen := List.length_replicate
  obtain ⟨buf, n, hpack, -, hn⟩ := packHdf_part H hdf [] []
    (show reserveSize ≤ (List.replicate maxPacketLen (0 : UInt8)).length by rw [hlen]; decide)
  rw [hlen, List.append_nil, List.append_nil] at *
  exact ⟨buf, n, hpack, by omega⟩

/-- A packed value makes a frame that the peer accepts. -/
theorem length_longFrame_take {buf : List UInt8} {n : ℕ} (id reply : ℕ)
    (hn : n ≤ maxPacketLen - 492) : (longFrame id reply (buf.take n)).length ≤ maxPacketLen := by
  rw [length_longFrame, List.length_take]
  rw [maxPacketLen] at *
  omega

omit [DecidableEq ι] in
/-- The frame of a reply, with or without a dataset. -/
theorem replyTrigger_maxPacketLen (H : HdfLib HDF) (calloc : Bool) (w : World ι HDF)
    (q : QueueEntry HDF) (reply : ℕ) :
    ∃ frame b, replyTrigger H calloc w q reply = .ok (repSend w q.req frame, b) ∧
      frame.length ≤ maxPacketLen := by
  have hmini : ∀ code, (miniFrame q.req.id code).length ≤ maxPacketLen := fun code => by
    rw [length_miniFrame]
    decide
  obtain ⟨buf, n, hpack, hn⟩ := packHdf_maxPacketLen H q.hdfsnd
  rw [replyTrigger, hpack]
  by_cases hchild : ¬ H.objChild q.hdfsnd
  · exact ⟨_, _, if_pos hchild, hmini reply⟩
  by_cases hcalloc : ¬ calloc
  · rw [if_neg hchild, if_pos hcalloc]
    exact ⟨_, _, rfl, hmini repErrMem⟩
  rw [if_neg hchild, if_neg hcalloc, ok_bind]
  by_cases hzero : n = 0
  · exact ⟨_, _, if_pos hzero, hmini repErrPack⟩
  · exact ⟨_, _, if_neg hzero, length_longFrame_take q.req.id reply hn⟩

/-- The frame of a push. -/
theorem baseMsgNew_maxPacketLen (H : PushLib HDF) (calloc : Bool) (cmd : List UInt8) (datanode : HDF) :
    ∃ r, baseMsgNew H calloc cmd datanode = .ok r ∧
      ∀ frame, r.2 = .ok frame → frame.length ≤ maxPacketLen := by
  unfold baseMsgNew
  dsimp only
  cases H.setAttr (H.setValue datanode "_Reserve" (ascii "moc")) "_Reserve" (ascii "cmd") cmd with
  | none => exact ⟨_, rfl, fun frame h => by cases h⟩
  | some node =>
    obtain ⟨buf, n, hpack, hn⟩ := packHdf_maxPacketLen H.toHdfLib node
    dsimp only
    rw [hpack, ok_bind]
    dsimp only
    split_ifs
    · exact ⟨_, rfl, fun frame h => by cases h⟩
    · refine ⟨_, rfl, fun frame h => ?_⟩
      rw [← Except.ok.inj h]
      exact length_longFrame_take 0 10000 hn
    · exact ⟨_, rfl, fun frame h => by cases h⟩

omit [DecidableEq ι] in
/-- `pack_hdf` into a part of a block writes nothing outside this part, and leaves 492 bytes of it; and
no frame that is made of a packed dataset is longer than what the peer accepts. -/
theorem packHdf_inside (H : PushLib HDF) (hdf : HDF) (pre post : List UInt8) {part : List UInt8}
    (hlen : 512 ≤ part.length) :
    (∃ part' n, packHdf H.toHdfLib hdf (pre ++ (part ++ post)) pre.length part.length =
        .ok (pre ++ (part' ++ post), n) ∧ part'.length = part.length ∧
      (n = 0 ∨ n ≤ part.length - 492)) ∧
    (∀ calloc (w : World ι HDF) q reply, ∃ frame b,
      replyTrigger H.toHdfLib calloc w q reply = .ok (repSend w q.req frame, b) ∧
        frame.length ≤ 65536) ∧
    ∀ calloc cmd datanode, ∃ r, baseMsgNew H calloc cmd datanode = .ok r ∧
      ∀ frame, r.2 = .ok frame → frame.length ≤ 65536 := by
  refine ⟨packHdf_part H.toHdfLib hdf pre post hlen, fun calloc w q reply => ?_,
    fun calloc cmd datanode => ?_⟩
  · exact replyTrigger_maxPacketLen H.toHdfLib calloc w q reply
  · exact baseMsgNew_maxPacketLen H calloc cmd datanode

/-- A part of 512 bytes between two bytes, into which a text of one byte is packed. -/
theorem packHdf_inside_short : ∃ part' n,
    packHdf useridHdf.toHdfLib [65] ([1] ++ (List.replicate 512 0 ++ [2])) 1 512 =
        .ok ([1] ++ (part' ++ [2]), n) ∧ part'.length = 512 ∧ (n = 0 ∨ n ≤ 20) := by
  have hlen : (List.replicate 512 (0 : UInt8)).length = 512 := List.length_replicate
  have hinside := (packHdf_inside (ι := ℕ) useridHdf [65] [1] [2]
    (show 512 ≤ (List.replicate 512 (0 : UInt8)).length by rw [hlen])).1
  rwa [hlen] at hinside

omit [DecidableEq ι] in
/-- Sending a message changes only what was sent. -/
theorem baseMsgSend_eq (w : World ι HDF) (frame : List UInt8) (fd : ℤ) (meant : ℕ) :
    (baseMsgSend w frame fd meant).1 = w ∨
      (baseMsgSend w frame fd meant).1 = sendFrame w fd meant frame := by
  unfold baseMsgSend
  split_ifs
  · exact .inl rfl
  · exact .inr rfl

omit [DecidableEq ι] in
theorem baseMsgTouser_eq {H : PushLib HDF} {calloc : Bool} {w : World ι HDF} {cmd : List UInt8}
    {datanode : HDF} {fd : ℤ} {meant : ℕ} {r : World ι HDF × HDF × Option NeoErr}
    (h : baseMsgTouser H calloc w cmd datanode fd meant = .ok r) :
    r.1 = w ∨ ∃ frame, IsPush frame = true ∧ r.1 = sendFrame w fd meant frame := by
  obtain ⟨⟨datanode, buf⟩, hnew, h⟩ := bind_eq_ok.mp h
  cases buf with
  | error err =>
    rw [← Except.ok.inj h]
    exact .inl rfl
  | ok buf =>
    rw [← Except.ok.inj h]
    exact (baseMsgSend_eq w buf fd meant).imp_right fun h =>
      ⟨buf, pushOrError_of_baseMsgNew hnew, h⟩

/-- The message of a chat command is a push. -/
theorem isPush_of_chatMsg {H : PushLib HDF} {m : CmdAllocs} {cmd : List UInt8} {hdfrcv : HDF}
    {buf : List UInt8} (h : chatMsg H m cmd hdfrcv = .ok (.ok buf)) : IsPush buf := by
  unfold chatMsg at h
  split at h
  · cases h
  · obtain ⟨r, hr, h⟩ := bind_eq_ok.mp h
    have hpush := pushOrError_of_baseMsgNew hr
    rwa [Except.ok.inj h] at hpush

/-- A message to the connection of the entry. -/
theorem Works.touser {H : PushLib HDF} {p : ι} {w : World ι HDF} {d : ι → Bool}
    {q : QueueEntry HDF} (hrun : w.running p = some q) {calloc : Bool} {cmd : List UInt8}
    {datanode : HDF} {r : World ι HDF × HDF × Option NeoErr}
    (h : baseMsgTouser H calloc w cmd datanode q.req.fd q.req.tcpsock = .ok r) :
    Works H p ⟨w, d⟩ ⟨r.1, d⟩ := by
  rcases baseMsgTouser_eq h with heq | ⟨frame, hpush, heq⟩
  · rw [heq]
    exact .refl H p _
  · rw [heq]
    exact .send hrun hpush

/-- The loop over the users pushes to some of them. -/
theorem Works.tellOthers {H : PushLib HDF} {p : ι} (w : World ι HDF) (d : ι → Bool) (uid : Uid)
    {msgbuf : List UInt8} (hpush : IsPush msgbuf) :
    Works H p ⟨w, d⟩ ⟨tellOthers w p uid msgbuf, d⟩ := by
  -- The users do not change while the loop runs over them.
  have hloop : ∀ (l : List (Sigma fun _ : Uid => BaseUser)) (v : World ι HDF),
      v.userh = w.userh → l ⊆ (w.userh p).entries →
      Works H p ⟨v, d⟩ ⟨l.foldl (fun w user =>
        if uid ≠ user.2.uid then (baseMsgSend w msgbuf user.2.fd user.2.tcpsock).1 else w) v, d⟩ := by
    intro l
    induction l with
    | nil => exact fun v _ _ => .refl H p _
    | cons user l ih =>
      intro v hv hl
      rw [List.foldl_cons]
      have hfind : baseUserFind v p user.1 = some user.2 := by
        unfold baseUserFind
        rw [hv]
        exact AList.mem_lookup_iff.mpr (hl List.mem_cons_self)
      have hrest := fun v hv => ih v hv fun x hx => hl (List.mem_cons_of_mem _ hx)
      split_ifs
      · refine .trans (.push hfind hpush) (hrest _ ?_)
        rcases baseMsgSend_eq v msgbuf user.2.fd user.2.tcpsock with heq | heq <;> rw [heq]
        · exact hv
        · exact hv
      · exact hrest v hv
  exact hloop _ w rfl (List.Subset.refl _)

/-! ## The commands -/

section
variable {H : PushLib HDF} {m : CmdAllocs} {p : ι} {w : World ι HDF} {d : ι → Bool}
  {q : QueueEntry HDF} {r : CmdResult ι HDF}

theorem Works.toldByPush (hrun : w.running p = some q) {cmd : List UInt8}
    (h : toldByPush H m w q cmd = .ok r) :
    Works H p ⟨w, d⟩ ⟨r.1, d⟩ ∧ r.2.1.req = q.req := by
  unfold Moc.toldByPush at h
  dsimp only at h
  split_ifs at h
  · rw [← Except.ok.inj h]
    exact ⟨.refl H p _, rfl⟩
  · obtain ⟨⟨w', hdfsnd, err⟩, hsend, h⟩ := bind_eq_ok.mp h
    rw [← Except.ok.inj h]
    exact ⟨.touser hrun hsend, rfl⟩

/-- `base_cmd_join` takes the users' part of a JOIN, and then tells the client. -/
theorem Works.baseCmdJoin (hrun : w.running p = some q) (hp : d p = false)
    (hop : q.operation = reqCmdBaseJoin) (h : baseCmdJoin H m p w q = .ok r) :
    Works H p ⟨w, d⟩ ⟨r.1, Function.update d p true⟩ ∧ r.2.1.req = q.req := by
  unfold Moc.baseCmdJoin at h
  cases hparam : reqGetParamStr H q.hdfrcv "userid" with
  | error err =>
    rw [hparam] at h
    rw [← Except.ok.inj h]
    exact ⟨.fail, rfl⟩
  | ok uid =>
    rw [hparam] at h
    obtain ⟨⟨w₁, b⟩, h₁, h⟩ := bind_eq_ok.mp h
    obtain ⟨⟨w₂, u⟩, h₂, h⟩ := bind_eq_ok.mp h
    have hcommand : userCommand H m.user p w q = .ok w₂ :=
      Joins.userCommand_iff ⟨hparam, hop⟩ |>.mpr ⟨w₁, b, u, h₁, h₂⟩
    have hrun₂ : w₂.running p = some q := by rw [(userCommand_rest hcommand).running, hrun]
    obtain ⟨htold, hreq⟩ := Works.toldByPush (d := Function.update d p true) hrun₂ h
    exact ⟨.trans (.command hrun hp m.user hcommand) htold, hreq⟩

/-- `base_cmd_quit` takes the users' part of a QUIT, and then tells the client. -/
theorem Works.baseCmdQuit (hrun : w.running p = some q) (hp : d p = false)
    (hop : q.operation = reqCmdBaseQuit) (h : baseCmdQuit H m p w q = .ok r) :
    Works H p ⟨w, d⟩ ⟨r.1, Function.update d p true⟩ ∧ r.2.1.req = q.req := by
  unfold Moc.baseCmdQuit at h
  cases hparam : reqGetParamStr H q.hdfrcv "userid" with
  | error err =>
    rw [hparam] at h
    rw [← Except.ok.inj h]
    exact ⟨.fail, rfl⟩
  | ok uid =>
    rw [hparam] at h
    obtain ⟨⟨w₁, b⟩, h₁, h⟩ := bind_eq_ok.mp h
    have hcommand : userCommand H m.user p w q = .ok w₁ :=
      Quits.userCommand_iff ⟨hparam, hop⟩ |>.mpr ⟨b, h₁⟩
    have hrun₁ : w₁.running p = some q := by rw [(userCommand_rest hcommand).running, hrun]
    obtain ⟨htold, hreq⟩ := Works.toldByPush (d := Function.update d p true) hrun₁ h
    exact ⟨.trans (.command hrun hp m.user hcommand) htold, hreq⟩

/-- The JOIN of the chat plugin takes the users' part, and then tells everybody else. -/
theorem Works.chatCmdJoin (hrun : w.running p = some q) (hp : d p = false)
    (hop : q.operation = reqCmdBaseJoin) (h : chatCmdJoin H m p w q = .ok r) :
    Works H p ⟨w, d⟩ ⟨r.1, Function.update d p true⟩ ∧ r.2.1.req = q.req := by
  unfold Moc.chatCmdJoin at h
  cases hparam : reqGetParamStr H q.hdfrcv "userid" with
  | error err =>
    rw [hparam] at h
    rw [← Except.ok.inj h]
    exact ⟨.fail, rfl⟩
  | ok uid =>
    rw [hparam] at h
    obtain ⟨⟨w₁, b⟩, h₁, h⟩ := bind_eq_ok.mp h
    obtain ⟨⟨w₂, u⟩, h₂, h⟩ := bind_eq_ok.mp h
    have hcommand : userCommand H m.user p w q = .ok w₂ :=
      Joins.userCommand_iff ⟨hparam, hop⟩ |>.mpr ⟨w₁, b, u, h₁, h₂⟩
    have husers := Works.command (d := d) hrun hp m.user hcommand
    obtain ⟨msg, hmsg, h⟩ := bind_eq_ok.mp h
    cases msg with
    | error err =>
      rw [← Except.ok.inj h]
      exact ⟨husers, rfl⟩
    | ok msgbuf =>
      rw [← Except.ok.inj h]
      exact ⟨.trans husers (.tellOthers w₂ _ uid (isPush_of_chatMsg hmsg)), rfl⟩

/-- The QUIT of the chat plugin tells everybody else, and then takes the users' part. -/
theorem Works.chatCmdQuit (hrun : w.running p = some q) (hp : d p = false)
    (hop : q.operation = reqCmdBaseQuit) (h : chatCmdQuit H m p w q = .ok r) :
    Works H p ⟨w, d⟩ ⟨r.1, Function.update d p true⟩ ∧ r.2.1.req = q.req := by
  unfold Moc.chatCmdQuit at h
  cases hparam : reqGetParamStr H q.hdfrcv "userid" with
  | error err =>
    rw [hparam] at h
    rw [← Except.ok.inj h]
    exact ⟨.fail, rfl⟩
  | ok uid =>
    rw [hparam] at h
    obtain ⟨msg, hmsg, h⟩ := bind_eq_ok.mp h
    cases msg with
    | error err =>
      rw [← Except.ok.inj h]
      exact ⟨.fail, rfl⟩
    | ok msgbuf =>
      obtain ⟨⟨w₁, b⟩, h₁, h⟩ := bind_eq_ok.mp h
      rw [← Except.ok.inj h]
      have htold : Works H p ⟨w, d⟩ ⟨Moc.tellOthers w p uid msgbuf, d⟩ :=
        .tellOthers w d uid (isPush_of_chatMsg hmsg)
      have hrun₁ : (Moc.tellOthers w p uid msgbuf).running p = some q := by rw [htold.running, hrun]
      have hcommand : userCommand H m.user p (Moc.tellOthers w p uid msgbuf) q = .ok w₁ :=
        Quits.userCommand_iff ⟨hparam, hop⟩ |>.mpr ⟨b, h₁⟩
      exact ⟨.trans htold (.command hrun₁ hp m.user hcommand), rfl⟩

/-- A broadcast tells everybody else. -/
theorem Works.chatCmdBcst (h : chatCmdBcst H m p w q = .ok r) :
    Works H p ⟨w, d⟩ ⟨r.1, Function.update d p true⟩ ∧ r.2.1.req = q.req := by
  unfold Moc.chatCmdBcst at h
  split at h
  · cases h
  · split at h
    · rw [← Except.ok.inj h]
      exact ⟨.fail, rfl⟩
    · split at h
      · rw [← Except.ok.inj h]
        exact ⟨.fail, rfl⟩
      · obtain ⟨msg, hmsg, h⟩ := bind_eq_ok.mp h
        cases msg with
        | error err =>
          rw [← Except.ok.inj h]
          exact ⟨.fail, rfl⟩
        | ok msgbuf =>
          rw [← Except.ok.inj h]
          exact ⟨.trans (.tellOthers w d _ (isPush_of_chatMsg hmsg)) .fail, rfl⟩

theorem Works.chatCmdPm (h : chatCmdPm H w q = .ok r) :
    Works H p ⟨w, d⟩ ⟨r.1, Function.update d p true⟩ ∧ r.2.1.req = q.req := by
  unfold Moc.chatCmdPm at h
  split at h <;> rw [← Except.ok.inj h] <;> exact ⟨.fail, rfl⟩

end

/-! ## The drivers -/

section
variable {H : PushLib HDF} {m : CmdAllocs} {env : CmdEnv} {kind : Plugin} {p : ι}
  {w : World ι HDF} {d : ι → Bool} {e : PluginEntry} {q : QueueEntry HDF} {r : DriverResult ι HDF}

omit [DecidableEq ι] in
theorem cmdCase_eq {x : Except Fault (CmdResult ι HDF)} (h : cmdCase e x = .ok r) :
    ∃ y, x = .ok y ∧ r.1 = y.1 ∧ r.2.2.1 = y.2.1 := by
  obtain ⟨y, hy, h⟩ := bind_eq_ok.mp h
  rw [← Except.ok.inj h]
  exact ⟨y, hy, rfl, rfl⟩

omit [DecidableEq ι] in
/-- The commands that both plugins share leave the server and the request alone. -/
theorem sharedCases_eq (h : sharedCases H m env w e q = .ok r) : r.1 = w ∧ r.2.2.1.req = q.req := by
  have hsys : ∀ {x : Except Fault (SysResult HDF)}, sysCase w e q x = .ok r →
      r.1 = w ∧ r.2.2.1.req = q.req := fun hx => by
    obtain ⟨y, -, hx⟩ := bind_eq_ok.mp hx
    rw [← Except.ok.inj hx]
    exact ⟨rfl, rfl⟩
  unfold sharedCases at h
  split_ifs at h
  · exact hsys h
  · exact hsys h
  · exact hsys h
  · exact hsys h
  · rw [← Except.ok.inj h]
    exact ⟨rfl, rfl⟩
  · rw [← Except.ok.inj h]
    exact ⟨rfl, rfl⟩

/-- The switch of a driver is a sequence of steps of its worker. -/
theorem Works.driverSwitch (hrun : w.running p = some q) (hp : d p = false)
    (h : driverSwitch H m env kind p w e q = .ok r) :
    Works H p ⟨w, d⟩ ⟨r.1, Function.update d p true⟩ ∧ r.2.2.1.req = q.req := by
  have hshared : Moc.sharedCases H m env w e q = .ok r →
      Works H p ⟨w, d⟩ ⟨r.1, Function.update d p true⟩ ∧ r.2.2.1.req = q.req := fun h => by
    obtain ⟨hw, hreq⟩ := sharedCases_eq h
    rw [hw]
    exact ⟨.fail, hreq⟩
  have hcmd : ∀ {x : Except Fault (CmdResult ι HDF)}, cmdCase e x = .ok r →
      (∀ y, x = .ok y → Works H p ⟨w, d⟩ ⟨y.1, Function.update d p true⟩ ∧ y.2.1.req = q.req) →
      Works H p ⟨w, d⟩ ⟨r.1, Function.update d p true⟩ ∧ r.2.2.1.req = q.req := fun hx hy => by
    obtain ⟨y, hxy, hw, hq⟩ := cmdCase_eq hx
    rw [hw, hq]
    exact hy y hxy
  cases kind with
  | base =>
    unfold Moc.driverSwitch baseSwitch at h
    dsimp only at h
    split_ifs at h with hjoin hquit
    · exact hcmd h fun y hy => Works.baseCmdJoin hrun hp hjoin hy
    · exact hcmd h fun y hy => Works.baseCmdQuit hrun hp hquit hy
    · exact hshared h
  | chat =>
    unfold Moc.driverSwitch chatSwitch at h
    dsimp only at h
    split_ifs at h with hjoin hquit
    · exact hcmd h fun y hy => Works.chatCmdJoin hrun hp hjoin hy
    · exact hcmd h fun y hy => Works.chatCmdQuit hrun hp hquit hy
    · exact hcmd h fun y hy => Works.chatCmdBcst hy
    · exact hcmd h fun y hy => Works.chatCmdPm hy
    · exact hshared h

end

/-! ## The whole request -/

/-- The plugin at the start of its process driver: one message more is counted. -/
def countTotal (e : PluginEntry) : PluginEntry :=
  { e with st := { e.st with msgTotal := e.st.msgTotal + 1 } }

/-- `ret` of a process driver: the code that the reply carries. -/
def driverRet : Option NeoErr → ℕ
  | none => repOk
  | some err => err.error

section
variable {H : PushLib HDF} {m : CmdAllocs} {kind : Plugin} {p : ι} {w : World ι HDF} {d : ι → Bool}
  {e : PluginEntry} {q q₀ : QueueEntry HDF}

/-- Telling of an error is at most a push to the request's own connection. -/
theorem Works.onError (hrun : w.running p = some q₀) (hreq : q.req = q₀.req) {err : NeoErr}
    {r : World ι HDF × PluginEntry × QueueEntry HDF} (h : onError H m kind w e q err = .ok r) :
    Works H p ⟨w, d⟩ ⟨r.1, d⟩ ∧ r.2.2.req = q.req := by
  unfold Moc.onError at h
  dsimp only at h
  split_ifs at h
  · obtain ⟨⟨w', hdfsnd, _⟩, hsend, h⟩ := bind_eq_ok.mp h
    rw [← Except.ok.inj h]
    rw [hreq] at hsend
    exact ⟨.touser hrun hsend, rfl⟩
  · obtain ⟨⟨w', hdfsnd, _⟩, hsend, h⟩ := bind_eq_ok.mp h
    rw [← Except.ok.inj h]
    rw [hreq] at hsend
    exact ⟨.touser hrun hsend, rfl⟩
  · rw [← Except.ok.inj h]
    exact ⟨.refl H p _, rfl⟩
  · rw [← Except.ok.inj h]
    exact ⟨.refl H p _, rfl⟩

/-- Processing an entry is a sequence of steps of the plugin's worker: the users' part of the command,
and pushes. A synchronous request gets one frame more, from `reply_trigger`, with the code that the
switch ended in. -/
theorem Works.processDriver {env : CmdEnv} {calloc : Bool} {r : World ι HDF × PluginEntry}
    (hrun : w.running p = some q) (hp : d p = false)
    (h : processDriver H m calloc env kind p w e q = .ok r) :
    ∃ sw w₁ q₁, Moc.driverSwitch H m env kind p w (countTotal e) q = .ok sw ∧
      Works H p ⟨w, d⟩ ⟨w₁, Function.update d p true⟩ ∧ q₁.req = q.req ∧
      if fillSyncFlag q.req then
        ∃ b, replyTrigger H.toHdfLib calloc w₁ q₁ (driverRet sw.2.2.2) = .ok (r.1, b)
      else r.1 = w₁ := by
  obtain ⟨⟨w₁, e₁, q₁, err⟩, hswitch, h⟩ := bind_eq_ok.mp h
  obtain ⟨hworks₁, hreq₁⟩ := Works.driverSwitch hrun hp hswitch
  have hrun₁ : w₁.running p = some q := by rw [hworks₁.running, hrun]
  obtain ⟨⟨w₂, e₂, q₂⟩, hmid, h⟩ := bind_eq_ok.mp h
  -- The end of the error branch, or nothing.
  have hworks₂ : Works H p ⟨w₁, Function.update d p true⟩ ⟨w₂, Function.update d p true⟩ ∧
      q₂.req = q.req := by
    cases err with
    | none =>
      obtain ⟨rfl, -, rfl⟩ : w₁ = w₂ ∧ _ = e₂ ∧ q₁ = q₂ := by simpa using hmid
      exact ⟨.refl H p _, hreq₁⟩
    | some err =>
      dsimp only at hmid
      split_ifs at hmid
      · obtain ⟨rfl, -, rfl⟩ : w₁ = w₂ ∧ _ = e₂ ∧ q₁ = q₂ := by simpa using hmid
        exact ⟨.refl H p _, hreq₁⟩
      · obtain ⟨hworks, hreq⟩ := Works.onError (d := Function.update d p true) hrun₁ hreq₁ hmid
        exact ⟨hworks, hreq.trans hreq₁⟩
  refine ⟨_, w₂, q₂, hswitch, hworks₁.trans hworks₂.1, hworks₂.2, ?_⟩
  dsimp only at h
  rw [hworks₂.2] at h
  by_cases hsync : fillSyncFlag q.req = true
  · rw [if_pos hsync] at h ⊢
    obtain ⟨⟨w₃, b⟩, hreply, h⟩ := bind_eq_ok.mp h
    rw [← Except.ok.inj h]
    exact ⟨b, hreply⟩
  · rw [if_neg hsync] at h ⊢
    rw [← Except.ok.inj h]

end

end Moc
