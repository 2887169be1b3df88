import Moc.Server.Drivers

/-!
# One reply for a synchronous request

The replies to one request, from `parse_message` to the end of the plugin's process driver, counted
without the pushes. Every place that answers looks at `FLAGS_SYNC`, except the two branches of
`put_in_queue_long` for the reserved names.
-/

open Bytes Memory Dll

namespace Moc

variable {ι HDF : Type} [DecidableEq ι]

/-! ## Counting replies -/

/-- The frames sent between two states of the server that are not pushes. -/
def replies (w w' : World ι HDF) : ℕ :=
  (w'.sent.drop w.sent.length).countP fun x => ¬ IsPush x.frame

omit [DecidableEq ι] in
theorem replies_of_sent {w w' : World ι HDF} {l : List Sent} (h : w'.sent = w.sent ++ l) :
    replies w w' = l.countP fun x => ¬ IsPush x.frame := by
  rw [replies, h, List.drop_left]

/-- A frame with a code other than that of the pushes is a reply. -/
theorem isPush_of_code {frame : List UInt8} (pre post : List UInt8) (code : ℕ)
    (hlen : pre.length = 8) (hframe : frame = pre ++ (be32 code ++ post)) (hcode : code % 2^32 ≠ 10000) :
    IsPush frame = false := by
  have hword : word frame 8 = code % 2^32 := by rw [hframe, word_between hlen.symm]
  rw [IsPush, hword, decide_eq_false hcode, Bool.and_false]

theorem isPush_miniFrame {id reply : ℕ} (h : reply ≤ repOk) : IsPush (miniFrame id reply) = false := by
  refine isPush_of_code (be32 12 ++ le32 id) [] reply (by simp) ?_ ?_
  · simp [miniFrame]
  · rw [repOk] at h
    omega

theorem isPush_longFrame_of_le {id reply : ℕ} {val : List UInt8} (h : reply ≤ repOk) :
    IsPush (longFrame id reply val) = false := by
  refine isPush_of_code (be32 (16 + val.length) ++ le32 id) (be32 val.length ++ val) reply
    (by simp) ?_ ?_
  · simp [longFrame]
  · rw [repOk] at h
    omega

/-- The answers are no pushes. -/
theorem isPush_answerFrame {id code : ℕ} {frame : List UInt8} (hcode : code ≤ repOk)
    (h : AnswerFrame id code frame) : IsPush frame = false := by
  rcases h with rfl | ⟨val, rfl⟩
  · exact isPush_miniFrame hcode
  · exact isPush_longFrame_of_le hcode

/-- A step of a command sends nothing or one push. -/
theorem sent_of_workOf {H : PushLib HDF} {p : ι} {sv sv' : Server ι HDF} {i : ServerStep ι HDF}
    (hi : WorkOf p i) (h : sv.step H i = .ok sv') :
    ∃ l, sv'.world.sent = sv.world.sent ++ l ∧ ∀ x ∈ l, IsPush x.frame = true := by
  have hnone : sv'.world.sent = sv.world.sent →
      ∃ l, sv'.world.sent = sv.world.sent ++ l ∧ ∀ x ∈ l, IsPush x.frame = true := fun hsame =>
    ⟨[], by rw [hsame, List.append_nil], by simp⟩
  have hframe : ∀ {fd : ℤ} {meant : ℕ} {frame : List UInt8}, IsPush frame = true →
      sv'.world = sendFrame sv.world fd meant frame →
      ∃ l, sv'.world.sent = sv.world.sent ++ l ∧ ∀ x ∈ l, IsPush x.frame = true := by
    intro fd meant frame hpush hsend
    refine ⟨[⟨fd, meant, sv.world.files fd, frame⟩], by rw [hsend]; rfl, fun x hx => ?_⟩
    rwa [List.mem_singleton.mp hx]
  cases i with
  | process p' user =>
    simp only [Server.step] at h
    split at h
    · split_ifs at h
      · exact hnone (by rw [Except.ok.inj h])
      · obtain ⟨w', hw', h⟩ := bind_eq_ok.mp h
        refine hnone ?_
        rw [← Except.ok.inj h]
        exact (userCommand_rest hw').sent
    · exact hnone (by rw [Except.ok.inj h])
  | fail p' => exact hnone (by rw [← Except.ok.inj h])
  | reply p' frame =>
    simp only [Server.step] at h
    split at h
    · exact hframe hi.2 (by rw [← Except.ok.inj h])
    · exact hnone (by rw [Except.ok.inj h])
  | push p' uid frame =>
    simp only [Server.step] at h
    split at h
    · next u hu =>
      rcases baseMsgSend_eq sv.world frame u.fd u.tcpsock with heq | heq
      · exact hnone (by rw [← Except.ok.inj h, heq])
      · exact hframe hi.2 (by rw [← Except.ok.inj h, heq])
    · exact hnone (by rw [Except.ok.inj h])
  | _ => exact hi.elim

/-- The steps of a command send only pushes. -/
theorem Works.sent {H : PushLib HDF} {p : ι} {sv sv' : Server ι HDF} (h : Works H p sv sv') :
    ∃ l, sv'.world.sent = sv.world.sent ++ l ∧ ∀ x ∈ l, IsPush x.frame = true := by
  obtain ⟨is, his, hrun⟩ := h
  induction is generalizing sv with
  | nil => exact ⟨[], by rw [Except.ok.inj hrun, List.append_nil], by simp⟩
  | cons i is ih =>
    have hi := his i List.mem_cons_self
    obtain ⟨sv₁, hstep, hrest⟩ := foldl_next_cons hrun
    obtain ⟨l, hl, hpushes⟩ := ih (fun j hj => his j (List.mem_cons_of_mem _ hj)) hrest
    obtain ⟨l₁, hl₁, hpushes₁⟩ := sent_of_workOf hi hstep
    refine ⟨l₁ ++ l, by rw [hl, hl₁, List.append_assoc], fun x hx => ?_⟩
    exact (List.mem_append.mp hx).elim (hpushes₁ x) (hpushes x)

/-! ## The codes of the commands -/

/-- The error that a command returns, when there is one, is below the success codes. -/
def BelowOk (err : Option NeoErr) : Prop := ∀ e, err = some e → e.error < repOk

theorem belowOk_none : BelowOk none := fun _ h => by cases h

theorem belowOk_some {err : NeoErr} (h : err.error < repOk) : BelowOk (some err) := fun _ he => by
  rwa [← Option.some.inj he]

/-- The code of a reply is at most the first of the success codes. -/
theorem BelowOk.driverRet {err : Option NeoErr} (h : BelowOk err) : driverRet err ≤ repOk := by
  cases err with
  | none => exact le_refl repOk
  | some e => exact le_of_lt (h e rfl)

/-- The plugins' own codes. -/
theorem codes_lt : repErr < repOk ∧ repErrUnkreq < repOk ∧ repErrBadparam < repOk ∧
    repErrCacheMiss < repOk ∧ nerrAssert < repOk ∧ nerrNomem < repOk := by decide

theorem belowOk_reqGetParamStr {H : PushLib HDF} {hdf : HDF} {key : String} {err : NeoErr}
    (h : reqGetParamStr H hdf key = .error err) : BelowOk (some err) := by
  refine belowOk_some ?_
  unfold reqGetParamStr at h
  split at h
  · rw [← Except.error.inj h]
    exact codes_lt.2.2.1
  · split_ifs at h
    rw [← Except.error.inj h]
    exact codes_lt.2.2.1

theorem belowOk_cacheKey {H : PushLib HDF} {q : QueueEntry HDF} {cd : Option Cache} {err : NeoErr}
    (h : cacheKey H q cd = .error err) : BelowOk (some err) := by
  refine belowOk_some ?_
  unfold cacheKey at h
  split at h
  · rw [← Except.error.inj h]
    exact codes_lt.1
  · split at h
    · rw [← Except.error.inj h]
      exact codes_lt.2.2.1
    · cases h

omit [DecidableEq ι] in
theorem belowOk_baseMsgTouser {H : PushLib HDF} {calloc : Bool} {w : World ι HDF}
    {cmd : List UInt8} {datanode : HDF} {fd : ℤ} {meant : ℕ}
    {r : World ι HDF × HDF × Option NeoErr}
    (h : baseMsgTouser H calloc w cmd datanode fd meant = .ok r) : BelowOk r.2.2 := by
  obtain ⟨⟨datanode, buf⟩, hnew, h⟩ := bind_eq_ok.mp h
  cases buf with
  | error err =>
    rw [← Except.ok.inj h]
    exact belowOk_some (pushOrError_of_baseMsgNew hnew)
  | ok buf =>
    rw [← Except.ok.inj h]
    show BelowOk (baseMsgSend w buf fd meant).2
    unfold baseMsgSend
    split_ifs
    · exact belowOk_some codes_lt.2.2.2.2.1
    · exact belowOk_none

theorem belowOk_chatMsg {H : PushLib HDF} (hnull : H.nullParam.error < repOk) {m : CmdAllocs}
    {cmd : List UInt8} {hdfrcv : HDF} {err : NeoErr} (h : chatMsg H m cmd hdfrcv = .ok (.error err)) :
    BelowOk (some err) := by
  unfold chatMsg at h
  split at h
  · cases h
    exact belowOk_some hnull
  · obtain ⟨r, hr, h⟩ := bind_eq_ok.mp h
    have hpush := pushOrError_of_baseMsgNew hr
    rw [Except.ok.inj h] at hpush
    exact belowOk_some hpush

section
variable {H : PushLib HDF} {m : CmdAllocs} {p : ι} {w : World ι HDF} {q : QueueEntry HDF}
  {r : CmdResult ι HDF}

omit [DecidableEq ι] in
theorem belowOk_toldByPush {cmd : List UInt8} (h : toldByPush H m w q cmd = .ok r) :
    BelowOk r.2.2 := by
  unfold toldByPush at h
  dsimp only at h
  split_ifs at h
  · rw [← Except.ok.inj h]
    exact belowOk_none
  · obtain ⟨⟨w', hdfsnd, err⟩, hsend, h⟩ := bind_eq_ok.mp h
    rw [← Except.ok.inj h]
    exact belowOk_baseMsgTouser hsend

theorem belowOk_baseCmdJoin (h : baseCmdJoin H m p w q = .ok r) : BelowOk r.2.2 := by
  unfold baseCmdJoin at h
  split at h
  · next err hparam =>
    rw [← Except.ok.inj h]
    exact belowOk_reqGetParamStr hparam
  · obtain ⟨x₁, -, h⟩ := bind_eq_ok.mp h
    obtain ⟨x₂, -, h⟩ := bind_eq_ok.mp h
    exact belowOk_toldByPush h

theorem belowOk_baseCmdQuit (h : baseCmdQuit H m p w q = .ok r) : BelowOk r.2.2 := by
  unfold baseCmdQuit at h
  split at h
  · next err hparam =>
    rw [← Except.ok.inj h]
    exact belowOk_reqGetParamStr hparam
  · obtain ⟨x₁, -, h⟩ := bind_eq_ok.mp h
    exact belowOk_toldByPush h

theorem belowOk_chatCmdJoin (hnull : H.nullParam.error < repOk) (h : chatCmdJoin H m p w q = .ok r) :
    BelowOk r.2.2 := by
  unfold chatCmdJoin at h
  split at h
  · next err hparam =>
    rw [← Except.ok.inj h]
    exact belowOk_reqGetParamStr hparam
  · obtain ⟨x₁, -, h⟩ := bind_eq_ok.mp h
    obtain ⟨x₂, -, h⟩ := bind_eq_ok.mp h
    obtain ⟨msg, hmsg, h⟩ := bind_eq_ok.mp h
    cases msg with
    | error err =>
      rw [← Except.ok.inj h]
      exact belowOk_chatMsg hnull hmsg
    | ok msgbuf =>
      rw [← Except.ok.inj h]
      exact belowOk_none

theorem belowOk_chatCmdQuit (hnull : H.nullParam.error < repOk) (h : chatCmdQuit H m p w q = .ok r) :
    BelowOk r.2.2 := by
  unfold chatCmdQuit at h
  split at h
  · next err hparam =>
    rw [← Except.ok.inj h]
    exact belowOk_reqGetParamStr hparam
  · obtain ⟨msg, hmsg, h⟩ := bind_eq_ok.mp h
    cases msg with
    | error err =>
      rw [← Except.ok.inj h]
      exact belowOk_chatMsg hnull hmsg
    | ok msgbuf =>
      obtain ⟨x₁, -, h⟩ := bind_eq_ok.mp h
      rw [← Except.ok.inj h]
      exact belowOk_none

omit [DecidableEq ι] in
theorem belowOk_chatCmdBcst (hnull : H.nullParam.error < repOk) (h : chatCmdBcst H m p w q = .ok r) :
    BelowOk r.2.2 := by
  unfold chatCmdBcst at h
  split at h
  · cases h
  · split at h
    · rw [← Except.ok.inj h]
      exact belowOk_some codes_lt.2.2.1
    · split at h
      · next err hparam =>
        rw [← Except.ok.inj h]
        exact belowOk_reqGetParamStr hparam
      · obtain ⟨msg, hmsg, h⟩ := bind_eq_ok.mp h
        cases msg with
        | error err =>
          rw [← Except.ok.inj h]
          exact belowOk_chatMsg hnull hmsg
        | ok msgbuf =>
          rw [← Except.ok.inj h]
          exact belowOk_none

omit [DecidableEq ι] in
theorem belowOk_chatCmdPm (h : chatCmdPm H w q = .ok r) : BelowOk r.2.2 := by
  unfold chatCmdPm at h
  split at h
  · next err hparam =>
    rw [← Except.ok.inj h]
    exact belowOk_reqGetParamStr hparam
  · rw [← Except.ok.inj h]
    exact belowOk_none

end

section
variable {H : PushLib HDF} {m : CmdAllocs} {env : CmdEnv} {q : QueueEntry HDF} {cd : Option Cache}
  {r : SysResult HDF}

theorem belowOk_sysCmdCacheGet (h : sysCmdCacheGet H env q cd = .ok r) : BelowOk r.2.2 := by
  unfold sysCmdCacheGet at h
  split at h
  · next err hkey =>
    rw [← Except.ok.inj h]
    exact belowOk_cacheKey hkey
  · obtain ⟨⟨⟨rv, val⟩, cd'⟩, -, h⟩ := bind_eq_ok.mp h
    dsimp only at h
    split_ifs at h
    · rw [← Except.ok.inj h]
      exact belowOk_some codes_lt.2.2.2.1
    · split at h
      · rw [← Except.ok.inj h]
        exact belowOk_none
      · split_ifs at h
        · rw [← Except.ok.inj h]
          exact belowOk_none
        · obtain ⟨text, -, h⟩ := bind_eq_ok.mp h
          rw [← Except.ok.inj h]
          exact belowOk_none

theorem belowOk_sysCmdCacheSet (h : sysCmdCacheSet H m env q cd = .ok r) : BelowOk r.2.2 := by
  unfold sysCmdCacheSet at h
  split at h
  · next err hkey =>
    rw [← Except.ok.inj h]
    exact belowOk_cacheKey hkey
  · split at h
    · rw [← Except.ok.inj h]
      exact belowOk_some codes_lt.2.2.1
    · split at h
      · cases h
      · obtain ⟨⟨rv, cd'⟩, -, h⟩ := bind_eq_ok.mp h
        rw [← Except.ok.inj h]
        exact belowOk_none

theorem belowOk_sysCmdCacheDel (h : sysCmdCacheDel H q cd = .ok r) : BelowOk r.2.2 := by
  unfold sysCmdCacheDel at h
  split at h
  · next err hkey =>
    rw [← Except.ok.inj h]
    exact belowOk_cacheKey hkey
  · obtain ⟨⟨rv, cd'⟩, -, h⟩ := bind_eq_ok.mp h
    rw [← Except.ok.inj h]
    exact belowOk_none

theorem belowOk_sysCmdCacheEmpty (h : sysCmdCacheEmpty m q cd = .ok r) : BelowOk r.2.2 := by
  unfold sysCmdCacheEmpty at h
  split at h
  · rw [← Except.ok.inj h]
    exact belowOk_some codes_lt.1
  · obtain ⟨cd', -, h⟩ := bind_eq_ok.mp h
    rw [← Except.ok.inj h]
    exact belowOk_none

end

section
variable {H : PushLib HDF} {m : CmdAllocs} {env : CmdEnv} {kind : Plugin} {p : ι} {w : World ι HDF}
  {e : PluginEntry} {q : QueueEntry HDF} {r : DriverResult ι HDF}

omit [DecidableEq ι] in
theorem belowOk_sharedCases (h : sharedCases H m env w e q = .ok r) : BelowOk r.2.2.2 := by
  have hsys : ∀ {x : Except Fault (SysResult HDF)}, sysCase w e q x = .ok r →
      (∀ y, x = .ok y → BelowOk y.2.2) → BelowOk r.2.2.2 := fun hx hy => by
    obtain ⟨y, hxy, hx⟩ := bind_eq_ok.mp hx
    rw [← Except.ok.inj hx]
    exact hy y hxy
  unfold sharedCases at h
  split_ifs at h
  · exact hsys h fun y hy => belowOk_sysCmdCacheGet hy
  · exact hsys h fun y hy => belowOk_sysCmdCacheSet hy
  · exact hsys h fun y hy => belowOk_sysCmdCacheDel hy
  · exact hsys h fun y hy => belowOk_sysCmdCacheEmpty hy
  · rw [← Except.ok.inj h]
    exact belowOk_none
  · rw [← Except.ok.inj h]
    exact belowOk_some codes_lt.2.1

/-- No command of the two plugins ends in a code above the first success code. -/
theorem belowOk_driverSwitch (hnull : H.nullParam.error < repOk)
    (h : driverSwitch H m env kind p w e q = .ok r) : BelowOk r.2.2.2 := by
  have hcmd : ∀ {x : Except Fault (CmdResult ι HDF)}, cmdCase e x = .ok r →
      (∀ y, x = .ok y → BelowOk y.2.2) → BelowOk r.2.2.2 := fun hx hy => by
    obtain ⟨y, hxy, hx⟩ := bind_eq_ok.mp hx
    rw [← Except.ok.inj hx]
    exact hy y hxy
  cases kind with
  | base =>
    unfold driverSwitch baseSwitch at h
    dsimp only at h
    split_ifs at h
    · exact hcmd h fun y hy => belowOk_baseCmdJoin hy
    · exact hcmd h fun y hy => belowOk_baseCmdQuit hy
    · exact belowOk_sharedCases h
  | chat =>
    unfold driverSwitch chatSwitch at h
    dsimp only at h
    split_ifs at h
    · exact hcmd h fun y hy => belowOk_chatCmdJoin hnull hy
    · exact hcmd h fun y hy => belowOk_chatCmdQuit hnull hy
    · exact hcmd h fun y hy => belowOk_chatCmdBcst hnull hy
    · exact hcmd h fun y hy => belowOk_chatCmdPm hy
    · exact belowOk_sharedCases h

end

/-! ## The replies of a driver -/

section
variable {H : PushLib HDF} {m : CmdAllocs} {calloc : Bool} {env : CmdEnv} {kind : Plugin} {p : ι}
  {w : World ι HDF} {e : PluginEntry} {q : QueueEntry HDF}

omit [DecidableEq ι] in
/-- Telling of an error stays inside its buffer. -/
theorem onError_ok (H : PushLib HDF) (m : CmdAllocs) (kind : Plugin) (w : World ι HDF)
    (e : PluginEntry) (q : QueueEntry HDF) (err : NeoErr) :
    ∃ r, onError H m kind w e q err = .ok r := by
  unfold onError
  dsimp only
  split_ifs
  all_goals try exact ⟨_, rfl⟩
  all_goals
    obtain ⟨⟨node, buf⟩, hnew, -⟩ := baseMsgNew_ok H m.msg (ascii "error") (traceErr H q.hdfsnd err)
    simp only [baseMsgTouser, hnew, ok_bind]
    cases buf <;> exact ⟨_, rfl⟩

/-- A driver whose command is defined is defined. -/
theorem processDriver_ok (calloc : Bool) {sw : DriverResult ι HDF}
    (h : driverSwitch H m env kind p w (countTotal e) q = .ok sw) :
    ∃ r, processDriver H m calloc env kind p w e q = .ok r := by
  obtain ⟨w₁, e₁, q₁, err⟩ := sw
  have hend : ∀ (w : World ι HDF) (e : PluginEntry) (q : QueueEntry HDF) (ret : ℕ),
      ∃ r, (if fillSyncFlag q.req then
        replyTrigger H.toHdfLib calloc w q ret >>= fun sent => return (sent.1, e)
      else return (w, e) : Except Fault (World ι HDF × PluginEntry)) = .ok r := by
    intro w e q ret
    split_ifs
    · obtain ⟨_, _, _, -, -, hsend⟩ := replyTrigger_sends H.toHdfLib calloc w q ret
      exact ⟨_, by rw [hsend, ok_bind]; rfl⟩
    · exact ⟨_, rfl⟩
  unfold countTotal at h
  unfold processDriver
  dsimp only
  rw [h, ok_bind]
  dsimp only
  cases err with
  | none => exact hend _ _ _ _
  | some err =>
    dsimp only
    split_ifs
    · exact hend _ _ _ _
    · obtain ⟨r, hr⟩ := onError_ok H m kind w₁ e₁ q₁ err
      rw [hr]
      exact hend _ _ _ _

/-- The driver replies once to a synchronous request and never to an asynchronous one. -/
theorem processDriver_replies {r : World ι HDF × PluginEntry} (hnull : H.nullParam.error < repOk)
    (hrun : w.running p = some q) (h : processDriver H m calloc env kind p w e q = .ok r) :
    replies w r.1 = if fillSyncFlag q.req then 1 else 0 := by
  obtain ⟨sw, w₁, q₁, hswitch, hworks, hreq, hend⟩ :=
    Works.processDriver (d := fun _ => false) hrun rfl h
  obtain ⟨l, hl, hpushes⟩ := hworks.sent
  have hnone : l.countP (fun x => ¬ IsPush x.frame) = 0 := by
    rw [List.countP_eq_zero]
    intro x hx
    simp [hpushes x hx]
  by_cases hsync : fillSyncFlag q.req = true
  · rw [if_pos hsync] at hend ⊢
    obtain ⟨b, hreply⟩ := hend
    obtain ⟨code, frame, _, hcode, hframe, hsend⟩ :=
      replyTrigger_sends H.toHdfLib calloc w₁ q₁ (driverRet sw.2.2.2)
    have hle := (belowOk_driverSwitch hnull hswitch).driverRet
    have hpush := isPush_answerFrame (hcode.elim (fun h => h ▸ hle) id) hframe
    have hr : r.1 = repSend w₁ q₁.req frame :=
      (Prod.mk.inj (Except.ok.inj (hreply.symm.trans hsend))).1
    have hsent : r.1.sent = w.sent ++ (l ++ [⟨q₁.req.fd, q₁.req.tcpsock, w₁.files q₁.req.fd, frame⟩]) := by
      rw [← List.append_assoc, ← hl]
      exact congrArg World.sent hr
    rw [replies_of_sent hsent, List.countP_append, hnone]
    simp [hpush]
  · rw [if_neg hsync] at hend ⊢
    rw [replies_of_sent (l := l) (by rw [hend]; exact hl), hnone]

end

/-! ## The replies of the event loop -/

omit [DecidableEq ι] in
theorem replies_repSend {w : World ι HDF} {req : ReqInfo} {frame : List UInt8}
    (h : IsPush frame = false) : replies w (repSend w req frame) = 1 := by
  rw [replies_of_sent (l := [_]) rfl]
  simp [h]

/-- `put_in_queue_long` replies once to a reserved name, whether or not it is asked to. Everything
else that it does not queue is answered when the request is synchronous. -/
theorem putInQueue_replies (H : HdfLib HDF) {w : World ι HDF} {req : ReqInfo} {sock : TcpSocket ι}
    (hs : w.socks req.tcpsock = some sock) (hpos : 0 < sock.refcount) (ename : List UInt8)
    (hdfrcv : HDF) :
    ∃ w', putInQueue H .granted w req (fillSyncFlag req) ename hdfrcv = .ok (w', true) ∧
      (putEntry H w req ename hdfrcv = none →
        (Reserved w ename → replies w w' = 1) ∧
          (¬ Reserved w ename → replies w w' = if fillSyncFlag req then 1 else 0)) ∧
      (putEntry H w req ename hdfrcv ≠ none → ¬ Reserved w ename ∧ replies w w' = 0) := by
  obtain ⟨w', hw', hcase⟩ := putInQueue_granted H hs hpos ename hdfrcv
  refine ⟨w', hw', ?_⟩
  rcases hcase with ⟨hput, hres, code, frame, hcode, hframe, rfl⟩ |
    ⟨hput, hno, stat, code, hcode, rfl⟩ | ⟨p, hput, hno, rfl⟩
  · have hone : replies w (repSend w req frame) = 1 :=
      replies_repSend (isPush_answerFrame hcode hframe)
    exact ⟨fun _ => ⟨fun _ => hone, fun hno => absurd hres hno⟩, fun h => absurd hput h⟩
  · refine ⟨fun _ => ⟨fun hres => absurd hres hno, fun _ => ?_⟩, fun h => absurd hput h⟩
    -- The counters change before the reply is sent, what was sent does not.
    split_ifs
    · exact (replies_of_sent rfl).trans (by simp [isPush_miniFrame hcode])
    · exact replies_of_sent (List.append_nil _).symm
  · refine ⟨fun hnone => ?_, fun _ => ⟨hno, replies_of_sent (List.append_nil _).symm⟩⟩
    rw [hput] at hnone
    cases hnone

/-! ## The whole way of a request -/

/-- The request record that `parse_message` hands on, from the header of the message. -/
def headerReq (req : ReqInfo) (b : List UInt8) (len : ℕ) : ReqInfo :=
  { req with
    id := bswap32 (hdrId (word b 0))
    cmd := beNat ((b.drop 4).take 2)
    flags := beNat ((b.drop 6).take 2)
    payload := some 8
    psize := len - 8 }

/-- A message that passes the header checks goes to `parse_event`. -/
theorem parseMessage_of_header (H : HdfLib HDF) (m : Allocs) (w : World ι HDF) (req : ReqInfo)
    {b : List UInt8} {len : ℕ} (hmin : 17 ≤ len) (hlen : len ≤ b.length)
    (hver : hdrVer (word b 0) = protoVer) :
    parseMessage H m w req b len = (do
      let w ← parseEvent H m w (headerReq req b len) b 8
      return (w, headerReq req b len, true)) := by
  rw [parseMessage, if_neg (by omega), load32_of_le (by omega), ok_bind, load16_of_le (by omega),
    ok_bind, load16_of_le (by omega), ok_bind, if_neg (not_not.mpr hver)]
  rfl

/-- The entry that the request of the message `b` leaves in a queue, when it leaves one. -/
def queuedEntry (H : HdfLib HDF) (w : World ι HDF) (req : ReqInfo) (b : List UInt8) (len : ℕ) :
    Option (ι × QueueEntry HDF) :=
  if SizeTest b 8 (len - 8) then
    putEntry H w (headerReq req b len) (eventName b 8) (H.readString H.init (eventText b 8))
  else none

/-- The replies to the message `b` of the connection `req`: those of `parse_message` and, when the
request is queued, those of the plugin's driver on the server that the worker finds `later`. -/
def repliesTo (H : PushLib HDF) (env : CmdEnv) (kind : ι → Plugin)
    (later : ι → QueueEntry HDF → World ι HDF × PluginEntry) (w : World ι HDF) (req : ReqInfo)
    (b : List UInt8) (len : ℕ) : Except Fault ℕ := do
  let (w₁, _, _) ← parseMessage H.toHdfLib .granted w req b len
  match queuedEntry H.toHdfLib w req b len with
  | none => return replies w w₁
  | some (p, e) =>
    let (w₂, _) ← processDriver H .granted true env (kind p) p (later p e).1 (later p e).2 e
    return replies w w₁ + replies (later p e).1 w₂

/-- The command of the entry has no undefined step. -/
def CommandDefined (H : PushLib HDF) (env : CmdEnv) (kind : Plugin) (p : ι) (w : World ι HDF)
    (pe : PluginEntry) (e : QueueEntry HDF) : Prop :=
  ∃ sw, driverSwitch H .granted env kind p w (countTotal pe) e = .ok sw

/-- The condition under which a request is answered once, or not at all when nobody waits. -/
structure AnswersWhen (H : PushLib HDF) (env : CmdEnv) (kind : ι → Plugin)
    (later : ι → QueueEntry HDF → World ι HDF × PluginEntry) (w : World ι HDF) (req : ReqInfo)
    (b : List UInt8) (len : ℕ) : Prop where
  decodes : DecodesInside b 8
  reserved : SizeTest b 8 (len - 8) → Reserved w (eventName b 8) →
    fillSyncFlag (headerReq req b len) = true
  defined : ∀ p e, queuedEntry H.toHdfLib w req b len = some (p, e) →
    CommandDefined H env (kind p) p (later p e).1 (later p e).2 e

omit [DecidableEq ι] in
/-- A broken request is answered when it is synchronous. -/
theorem brokenReq_replies (w : World ι HDF) (req : ReqInfo) :
    replies w (brokenReq w req) = if fillSyncFlag req then 1 else 0 := by
  have hbroken : repErrBroken ≤ repOk := by decide
  unfold brokenReq
  dsimp only
  split_ifs
  · exact replies_of_sent rfl |>.trans (by simp [isPush_miniFrame hbroken])
  · exact replies_of_sent (List.append_nil _).symm

/-- A driver whose command is not defined is not defined either. -/
theorem processDriver_undefined {H : PushLib HDF} {env : CmdEnv} {kind : Plugin} {p : ι}
    {w : World ι HDF} {pe : PluginEntry} {e : QueueEntry HDF} {calloc : Bool}
    {r : World ι HDF × PluginEntry} (hno : ¬ CommandDefined H env kind p w pe e) :
    processDriver H .granted calloc env kind p w pe e ≠ .ok r := by
  intro h
  obtain ⟨sw, hswitch, -⟩ := bind_eq_ok.mp h
  exact hno ⟨sw, hswitch⟩

/-- A request whose name fits is answered as asked exactly when it does not ask a reserved name to be
silent, and the command it is queued for is defined. -/
theorem queued_replies {H : PushLib HDF} (env : CmdEnv) (kind : ι → Plugin)
    {later : ι → QueueEntry HDF → World ι HDF × PluginEntry} {w : World ι HDF} (req : ReqInfo)
    {sock : TcpSocket ι} (ename : List UInt8) (hdfrcv : HDF)
    (hnull : H.nullParam.error < repOk) (hs : w.socks req.tcpsock = some sock)
    (hpos : 0 < sock.refcount) (hlater : ∀ p e, (later p e).1.running p = some e) :
    (do
      let w₁ ← queueReq H.toHdfLib .granted w req ename hdfrcv
      match putEntry H.toHdfLib w req ename hdfrcv with
      | none => return replies w w₁
      | some (p, e) =>
        let (w₂, _) ← processDriver H .granted true env (kind p) p (later p e).1 (later p e).2 e
        return replies w w₁ + replies (later p e).1 w₂) =
      Except.ok (if fillSyncFlag req then 1 else 0) ↔
    (Reserved w ename → fillSyncFlag req = true) ∧
      ∀ p e, putEntry H.toHdfLib w req ename hdfrcv = some (p, e) →
        CommandDefined H env (kind p) p (later p e).1 (later p e).2 e := by
  obtain ⟨w', hw', hnone, hsome⟩ := putInQueue_replies H.toHdfLib hs hpos ename hdfrcv
  have hqueue : queueReq H.toHdfLib .granted w req ename hdfrcv = .ok w' := by
    rw [queueReq, hw', ok_bind]
    simp
  rw [hqueue, ok_bind]
  cases hput : putEntry H.toHdfLib w req ename hdfrcv with
  | none =>
    obtain ⟨hres, hother⟩ := hnone hput
    by_cases hreserved : Reserved w ename
    · -- The answer to a reserved name does not ask for the flag.
      simp [hres hreserved, hreserved]
    · simp [hother hreserved, hreserved]
  | some x =>
    obtain ⟨p, e⟩ := x
    obtain ⟨hno, hzero⟩ := hsome (by rw [hput]; simp)
    -- Queueing sends nothing, and the answer of the worker goes by the flag of the request.
    have hflag : fillSyncFlag e.req = fillSyncFlag req := by rw [putEntry_eq_some hput]; rfl
    by_cases hdef : CommandDefined H env (kind p) p (later p e).1 (later p e).2 e
    · obtain ⟨sw, hswitch⟩ := hdef
      obtain ⟨r, hr⟩ := processDriver_ok true hswitch
      have hdriver := processDriver_replies hnull (hlater p e) hr
      rw [hflag] at hdriver
      dsimp only
      rw [hr, ok_bind]
      refine iff_of_true ?_ ⟨fun hres => absurd hres hno, fun p' e' h' => ?_⟩
      · simp [hzero, hdriver]
      · obtain ⟨rfl, rfl⟩ := Prod.mk.inj (Option.some.inj h')
        exact ⟨sw, hswitch⟩
    · refine iff_of_false (fun h => ?_) fun h => hdef (h.2 p e rfl)
      obtain ⟨r, hr, -⟩ := bind_eq_ok.mp h
      exact processDriver_undefined hdef hr

/-- The server of one plugin, `a`, with one connection. -/
def onePlugin : World Unit (List UInt8) :=
  (World.start [] (.single (ascii "a"))).withSocket 0 5

/-- The worker of the plugin finds the server as it is, and its own counters at zero. -/
def soon (p : Unit) (e : QueueEntry (List UInt8)) : World Unit (List UInt8) × PluginEntry :=
  (onePlugin.withTaken p e [], ⟨none, 0, 0, 0, 0, 0, 0⟩)

/-- A synchronous request for the plugin's counters. -/
def syncStatsMsg : List UInt8 := requestMsg 1 reqCmdStats flagsSync (ascii "a") []

/-- An asynchronous request for the server's counters. -/
def asyncStatusMsg : List UInt8 := requestMsg 1 reqCmdStats 0 (ascii "_Reserve.Status") []

end Moc
