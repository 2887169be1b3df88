import Moc.Client.Message

/-!
# The two kinds of client on one reply

`moc_trigger` hands a synchronous request to the event loop, `moc_trigger_r` waits in `tcp_get_rep`.
The event loop's way carries no code: whatever reply it takes means success, and `errcode` is left
alone. The two agree only where that happens to be right.
-/

open Bytes Memory Socket

namespace Moc

variable {HDF : Type}

/-! ## Codes as they are returned -/

/-- A code is `REP_OK` after the conversion exactly when it was before. -/
theorem cInt_recvCode_eq_repOk {code : ℕ} (h : code < 2^32) :
    cInt (recvCode code) = repOk ↔ code = repOk := by
  have hcode : ∀ n < 2^32, cInt n = repOk ↔ n = repOk := by
    intro n hn
    unfold cInt repOk
    rw [Int.bmod_def]
    constructor
    · intro h
      split_ifs at h <;> omega
    · rintro rfl
      norm_num
  unfold recvCode
  split_ifs with hfail
  · rw [hcode repErr (by decide), hfail]
    decide
  · exact hcode code h

/-! ## The event loop's way -/

section
variable {H : PushLib HDF} {g id : ℕ} {calloc : Bool} {st : MsState HDF} {behind : List UInt8}

/-- A reply without a dataset wakes the trigger and leaves the module as it is. -/
theorem mevtTriggerEloop_mini {reply : ℕ} (hid : id < 2^32)
    (hcode : (ReplyFrame.mini reply).code < 2^32) (hg : g ≤ id) (hpos : 1 ≤ id) :
    mevtTriggerEloop H g calloc st (((ReplyFrame.mini reply).bytes id).drop 4 ++ behind)
        (((ReplyFrame.mini reply).bytes id).length - 4) =
      .ok (repOk, { st with mainsync := st.mainsync + 1 }) := by
  rw [mevtTriggerEloop, msparseMsg_mini H calloc st behind hid hcode hg hpos, ok_bind]
  simp

/-- A reply with a dataset wakes the trigger with the dataset. -/
theorem mevtTriggerEloop_long {reply : ℕ} {text : List UInt8} (hid : id < 2^32)
    (hcode : (ReplyFrame.long reply text).code < 2^32) (hg : g ≤ id) (hpos : 1 ≤ id)
    (hnul : 0 ∉ text) :
    mevtTriggerEloop H g calloc st (((ReplyFrame.long reply text).bytes id).drop 4 ++ behind)
        (((ReplyFrame.long reply text).bytes id).length - 4) =
      .ok (repOk, { st with
        evt := { st.evt with hdfrcv := H.readString H.init (text.take 65024) }
        mainsync := st.mainsync + 1 }) := by
  rw [mevtTriggerEloop, msparseMsg_long H calloc st behind hid hcode hg hpos hnul, ok_bind]
  simp

/-- For the error frame the event loop looks for a dataset behind the message. What it finds there
either passes for one, or leaves the trigger to its timeout. -/
theorem mevtTriggerEloop_error {c : ℕ} {r : ℤ × MsState HDF} (hid : id < 2^32) (hg : g ≤ id)
    (hpos : 1 ≤ id) (h : mevtTriggerEloop H g calloc st (((ReplyFrame.error c).bytes id).drop 4 ++ behind)
      (((ReplyFrame.error c).bytes id).length - 4) = .ok r) :
    r.1 = repOk ∨ ∃ hdf, r.2.evt.hdfrcv = H.setValue hdf "Output.errmsg" noResponse := by
  have hcode : (ReplyFrame.error c).code < 2^32 := show repErr < 2^32 by decide
  have hmsg := msparseMsg_reply H calloc st behind
    ((ReplyFrame.error c).toRepFrame id hid hcode) hg hpos
  rw [if_pos (by simp [ReplyFrame.toRepFrame, ReplyFrame.payload]), ← ReplyFrame.bytes_eq] at hmsg
  rw [mevtTriggerEloop, hmsg] at h
  obtain ⟨⟨st', err⟩, hst, h⟩ := bind_eq_ok.mp h
  obtain ⟨⟨rv, hdfrcv⟩, -, hst⟩ := bind_eq_ok.mp hst
  dsimp only at hst
  split_ifs at hst
  · obtain ⟨rfl, -⟩ := Prod.mk.inj (Except.ok.inj hst)
    simp only [lt_irrefl, decide_false, mevtTriggerWait_false, pure_eq_ok, Except.ok.injEq] at h
    exact .inr ⟨hdfrcv, by rw [← h]⟩
  · obtain ⟨rfl, -⟩ := Prod.mk.inj (Except.ok.inj hst)
    simp only [Nat.lt_succ_self, decide_true, mevtTriggerWait_true, pure_eq_ok, Except.ok.injEq] at h
    exact .inl (by rw [← h])

end

/-! ## Agreement -/

/-- The two triggers, from the same module, give the same code, `errcode` and dataset. -/
def TriggersAgree (r : Except Fault (ℤ × MocT HDF × Sock)) (r' : Except Fault (ℤ × MsState HDF)) :
    Prop :=
  ∃ rv evt sock st, r = .ok (rv, evt, sock) ∧ r' = .ok (rv, st) ∧ evt.errcode = st.evt.errcode ∧
    evt.hdfrcv = st.evt.hdfrcv

/-- A reply in time, in one of the three forms that the server sends, is the same to both kinds of
client exactly when its code is `REP_OK` and `errcode` was `REP_OK` before. `behind` is what stands
behind the message in the event loop's buffer. -/
theorem triggersAgree_iff (H : PushLib HDF)
    (hset : ∀ hdf val, H.getValue (H.setValue hdf "Output.errmsg" val) "Output.errmsg" = some val)
    (hinit : H.getValue H.init "Output.errmsg" = none)
    {g id : ℕ} (calloc : Bool) {st : MsState HDF} {sock : Sock} {s' : List Event} (f : ReplyFrame)
    (behind : List UInt8) (hid : id < 2^32) (hpos : 1 ≤ id) (hg : g ≤ id) (hcode : f.code < 2^32)
    (hnul : ∀ reply text, f = .long reply text → 0 ∉ text)
    (hlen : st.evt.rcvbuf.length = maxPacketLen) (hfresh : st.evt.hdfrcv = H.init)
    (hopen : sock.isOpen = true) (hwhole : Whole (f.bytes id) sock.script s') :
    TriggersAgree (mevtTriggerRecv H.toHdfLib g sock st.evt)
        (mevtTriggerEloop H g calloc st ((f.bytes id).drop 4 ++ behind) ((f.bytes id).length - 4)) ↔
      f.code = repOk ∧ st.evt.errcode = repOk := by
  obtain ⟨evt', hrecv, herrcode, hhdf⟩ :=
    mevtTriggerRecv_frame H.toHdfLib id st.evt hid hcode hg hlen hopen hwhole hnul
  have hok := cInt_recvCode_eq_repOk hcode
  -- What agreement comes to once the event loop's way is known to have succeeded.
  have hsucc : ∀ st' : MsState HDF,
      mevtTriggerEloop H g calloc st ((f.bytes id).drop 4 ++ behind) ((f.bytes id).length - 4) =
        .ok ((repOk : ℤ), st') →
      st'.evt.errcode = st.evt.errcode → (f.code = repOk → st'.evt.hdfrcv = evt'.hdfrcv) →
      (TriggersAgree (mevtTriggerRecv H.toHdfLib g sock st.evt)
          (mevtTriggerEloop H g calloc st ((f.bytes id).drop 4 ++ behind)
            ((f.bytes id).length - 4)) ↔ f.code = repOk ∧ st.evt.errcode = repOk) := by
    intro st' hloop hst' hdata
    rw [hloop, hrecv]
    constructor
    · rintro ⟨rv, evt, sock', st'', h₁, h₂, h₃, -⟩
      obtain ⟨hrv, hst''⟩ := Prod.mk.inj (Except.ok.inj h₂)
      obtain ⟨hrv', hevt⟩ := Prod.mk.inj (Except.ok.inj h₁)
      have hcodeOk := hok.mp (hrv'.trans hrv.symm)
      refine ⟨hcodeOk, ?_⟩
      rw [← hst', hst'', ← h₃, ← (Prod.mk.inj hevt).1, herrcode, hok.mpr hcodeOk]
    · rintro ⟨hcodeOk, herr⟩
      refine ⟨repOk, evt', _, st', by rw [hok.mpr hcodeOk], rfl, ?_, (hdata hcodeOk).symm⟩
      rw [herrcode, hok.mpr hcodeOk, hst', herr]
  cases f with
  | mini reply =>
    refine hsucc _ (mevtTriggerEloop_mini hid hcode hg hpos) rfl fun h => ?_
    have hne : ¬ reply = 2^32 - 1 := by
      rw [show reply = repOk from h]
      decide
    rw [hhdf]
    exact (if_neg hne).symm
  | long reply text =>
    exact hsucc _ (mevtTriggerEloop_long hid hcode hg hpos (hnul reply text rfl)) rfl
      fun _ => hhdf.symm
  | error c =>
    refine iff_of_false ?_ fun h => absurd h.1 (show repErr ≠ repOk by decide)
    rintro ⟨rv, evt, sock', st', h₁, h₂, -, h₄⟩
    rw [hrecv] at h₁
    obtain ⟨hrv, hevt⟩ := Prod.mk.inj (Except.ok.inj h₁)
    have hevt' := (Prod.mk.inj hevt).1
    rcases mevtTriggerEloop_error hid hg hpos h₂ with hrvOk | ⟨hdf, hdata⟩
    · exact absurd (hok.mp (hrv.trans hrvOk)) (show repErr ≠ repOk by decide)
    · -- The timeout leaves its message in the dataset, `tcp_get_rep` leaves the dataset empty.
      have hempty : evt.hdfrcv = H.init := by
        rw [← hevt', hhdf, ← hfresh]
        exact if_neg (show ¬ repErr = 2^32 - 1 by decide)
      have hval := hset hdf noResponse
      rw [← hdata, ← h₄, hempty, hinit] at hval
      cases hval

/-- A connection on which a frame has arrived in one chunk. -/
def arrived (fb : List UInt8) : Sock := ⟨[.data fb], .other, true⟩

theorem whole_arrived {fb : List UInt8} (h : fb ≠ []) : Whole fb (arrived fb).script [] := by
  refine ⟨le_refl _, ?_⟩
  rw [arrived, pull_data_of_le h (le_refl _), Nat.sub_self, pull_zero]
  simp

/-- The module `a` of a client that waits for its first answer. -/
def waitingState (errcode : ℤ) : MsState (Option (List UInt8)) :=
  ⟨{ mevtCreate errmsgHdf.toHdfLib [97] with errcode := errcode }, [], 0, 0⟩

/-- The answer `REP_OK` when `errcode` already says so. -/
theorem triggersAgree_ok :
    TriggersAgree (mevtTriggerRecv errmsgHdf.toHdfLib 1 (arrived ((ReplyFrame.mini repOk).bytes 1))
        (waitingState repOk).evt)
      (mevtTriggerEloop errmsgHdf 1 true (waitingState repOk)
        (((ReplyFrame.mini repOk).bytes 1).drop 4 ++ []) (((ReplyFrame.mini repOk).bytes 1).length - 4)) :=
  (triggersAgree_iff errmsgHdf (fun _ _ => rfl) rfl true (.mini repOk) [] (by decide) (by decide)
    (by decide) (by decide) (fun _ _ h => by cases h) (List.length_replicate ..) rfl rfl
    (whole_arrived (by decide))).mpr ⟨rfl, rfl⟩

/-- The answer `REP_ERR_UNKREQ` fails the one trigger, and the other one returns `REP_OK`. -/
theorem not_triggersAgree_unkreq :
    ¬ TriggersAgree (mevtTriggerRecv errmsgHdf.toHdfLib 1
        (arrived ((ReplyFrame.mini repErrUnkreq).bytes 1)) (waitingState 0).evt)
      (mevtTriggerEloop errmsgHdf 1 true (waitingState 0)
        (((ReplyFrame.mini repErrUnkreq).bytes 1).drop 4 ++ [])
        (((ReplyFrame.mini repErrUnkreq).bytes 1).length - 4)) := by
  obtain ⟨evt', hrecv, -, -⟩ := mevtTriggerRecv_frame errmsgHdf.toHdfLib 1
    (waitingState 0).evt (g := 1) (f := .mini repErrUnkreq) (by decide) (by decide) (by decide)
    (List.length_replicate ..) rfl (whole_arrived (by decide)) fun _ _ h => by cases h
  rw [hrecv, mevtTriggerEloop_mini (by decide) (by decide) (by decide) (by decide)]
  rintro ⟨rv, evt, sock, st, h₁, h₂, -⟩
  have hrv := (Prod.mk.inj (Except.ok.inj h₁)).1.trans (Prod.mk.inj (Except.ok.inj h₂)).1.symm
  exact absurd hrv (by decide)

end Moc
