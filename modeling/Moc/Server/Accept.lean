import Moc.Server.Parse

/-!
# Which requests are passed on

`parse_event` passes a request on when its own size test holds (`SizeTest`): the sum of the declared
lengths is kept in a `uint32_t`, and it is held against `MAX_PACKET_LEN` and not against the payload.
`HoldsRequest` says what the protocol asks for. The two differ on payloads whose value is cut short,
and the decoder has followed the lengths before either is looked at (`DecodesInside`).
-/

open Bytes Memory

namespace Moc

variable {ι HDF : Type} [DecidableEq ι]

/-! ## The declared lengths -/

/-- `esize` of the payload at `pos`. -/
def declaredEsize (b : List UInt8) (pos : ℕ) : ℕ := word b pos

/-- The type word behind the name. -/
def declaredType (b : List UInt8) (pos : ℕ) : ℕ := word b (pos + 4 + declaredEsize b pos)

/-- `ksize` of the value's cell. -/
def declaredKsize (b : List UInt8) (pos : ℕ) : ℕ := word b (pos + 8 + declaredEsize b pos)

/-- `vsize` of the value's cell. -/
def declaredVsize (b : List UInt8) (pos : ℕ) : ℕ :=
  word b (pos + 12 + declaredEsize b pos + declaredKsize b pos)

/-- The payload of `psize` bytes at `pos` holds a complete request: the name, a string cell and the
end word fit in it, and no sum wraps. -/
def HoldsRequest (b : List UInt8) (pos psize : ℕ) : Prop :=
  declaredType b pos = dataTypeString ∧
    4 + declaredEsize b pos + 16 + declaredKsize b pos + declaredVsize b pos ≤ psize

instance (b : List UInt8) (pos psize : ℕ) : Decidable (HoldsRequest b pos psize) :=
  inferInstanceAs (Decidable (_ ∧ _))

/-- `rsize` of `parse_event` for a string cell: the size of the cell and the end word, in a
`uint32_t`. -/
def declaredRsize (b : List UInt8) (pos : ℕ) : ℕ :=
  (declaredKsize b pos + declaredVsize b pos + 16) % 2^32

/-- The test that `parse_event` makes. -/
def SizeTest (b : List UInt8) (pos psize : ℕ) : Prop :=
  declaredType b pos = dataTypeString ∧ declaredRsize b pos ≠ 0 ∧
    (declaredRsize b pos + declaredEsize b pos) % 2^32 + 4 ≤ maxPacketLen ∧
    declaredEsize b pos ≤ psize

instance (b : List UInt8) (pos psize : ℕ) : Decidable (SizeTest b pos psize) :=
  inferInstanceAs (Decidable (_ ∧ _ ∧ _ ∧ _))

/-- The declared lengths lead the decoder to no byte outside the block. -/
def DecodesInside (b : List UInt8) (pos : ℕ) : Prop :=
  pos + declaredEsize b pos + 8 ≤ b.length ∧
    (declaredType b pos = dataTypeString →
      pos + declaredEsize b pos + declaredKsize b pos + 16 ≤ b.length ∧
        0 ∈ b.drop (pos + 16 + declaredEsize b pos + declaredKsize b pos))

instance (b : List UInt8) (pos : ℕ) : Decidable (DecodesInside b pos) :=
  inferInstanceAs (Decidable (_ ∧ (_ → _ ∧ _)))

/-- The name of the request. -/
def eventName (b : List UInt8) (pos : ℕ) : List UInt8 :=
  (b.drop (pos + 4)).take (declaredEsize b pos)

/-- The text of the request's value, up to its NUL. -/
def eventText (b : List UInt8) (pos : ℕ) : List UInt8 :=
  (b.drop (pos + 16 + declaredEsize b pos + declaredKsize b pos)).takeWhile (· ≠ 0)

/-- A payload that the receiver can deliver and that holds a request passes the test: the true sum
is small enough not to wrap. -/
theorem SizeTest.of_holdsRequest {b : List UInt8} {pos psize : ℕ} (hmax : psize ≤ maxPacketLen)
    (h : HoldsRequest b pos psize) : SizeTest b pos psize := by
  obtain ⟨hty, hsum⟩ := h
  rw [maxPacketLen] at hmax
  have hrsize : declaredRsize b pos = declaredKsize b pos + declaredVsize b pos + 16 :=
    Nat.mod_eq_of_lt (by omega)
  refine ⟨hty, ?_, ?_, by omega⟩
  · rw [hrsize]
    omega
  · rw [hrsize, Nat.mod_eq_of_lt (by omega), maxPacketLen]
    omega

/-! ## What `parse_event` does -/

/-- Whether the decoder stays inside is what decides whether `parse_event` does. -/
theorem parseEvent_inBounds_iff_decodesInside (H : HdfLib HDF) (m : Allocs) (w : World ι HDF)
    (req : ReqInfo) {b : List UInt8} {pos : ℕ} (hpos : pos + 4 ≤ b.length) :
    InBounds (parseEvent H m w req b pos) ↔ DecodesInside b pos :=
  parseEvent_inBounds_iff H m w req hpos

/-- A decoder that stays inside leaves the decision to the size test. -/
theorem parseEvent_of_decodesInside (H : HdfLib HDF) (m : Allocs) (w : World ι HDF) (req : ReqInfo)
    {b : List UInt8} {pos : ℕ} (hpos : pos + 4 ≤ b.length) (h : DecodesInside b pos) :
    parseEvent H m w req b pos =
      if SizeTest b pos req.psize then
        queueReq H m w req (eventName b pos) (H.readString H.init (eventText b pos))
      else .ok (brokenReq w req) := by
  obtain ⟨htype, hstring⟩ := h
  have hk : pos + 4 + declaredEsize b pos + 4 = pos + 8 + declaredEsize b pos := by omega
  have hv : pos + 4 + declaredEsize b pos + 8 + declaredKsize b pos =
      pos + 12 + declaredEsize b pos + declaredKsize b pos := by omega
  have htext : pos + 4 + declaredEsize b pos + declaredKsize b pos + 12 =
      pos + 16 + declaredEsize b pos + declaredKsize b pos := by omega
  rw [parseEvent, load32_of_le hpos, ok_bind, unpackHdf_eq, ← declaredEsize, if_neg (by omega),
    ← declaredType, hk, ← declaredKsize, hv, ← declaredVsize, htext]
  by_cases hty : declaredType b pos ≠ dataTypeString
  · -- Another type counts as an empty cell.
    rw [if_pos hty, ok_bind, if_neg fun h => hty h.1]
    simp
  obtain ⟨hcell, hnul⟩ := hstring (not_not.mp hty)
  rw [if_neg hty, if_neg (by omega), if_pos hnul, ok_bind]
  dsimp only
  rw [Nat.mod_mod, ← declaredRsize, ← eventText]
  have htests : (declaredRsize b pos = 0 ∨
      (declaredRsize b pos + declaredEsize b pos) % 2^32 + 4 > maxPacketLen ∨
        req.psize < declaredEsize b pos) ↔ ¬ SizeTest b pos req.psize := by
    unfold SizeTest
    rw [not_not] at hty
    constructor
    · rintro h ⟨-, hzero, hmax, hesize⟩
      omega
    · intro h
      by_contra hno
      exact h ⟨hty, by omega, by omega, by omega⟩
  by_cases htest : SizeTest b pos req.psize
  · rw [if_pos htest, if_neg (by rw [htests]; exact not_not.mpr htest), load_of_le (by omega),
      ok_bind, ← eventName, queueReq]
  · rw [if_neg htest, if_pos (htests.mpr htest), pure_eq_ok]

/-! ## Queueing does not count a broken request -/

theorem makeQueueLongEntry_rest {H : HdfLib HDF} {m : Allocs} {w w' : World ι HDF} {req : ReqInfo}
    {ename : List UInt8} {hdfrcv : HDF} {e : Option (QueueEntry HDF)}
    (h : makeQueueLongEntry H m w req ename hdfrcv = .ok (w', e)) : w.SameRest w' := by
  unfold makeQueueLongEntry at h
  split_ifs at h
  · obtain ⟨w₁, h₁, h⟩ := bind_eq_ok.mp h
    rw [← (Prod.mk.inj (Except.ok.inj h)).1]
    exact tcpSocketAddRef_rest h₁
  · obtain ⟨w₁, h₁, h⟩ := bind_eq_ok.mp h
    rw [← (Prod.mk.inj (Except.ok.inj h)).1]
    exact tcpSocketRemoveRef_rest h₁
  · rw [← (Prod.mk.inj (Except.ok.inj h)).1]
    exact .refl w
  · rw [← (Prod.mk.inj (Except.ok.inj h)).1]
    exact .refl w

theorem makeQueueLongEntry_id {H : HdfLib HDF} {m : Allocs} {w w' : World ι HDF} {req : ReqInfo}
    {ename : List UInt8} {hdfrcv : HDF} {e : QueueEntry HDF}
    (h : makeQueueLongEntry H m w req ename hdfrcv = .ok (w', some e)) : e.req.id = req.id := by
  unfold makeQueueLongEntry at h
  split_ifs at h
  · obtain ⟨w₁, -, h⟩ := bind_eq_ok.mp h
    rw [← Option.some.inj (Prod.mk.inj (Except.ok.inj h)).2]
  · obtain ⟨w₁, -, h⟩ := bind_eq_ok.mp h
    cases h
  · cases h
  · cases h

/-- A handler that sends one answer to the request sends it and frees the entry, or there is no memory
for the entry and nothing is sent. -/
theorem reserved_cases {H : HdfLib HDF} {m : Allocs} {w w' : World ι HDF} {req : ReqInfo} {rv : Bool}
    {ename : List UInt8} {hdfrcv : HDF}
    {answer : World ι HDF → QueueEntry HDF → Except Fault (World ι HDF)}
    (hanswer : ∀ w e, ∃ code frame, code ≤ repOk ∧ AnswerFrame e.req.id code frame ∧
      answer w e = .ok (repSend w e.req frame))
    (h : (do
      let (w, e) ← makeQueueLongEntry H m w req ename hdfrcv
      match e with
      | none => return (w, false)
      | some e =>
        let w ← answer w e
        let w ← queueEntryFree w e
        return (w, true)) = .ok (w', rv)) :
    w.SameRest w' ∨ ∃ w₁ r code frame, w.SameRest w₁ ∧ r.id = req.id ∧
      AnswerFrame req.id code frame ∧ (repSend w₁ r frame).SameRest w' := by
  obtain ⟨⟨w₁, e⟩, hentry, h⟩ := bind_eq_ok.mp h
  have hrest := makeQueueLongEntry_rest hentry
  cases e with
  | none =>
    rw [← (Prod.mk.inj (Except.ok.inj h)).1]
    exact .inl hrest
  | some e =>
    obtain ⟨code, frame, -, hframe, hsend⟩ := hanswer w₁ e
    have hid := makeQueueLongEntry_id hentry
    rw [hid] at hframe
    dsimp only at h
    rw [hsend, ok_bind] at h
    -- Freeing the entry drops the reference that it took.
    obtain ⟨w₂, hfree, h⟩ := bind_eq_ok.mp h
    rw [← (Prod.mk.inj (Except.ok.inj h)).1]
    exact .inr ⟨w₁, e.req, code, frame, hrest, hid, hframe, tcpSocketRemoveRef_rest hfree⟩

/-- Queueing counts no broken request. -/
theorem putInQueue_netBrokenReq {H : HdfLib HDF} {m : Allocs} {w w' : World ι HDF} {req : ReqInfo}
    {sync rv : Bool} {ename : List UInt8} {hdfrcv : HDF}
    (h : putInQueue H m w req sync ename hdfrcv = .ok (w', rv)) :
    w'.stat.netBrokenReq = w.stat.netBrokenReq := by
  unfold putInQueue putInQueueLong at h
  split at h
  · split_ifs at h
    · rcases reserved_cases (parseStats_sends H m) h with hrest | ⟨_, _, _, _, hrest, -, -, hsent⟩
      · exact congrArg _ hrest.stat
      · exact congrArg _ (hsent.stat.trans hrest.stat)
    · rcases reserved_cases (parseClientmod_sends H m) h with
        hrest | ⟨_, _, _, _, hrest, -, -, hsent⟩
      · exact congrArg _ hrest.stat
      · exact congrArg _ (hsent.stat.trans hrest.stat)
    · rw [← (Prod.mk.inj (Except.ok.inj h)).1]
      rfl
    · rw [← (Prod.mk.inj (Except.ok.inj h)).1]
  · dsimp only at h
    split_ifs at h
    · rw [← (Prod.mk.inj (Except.ok.inj h)).1]
      rfl
    · rw [← (Prod.mk.inj (Except.ok.inj h)).1]
    · obtain ⟨⟨w₁, e⟩, he, h⟩ := bind_eq_ok.mp h
      have hw₁ := (makeQueueLongEntry_rest he).stat
      cases e <;> rw [← (Prod.mk.inj (Except.ok.inj h)).1] <;> exact congrArg _ hw₁

theorem queueReq_netBrokenReq {H : HdfLib HDF} {m : Allocs} {w w' : World ι HDF} {req : ReqInfo}
    {ename : List UInt8} {hdfrcv : HDF} (h : queueReq H m w req ename hdfrcv = .ok w') :
    w'.stat.netBrokenReq = w.stat.netBrokenReq := by
  obtain ⟨⟨w₁, rv⟩, h₁, h⟩ := bind_eq_ok.mp h
  have hw₁ := putInQueue_netBrokenReq h₁
  dsimp only at h
  rw [← Except.ok.inj h]
  split_ifs <;> exact hw₁

theorem queueReq_inBounds (H : HdfLib HDF) (m : Allocs) (w : World ι HDF) (req : ReqInfo)
    (ename : List UInt8) (hdfrcv : HDF) : InBounds (queueReq H m w req ename hdfrcv) :=
  inBounds_bind (putInQueue_inBounds H m w req _ ename hdfrcv) fun _ => by simp

omit [DecidableEq ι] in
/-- A broken request is counted. -/
@[simp] theorem brokenReq_netBrokenReq (w : World ι HDF) (req : ReqInfo) :
    (brokenReq w req).stat.netBrokenReq = w.stat.netBrokenReq + 1 := by
  unfold brokenReq
  split_ifs <;> rfl

omit [DecidableEq ι] in
/-- A broken request reaches no queue. -/
@[simp] theorem brokenReq_queues (w : World ι HDF) (req : ReqInfo) :
    (brokenReq w req).queues = w.queues := by
  unfold brokenReq
  split_ifs <;> rfl

/-! ## What is passed on -/

/-- `parse_event` hands the name and a dataset to `put_in_queue`. -/
def PutsInQueue (H : HdfLib HDF) (m : Allocs) (w : World ι HDF) (req : ReqInfo) (b : List UInt8)
    (pos : ℕ) : Prop :=
  ∃ hdfrcv, parseEvent H m w req b pos = queueReq H m w req (eventName b pos) hdfrcv

/-- A decoder that stays inside passes on what the size test lets through. -/
theorem putsInQueue_iff_sizeTest (H : HdfLib HDF) (m : Allocs) (w : World ι HDF) (req : ReqInfo)
    {b : List UInt8} {pos : ℕ} (hpos : pos + 4 ≤ b.length) (h : DecodesInside b pos) :
    PutsInQueue H m w req b pos ↔ SizeTest b pos req.psize := by
  have heq := parseEvent_of_decodesInside H m w req hpos h
  constructor
  · rintro ⟨hdfrcv, hput⟩
    by_contra htest
    rw [hput, if_neg htest] at heq
    have hstat := queueReq_netBrokenReq heq
    rw [brokenReq_netBrokenReq] at hstat
    omega
  · intro htest
    rw [if_pos htest] at heq
    exact ⟨_, heq⟩

/-- A decoder that leaves the block passes nothing on and rejects nothing. -/
theorem not_putsInQueue_of_outside (H : HdfLib HDF) (m : Allocs) (w : World ι HDF) (req : ReqInfo)
    {b : List UInt8} {pos : ℕ} (hpos : pos + 4 ≤ b.length) (h : ¬ DecodesInside b pos) :
    parseEvent H m w req b pos = .error .outOfBounds ∧ ¬ PutsInQueue H m w req b pos := by
  have hout : parseEvent H m w req b pos = .error .outOfBounds := by
    rw [← parseEvent_inBounds_iff_decodesInside H m w req hpos, InBounds, not_not] at h
    exact h
  refine ⟨hout, ?_⟩
  rintro ⟨hdfrcv, hput⟩
  exact queueReq_inBounds H m w req _ hdfrcv (hput.symm.trans hout)

/-- The payload of a request whose value is `vsize` bytes by its length word. -/
def cellPayload (vsize : ℕ) : List UInt8 :=
  be32 1 ++ [0x61] ++ be32 dataTypeString ++ be32 4 ++ ascii "root" ++ be32 vsize ++ [0x62, 0] ++
    be32 dataTypeEof

/-- The request record of `cellPayload`. -/
def cellReq : ReqInfo := { ReqInfo.fresh 5 0 with psize := 27 }

end Moc
