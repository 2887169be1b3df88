import Moc.Server.Sends

/-!
# One message, many sends

The loop of `base_msg_send` and that of `rep_send`, which it was copied from, on the same results of
`send()`. The copy keeps its results in a `size_t`, so a failure is not seen as one: before the first
byte it ends the call as if the message were sent, and after it the call goes back by a byte
(`baseMsgSend_delivers_iff`).
-/

open Bytes Runs

namespace Moc

/-- A message in memory: its size is an `ssize_t`. -/
structure OutMsg where
  bytes : List UInt8
  lt : bytes.length < 2^63

/-- What a `send()` returns: a number of bytes, as far as so many are offered, or a failure. -/
inductive SendRet where
  | took (n : ℕ)
  | failed (errno : ℕ)
  deriving DecidableEq

/-- A call under way, and what the caller and the kernel see of it. -/
structure SendLoop where
  c : ℕ
  /-- The places in the message of the bytes that the socket accepted. -/
  taken : List ℕ
  /-- How many `send()` failed with `EAGAIN`. -/
  again : ℕ
  /-- Whether one failed in another way. -/
  hard : Bool
  /-- Whether one returned 0. -/
  zero : Bool
  /-- What the call returned: whether it succeeded. -/
  rv : Option Bool
  deriving DecidableEq

/-- The loop before its first turn. There are a buffer and a descriptor. -/
def SendLoop.start (size : ℕ) : SendLoop :=
  ⟨0, [], 0, false, false, if size = 0 then some true else none⟩

/-- The loop with one more result of `send()` seen. -/
def SendLoop.see (size : ℕ) (s : SendLoop) : SendRet → SendLoop
  | .took n =>
    let n := min n (size - s.c)
    { s with taken := s.taken ++ List.range' s.c n, zero := s.zero || n = 0 }
  | .failed errno =>
    if errno = eagain then { s with again := s.again + 1 } else { s with hard := true }

/-- The loop where a turn leaves it. -/
def SendLoop.follow (s : SendLoop) : Turn → SendLoop
  | .again c => { s with c := c }
  | .returns => { s with rv := some true }
  | .sendsError _ => { s with rv := some false }

/-- The turn that `rep_send` takes on a result. The error frame it may send is not part of the
message. -/
def repSendLoopTurn (id size c : ℕ) : SendRet → Turn
  | .took n => repSendTurn id size c (min n (size - c) : ℕ) 0
  | .failed errno => repSendTurn id size c (-1) errno

/-- The turn that `base_msg_send` takes on a result. -/
def baseMsgSendLoopTurn (size c : ℕ) : SendRet → Turn
  | .took n => baseMsgSendTurn size c (min n (size - c))
  | .failed _ => baseMsgSendTurn size c (2^64 - 1)

/-- One turn of a loop that has not returned. -/
def SendLoop.next (turn : ℕ → SendRet → Turn) (size : ℕ) (s : SendLoop) (r : SendRet) : SendLoop :=
  if s.rv.isSome then s else (s.see size r).follow (turn s.c r)

/-- The two loops on one result. -/
def bothNext (id size : ℕ) (s : SendLoop × SendLoop) (r : SendRet) : SendLoop × SendLoop :=
  (s.1.next (baseMsgSendLoopTurn size) size r, s.2.next (repSendLoopTurn id size) size r)

/-- The two loops before their first turn. -/
def bothStart (size : ℕ) : SendLoop × SendLoop := (.start size, .start size)

/-- What `base_msg_send`, the first of the two loops, should do. -/
structure Delivers (size : ℕ) (s : SendLoop × SendLoop) : Prop where
  /-- The bytes accepted are a prefix of the message. -/
  front : s.1.taken <+: List.range size
  /-- It succeeds only when all bytes were accepted, unless a `send()` returned 0, -/
  whole : s.1.rv = some true → s.1.zero = false → s.1.taken = List.range size
  /-- and fails after a failure that is not `EAGAIN`. -/
  hard : s.1.hard = true → s.1.rv = some false
  /-- The same bytes are accepted from `rep_send`, -/
  taken : s.1.taken = s.2.taken
  /-- and it returns the same. -/
  rv : s.1.rv = s.2.rv

/-- The result of a `send()` of `base_msg_send` that does no harm: bytes while nothing has failed, 0,
or an `EAGAIN` when more bytes were accepted than sends have failed. -/
def Harmless (s : SendLoop × SendLoop) (r : SendRet) : Prop :=
  s.1.rv = none →
    match r with
    | .took n => n = 0 ∨ s.1.again = 0
    | .failed errno => errno = eagain ∧ s.1.again < s.1.taken.length

instance (s : SendLoop × SendLoop) (r : SendRet) : Decidable (Harmless s r) := by
  unfold Harmless
  cases r <;> infer_instance

/-! ## The invariant -/

/-- The loops after harmless results: both accepted the first `k` bytes. While they go on, the one
is at the end of these, and the other as many bytes before it as sends have failed. -/
structure BothOk (size k : ℕ) (s : SendLoop × SendLoop) : Prop where
  le : k ≤ size
  taken : s.1.taken = List.range k
  taken' : s.2.taken = List.range k
  rv : s.1.rv = s.2.rv
  hard : s.1.hard = true → s.1.rv = some false
  whole : s.1.rv = some true → s.1.zero = false → k = size
  under : s.1.rv = none → k < size ∧ s.1.c + s.1.again = k ∧ s.2.c = k ∧ s.1.zero = false

theorem BothOk.delivers {size k : ℕ} {s : SendLoop × SendLoop} (h : BothOk size k s) :
    Delivers size s where
  front := by
    rw [h.taken, ← Nat.min_eq_left h.le, ← List.take_range]
    exact List.take_prefix k _
  whole hrv hzero := by rw [h.taken, h.whole hrv hzero]
  hard := h.hard
  taken := h.taken.trans h.taken'.symm
  rv := h.rv

theorem bothStart_ok (size : ℕ) : BothOk size 0 (bothStart size) where
  le := Nat.zero_le size
  taken := rfl
  taken' := rfl
  rv := rfl
  hard := nofun
  whole hrv _ := by
    by_contra hne
    simp [bothStart, SendLoop.start, Ne.symm hne] at hrv
  under hrv := by
    by_cases hsize : size = 0
    · simp [bothStart, SendLoop.start, hsize] at hrv
    · exact ⟨Nat.pos_of_ne_zero hsize, rfl, rfl, rfl⟩

/-- What a turn makes of two loops that have not returned. -/
theorem bothNext_of_none {id size : ℕ} {s : SendLoop × SendLoop} (h₁ : s.1.rv = none)
    (h₂ : s.2.rv = none) (r : SendRet) :
    bothNext id size s r =
      ((s.1.see size r).follow (baseMsgSendLoopTurn size s.1.c r),
        (s.2.see size r).follow (repSendLoopTurn id size s.2.c r)) := by
  simp [bothNext, SendLoop.next, h₁, h₂]

section Turns

variable {id size k : ℕ} {s : SendLoop × SendLoop}

/-- A failure that is not `EAGAIN` ends the call. -/
theorem BothOk.hard_eq_false (h : BothOk size k s) (hrv : s.1.rv = none) : s.1.hard = false := by
  by_contra hne
  have hend := h.hard (Bool.eq_true_of_not_eq_false hne)
  rw [hrv] at hend
  cases hend

/-- A `send()` that returns 0 ends both calls, and nothing is promised. -/
theorem BothOk.zero (h : BothOk size k s) (hrv : s.1.rv = none) :
    BothOk size k (bothNext id size s (.took 0)) := by
  obtain ⟨hk, -, -, -⟩ := h.under hrv
  have hsize : size ≠ 0 := (Nat.zero_lt_of_lt hk).ne'
  rw [bothNext_of_none hrv (h.rv.symm.trans hrv)]
  refine ⟨hk.le, ?_, ?_, ?_, ?_, ?_, ?_⟩ <;>
    simp [SendLoop.see, baseMsgSendLoopTurn, repSendLoopTurn, baseMsgSendTurn, repSendTurn,
      SendLoop.follow, h.taken, h.taken', h.hard_eq_false hrv, hsize.symm]

/-- Bytes that are taken before anything has failed are the next ones of both calls. -/
theorem BothOk.took (hsize : size < 2^63) (h : BothOk size k s) (hrv : s.1.rv = none) {n : ℕ}
    (hn : 0 < n) (hagain : s.1.again = 0) :
    BothOk size (k + min n (size - k)) (bothNext id size s (.took n)) := by
  obtain ⟨hk, hc, hc', hzero⟩ := h.under hrv
  have hrv' : s.2.rv = none := h.rv.symm.trans hrv
  have hhard := h.hard_eq_false hrv
  have hck : s.1.c = k := by omega
  have hm : 0 < min n (size - k) := by omega
  have hmne : min n (size - k) ≠ 0 := hm.ne'
  have hkm : k + min n (size - k) ≤ size := by omega
  have htaken : List.range k ++ List.range' k (min n (size - k)) =
      List.range (k + min n (size - k)) := by
    rw [List.range_eq_range', List.range_eq_range', ← List.range'_append_1, Nat.zero_add]
  rw [bothNext_of_none hrv hrv']
  simp only [SendLoop.see, baseMsgSendLoopTurn, repSendLoopTurn, hck, hc', h.taken, h.taken',
    htaken, baseMsgSendTurn_accepted hm hkm hsize, repSendTurn_accepted id 0 hm hkm, hzero]
  split_ifs with hmore
  · -- Both go on behind the bytes.
    refine ⟨hkm, rfl, rfl, ?_, ?_, ?_, ?_⟩ <;>
      simp [SendLoop.follow, hrv, hrv', hhard, hmore, hagain, hmne]
  · have hall : k + min n (size - k) = size := by omega
    refine ⟨hkm, rfl, rfl, ?_, ?_, ?_, ?_⟩ <;> simp [SendLoop.follow, hhard, hall]

/-- After an `EAGAIN` the one call goes back by a byte that it has sent, the other waits. -/
theorem BothOk.again (hsize : size < 2^63) (h : BothOk size k s) (hrv : s.1.rv = none)
    (hlt : s.1.again < k) : BothOk size k (bothNext id size s (.failed eagain)) := by
  obtain ⟨hk, hc, hc', hzero⟩ := h.under hrv
  have hrv' : s.2.rv = none := h.rv.symm.trans hrv
  have hback : s.1.c - 1 + (s.1.again + 1) = k := by omega
  rw [bothNext_of_none hrv hrv']
  simp only [SendLoop.see, baseMsgSendLoopTurn, repSendLoopTurn, if_true,
    baseMsgSendTurn_failed (show s.1.c < size by omega) hsize, repSendTurn_failed,
    if_neg (show s.1.c ≠ 0 by omega)]
  refine ⟨hk.le, h.taken, h.taken', ?_, ?_, ?_, ?_⟩ <;>
    simp [SendLoop.follow, hrv, hrv', h.hard_eq_false hrv, hzero, hc', hk, hback]

/-- What a harmless result leads to. -/
theorem BothOk.next (hsize : size < 2^63) (h : BothOk size k s) {r : SendRet} (hr : Harmless s r) :
    ∃ k, BothOk size k (bothNext id size s r) := by
  cases hrv : s.1.rv with
  | some ok =>
    have hrv' : s.2.rv = some ok := h.rv.symm.trans hrv
    have hsame : bothNext id size s r = s := by simp [bothNext, SendLoop.next, hrv, hrv']
    exact ⟨k, hsame.symm ▸ h⟩
  | none =>
    have hr := hr hrv
    cases r with
    | took n =>
      rcases Nat.eq_zero_or_pos n with rfl | hn
      · exact ⟨k, h.zero hrv⟩
      · exact ⟨_, h.took hsize hrv hn (hr.resolve_left hn.ne')⟩
    | failed errno =>
      obtain ⟨rfl, hlt⟩ := hr
      rw [h.taken, List.length_range] at hlt
      exact ⟨k, h.again hsize hrv hlt⟩

/-- What any other result leads to. -/
theorem BothOk.not_delivers (hsize : size < 2^63) (h : BothOk size k s) {r : SendRet}
    (hr : ¬Harmless s r) : ¬Delivers size (bothNext id size s r) := by
  obtain ⟨hrv, hr⟩ := Classical.not_imp.mp hr
  obtain ⟨hk, hc, -, hzero⟩ := h.under hrv
  rw [bothNext_of_none hrv (h.rv.symm.trans hrv)]
  intro hd
  cases r with
  | took n =>
    -- The first byte taken has been taken before.
    obtain ⟨hn, hagain⟩ := not_or.mp hr
    have hfront := hd.front
    have hm : min n (size - s.1.c) ≠ 0 := by omega
    obtain ⟨m, hm⟩ := Nat.exists_eq_succ_of_ne_zero hm
    have htaken : ((s.1.see size (.took n)).follow
        (baseMsgSendLoopTurn size s.1.c (.took n))).taken =
        List.range k ++ s.1.c :: List.range' (s.1.c + 1) m := by
      cases baseMsgSendLoopTurn size s.1.c (.took n) <;>
        simp only [SendLoop.follow, SendLoop.see, h.taken, hm, Nat.succ_eq_add_one,
          List.range'_succ]
    simp only [htaken] at hfront
    have hat := hfront.getElem (i := k) (by simp)
    simp at hat
    omega
  | failed errno =>
    have hturn := baseMsgSendTurn_failed (show s.1.c < size by omega) hsize
    by_cases hagain : errno = eagain
    · -- The call has nothing to go back over, and returns.
      have hlen : ¬s.1.again < s.1.taken.length := fun hlt => hr ⟨hagain, hlt⟩
      rw [h.taken, List.length_range] at hlen
      have hwhole := hd.whole
      simp only [SendLoop.see, baseMsgSendLoopTurn, hturn, if_pos hagain,
        if_pos (show s.1.c = 0 by omega), SendLoop.follow, h.taken, hzero, forall_true_left] at hwhole
      exact hk.ne (by simpa using congrArg List.length hwhole)
    · -- A failure that the call does not see.
      have hhard := hd.hard
      simp only [SendLoop.see, baseMsgSendLoopTurn, hturn, if_neg hagain] at hhard
      split_ifs at hhard <;> simp [SendLoop.follow, hrv] at hhard

end Turns

/-- `base_msg_send` does what it should as long as the results of its sends are harmless. -/
theorem baseMsgSend_delivers_iff (msg : OutMsg) (id : ℕ) (rs : List SendRet) :
    Always (bothNext id msg.bytes.length) (Delivers msg.bytes.length) (bothStart msg.bytes.length)
        rs ↔
      EachStep (bothNext id msg.bytes.length) Harmless (bothStart msg.bytes.length) rs :=
  always_iff_eachStep (I := fun s => ∃ k, BothOk msg.bytes.length k s) (L := fun _ _ => True)
    (fun _ ⟨_, h⟩ => h.delivers) (fun _ _ ⟨_, h⟩ _ hr => h.next msg.lt hr)
    (fun _ _ ⟨_, h⟩ _ hr => h.not_delivers msg.lt hr) ⟨0, bothStart_ok _⟩
    (eachStep_of_forall (fun _ _ => trivial) _ rs)

/-- A message of three bytes. -/
def abcMsg : OutMsg := ⟨ascii "abc", by decide⟩

/-- After one byte and an `EAGAIN`, the first byte is sent again and the last one is not. -/
theorem not_always_delivers_abc :
    ¬Always (bothNext 1 abcMsg.bytes.length) (Delivers abcMsg.bytes.length)
      (bothStart abcMsg.bytes.length) [.took 1, .failed eagain, .took 2] := by
  intro h
  exact absurd (always_last h).front (by decide)

end Moc
