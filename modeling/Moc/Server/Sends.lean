import Moc.Lib.Blocks
import Moc.Lib.Runs
import Moc.Server.Reply

/-!
# Several threads, one descriptor

The event loop and the workers send on the descriptor of a connection without a lock, by `rep_send`
and `rep_send_error` of `server/tcp.c` and by `base_msg_send` of `plugin/private/base_internal.c`. A
call sends one frame by as many `send()` as it takes. `untorn_iff_alone` says when the frames come out
whole: a call must be alone while its frame is partly sent, and it must not give its frame up.
-/

open Bytes Blocks Runs

namespace Moc

/-! ## The loops -/

/-- `EAGAIN` and `EWOULDBLOCK`, which are one number. -/
def eagain : ℕ := 11
def ewouldblock : ℕ := eagain

/-- A frame: not empty, and its size is an `ssize_t`. -/
structure OutFrame where
  bytes : List UInt8
  pos : 0 < bytes.length
  lt : bytes.length < 2^63
  deriving DecidableEq

/-- The frame that `rep_send` hands to `rep_send_error`. -/
def sendErrorFrame (id : ℕ) : OutFrame where
  bytes := errorFrame id repErrSend
  pos := by simp [errorFrame]
  lt := by simp [errorFrame]

/-- What one turn of a loop leads to. -/
inductive Turn where
  /-- The next turn, at `buf + c`. -/
  | again (c : ℕ)
  | returns
  /-- `rep_send_error` -/
  | sendsError (frame : OutFrame)

/-- A turn of `rep_send`, and the test before the next one. -/
def repSendTurn (id size c : ℕ) (rv : ℤ) (errno : ℕ) : Turn :=
  if rv = size then .returns
  else if rv < 0 then
    if errno ≠ eagain ∨ errno ≠ ewouldblock then .sendsError (sendErrorFrame id) else .again c
  else if rv = 0 then .returns
  else if c + rv.toNat < size then .again (c + rv.toNat)
  else .returns

/-- A turn of `base_msg_send`, and the test before the next one. Here `rv` is a `size_t`: it is never
negative, and adding the `-1` of a failure takes one from `c`. -/
def baseMsgSendTurn (size c rv : ℕ) : Turn :=
  if rv = size then .returns
  else if rv = 0 then .returns
  else if (c + rv) % 2^64 < size then .again ((c + rv) % 2^64)
  else .returns

/-- What the kernel does with a `send()`: it takes some bytes, one at least, or it fails. -/
inductive SendResult where
  /-- One byte and `more` others, as far as there are any. -/
  | accepted (more : ℕ)
  | failed (errno : ℕ)

/-- The bytes taken of the `avail` that are offered. -/
def SendResult.taken (avail : ℕ) : SendResult → ℕ
  | accepted more => min (more + 1) avail
  | failed _ => 0

/-- The functions that send. -/
inductive SendFn where
  | repSend (id : ℕ)
  | repSendError
  | baseMsgSend

/-- A turn at `buf + c` of a frame of `size` bytes. `rep_send_error` takes the result as it is. -/
def SendFn.turn (size c : ℕ) : SendFn → SendResult → Turn
  | repSend id, .accepted more =>
    repSendTurn id size c ((SendResult.accepted more).taken (size - c) : ℕ) 0
  | repSend id, .failed errno => repSendTurn id size c (-1) errno
  | baseMsgSend, .accepted more =>
    baseMsgSendTurn size c ((SendResult.accepted more).taken (size - c))
  | baseMsgSend, .failed _ => baseMsgSendTurn size c (2^64 - 1)
  | repSendError, _ => .returns

/-! ## The threads -/

/-- A frame with the number of the call that sends it. -/
structure Ticket where
  num : ℕ
  frame : OutFrame
  deriving DecidableEq

def Ticket.size (k : Ticket) : ℕ := k.frame.bytes.length

theorem Ticket.size_pos (k : Ticket) : 0 < k.size := k.frame.pos

/-- A call under way. -/
structure SendCall where
  fn : SendFn
  ticket : Ticket
  c : ℕ

/-- A connection and the threads `θ` that send on it. `stream` are the bytes that the kernel took, each
as its frame and its place there. `cut` says that a call has given up a frame of which some bytes were
taken, or has lost its place in it. -/
structure SharedFd (θ : Type) where
  next : ℕ
  calls : θ → Option SendCall
  stream : List (Ticket × ℕ)
  cut : Bool

variable {θ : Type}

/-- Nobody has sent anything. -/
def SharedFd.start (θ : Type) : SharedFd θ := ⟨0, fun _ => none, [], false⟩

variable [DecidableEq θ]

/-- The thread `t` calls `fn`. -/
def SharedFd.begin (s : SharedFd θ) (t : θ) (fn : SendFn) (frame : OutFrame) : SharedFd θ :=
  { s with next := s.next + 1, calls := Function.update s.calls t (some ⟨fn, ⟨s.next, frame⟩, 0⟩) }

/-- After a turn with `a` of `size` bytes taken, the call does not go on at the next byte. -/
def Turn.leaves (a size : ℕ) : Turn → Bool
  | again c => c ≠ a
  | _ => 0 < a ∧ a < size

/-- A turn of the call `call` of the thread `t`. -/
def SharedFd.turn (s : SharedFd θ) (t : θ) (call : SendCall) (r : SendResult) : SharedFd θ :=
  let size := call.ticket.size
  let n := r.taken (size - call.c)
  let turn := call.fn.turn size call.c r
  let s := { s with
    stream := s.stream ++ piece call.ticket call.c n
    cut := s.cut || turn.leaves (call.c + n) size }
  match turn with
  | .again c => { s with calls := Function.update s.calls t (some { call with c := c }) }
  | .returns => { s with calls := Function.update s.calls t none }
  | .sendsError frame => s.begin t .repSendError frame

/-- A thread that sends nothing calls one of the functions, or one that sends takes a turn. -/
inductive FdStep (θ : Type) where
  | call (t : θ) (fn : SendFn) (frame : OutFrame)
  | send (t : θ) (r : SendResult)

def fdStep (s : SharedFd θ) : FdStep θ → SharedFd θ
  | .call t fn frame => if (s.calls t).isNone then s.begin t fn frame else s
  | .send t r =>
    match s.calls t with
    | none => s
    | some call => s.turn t call r

/-- The bytes of the stream. -/
def SharedFd.bytes (s : SharedFd θ) : List UInt8 :=
  s.stream.map fun x => (x.1.frame.bytes[x.2]?).getD 0

/-- A step in which the kernel takes bytes finds no other frame in the middle: no other call has begun
its frame, and none was cut. -/
def Alone (s : SharedFd θ) : FdStep θ → Prop
  | .send t (.accepted _) => (s.calls t).isSome →
    s.cut = false ∧ ∀ t' call, t' ≠ t → s.calls t' = some call → call.c = 0
  | _ => True

/-! ## One turn -/

section
variable {size c n : ℕ}

theorem repSendTurn_accepted (id errno : ℕ) (hn : 0 < n) (hle : c + n ≤ size) :
    repSendTurn id size c n errno = if c + n < size then .again (c + n) else .returns := by
  unfold repSendTurn
  rw [Int.toNat_natCast]
  by_cases hall : n = size
  · rw [if_pos (by omega), if_neg (by omega)]
  · rw [if_neg (by omega), if_neg (by omega), if_neg (by omega)]

theorem repSendTurn_failed (id errno : ℕ) :
    repSendTurn id size c (-1) errno =
      if errno = eagain then .again c else .sendsError (sendErrorFrame id) := by
  unfold repSendTurn ewouldblock
  rw [if_neg (by omega), if_pos (by omega)]
  simp only [or_self, ite_not]

theorem baseMsgSendTurn_accepted (hn : 0 < n) (hle : c + n ≤ size) (hsize : size < 2^63) :
    baseMsgSendTurn size c n = if c + n < size then .again (c + n) else .returns := by
  unfold baseMsgSendTurn
  rw [Nat.mod_eq_of_lt (by omega)]
  by_cases hall : n = size
  · rw [if_pos hall, if_neg (by omega)]
  · rw [if_neg hall, if_neg (by omega)]

/-- A failure before the first byte ends the call, and any other one sets it back by a byte. -/
theorem baseMsgSendTurn_failed (hc : c < size) (hsize : size < 2^63) :
    baseMsgSendTurn size c (2^64 - 1) = if c = 0 then .returns else .again (c - 1) := by
  unfold baseMsgSendTurn
  rw [if_neg (by omega), if_neg (by omega)]
  by_cases hzero : c = 0
  · rw [if_pos hzero, if_neg (by omega)]
  · have hback : (c + (2^64 - 1)) % 2^64 = c - 1 := by omega
    rw [if_neg hzero, hback, if_pos (by omega)]

theorem SendResult.taken_accepted (hc : c < size) (more : ℕ) :
    0 < (accepted more).taken (size - c) ∧ c + (accepted more).taken (size - c) ≤ size := by
  rw [taken]
  omega

/-- After some bytes were taken, the call goes on behind them or returns. -/
theorem SendFn.turn_accepted (fn : SendFn) (hc : c < size) (hsize : size < 2^63) (more : ℕ) :
    fn.turn size c (.accepted more) = .again (c + (SendResult.accepted more).taken (size - c)) ∧
        c + (SendResult.accepted more).taken (size - c) < size ∨
      fn.turn size c (.accepted more) = .returns := by
  obtain ⟨hpos, hle⟩ := SendResult.taken_accepted hc more
  cases fn with
  | repSendError => exact Or.inr rfl
  | repSend id =>
    rw [turn, repSendTurn_accepted id 0 hpos hle]
    split_ifs with hmore
    · exact Or.inl ⟨rfl, hmore⟩
    · exact Or.inr rfl
  | baseMsgSend =>
    rw [turn, baseMsgSendTurn_accepted hpos hle hsize]
    split_ifs with hmore
    · exact Or.inl ⟨rfl, hmore⟩
    · exact Or.inr rfl

/-- After a failure the call tries again, tries again one byte before, returns, or sends the error
frame. -/
theorem SendFn.turn_failed (fn : SendFn) (hc : c < size) (hsize : size < 2^63) (errno : ℕ) :
    fn.turn size c (.failed errno) = .again c ∨
      (0 < c ∧ fn.turn size c (.failed errno) = .again (c - 1)) ∨
      fn.turn size c (.failed errno) = .returns ∨
      ∃ frame, fn.turn size c (.failed errno) = .sendsError frame := by
  cases fn with
  | repSendError => exact Or.inr (Or.inr (Or.inl rfl))
  | repSend id =>
    rw [turn, repSendTurn_failed]
    split_ifs with hagain
    · exact Or.inl rfl
    · exact Or.inr (Or.inr (Or.inr ⟨_, rfl⟩))
  | baseMsgSend =>
    rw [turn, baseMsgSendTurn_failed hc hsize]
    split_ifs with hzero
    · exact Or.inr (Or.inr (Or.inl rfl))
    · exact Or.inr (Or.inl ⟨Nat.pos_of_ne_zero hzero, rfl⟩)

end

/-! ## What holds while every call is alone -/

/-- The end of what the kernel took. -/
def SharedFd.front (s : SharedFd θ) : Front Ticket := Blocks.front Ticket.size s.stream

/-- The invariant of the runs whose steps are `Alone`. -/
structure SharedFd.Ok (s : SharedFd θ) : Prop where
  num_lt : ∀ t call, s.calls t = some call → call.ticket.num < s.next
  c_lt : ∀ t call, s.calls t = some call → call.c < call.ticket.size
  ticket_inj : ∀ t t' call call', s.calls t = some call → s.calls t' = some call' →
    call.ticket = call'.ticket → t = t'
  stream_lt : ∀ k i, (k, i) ∈ s.stream → k.num < s.next
  nodup : s.stream.Nodup
  /-- Without a cut the open frame is that of a call under way, and a call has sent nothing or is in
  its place in the open frame. -/
  whole : s.cut = false → (s.front = .boundary ∨ ∃ t call, s.calls t = some call ∧ 0 < call.c ∧
      s.front = .inside call.ticket call.c) ∧
    ∀ t call, s.calls t = some call →
      call.c = 0 ∧ (∀ i, (call.ticket, i) ∉ s.stream) ∨ s.front = .inside call.ticket call.c
  /-- After a cut nobody is in the place where the open frame ends. -/
  cut : s.cut = true → ∃ k j, k.num < s.next ∧ s.front = .inside k j ∧
    ∀ t call, s.calls t = some call → call.ticket = k → call.c < j

omit [DecidableEq θ] in
theorem SharedFd.start_ok : (SharedFd.start θ).Ok where
  num_lt := nofun
  c_lt := nofun
  ticket_inj := nofun
  stream_lt := nofun
  nodup := List.nodup_nil
  whole _ := ⟨Or.inl rfl, nofun⟩
  cut := nofun

section
variable (s : SharedFd θ) (t : θ) {call : SendCall} {r : SendResult} {c : ℕ} {frame : OutFrame}

theorem SharedFd.turn_again (h : call.fn.turn call.ticket.size call.c r = .again c) :
    s.turn t call r = { s with
      stream := s.stream ++ piece call.ticket call.c (r.taken (call.ticket.size - call.c))
      cut := s.cut || decide (c ≠ call.c + r.taken (call.ticket.size - call.c))
      calls := Function.update s.calls t (some { call with c := c }) } := by
  unfold turn
  dsimp only
  rw [h]
  rfl

theorem SharedFd.turn_returns (h : call.fn.turn call.ticket.size call.c r = .returns) :
    s.turn t call r = { s with
      stream := s.stream ++ piece call.ticket call.c (r.taken (call.ticket.size - call.c))
      cut := s.cut || decide (0 < call.c + r.taken (call.ticket.size - call.c) ∧
        call.c + r.taken (call.ticket.size - call.c) < call.ticket.size)
      calls := Function.update s.calls t none } := by
  unfold turn
  dsimp only
  rw [h]
  rfl

theorem SharedFd.turn_sendsError (h : call.fn.turn call.ticket.size call.c r = .sendsError frame) :
    s.turn t call r = ({ s with
      stream := s.stream ++ piece call.ticket call.c (r.taken (call.ticket.size - call.c))
      cut := s.cut || decide (0 < call.c + r.taken (call.ticket.size - call.c) ∧
        call.c + r.taken (call.ticket.size - call.c) < call.ticket.size)
      calls := Function.update s.calls t none } : SharedFd θ).begin t .repSendError frame := by
  unfold turn begin
  dsimp only
  rw [h, Function.update_idem]
  rfl

end

theorem fdStep_send {s : SharedFd θ} {t : θ} {call : SendCall} (hcall : s.calls t = some call)
    (r : SendResult) : fdStep s (.send t r) = s.turn t call r := by
  unfold fdStep
  dsimp only
  rw [hcall]

/-- When the kernel takes a whole frame at once, a call puts it behind what was sent before, as
`sendFrame` does. -/
theorem fdStep_whole {s : SharedFd θ} {t : θ} (fn : SendFn) (frame : OutFrame)
    (hidle : s.calls t = none) :
    [FdStep.call t fn frame, .send t (.accepted (frame.bytes.length - 1))].foldl fdStep s =
      { s with next := s.next + 1, stream := s.stream ++ block Ticket.size ⟨s.next, frame⟩ } := by
  have hpos := frame.pos
  have hbegin : fdStep s (.call t fn frame) = s.begin t fn frame := by
    unfold fdStep
    dsimp only
    rw [hidle]
    rfl
  have hcall : (s.begin t fn frame).calls t = some ⟨fn, ⟨s.next, frame⟩, 0⟩ := Function.update_self ..
  have htaken : (SendResult.accepted (frame.bytes.length - 1)).taken (frame.bytes.length - 0) =
      frame.bytes.length := by
    rw [SendResult.taken]
    omega
  have hturn : fn.turn frame.bytes.length 0 (.accepted (frame.bytes.length - 1)) = .returns := by
    rcases fn.turn_accepted hpos frame.lt (frame.bytes.length - 1) with ⟨-, hlt⟩ | hturn
    · rw [htaken, Nat.zero_add] at hlt
      exact absurd hlt (Nat.lt_irrefl _)
    · exact hturn
  have hclosed : Function.update (s.begin t fn frame).calls t none = s.calls := by
    unfold SharedFd.begin
    rw [Function.update_idem, ← hidle, Function.update_eq_self]
  have hreturn : (s.begin t fn frame).turn t ⟨fn, ⟨s.next, frame⟩, 0⟩
      (.accepted (frame.bytes.length - 1)) = _ := SharedFd.turn_returns _ t hturn
  rw [List.foldl_cons, List.foldl_cons, List.foldl_nil, hbegin, fdStep_send hcall, hreturn, hclosed]
  simp only [Ticket.size, htaken, Nat.zero_add, Nat.lt_irrefl, and_false, decide_false,
    Bool.or_false]
  rfl

section
variable {s : SharedFd θ} {t : θ} {call : SendCall} {fn : SendFn} {frame : OutFrame}

/-- A thread that sends nothing may call a function. -/
theorem SharedFd.Ok.begin (h : s.Ok) (hidle : s.calls t = none) : (s.begin t fn frame).Ok := by
  have hcalls : ∀ t' call', (s.begin t fn frame).calls t' = some call' →
      t' = t ∧ call' = ⟨fn, ⟨s.next, frame⟩, 0⟩ ∨ s.calls t' = some call' := by
    intro t' call' hcall
    rcases update_eq_some.mp hcall with ⟨ht, hnew⟩ | ⟨-, hcall⟩
    · exact Or.inl ⟨ht, (Option.some.inj hnew).symm⟩
    · exact Or.inr hcall
  have hother : ∀ t' call', s.calls t' = some call' → (s.begin t fn frame).calls t' = some call' := by
    intro t' call' hcall
    refine update_eq_some.mpr (Or.inr ⟨?_, hcall⟩)
    rintro rfl
    rw [hidle] at hcall
    cases hcall
  constructor
  case num_lt =>
    intro t' call' hcall
    rcases hcalls t' call' hcall with ⟨-, rfl⟩ | hcall
    · exact Nat.lt_succ_self _
    · exact Nat.lt_succ_of_lt (h.num_lt _ _ hcall)
  case c_lt =>
    intro t' call' hcall
    rcases hcalls t' call' hcall with ⟨-, rfl⟩ | hcall
    · exact Ticket.size_pos _
    · exact h.c_lt _ _ hcall
  case ticket_inj =>
    -- The new number is not that of a call under way.
    intro t₁ t₂ call₁ call₂ h₁ h₂ heq
    rcases hcalls _ _ h₁ with ⟨rfl, rfl⟩ | hold₁ <;> rcases hcalls _ _ h₂ with ⟨rfl, rfl⟩ | hold₂
    · rfl
    · have hlt := h.num_lt _ _ hold₂
      rw [← heq] at hlt
      exact absurd hlt (Nat.lt_irrefl _)
    · have hlt := h.num_lt _ _ hold₁
      rw [heq] at hlt
      exact absurd hlt (Nat.lt_irrefl _)
    · exact h.ticket_inj _ _ _ _ hold₁ hold₂ heq
  case stream_lt => exact fun k i hmem => Nat.lt_succ_of_lt (h.stream_lt k i hmem)
  case nodup => exact h.nodup
  case whole =>
    intro hcut
    obtain ⟨hopen, hplace⟩ := h.whole hcut
    refine ⟨hopen.imp_right ?_, ?_⟩
    · rintro ⟨t', call', hcall, hfront⟩
      exact ⟨t', call', hother _ _ hcall, hfront⟩
    · intro t' call' hcall
      rcases hcalls t' call' hcall with ⟨-, rfl⟩ | hcall
      · exact Or.inl ⟨rfl, fun i hmem => Nat.lt_irrefl _ (h.stream_lt _ i hmem)⟩
      · exact hplace _ _ hcall
  case cut =>
    intro hcut
    obtain ⟨k, j, hk, hfront, hplace⟩ := h.cut hcut
    refine ⟨k, j, Nat.lt_succ_of_lt hk, hfront, ?_⟩
    intro t' call' hcall heq
    rcases hcalls t' call' hcall with ⟨-, rfl⟩ | hcall
    · rw [← heq] at hk
      exact absurd hk (Nat.lt_irrefl _)
    · exact hplace _ _ hcall heq

/-- A call may end before its first byte was taken, and after a cut. -/
theorem SharedFd.Ok.close (h : s.Ok) (hcall : s.calls t = some call)
    (hend : s.cut = false → call.c = 0) :
    ({ s with calls := Function.update s.calls t none } : SharedFd θ).Ok := by
  have hcalls : ∀ t' call', Function.update s.calls t none t' = some call' →
      s.calls t' = some call' := by
    intro t' call' hcall'
    rcases update_eq_some.mp hcall' with ⟨-, hnone⟩ | ⟨-, hcall'⟩
    · cases hnone
    · exact hcall'
  constructor
  case num_lt => exact fun t' call' hc => h.num_lt _ _ (hcalls _ _ hc)
  case c_lt => exact fun t' call' hc => h.c_lt _ _ (hcalls _ _ hc)
  case ticket_inj =>
    exact fun t₁ t₂ call₁ call₂ h₁ h₂ => h.ticket_inj _ _ _ _ (hcalls _ _ h₁) (hcalls _ _ h₂)
  case stream_lt => exact h.stream_lt
  case nodup => exact h.nodup
  case whole =>
    intro hcut
    obtain ⟨hopen, hplace⟩ := h.whole hcut
    refine ⟨hopen.imp_right ?_, fun t' call' hc => hplace _ _ (hcalls _ _ hc)⟩
    -- The open frame is another one's, whose call is still under way.
    rintro ⟨t', call', hcall', hpos, hfront⟩
    refine ⟨t', call', update_eq_some.mpr (Or.inr ⟨?_, hcall'⟩), hpos, hfront⟩
    rintro rfl
    rw [hcall] at hcall'
    cases hcall'
    have := hend hcut
    omega
  case cut =>
    intro hcut
    obtain ⟨k, j, hk, hfront, hplace⟩ := h.cut hcut
    exact ⟨k, j, hk, hfront, fun t' call' hc => hplace _ _ (hcalls _ _ hc)⟩

/-- A call that has begun its frame may end or fall back, and that is a cut. -/
theorem SharedFd.Ok.lose (h : s.Ok) (hcall : s.calls t = some call) (hpos : 0 < call.c)
    {o : Option SendCall}
    (ho : ∀ call', o = some call' → call'.ticket = call.ticket ∧ call'.c < call.c) :
    ({ s with calls := Function.update s.calls t o, cut := true } : SharedFd θ).Ok := by
  have hcalls : ∀ t' call', Function.update s.calls t o t' = some call' →
      ∃ call₀, s.calls t' = some call₀ ∧ call'.ticket = call₀.ticket ∧ call'.c ≤ call₀.c ∧
        (call'.ticket = call.ticket → call'.c < call.c) := by
    intro t' call' hcall'
    rcases update_eq_some.mp hcall' with ⟨rfl, hnew⟩ | ⟨hne, hcall'⟩
    · obtain ⟨hticket, hlt⟩ := ho _ hnew
      exact ⟨call, hcall, hticket, hlt.le, fun _ => hlt⟩
    · refine ⟨call', hcall', rfl, le_refl _, fun hticket => ?_⟩
      exact absurd (h.ticket_inj _ _ _ _ hcall' hcall hticket) hne
  constructor
  case num_lt =>
    intro t' call' hc
    obtain ⟨call₀, h₀, hticket, -⟩ := hcalls _ _ hc
    rw [hticket]
    exact h.num_lt _ _ h₀
  case c_lt =>
    intro t' call' hc
    obtain ⟨call₀, h₀, hticket, hle, -⟩ := hcalls _ _ hc
    rw [hticket]
    exact lt_of_le_of_lt hle (h.c_lt _ _ h₀)
  case ticket_inj =>
    intro t₁ t₂ call₁ call₂ h₁ h₂ heq
    obtain ⟨call₁', h₁', heq₁, -⟩ := hcalls _ _ h₁
    obtain ⟨call₂', h₂', heq₂, -⟩ := hcalls _ _ h₂
    exact h.ticket_inj _ _ _ _ h₁' h₂' (heq₁.symm.trans (heq.trans heq₂))
  case stream_lt => exact h.stream_lt
  case nodup => exact h.nodup
  case whole => exact nofun
  case cut =>
    intro _
    cases hcut : s.cut with
    | true =>
      obtain ⟨k, j, hk, hfront, hplace⟩ := h.cut hcut
      refine ⟨k, j, hk, hfront, fun t' call' hc heq => ?_⟩
      obtain ⟨call₀, h₀, hticket, hle, -⟩ := hcalls _ _ hc
      exact lt_of_le_of_lt hle (hplace _ _ h₀ (hticket.symm.trans heq))
    | false =>
      -- The open frame is the call's own.
      have hfront : s.front = .inside call.ticket call.c := by
        rcases (h.whole hcut).2 _ _ hcall with ⟨hzero, -⟩ | hfront
        · omega
        · exact hfront
      refine ⟨call.ticket, call.c, h.num_lt _ _ hcall, hfront, fun t' call' hc heq => ?_⟩
      obtain ⟨-, -, -, -, hlt⟩ := hcalls _ _ hc
      exact hlt heq

end

section
variable {s : SharedFd θ} {t : θ} {call : SendCall}

/-- The end of a call in which nothing was taken in this turn. -/
theorem SharedFd.Ok.giveUp (h : s.Ok) (hcall : s.calls t = some call) :
    ({ s with cut := s.cut || decide (0 < call.c ∧ call.c < call.ticket.size),
              calls := Function.update s.calls t none } : SharedFd θ).Ok := by
  rcases Nat.eq_zero_or_pos call.c with hzero | hpos
  · have hstay : (s.cut || decide (0 < call.c ∧ call.c < call.ticket.size)) = s.cut := by
      simp [hzero]
    rw [hstay]
    exact h.close hcall fun _ => hzero
  · have hcut : (s.cut || decide (0 < call.c ∧ call.c < call.ticket.size)) = true := by
      simp [hpos, h.c_lt _ _ hcall]
    rw [hcut]
    exact h.lose hcall hpos nofun

/-- A turn in which the kernel takes nothing. -/
theorem SharedFd.Ok.turn_failed (h : s.Ok) (hcall : s.calls t = some call) (errno : ℕ) :
    (s.turn t call (.failed errno)).Ok := by
  have hc := h.c_lt _ _ hcall
  have htaken : (SendResult.failed errno).taken (call.ticket.size - call.c) = 0 := rfl
  rcases call.fn.turn_failed hc call.ticket.frame.lt errno with
    hturn | ⟨hpos, hturn⟩ | hturn | ⟨frame, hturn⟩
  · -- `EAGAIN` of `rep_send`: nothing changes.
    have hsame : Function.update s.calls t (some { call with c := call.c }) = s.calls := by
      rw [← hcall, Function.update_eq_self]
    rw [s.turn_again t hturn, htaken, piece_zero, List.append_nil, hsame]
    simpa using h
  · -- Any failure of `base_msg_send` in the middle of its frame.
    rw [s.turn_again t hturn, htaken, piece_zero, List.append_nil]
    have hcut : (s.cut || decide (call.c - 1 ≠ call.c + 0)) = true := by
      rw [decide_eq_true (by omega), Bool.or_true]
    rw [hcut]
    refine h.lose hcall hpos ?_
    rintro call' hnew
    cases hnew
    exact ⟨rfl, by simpa using hpos⟩
  · rw [s.turn_returns t hturn, htaken, piece_zero, List.append_nil, Nat.add_zero]
    exact h.giveUp hcall
  · rw [s.turn_sendsError t hturn, htaken, piece_zero, List.append_nil, Nat.add_zero]
    exact (h.giveUp hcall).begin (Function.update_self ..)

end

section
variable {s : SharedFd θ} {t : θ} {call : SendCall}

omit [DecidableEq θ] in
/-- A call that is alone starts its frame behind whole ones or goes on with the open one. -/
theorem SharedFd.Ok.place (h : s.Ok) (hcall : s.calls t = some call) (hcut : s.cut = false)
    (halone : ∀ t' call', t' ≠ t → s.calls t' = some call' → call'.c = 0) :
    call.c = 0 ∧ s.front = .boundary ∧ (∀ i, (call.ticket, i) ∉ s.stream) ∨
      s.front = .inside call.ticket call.c := by
  obtain ⟨hopen, hplace⟩ := h.whole hcut
  rcases hplace _ _ hcall with ⟨hzero, hunseen⟩ | hinside
  · left
    refine ⟨hzero, ?_, hunseen⟩
    rcases hopen with hboundary | ⟨t', call', hcall', hpos, -⟩
    · exact hboundary
    · by_cases ht : t' = t
      · rw [ht, hcall] at hcall'
        cases hcall'
        omega
      · have := halone _ _ ht hcall'
        omega
  · exact Or.inr hinside

omit [DecidableEq θ] in
/-- The frames of the others are still to be begun. -/
theorem SharedFd.Ok.unseen (h : s.Ok) (hcall : s.calls t = some call) (hcut : s.cut = false)
    (halone : ∀ t' call', t' ≠ t → s.calls t' = some call' → call'.c = 0) {t' : θ} {call' : SendCall}
    (ht : t' ≠ t) (hcall' : s.calls t' = some call') (i : ℕ) : (call'.ticket, i) ∉ s.stream := by
  rcases (h.whole hcut).2 _ _ hcall' with ⟨-, hunseen⟩ | hinside
  · exact hunseen i
  · rcases h.place hcall hcut halone with ⟨-, hboundary, -⟩ | hown
    · rw [hboundary] at hinside
      cases hinside
    · rw [hown] at hinside
      have hticket := (Front.inside.inj hinside).1
      exact absurd (h.ticket_inj _ _ _ _ hcall' hcall hticket.symm) ht

/-- The kernel takes `n` bytes of a call that is alone: the call goes on, or its frame is whole, or it
is cut. -/
theorem SharedFd.Ok.accept (h : s.Ok) (hcall : s.calls t = some call) (hcut : s.cut = false)
    (halone : ∀ t' call', t' ≠ t → s.calls t' = some call' → call'.c = 0) {n : ℕ} (hn : 0 < n)
    (hle : call.c + n ≤ call.ticket.size) {o : Option SendCall} {cut : Bool}
    (hend : (o = some { call with c := call.c + n } ∧ call.c + n < call.ticket.size ∧ cut = false) ∨
      (o = none ∧ call.c + n = call.ticket.size ∧ cut = false) ∨
      (o = none ∧ call.c + n < call.ticket.size ∧ cut = true)) :
    ({ s with stream := s.stream ++ piece call.ticket call.c n, cut := cut,
              calls := Function.update s.calls t o } : SharedFd θ).Ok := by
  have hplace := h.place hcall hcut halone
  have hfront : Blocks.front Ticket.size (s.stream ++ piece call.ticket call.c n) =
      after Ticket.size call.ticket (call.c + n) := by
    rcases hplace with ⟨hzero, hboundary, -⟩ | hinside
    · rw [hzero, Nat.zero_add] at hle ⊢
      exact front_append_boundary hboundary hn hle
    · exact front_append_inside hinside hn hle
  have hnew : ∀ i, call.c ≤ i → (call.ticket, i) ∉ s.stream := by
    intro i hi
    rcases hplace with ⟨-, -, hunseen⟩ | hinside
    · exact hunseen i
    · exact not_mem_of_inside Ticket.size_pos h.nodup hinside hi
  -- A call of the new state is the thread's own, or another one that has sent nothing.
  have hcalls : ∀ t' call', Function.update s.calls t o t' = some call' →
      t' = t ∧ call' = { call with c := call.c + n } ∧ call.c + n < call.ticket.size ∧ cut = false ∨
      t' ≠ t ∧ s.calls t' = some call' := by
    intro t' call' hcall'
    rcases update_eq_some.mp hcall' with ⟨ht, ho⟩ | hold
    · rcases hend with ⟨hsome, hlt, hfalse⟩ | ⟨hnone, -⟩ | ⟨hnone, -⟩
      · rw [hsome] at ho
        exact Or.inl ⟨ht, (Option.some.inj ho).symm, hlt, hfalse⟩
      · rw [hnone] at ho
        cases ho
      · rw [hnone] at ho
        cases ho
    · exact Or.inr hold
  constructor
  case num_lt =>
    intro t' call' hc
    rcases hcalls _ _ hc with ⟨-, rfl, -⟩ | ⟨-, hold⟩
    · exact h.num_lt t call hcall
    · exact h.num_lt _ _ hold
  case c_lt =>
    intro t' call' hc
    rcases hcalls _ _ hc with ⟨-, rfl, hlt, -⟩ | ⟨-, hold⟩
    · exact hlt
    · exact h.c_lt _ _ hold
  case ticket_inj =>
    intro t₁ t₂ call₁ call₂ h₁ h₂ heq
    rcases hcalls _ _ h₁ with ⟨rfl, rfl, -⟩ | ⟨-, hold₁⟩ <;>
      rcases hcalls _ _ h₂ with ⟨rfl, rfl, -⟩ | ⟨-, hold₂⟩
    · rfl
    · exact h.ticket_inj _ _ _ _ hcall hold₂ heq
    · exact h.ticket_inj _ _ _ _ hold₁ hcall heq
    · exact h.ticket_inj _ _ _ _ hold₁ hold₂ heq
  case stream_lt =>
    intro k i hmem
    rcases List.mem_append.mp hmem with hold | hpiece
    · exact h.stream_lt k i hold
    · rw [(mem_piece.mp hpiece).1]
      exact h.num_lt _ _ hcall
  case nodup =>
    refine List.nodup_append'.mpr ⟨h.nodup, nodup_piece _ _ _, ?_⟩
    rintro ⟨k, i⟩ hold hpiece
    obtain ⟨rfl, hi, -⟩ := mem_piece.mp hpiece
    exact hnew i hi hold
  case whole =>
    intro hfalse
    constructor
    · rcases hend with ⟨hsome, hlt, -⟩ | ⟨-, hall, -⟩ | ⟨-, -, htrue⟩
      · right
        refine ⟨t, _, update_eq_some.mpr (Or.inl ⟨rfl, hsome⟩), ?_, ?_⟩
        · exact Nat.add_pos_right _ hn
        · exact hfront.trans (if_neg hlt.ne)
      · exact Or.inl (hfront.trans (if_pos hall))
      · rw [htrue] at hfalse
        cases hfalse
    · intro t' call' hc
      rcases hcalls _ _ hc with ⟨-, rfl, hlt, -⟩ | ⟨ht, hold⟩
      · exact Or.inr (hfront.trans (if_neg hlt.ne))
      · refine Or.inl ⟨halone _ _ ht hold, fun i hmem => ?_⟩
        rcases List.mem_append.mp hmem with hseen | hpiece
        · exact h.unseen hcall hcut halone ht hold i hseen
        · exact ht (h.ticket_inj _ _ _ _ hold hcall (mem_piece.mp hpiece).1)
  case cut =>
    intro htrue
    rcases hend with ⟨-, -, hfalse⟩ | ⟨-, -, hfalse⟩ | ⟨hnone, hlt, -⟩
    · rw [hfalse] at htrue
      cases htrue
    · rw [hfalse] at htrue
      cases htrue
    · refine ⟨call.ticket, call.c + n, h.num_lt _ _ hcall, hfront.trans (if_neg hlt.ne), ?_⟩
      intro t' call' hc heq
      rcases hcalls _ _ hc with ⟨-, -, -, hfalse⟩ | ⟨ht, hold⟩
      · rw [hfalse] at htrue
        cases htrue
      · exact absurd (h.ticket_inj _ _ _ _ hold hcall heq) ht

/-- A turn of a call that is alone, in which the kernel takes bytes. -/
theorem SharedFd.Ok.turn_accepted (h : s.Ok) (hcall : s.calls t = some call) (hcut : s.cut = false)
    (halone : ∀ t' call', t' ≠ t → s.calls t' = some call' → call'.c = 0) (more : ℕ) :
    (s.turn t call (.accepted more)).Ok := by
  have hc := h.c_lt _ _ hcall
  obtain ⟨hn, hle⟩ := SendResult.taken_accepted hc more
  rcases call.fn.turn_accepted hc call.ticket.frame.lt more with ⟨hturn, hlt⟩ | hturn
  · rw [s.turn_again t hturn]
    refine h.accept hcall hcut halone hn hle (Or.inl ⟨rfl, hlt, ?_⟩)
    rw [hcut]
    simp
  · rw [s.turn_returns t hturn]
    refine h.accept hcall hcut halone hn hle (Or.inr ?_)
    rcases hle.eq_or_lt with hall | hlt
    · exact Or.inl ⟨rfl, hall, by rw [hcut]; simp [hall]⟩
    · exact Or.inr ⟨rfl, hlt, by rw [hcut, Bool.false_or]; exact decide_eq_true ⟨by omega, hlt⟩⟩

end

/-! ## Runs -/

/-- The bytes that the kernel took are whole frames, none of them twice, and then part of another
one. -/
def SharedFd.Untorn (s : SharedFd θ) : Prop := Blocks.Untorn Ticket.size s.stream

section
variable {s : SharedFd θ}

theorem map_byte_piece (k : Ticket) {j : ℕ} (hj : j ≤ k.size) :
    (piece k 0 j).map (fun x => (x.1.frame.bytes[x.2]?).getD 0) = k.frame.bytes.take j := by
  rw [Ticket.size] at hj
  refine List.ext_getElem (by simp [piece, hj]) fun i hi hi' => ?_
  have hlt : i < k.frame.bytes.length := by
    rw [List.length_take] at hi'
    omega
  simp [piece, hlt]

theorem map_byte_blocks (ks : List Ticket) :
    (ks.flatMap (block Ticket.size)).map (fun x => (x.1.frame.bytes[x.2]?).getD 0) =
      ks.flatMap fun k => k.frame.bytes := by
  rw [List.map_flatMap]
  refine List.flatMap_congr fun k _ => ?_
  rw [block, map_byte_piece k (le_refl _), Ticket.size, List.take_length]

omit [DecidableEq θ] in
/-- The same of the bytes themselves. -/
theorem SharedFd.Untorn.bytes (h : s.Untorn) : ∃ ks : List Ticket, ks.Nodup ∧
    (s.bytes = ks.flatMap (fun k => k.frame.bytes) ∨ ∃ k j, k ∉ ks ∧ 0 < j ∧ j < k.size ∧
      s.bytes = ks.flatMap (fun k => k.frame.bytes) ++ k.frame.bytes.take j) := by
  unfold SharedFd.bytes
  obtain ⟨ks, hks, hstream | ⟨k, j, hk, hj, hlt, hstream⟩⟩ := h
  · refine ⟨ks, hks, Or.inl ?_⟩
    rw [hstream, map_byte_blocks]
  · refine ⟨ks, hks, Or.inr ⟨k, j, hk, hj, hlt, ?_⟩⟩
    rw [hstream, List.map_append, map_byte_blocks, map_byte_piece k hlt.le]

omit [DecidableEq θ] in
theorem SharedFd.Ok.untorn (h : s.Ok) : s.Untorn := by
  refine (untorn_iff Ticket.size_pos).mpr ⟨?_, h.nodup⟩
  show s.front ≠ .torn
  cases hcut : s.cut with
  | true =>
    obtain ⟨k, j, -, hfront, -⟩ := h.cut hcut
    rw [hfront]
    exact nofun
  | false =>
    rcases (h.whole hcut).1 with hfront | ⟨t, call, -, -, hfront⟩ <;> rw [hfront] <;> exact nofun

/-- Every step keeps the invariant, but for one in which the kernel takes bytes of a call that is not
alone. -/
theorem SharedFd.Ok.step_keeps (h : s.Ok) {i : FdStep θ} (halone : Alone s i) : (fdStep s i).Ok := by
  cases i with
  | call t fn frame =>
    unfold fdStep
    dsimp only
    split_ifs with hidle
    · exact h.begin (Option.isNone_iff_eq_none.mp hidle)
    · exact h
  | send t r =>
    cases hcall : s.calls t with
    | none =>
      unfold fdStep
      dsimp only
      rwa [hcall]
    | some call =>
      rw [fdStep_send hcall]
      cases r with
      | failed errno => exact h.turn_failed hcall errno
      | accepted more =>
        obtain ⟨hcut, hothers⟩ := halone (by rw [hcall]; rfl)
        exact h.turn_accepted hcall hcut hothers more

/-- Bytes of a call that is not alone tear a frame. -/
theorem SharedFd.Ok.torn (h : s.Ok) {i : FdStep θ} (halone : ¬Alone s i) : ¬(fdStep s i).Untorn := by
  match i with
  | .call t fn frame => exact absurd trivial halone
  | .send t (.failed errno) => exact absurd trivial halone
  | .send t (.accepted more) =>
    unfold Alone at halone
    push Not at halone
    obtain ⟨hsome, hbusy⟩ := halone
    obtain ⟨call, hcall⟩ := Option.isSome_iff_exists.mp hsome
    have hc := h.c_lt _ _ hcall
    obtain ⟨hn, -⟩ := SendResult.taken_accepted hc more
    -- The end of the stream is an open frame, and the call is not in its place there.
    have hopen : ∃ k j, s.front = .inside k j ∧ (k = call.ticket → j ≠ call.c) := by
      cases hcut : s.cut with
      | true =>
        obtain ⟨k, j, -, hfront, hplace⟩ := h.cut hcut
        exact ⟨k, j, hfront, fun heq => (hplace _ _ hcall heq.symm).ne'⟩
      | false =>
        obtain ⟨t', call', ht, hcall', hpos⟩ := hbusy hcut
        rcases (h.whole hcut).2 _ _ hcall' with ⟨hzero, -⟩ | hfront
        · exact absurd hzero hpos
        · exact ⟨_, _, hfront, fun heq => absurd (h.ticket_inj _ _ _ _ hcall' hcall heq) ht⟩
    obtain ⟨k, j, hfront, hplace⟩ := hopen
    have htorn : Blocks.front Ticket.size (s.stream ++ piece call.ticket call.c
        ((SendResult.accepted more).taken (call.ticket.size - call.c))) = .torn := by
      refine front_append_torn ?_ ?_ hn
      · intro heq
        obtain ⟨hk, hj⟩ := Front.inside.inj (hfront.symm.trans heq)
        exact hplace hk hj
      · intro heq
        have := hfront.symm.trans heq
        cases this
    have hstream : (fdStep s (.send t (.accepted more))).stream = s.stream ++
        piece call.ticket call.c ((SendResult.accepted more).taken (call.ticket.size - call.c)) := by
      rw [fdStep_send hcall]
      rcases call.fn.turn_accepted hc call.ticket.frame.lt more with ⟨hturn, -⟩ | hturn
      · rw [s.turn_again t hturn]
      · rw [s.turn_returns t hturn]
    unfold SharedFd.Untorn
    rw [hstream, untorn_iff Ticket.size_pos]
    exact fun hun => hun.1 htorn

end

/-- Over every run of any number of threads, no frame is torn if and only if the kernel takes bytes
only of calls that are alone. -/
theorem untorn_iff_alone (is : List (FdStep θ)) :
    Always fdStep SharedFd.Untorn (SharedFd.start θ) is ↔
      EachStep fdStep Alone (SharedFd.start θ) is :=
  always_iff_eachStep (L := fun _ _ => True) (I := SharedFd.Ok) (fun _ h => h.untorn)
    (fun _ _ h _ halone => h.step_keeps halone) (fun _ _ h _ halone => h.torn halone)
    SharedFd.start_ok (eachStep_of_forall (fun _ _ => trivial) _ is)

/-- A reply of `tcp_reply_mini`. -/
def replyFrame (id reply : ℕ) : OutFrame where
  bytes := miniFrame id reply
  pos := by simp [miniFrame]
  lt := by simp [miniFrame]

/-- Two threads reply on one connection, and the kernel takes the second reply between the first byte
of the first one and the others. -/
def twoReplies : List (FdStep Bool) :=
  [.call false (.repSend 1) (replyFrame 1 repErrBusy), .call true (.repSend 2) (replyFrame 2 repOk),
    .send false (.accepted 0), .send true (.accepted 11), .send false (.accepted 11)]

/-- One thread pushes a frame, and the kernel is full after its first byte. -/
def fullOnce : List (FdStep Unit) :=
  [.call () .baseMsgSend (replyFrame 0 10000), .send () (.accepted 0), .send () (.failed eagain),
    .send () (.accepted 11)]

/-- The two replies are torn, and their bytes are no replies; one push alone is torn as well. -/
theorem not_untorn_twoReplies :
    ¬Always fdStep SharedFd.Untorn (SharedFd.start Bool) twoReplies ∧
    (∀ (frames : List OutFrame) (last : OutFrame) (j : ℕ),
      (∀ frame ∈ last :: frames, frame = replyFrame 1 repErrBusy ∨ frame = replyFrame 2 repOk) →
      (twoReplies.foldl fdStep (SharedFd.start Bool)).bytes ≠
        frames.flatMap OutFrame.bytes ++ last.bytes.take j) ∧
    ¬Always fdStep SharedFd.Untorn (SharedFd.start Unit) fullOnce := by
  refine ⟨fun h => ?_, ?_, fun h => ?_⟩
  · exact ((untorn_iff Ticket.size_pos).mp h.2.2.2.2.2).1 (by decide)
  · intro frames last j hframes heq
    have hlast : last.bytes.length = 12 := by
      rcases hframes last List.mem_cons_self with rfl | rfl <;> rfl
    have hbytes : (twoReplies.foldl fdStep (SharedFd.start Bool)).bytes =
        [0, 0, 0, 0, 12, 2, 0, 0, 0, 0, 0, 3, 232, 0, 0, 12, 1, 0, 0, 0, 0, 0, 0, 21] := by
      decide
    rw [hbytes] at heq
    match frames with
    | [] =>
      have hlen := congrArg List.length heq
      simp [hlast] at hlen
      omega
    | first :: frames =>
      -- Both replies start with their length, and the stream starts with four zeros.
      have hfirst : first.bytes.take 4 = [0, 0, 0, 12] := by
        rcases hframes first (by simp) with rfl | rfl <;> rfl
      have hlen : first.bytes.length = 12 := by
        rcases hframes first (by simp) with rfl | rfl <;> rfl
      have hfour := congrArg (List.take 4) heq
      rw [List.flatMap_cons, List.append_assoc, List.take_append_of_le_length (by omega), hfirst]
        at hfour
      exact absurd hfour (by decide)
  · exact ((untorn_iff Ticket.size_pos).mp h.2.2.2.2).1 (by decide)

end Moc
