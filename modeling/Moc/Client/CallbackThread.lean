import Moc.Client.Callbacks
import Moc.Client.Message
import Moc.Lib.Handoff

/-!
# The callback thread

`callback_routine` of `client/mcbk.c` against the event loop, which queues what the servers push, and
against `_moc_destroy`, which ends the two threads one after the other. The event loop is the giver
and the callback thread the taker of a `Handoff`; its passes through `select` queue whatever they
receive. `callbacks_exact` says that the callbacks are called for the entries queued, once each and in
their order, which of them are left when the threads have ended, and that they do end.
-/

open Runs Handoff

namespace Moc

variable {HDF : Type}

/-- The deadline of `callback_routine`. -/
def callbackDeadline (ts : Timespec) : Timespec :=
  if ts.tvNsec ≥ 900000000 then
    ⟨ts.tvSec + 1, |ts.tvNsec + 100000000 - 1000000000|⟩
  else { ts with tvNsec := ts.tvNsec + 100000000 }

/-- How far `el_routine` is: before `select`, in a pass that has entries left to queue, or behind the
loop. -/
inductive EventLoop (HDF : Type) where
  | select
  | pass (left : List (MsqueueEntry HDF))
  | ended

/-- How far `_moc_destroy` is. -/
inductive Destroying where
  | running
  /-- in `eloop_stop`, before the join -/
  | eloopStop
  /-- before `mcbk_stop` -/
  | eloopJoined
  /-- in `mcbk_stop`, before the join -/
  | mcbkStop
  | mcbkJoined
  deriving DecidableEq

/-- The three threads. `elStop` is the `m_stop` of `eloop.c`, and that of `mcbk.c` is in `handoff`;
`selected` has what the passes had to queue so far. -/
structure ClientThreads (HDF : Type) where
  handoff : State (MsqueueEntry HDF)
  eventLoop : EventLoop HDF
  elStop : Bool
  deadline : Timespec
  main : Destroying
  selected : List (MsqueueEntry HDF)

/-- The threads were just started. -/
def ClientThreads.start : ClientThreads HDF := ⟨.start, .select, false, ⟨0, 0⟩, .running, []⟩

/-- A step of one of the threads, or of the wait. -/
inductive ClientAct (HDF : Type) where
  /-- `select` returns, and what it has brings these entries. -/
  | select (es : List (MsqueueEntry HDF))
  | eventLoop
  | callback (now : ClockTime)
  | wake (rv : WaitRv)
  | main

/-- The next step of a pass. -/
def passStep (s : ClientThreads HDF) (left : List (MsqueueEntry HDF)) : ClientThreads HDF :=
  match s.handoff.giver, left with
  | .idle, [] => { s with eventLoop := if s.elStop then .ended else .select }
  | .idle, e :: left =>
    if s.handoff.lock = none then
      { s with handoff := s.handoff.next (.lock e), eventLoop := .pass left }
    else s
  | .locked _, _ => { s with handoff := s.handoff.next (.put false) }
  | .queued, _ => { s with handoff := s.handoff.next .unlock }
  | .unlocked, _ => { s with handoff := s.handoff.next .signal }

/-- The next step of `_moc_destroy`. -/
def destroyStep (s : ClientThreads HDF) : ClientThreads HDF :=
  match s.main with
  | .running => { s with elStop := true, main := .eloopStop }
  | .eloopStop =>
    match s.eventLoop with
    | .ended => { s with main := .eloopJoined }
    | _ => s
  | .eloopJoined => { s with handoff := s.handoff.next .stop, main := .mcbkStop }
  | .mcbkStop =>
    match s.handoff.taker with
    | .ended => { s with main := .mcbkJoined }
    | _ => s
  | .mcbkJoined => s

/-- One step. The callback thread reads the clock before it locks, and `pthread_cond_timedwait` does
not fail with a valid deadline. -/
def ClientThreads.next (s : ClientThreads HDF) : ClientAct HDF → ClientThreads HDF
  | .select es =>
    match s.eventLoop with
    | .select => { s with eventLoop := .pass es, selected := s.selected ++ es }
    | _ => s
  | .eventLoop =>
    match s.eventLoop with
    | .pass left => passStep s left
    | _ => s
  | .callback now =>
    { s with
      handoff := s.handoff.next .take
      deadline := match s.handoff.taker with
        | .top => callbackDeadline now
        | _ => s.deadline }
  | .wake rv =>
    if rv = .failed ∧ s.deadline.Valid then s else { s with handoff := s.handoff.next (.wake rv) }
  | .main => destroyStep s

/-- `mcbk_find` and the call, for the entries handled. -/
def callsOf (cbkh : Cbkh) (es : List (MsqueueEntry HDF)) : List (ℕ × HDF) :=
  es.filterMap fun e =>
    (mcbkFind cbkh (cString e.ename) (cString e.cmd)).map fun c => (c.callback, e.hdfrcv)

/-- What a pass has left to queue. -/
def EventLoop.left : EventLoop HDF → List (MsqueueEntry HDF)
  | .pass left => left
  | _ => []

/-- The deadline is a tenth of a second from now. -/
theorem callbackDeadline_nsec (now : ClockTime) :
    (callbackDeadline now).tvSec * 1000000000 + (callbackDeadline now).tvNsec =
      now.1.tvSec * 1000000000 + now.1.tvNsec + 100000000 := by
  obtain ⟨⟨sec, nsec⟩, hvalid⟩ := now
  simp only [Timespec.Valid] at hvalid
  simp only [callbackDeadline]
  split_ifs with h
  · have habs : |nsec + 100000000 - 1000000000| = nsec + 100000000 - 1000000000 :=
      abs_of_nonneg (by omega)
    simp only [habs]
    omega
  · simp only
    omega

theorem callbackDeadline_valid (now : ClockTime) : (callbackDeadline now).Valid := by
  obtain ⟨⟨sec, nsec⟩, hvalid⟩ := now
  simp only [Timespec.Valid] at hvalid
  simp only [callbackDeadline]
  split_ifs with h
  · have habs : |nsec + 100000000 - 1000000000| = nsec + 100000000 - 1000000000 :=
      abs_of_nonneg (by omega)
    simp only [Timespec.Valid, habs]
    omega
  · simp only [Timespec.Valid]
    omega

/-! ## The steps of the handoff -/

/-- The step of the handoff in a step of a pass. -/
def passAct (s : ClientThreads HDF) (left : List (MsqueueEntry HDF)) : Option (Act (MsqueueEntry HDF)) :=
  match s.handoff.giver, left with
  | .idle, [] => none
  | .idle, e :: _ => if s.handoff.lock = none then some (.lock e) else none
  | .locked _, _ => some (.put false)
  | .queued, _ => some .unlock
  | .unlocked, _ => some .signal

/-- The step of the handoff in a step of the threads. -/
def ClientThreads.act (s : ClientThreads HDF) : ClientAct HDF → Option (Act (MsqueueEntry HDF))
  | .select _ => none
  | .eventLoop =>
    match s.eventLoop with
    | .pass left => passAct s left
    | _ => none
  | .callback _ => some .take
  | .wake rv => if rv = .failed ∧ s.deadline.Valid then none else some (.wake rv)
  | .main =>
    match s.main with
    | .eloopJoined => some .stop
    | _ => none

theorem passStep_handoff (s : ClientThreads HDF) (left : List (MsqueueEntry HDF)) :
    (passStep s left).handoff = (passAct s left).elim s.handoff s.handoff.next := by
  unfold passStep passAct
  split <;> (try split_ifs) <;> rfl

theorem ClientThreads.next_handoff (s : ClientThreads HDF) (a : ClientAct HDF) :
    (s.next a).handoff = (s.act a).elim s.handoff s.handoff.next := by
  cases a with
  | select es =>
    simp only [next, act]
    split <;> rfl
  | eventLoop =>
    simp only [next, act]
    split
    · exact passStep_handoff s _
    · rfl
  | callback now => rfl
  | wake rv =>
    simp only [next, act]
    split_ifs <;> rfl
  | main =>
    simp only [next, act, destroyStep]
    cases s.main with
    | running => rfl
    | eloopStop => cases s.eventLoop <;> rfl
    | eloopJoined => rfl
    | mcbkStop => cases s.handoff.taker <;> rfl
    | mcbkJoined => rfl

/-- A pass queues at the end, and does nothing else that a flag or a wait would mind. -/
theorem passAct_sound {s : ClientThreads HDF} {left : List (MsqueueEntry HDF)}
    {b : Act (MsqueueEntry HDF)} (hact : passAct s left = some b) (t : State (MsqueueEntry HDF)) :
    AtEnd b ∧ NotFailed t b ∧ InTime t b := by
  unfold passAct at hact
  split at hact
  · simp at hact
  · split_ifs at hact
    obtain rfl := Option.some.inj hact
    exact ⟨trivial, trivial, trivial⟩
  · obtain rfl := Option.some.inj hact
    exact ⟨rfl, trivial, trivial⟩
  · obtain rfl := Option.some.inj hact
    exact ⟨trivial, trivial, trivial⟩
  · obtain rfl := Option.some.inj hact
    exact ⟨trivial, trivial, trivial⟩

/-- The passes queue at the end, and no wait fails. -/
theorem ClientThreads.act_sound {s : ClientThreads HDF} (h : s.deadline.Valid) {a : ClientAct HDF}
    {b : Act (MsqueueEntry HDF)} (hact : s.act a = some b) : AtEnd b ∧ NotFailed s.handoff b := by
  cases a with
  | select es => simp [act] at hact
  | eventLoop =>
    simp only [act] at hact
    split at hact
    · obtain ⟨hend, hfail, -⟩ := passAct_sound hact s.handoff
      exact ⟨hend, hfail⟩
    · simp at hact
  | callback now =>
    obtain rfl := Option.some.inj hact
    exact ⟨trivial, trivial⟩
  | wake rv =>
    simp only [act, h, and_true] at hact
    split_ifs at hact with hfailed
    obtain rfl := Option.some.inj hact
    cases rv with
    | failed => exact absurd rfl hfailed
    | ok => exact ⟨trivial, trivial⟩
    | timedOut => exact ⟨trivial, trivial⟩
  | main =>
    simp only [act] at hact
    split at hact
    · obtain rfl := Option.some.inj hact
      exact ⟨trivial, trivial⟩
    · simp at hact

/-! ## The invariant -/

/-- `eloop_stop` has returned. -/
def Destroying.eloopDone : Destroying → Bool
  | .eloopJoined | .mcbkStop | .mcbkJoined => true
  | _ => false

/-- `mcbk_stop` has set its flag. -/
def Destroying.flagged : Destroying → Bool
  | .mcbkStop | .mcbkJoined => true
  | _ => false

/-- The event loop is in a pass. -/
def EventLoop.inPass : EventLoop HDF → Bool
  | .pass _ => true
  | _ => false

/-- The invariant of every run. -/
structure ClientThreads.Ok (s : ClientThreads HDF) : Prop where
  handoff : s.handoff.Ok
  unbroken : ¬s.handoff.Broken
  fifo : s.handoff.all = s.handoff.given
  deadline : s.deadline.Valid
  selected : s.handoff.given ++ s.handoff.giver.inHand ++ s.eventLoop.left = s.selected
  idle : s.eventLoop.inPass = false → s.handoff.giver = .idle
  flag : s.main ≠ .running → s.elStop = true
  joined : s.main.eloopDone = true → s.eventLoop = .ended
  stop : s.handoff.stop = s.main.flagged
  finished : s.main = .mcbkJoined → s.handoff.taker = .ended

theorem ClientThreads.start_ok : (ClientThreads.start : ClientThreads HDF).Ok where
  handoff := State.start_ok
  unbroken := by simp [start, State.Broken, State.start]
  fifo := rfl
  deadline := by simp [start, Timespec.Valid]
  selected := rfl
  idle _ := rfl
  flag := by simp [start]
  joined := by simp [start, Destroying.eloopDone]
  stop := rfl
  finished := by simp [start]

section
variable {s : ClientThreads HDF}

/-- What a step keeps of the handoff. -/
theorem ClientThreads.Ok.handoff_keeps (h : s.Ok) (a : ClientAct HDF) :
    (s.next a).handoff.Ok ∧ ¬(s.next a).handoff.Broken ∧
      (s.next a).handoff.all = (s.next a).handoff.given := by
  rw [s.next_handoff]
  cases hact : s.act a with
  | none => exact ⟨h.handoff, h.unbroken, h.fifo⟩
  | some b =>
    obtain ⟨hend, hfail⟩ := act_sound h.deadline hact
    refine ⟨h.handoff.next b, ?_, next_fifo h.fifo hend⟩
    show ¬(s.handoff.next b).Broken
    rw [h.handoff.next_broken]
    simp [h.unbroken, hfail]

/-- A pass only goes on while the event loop is not joined. -/
theorem ClientThreads.Ok.not_joined (h : s.Ok) {left : List (MsqueueEntry HDF)}
    (hpass : s.eventLoop = .pass left) : s.main.eloopDone = false ∧ s.handoff.stop = false := by
  have hdone : s.main.eloopDone = false := by
    by_contra hdone
    simpa [hpass] using h.joined (by simpa using hdone)
  refine ⟨hdone, ?_⟩
  rw [h.stop]
  cases hmain : s.main <;> simp [hmain, Destroying.eloopDone, Destroying.flagged] at hdone ⊢

/-- A step of the handoff in a pass, and what the pass has left. -/
theorem ClientThreads.Ok.pass_keeps (h : s.Ok) {left : List (MsqueueEntry HDF)}
    (hpass : s.eventLoop = .pass left) : (passStep s left).Ok := by
  have hnext : s.next .eventLoop = passStep s left := by simp [ClientThreads.next, hpass]
  obtain ⟨hok, hunbroken, hfifo⟩ := h.handoff_keeps .eventLoop
  rw [hnext] at hok hunbroken hfifo
  obtain ⟨hdone, hstop⟩ := h.not_joined hpass
  obtain ⟨⟨giver, taker, lock, queue, stop, given, done⟩, eventLoop, elStop, deadline, main, sel⟩ := s
  obtain rfl : eventLoop = .pass left := hpass
  obtain rfl : stop = false := hstop
  have hsel := h.selected
  cases giver with
  | idle =>
    cases left with
    | nil =>
      refine { h with
        handoff := hok, unbroken := hunbroken, fifo := hfifo, selected := ?_, idle := fun _ => rfl
        joined := fun hjoined => absurd (hdone.symm.trans hjoined) (by simp) }
      cases elStop <;> exact hsel
    | cons e left =>
      cases lock with
      | some holder => exact h
      | none =>
        exact { h with
          handoff := hok, unbroken := hunbroken, fifo := hfifo
          selected := by simpa [passStep, State.next, Giver.inHand, EventLoop.left] using hsel
          idle := by simp [passStep, EventLoop.inPass]
          joined := fun hjoined => absurd (hdone.symm.trans hjoined) (by simp)
          stop := by simpa [passStep, State.next] using h.stop
          finished := by simpa [passStep, State.next] using h.finished }
  | locked e =>
    exact { h with
      handoff := hok, unbroken := hunbroken, fifo := hfifo
      selected := by simpa [passStep, State.next, Giver.inHand, EventLoop.left] using hsel
      idle := by simp [passStep, EventLoop.inPass] }
  | queued =>
    exact { h with
      handoff := hok, unbroken := hunbroken, fifo := hfifo
      selected := hsel
      idle := by simp [passStep, EventLoop.inPass] }
  | unlocked =>
    exact { h with
      handoff := hok, unbroken := hunbroken, fifo := hfifo
      selected := hsel
      idle := by simp [passStep, EventLoop.inPass]
      finished := fun hmain => by
        obtain rfl : main = .mcbkJoined := hmain
        simp [Destroying.eloopDone] at hdone }

/-- What the callback thread and its waits keep. -/
theorem ClientThreads.Ok.withTaker (h : s.Ok) {t : State (MsqueueEntry HDF)} {ts : Timespec}
    (hok : t.Ok) (hunbroken : ¬t.Broken) (hfifo : t.all = t.given) (hts : ts.Valid)
    (hgiver : t.giver = s.handoff.giver) (hgiven : t.given = s.handoff.given)
    (hstop : t.stop = s.handoff.stop)
    (hended : s.handoff.taker = .ended → t.taker = .ended) :
    ClientThreads.Ok { s with handoff := t, deadline := ts } where
  handoff := hok
  unbroken := hunbroken
  fifo := hfifo
  deadline := hts
  selected := by rw [← h.selected, hgiver, hgiven]
  idle hpass := hgiver.trans (h.idle hpass)
  flag := h.flag
  joined := h.joined
  stop := hstop.trans h.stop
  finished hmain := hended (h.finished hmain)

theorem ClientThreads.Ok.destroy_keeps (h : s.Ok) : (destroyStep s).Ok := by
  obtain ⟨hok, hunbroken, hfifo⟩ := h.handoff_keeps .main
  have hnext : s.next .main = destroyStep s := rfl
  rw [hnext] at hok hunbroken hfifo
  obtain ⟨handoff, eventLoop, elStop, deadline, main, sel⟩ := s
  cases main with
  | running =>
    exact { h with
      flag := fun _ => rfl
      joined := by simp [destroyStep, Destroying.eloopDone]
      stop := h.stop
      finished := by simp [destroyStep] }
  | eloopStop =>
    cases eventLoop with
    | select => exact h
    | pass left => exact h
    | ended =>
      exact { h with
        flag := fun _ => h.flag (by simp)
        joined := fun _ => rfl
        stop := h.stop
        finished := by simp [destroyStep] }
  | eloopJoined =>
    obtain rfl : eventLoop = .ended := h.joined rfl
    obtain ⟨giver, taker, lock, queue, stop, given, done⟩ := handoff
    obtain rfl : giver = .idle := h.idle rfl
    exact { h with
      handoff := hok
      unbroken := hunbroken
      fifo := hfifo
      flag := fun _ => h.flag (by simp)
      joined := fun _ => rfl
      stop := rfl
      finished := by simp [destroyStep] }
  | mcbkStop =>
    cases htaker : handoff.taker with
    | ended =>
      have hstep : destroyStep ⟨handoff, eventLoop, elStop, deadline, .mcbkStop, sel⟩ =
          ⟨handoff, eventLoop, elStop, deadline, .mcbkJoined, sel⟩ := by simp [destroyStep, htaker]
      rw [hstep]
      exact { h with
        flag := fun _ => h.flag (by simp)
        joined := fun _ => h.joined rfl
        stop := h.stop
        finished := fun _ => htaker }
    | top => simpa [destroyStep, htaker] using h
    | locked rv => simpa [destroyStep, htaker] using h
    | waiting => simpa [destroyStep, htaker] using h
    | awake rv => simpa [destroyStep, htaker] using h
    | taken q => simpa [destroyStep, htaker] using h
    | got q => simpa [destroyStep, htaker] using h
    | handling q => simpa [destroyStep, htaker] using h
    | handled q => simpa [destroyStep, htaker] using h
  | mcbkJoined => exact h

theorem ClientThreads.Ok.next (h : s.Ok) (a : ClientAct HDF) : (s.next a).Ok := by
  obtain ⟨hok, hunbroken, hfifo⟩ := h.handoff_keeps a
  cases a with
  | select es =>
    simp only [ClientThreads.next]
    split
    · rename_i hselect
      have hidle := h.idle (by simp [hselect, EventLoop.inPass])
      have hsel := h.selected
      exact { h with
        selected := by simpa [hselect, hidle, Giver.inHand, EventLoop.left] using hsel
        idle := by simp [EventLoop.inPass]
        joined := fun hjoined => by simpa [hselect] using h.joined hjoined }
    · exact h
  | eventLoop =>
    simp only [ClientThreads.next]
    split
    · rename_i left hpass
      exact h.pass_keeps hpass
    · exact h
  | callback now =>
    have hts : (match s.handoff.taker with
        | .top => callbackDeadline now
        | _ => s.deadline : Timespec).Valid := by
      split
      · exact callbackDeadline_valid now
      · exact h.deadline
    exact h.withTaker hok hunbroken hfifo hts (takerStep_giver _) (takerStep_given _)
      (takerStep_stop _) fun hended => (congrArg _ (takerStep_ended hended)).trans hended
  | wake rv =>
    simp only [ClientThreads.next] at hok hunbroken hfifo ⊢
    split_ifs at hok hunbroken hfifo ⊢ with hfailed
    · exact h
    · exact h.withTaker hok hunbroken hfifo h.deadline rfl rfl rfl fun hended => by
        simp [State.next, hended, Taker.wake]
  | main => exact h.destroy_keeps

end

theorem ClientThreads.runs_ok (acts : List (ClientAct HDF)) :
    (acts.foldl ClientThreads.next ClientThreads.start).Ok :=
  foldl_keeps (fun _ a h => h.next a) ClientThreads.start_ok acts

/-! ## The way to the end -/

/-- `_moc_destroy` can return. -/
def ClientThreads.CanEnd (s : ClientThreads HDF) : Prop :=
  ∃ more : List (ClientAct HDF), (more.foldl ClientThreads.next s).main = .mcbkJoined

theorem ClientThreads.canEnd_of_next {s : ClientThreads HDF} (a : ClientAct HDF)
    (h : (s.next a).CanEnd) : s.CanEnd := by
  obtain ⟨more, hmore⟩ := h
  exact ⟨a :: more, hmore⟩

/-- The next step of the callback thread towards its end. -/
def ClientThreads.towardsEnd (s : ClientThreads HDF) : ClientAct HDF :=
  if s.handoff.taker.isWaiting then .wake .timedOut else .callback someTime

theorem ClientThreads.towardsEnd_handoff (s : ClientThreads HDF) :
    (s.next s.towardsEnd).handoff = s.handoff.next s.handoff.towardsEnd ∧
      (s.next s.towardsEnd).main = s.main := by
  unfold towardsEnd State.towardsEnd
  split_ifs
  · exact ⟨by simp [next], by simp [next]⟩
  · exact ⟨rfl, rfl⟩

/-- How many steps the taker holds the lock for. -/
def lockRank {ρ : Type} : Taker ρ → ℕ
  | .locked _ => 2
  | .taken _ => 1
  | _ => 0

/-- How many steps the giver is from the next entry. -/
def giverRank {ρ : Type} : Giver ρ → ℕ
  | .idle => 1
  | .unlocked => 2
  | .queued => 3
  | .locked _ => 4

/-- How many steps a pass is from its end. -/
def EventLoop.rank (giver : ℕ) : EventLoop HDF → ℕ
  | .ended => 0
  | .select => 2
  | .pass left => 5 * left.length + giver

/-- How far the event loop is from its end, when the callback thread gives the lock free. -/
def ClientThreads.loopRank (s : ClientThreads HDF) : ℕ :=
  3 * s.eventLoop.rank (giverRank s.handoff.giver) + lockRank s.handoff.taker

/-- The next step of the event loop towards its end, or of the callback thread that holds the lock. -/
def ClientThreads.towardsLoopEnd (s : ClientThreads HDF) : ClientAct HDF :=
  match s.eventLoop, s.handoff.lock with
  | .select, _ => .select []
  | _, some .taker => .callback someTime
  | _, _ => .eventLoop

section
variable {s : ClientThreads HDF}

theorem ClientThreads.Ok.canEnd_mcbkStop (h : s.Ok) (hmain : s.main = .mcbkStop) : s.CanEnd := by
  induction hn : s.handoff.rank using Nat.strong_induction_on generalizing s with
  | _ n ih =>
    by_cases hended : s.handoff.taker = .ended
    · refine canEnd_of_next .main ⟨[], ?_⟩
      simp [ClientThreads.next, destroyStep, hmain, hended]
    · have hstop : s.handoff.stop = true := by simp [h.stop, hmain, Destroying.flagged]
      have hgiver : s.handoff.giver.holds = false := by
        simp [h.handoff.stopped hstop, Giver.holds]
      have hlt := h.handoff.rank_lt h.unbroken hgiver hstop hended
      obtain ⟨hhandoff, hsame⟩ := s.towardsEnd_handoff
      rw [← hhandoff, hn] at hlt
      exact canEnd_of_next s.towardsEnd (ih _ hlt (h.next _) (hsame.trans hmain) rfl)

theorem ClientThreads.Ok.canEnd_eloopJoined (h : s.Ok) (hmain : s.main = .eloopJoined) : s.CanEnd :=
  canEnd_of_next .main ((h.next .main).canEnd_mcbkStop (by simp [ClientThreads.next, destroyStep, hmain]))

/-- The callback thread gives the lock free. -/
theorem lockRank_takerStep {ρ : Type} {t : State ρ} (h : t.Ok) (hunbroken : ¬t.Broken)
    (hlock : t.lock = some .taker) : lockRank (takerStep t).taker < lockRank t.taker := by
  have hholds : t.taker.holds = true := (h.locked_taker hlock).resolve_right hunbroken
  obtain ⟨giver, taker, lock, queue, stop, given, done⟩ := t
  cases taker with
  | locked rv =>
    cases rv with
    | failed => exact absurd (Or.inr (Or.inl rfl)) hunbroken
    | ok => cases queue <;> simp [takerStep, lockRank]
    | timedOut => simp [takerStep, lockRank]
  | taken q => simp [takerStep, lockRank]
  | top => simp [Taker.holds] at hholds
  | waiting => simp [Taker.holds] at hholds
  | awake rv => simp [Taker.holds] at hholds
  | got q => simp [Taker.holds] at hholds
  | handling q => simp [Taker.holds] at hholds
  | handled q => simp [Taker.holds] at hholds
  | ended => simp [Taker.holds] at hholds

@[simp] theorem lockRank_wake {ρ : Type} (t : Taker ρ) (rv : WaitRv) :
    lockRank (t.wake rv) = lockRank t := by
  cases t <;> rfl

/-- A pass that does not wait for the lock comes nearer to its end. -/
theorem ClientThreads.Ok.loopRank_passStep (h : s.Ok) (hstop : s.handoff.stop = false)
    (hflag : s.elStop = true) {left : List (MsqueueEntry HDF)} (hpass : s.eventLoop = .pass left)
    (hlock : s.handoff.lock ≠ some .taker) : (passStep s left).loopRank < s.loopRank := by
  have hok := h.handoff
  obtain ⟨⟨giver, taker, lock, queue, stop, given, done⟩, eventLoop, elStop, deadline, main, sel⟩ := s
  obtain rfl : eventLoop = .pass left := hpass
  obtain rfl : elStop = true := hflag
  obtain rfl : stop = false := hstop
  cases giver with
  | idle =>
    obtain rfl : lock = none := hok.lock_free h.unbroken rfl (hok.taker_out hlock)
    cases left with
    | nil => simp [passStep, loopRank, EventLoop.rank, giverRank]
    | cons e left =>
      simp only [passStep, State.next, loopRank, EventLoop.rank, giverRank, if_true, and_self,
        List.length_cons]
      omega
  | locked e => simp [passStep, State.next, loopRank, EventLoop.rank, giverRank]
  | queued => simp [passStep, State.next, loopRank, EventLoop.rank, giverRank]
  | unlocked => simp [passStep, State.next, loopRank, EventLoop.rank, giverRank]

theorem passStep_main (s : ClientThreads HDF) (left : List (MsqueueEntry HDF)) :
    (passStep s left).main = s.main := by
  unfold passStep
  split <;> (try split_ifs) <;> rfl

theorem ClientThreads.Ok.loopRank_lt (h : s.Ok) (hmain : s.main = .eloopStop)
    (hended : s.eventLoop ≠ .ended) :
    (s.next s.towardsLoopEnd).loopRank < s.loopRank ∧ (s.next s.towardsLoopEnd).main = .eloopStop := by
  have hflag : s.elStop = true := h.flag (by simp [hmain])
  cases hloop : s.eventLoop with
  | ended => exact absurd hloop hended
  | select =>
    have hidle := h.idle (by simp [hloop, EventLoop.inPass])
    exact ⟨by simp [towardsLoopEnd, ClientThreads.next, loopRank, EventLoop.rank, hloop, hidle,
      giverRank], by simp [towardsLoopEnd, ClientThreads.next, hloop, hmain]⟩
  | pass left =>
    by_cases hlock : s.handoff.lock = some .taker
    · have hstep : s.towardsLoopEnd = .callback someTime := by simp [towardsLoopEnd, hloop, hlock]
      have hfree := lockRank_takerStep h.handoff h.unbroken hlock
      rw [hstep]
      refine ⟨?_, hmain⟩
      show 3 * s.eventLoop.rank (giverRank (takerStep s.handoff).giver) +
        lockRank (takerStep s.handoff).taker < s.loopRank
      rw [takerStep_giver]
      exact Nat.add_lt_add_left hfree _
    · have hstep : s.next s.towardsLoopEnd = passStep s left := by
        cases hheld : s.handoff.lock with
        | none => simp [towardsLoopEnd, ClientThreads.next, hloop, hheld]
        | some holder =>
          cases holder with
          | giver => simp [towardsLoopEnd, ClientThreads.next, hloop, hheld]
          | taker => exact absurd hheld hlock
      rw [hstep]
      exact ⟨h.loopRank_passStep (h.not_joined hloop).2 hflag hloop hlock,
        (passStep_main s left).trans hmain⟩

theorem ClientThreads.Ok.canEnd_eloopStop (h : s.Ok) (hmain : s.main = .eloopStop) : s.CanEnd := by
  induction hn : s.loopRank using Nat.strong_induction_on generalizing s with
  | _ n ih =>
    by_cases hended : s.eventLoop = .ended
    · refine canEnd_of_next .main ((h.next .main).canEnd_eloopJoined ?_)
      simp [ClientThreads.next, destroyStep, hmain, hended]
    · obtain ⟨hlt, hsame⟩ := h.loopRank_lt hmain hended
      exact canEnd_of_next s.towardsLoopEnd (ih _ (hn ▸ hlt) (h.next _) hsame rfl)

/-- Whatever the threads have done, they can end. -/
theorem ClientThreads.Ok.canEnd (h : s.Ok) : s.CanEnd := by
  cases hmain : s.main with
  | running =>
    refine canEnd_of_next .main ((h.next .main).canEnd_eloopStop ?_)
    simp [ClientThreads.next, destroyStep, hmain]
  | eloopStop => exact h.canEnd_eloopStop hmain
  | eloopJoined => exact h.canEnd_eloopJoined hmain
  | mcbkStop => exact h.canEnd_mcbkStop hmain
  | mcbkJoined => exact ⟨[], hmain⟩

end

/-! ## What is called -/

/-- `mcbk_stop` sets its flag when the callback thread will come back to what waits. -/
def NothingMissed (s : ClientThreads HDF) : ClientAct HDF → Prop
  | .main => s.main = .eloopJoined → s.handoff.taker.leaves = true → s.handoff.queue = []
  | _ => True

instance (s : ClientThreads HDF) : DecidablePred (NothingMissed s)
  | .main => inferInstanceAs (Decidable (_ → _ → _))
  | .select _ => .isTrue trivial
  | .eventLoop => .isTrue trivial
  | .callback _ => .isTrue trivial
  | .wake _ => .isTrue trivial

/-- The flag is the only step of the threads that may come too late. -/
theorem ClientThreads.Ok.inTime_iff {s : ClientThreads HDF} (h : s.Ok) {a : ClientAct HDF}
    {b : Act (MsqueueEntry HDF)} (hact : s.act a = some b) :
    InTime s.handoff b ↔ NothingMissed s a := by
  cases a with
  | select es => simp [act] at hact
  | eventLoop =>
    refine iff_of_true ?_ trivial
    simp only [act] at hact
    split at hact
    · exact (passAct_sound hact s.handoff).2.2
    · simp at hact
  | callback now =>
    obtain rfl := Option.some.inj hact
    exact Iff.rfl
  | wake rv =>
    simp only [act] at hact
    split_ifs at hact
    obtain rfl := Option.some.inj hact
    exact Iff.rfl
  | main =>
    simp only [act] at hact
    split at hact
    · rename_i hmain
      obtain rfl := Option.some.inj hact
      have hidle : s.handoff.giver = .idle :=
        h.idle (by simp [h.joined (by simp [hmain, Destroying.eloopDone]), EventLoop.inPass])
      simp [InTime, NothingMissed, hmain, hidle, Giver.isIdle]
    · simp at hact

theorem ClientThreads.nothingMissed_of_none {s : ClientThreads HDF} {a : ClientAct HDF}
    (hact : s.act a = none) : NothingMissed s a := by
  cases a with
  | main =>
    intro hmain
    simp [act, hmain] at hact
  | select es => trivial
  | eventLoop => trivial
  | callback now => trivial
  | wake rv => trivial

theorem ClientThreads.Ok.next_leftOver {s : ClientThreads HDF} (h : s.Ok) (a : ClientAct HDF) :
    (s.next a).handoff.LeftOver ↔ s.handoff.LeftOver ∨ ¬NothingMissed s a := by
  rw [s.next_handoff]
  cases hact : s.act a with
  | none => exact (or_iff_left (not_not_intro (nothingMissed_of_none hact))).symm
  | some b => exact (h.handoff.next_leftOver b).trans (or_congr_right (not_congr (h.inTime_iff hact)))

/-- Whatever steps the event loop, the callback thread, the waits and `_moc_destroy` take, each entry
that the event loop had to queue is handled once or still waits, in its order. When `_moc_destroy`
has joined both threads, all are handled but those left in the queue, and none is left there exactly
when the flag was set in time. The threads can always end. -/
theorem callbacks_exact (acts : List (ClientAct HDF)) :
    ∃ s : ClientThreads HDF, acts.foldl ClientThreads.next ClientThreads.start = s ∧
      s.handoff.done ++ s.handoff.taker.inHand ++ s.handoff.queue ++ s.handoff.giver.inHand ++
        s.eventLoop.left = s.selected ∧
      (s.main = .mcbkJoined → s.handoff.done ++ s.handoff.queue = s.selected ∧
        (s.handoff.done = s.selected ↔
          EachStep ClientThreads.next NothingMissed (ClientThreads.start : ClientThreads HDF) acts)) ∧
      ∃ more, ((acts ++ more).foldl ClientThreads.next
        (ClientThreads.start : ClientThreads HDF)).main = .mcbkJoined := by
  have h : (acts.foldl ClientThreads.next (ClientThreads.start : ClientThreads HDF)).Ok :=
    ClientThreads.runs_ok acts
  set s : ClientThreads HDF := acts.foldl ClientThreads.next ClientThreads.start with hs
  have hall : s.handoff.done ++ s.handoff.taker.inHand ++ s.handoff.queue ++
      s.handoff.giver.inHand ++ s.eventLoop.left = s.selected := by
    rw [← h.selected, ← h.fifo, State.all]
  refine ⟨s, rfl, hall, fun hmain => ?_, ?_⟩
  · have htaker := h.finished hmain
    have hloop := h.joined (by simp [hmain, Destroying.eloopDone])
    have hidle := h.idle (by simp [hloop, EventLoop.inPass])
    have hend : s.handoff.done ++ s.handoff.queue = s.selected := by
      simpa [htaker, hloop, hidle, Taker.inHand, Giver.inHand, EventLoop.left] using hall
    refine ⟨hend, ?_⟩
    have hstart : ¬State.LeftOver (ClientThreads.start : ClientThreads HDF).handoff := by
      simp [ClientThreads.start, State.LeftOver, State.start]
    have hrun : s.handoff.LeftOver ↔
        State.LeftOver (ClientThreads.start : ClientThreads HDF).handoff ∨
          ¬EachStep ClientThreads.next NothingMissed ClientThreads.start acts :=
      foldl_iff_not_eachStep (D := fun s : ClientThreads HDF => s.handoff.LeftOver)
        (fun _ a h => ClientThreads.Ok.next h a)
        (fun _ a h => h.next_leftOver a) ClientThreads.start_ok acts
    rw [State.leftOver_of_ended htaker (h.handoff.ended htaker), or_iff_right hstart] at hrun
    calc s.handoff.done = s.selected
        ↔ s.handoff.done = s.handoff.done ++ s.handoff.queue := by rw [hend]
      _ ↔ s.handoff.queue = [] := List.self_eq_append_right
      _ ↔ EachStep ClientThreads.next NothingMissed ClientThreads.start acts := not_iff_not.mp hrun
  · obtain ⟨more, hmore⟩ := h.canEnd
    exact ⟨more, by rwa [List.foldl_append]⟩

/-- The callback thread has waited for a tenth of a second and found nothing. Before it tests the flag,
the event loop queues an entry and ends, and `mcbk_stop` sets the flag. -/
def missedActs : List (ClientAct Unit) :=
  List.replicate 2 (.callback someTime) ++ .wake .timedOut :: List.replicate 3 (.callback someTime) ++
    [.select [⟨[97], [99], ()⟩]] ++ List.replicate 4 .eventLoop ++ [.main, .eventLoop, .main, .main] ++
    List.replicate 2 (.callback someTime) ++ [.main]

example : (missedActs.foldl ClientThreads.next ClientThreads.start).main = .mcbkJoined ∧
    (missedActs.foldl ClientThreads.next ClientThreads.start).handoff.queue.length = 1 := by
  decide

end Moc
