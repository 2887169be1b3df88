import Moc.Lib.Handoff
import Moc.Server.Stop

/-!
# The worker of a plugin and its lock

`moc_start_base_entry` of `server/mocd.c` with the lock of its queue and its wait, against the main
thread, which queues requests by `put_in_queue_long` of `server/parse.c` and ends the worker by
`moc_stop_driver`. The main thread is the giver of a `Handoff` and the worker its taker. `worker_refines`
says that the two threads do what `DriverState` says of a queue that is read and written in one step;
`requests_exact` what becomes of the requests.
-/

open Runs Handoff

namespace Moc

variable {ρ : Type}

/-- A plugin's worker and the main thread. `sync` is that of the request being queued, and
`requested` has the requests that got to the lock. -/
structure WorkerThreads (ρ : Type) where
  handoff : State ρ
  main : Stopping
  sync : Bool
  deadline : Timespec
  requested : List ρ

/-- A plugin that was just started. -/
def WorkerThreads.start : WorkerThreads ρ := ⟨.start, .serving, false, ⟨0, 0⟩, []⟩

/-- A step of one of the threads, or of the wait. -/
inductive WorkerAct (ρ : Type) where
  /-- `put_in_queue_long` is called and locks. -/
  | request (e : ρ) (sync : Bool)
  /-- The next step of `put_in_queue_long`, or else of `moc_stop_driver`. -/
  | main
  | worker (now : ClockTime)
  | wake (rv : WaitRv)

/-- The deadline of `moc_start_base_entry`. -/
def workerDeadline (ts : Timespec) : Timespec := { ts with tvSec := ts.tvSec + 1 }

/-- The next step of the main thread. -/
def mainStep (s : WorkerThreads ρ) : WorkerThreads ρ :=
  match s.handoff.giver with
  | .locked _ => { s with handoff := s.handoff.next (.put s.sync) }
  | .queued => { s with handoff := s.handoff.next .unlock }
  | .unlocked => { s with handoff := s.handoff.next .signal }
  | .idle =>
    match s.main with
    | .serving => { s with handoff := s.handoff.next .stop, main := .flagged }
    | .flagged => { s with main := .released }
    | .released =>
      match s.handoff.taker with
      | .ended => { s with main := .joined }
      | _ => s
    | .joined => s

/-- One step. A wait does not fail with a valid deadline. -/
def WorkerThreads.next (s : WorkerThreads ρ) : WorkerAct ρ → WorkerThreads ρ
  | .request e sync =>
    match s.handoff.giver, s.main with
    | .idle, .serving =>
      if s.handoff.lock = none then
        { s with handoff := s.handoff.next (.lock e), sync := sync, requested := s.requested ++ [e] }
      else s
    | _, _ => s
  | .main => mainStep s
  | .worker now =>
    { s with
      handoff := s.handoff.next .take
      deadline := match s.handoff.taker with
        | .top => workerDeadline now
        | _ => s.deadline }
  | .wake rv =>
    if rv = .failed ∧ s.deadline.Valid then s else { s with handoff := s.handoff.next (.wake rv) }

/-- Where the worker stands, for whom the lock does not matter. -/
def workerOf : Taker ρ → Worker ρ
  | .taken q | .got q => .got q
  | .handling q => .processing q
  | .handled q => .processed q
  | .ended => .ended
  | _ => .waiting

/-- The plugin without the lock. -/
def WorkerThreads.driver (s : WorkerThreads ρ) : DriverState ρ :=
  ⟨s.handoff.queue, s.handoff.stop, workerOf s.handoff.taker, s.main⟩

/-! ## The steps without the lock -/

/-- What the main thread's step is without the lock. -/
def mainActs (s : WorkerThreads ρ) : List (StopAct ρ) :=
  match s.handoff.giver with
  | .locked e => [if s.sync then .cas e else .put e]
  | .queued | .unlocked => []
  | .idle =>
    match s.main with
    | .serving => [.setFlag]
    | .flagged => [.stopDriver]
    | .released => [.join]
    | .joined => []

/-- What the worker's step is without the lock. -/
def workerActs (s : State ρ) : List (StopAct ρ) :=
  match s.taker with
  | .locked .timedOut => [.get]
  | .locked .ok => if s.queue.isEmpty then [] else [.get]
  | .got _ => [.branch]
  | .handling _ => [.finish]
  | .handled _ => [.free]
  | _ => []

/-- What a step is without the lock. -/
def WorkerThreads.acts (s : WorkerThreads ρ) : WorkerAct ρ → List (StopAct ρ)
  | .main => mainActs s
  | .worker _ => workerActs s.handoff
  | _ => []

/-- The invariant of every run. -/
structure WorkerThreads.Ok (s : WorkerThreads ρ) : Prop where
  handoff : s.handoff.Ok
  unbroken : ¬s.handoff.Broken
  perm : s.handoff.all.Perm s.handoff.given
  deadline : s.deadline.Valid
  requested : s.handoff.given ++ s.handoff.giver.inHand = s.requested
  serving : s.handoff.giver.isIdle = false → s.main = .serving
  stop : s.handoff.stop = true ↔ s.main ≠ .serving
  joined : s.main = .joined → s.handoff.taker = .ended

theorem workerOf_wake (t : Taker ρ) (rv : WaitRv) : workerOf (t.wake rv) = workerOf t := by
  cases t <;> rfl

/-- The worker's steps are steps without the lock. -/
theorem takerStep_driver (s : State ρ) (main : Stopping) :
    (⟨(takerStep s).queue, (takerStep s).stop, workerOf (takerStep s).taker, main⟩ : DriverState ρ) =
      (workerActs s).foldl DriverState.next ⟨s.queue, s.stop, workerOf s.taker, main⟩ := by
  obtain ⟨giver, taker, lock, queue, stop, given, done⟩ := s
  cases taker with
  | top =>
    simp only [takerStep]
    split_ifs <;> rfl
  | locked rv =>
    cases rv with
    | ok =>
      cases queue with
      | nil => rfl
      | cons e queue => rfl
    | timedOut => rfl
    | failed => rfl
  | waiting => rfl
  | awake rv =>
    simp only [takerStep]
    split_ifs <;> rfl
  | taken q => rfl
  | got q =>
    cases q with
    | none => cases stop <;> rfl
    | some q => rfl
  | handling q => rfl
  | handled q => rfl
  | ended => rfl

/-- The main thread's steps are steps without the lock. -/
theorem WorkerThreads.Ok.mainStep_driver {s : WorkerThreads ρ} (h : s.Ok) :
    (mainStep s).driver = (mainActs s).foldl DriverState.next s.driver := by
  have hserving := h.serving
  obtain ⟨⟨giver, taker, lock, queue, stop, given, done⟩, main, sync, deadline, requested⟩ := s
  cases giver with
  | locked e =>
    obtain rfl : main = .serving := hserving rfl
    cases sync <;> rfl
  | queued => rfl
  | unlocked => exact congrArg (DriverState.mk _ _ · _) (workerOf_wake taker .ok)
  | idle =>
    cases main with
    | serving => rfl
    | flagged => rfl
    | released => cases taker <;> rfl
    | joined => rfl

/-- Every step is some steps without the lock. -/
theorem WorkerThreads.Ok.next_driver {s : WorkerThreads ρ} (h : s.Ok) (a : WorkerAct ρ) :
    (s.next a).driver = (s.acts a).foldl DriverState.next s.driver := by
  cases a with
  | request e sync =>
    simp only [next, acts, List.foldl_nil]
    split
    · split_ifs with hlock
      · simp only [driver, State.next]
        split <;> (try split_ifs) <;> rfl
      · rfl
    · rfl
  | main => exact h.mainStep_driver
  | worker now => exact takerStep_driver s.handoff s.main
  | wake rv =>
    simp only [next, acts, List.foldl_nil]
    split_ifs
    · rfl
    · exact congrArg (DriverState.mk _ _ · _) (workerOf_wake s.handoff.taker rv)

/-! ## The invariant -/

theorem WorkerThreads.start_ok : (WorkerThreads.start : WorkerThreads ρ).Ok where
  handoff := State.start_ok
  unbroken := by simp [start, State.Broken, State.start]
  perm := .refl _
  deadline := by simp [start, Timespec.Valid]
  requested := rfl
  serving _ := rfl
  stop := by simp [start, State.start]
  joined := by simp [start]

theorem workerDeadline_valid (now : ClockTime) : (workerDeadline now).Valid := now.2

section
variable {s : WorkerThreads ρ}

/-- A step of the handoff that is no failed wait. -/
theorem WorkerThreads.Ok.withHandoff (h : s.Ok) (b : Act ρ) (hfail : NotFailed s.handoff b)
    {ts : Timespec} (hts : ts.Valid) {main : Stopping} {sync : Bool} {requested : List ρ}
    (hrequested : (s.handoff.next b).given ++ (s.handoff.next b).giver.inHand = requested)
    (hserving : (s.handoff.next b).giver.isIdle = false → main = .serving)
    (hstop : (s.handoff.next b).stop = true ↔ main ≠ .serving)
    (hjoined : main = .joined → (s.handoff.next b).taker = .ended) :
    WorkerThreads.Ok ⟨s.handoff.next b, main, sync, ts, requested⟩ where
  handoff := h.handoff.next b
  unbroken := by
    rw [h.handoff.next_broken]
    simp [h.unbroken, hfail]
  perm := next_perm h.perm b
  deadline := hts
  requested := hrequested
  serving := hserving
  stop := hstop
  joined := hjoined

theorem WorkerThreads.Ok.not_stopped (h : s.Ok) (hserving : s.main = .serving) :
    s.handoff.stop = false := by
  by_contra hstop
  exact h.stop.mp (by simpa using hstop) hserving

theorem WorkerThreads.Ok.mainStep (h : s.Ok) : (mainStep s).Ok := by
  have hserving := h.serving
  have hrequested := h.requested
  have hstop := h.stop
  have hjoined := h.joined
  unfold Moc.mainStep
  cases hgiver : s.handoff.giver with
  | locked e =>
    have hmain : s.main = .serving := hserving (by simp [hgiver, Giver.isIdle])
    refine h.withHandoff (.put s.sync) trivial h.deadline ?_ (fun _ => hmain) ?_ (by simp [hmain])
    · simpa [State.next, hgiver, Giver.inHand] using hrequested
    · simpa [State.next, hgiver] using hstop
  | queued =>
    have hmain : s.main = .serving := hserving (by simp [hgiver, Giver.isIdle])
    refine h.withHandoff .unlock trivial h.deadline ?_ (fun _ => hmain) ?_ (by simp [hmain])
    · simpa [State.next, hgiver, Giver.inHand] using hrequested
    · simpa [State.next, hgiver] using hstop
  | unlocked =>
    have hmain : s.main = .serving := hserving (by simp [hgiver, Giver.isIdle])
    refine h.withHandoff .signal trivial h.deadline ?_ (fun _ => hmain) ?_ (by simp [hmain])
    · simpa [State.next, hgiver, Giver.inHand] using hrequested
    · simpa [State.next, hgiver] using hstop
  | idle =>
    cases hmain : s.main with
    | serving =>
      refine h.withHandoff .stop trivial h.deadline ?_ ?_ ?_ (by simp)
      · simpa [State.next, hgiver, Giver.inHand] using hrequested
      · simp [State.next, hgiver, Giver.isIdle]
      · simp [State.next, hgiver]
    | flagged =>
      exact { h with
        serving := by simp [hgiver, Giver.isIdle]
        stop := by simpa [hmain] using hstop
        joined := by simp }
    | released =>
      cases htaker : s.handoff.taker with
      | ended =>
        exact { h with
          serving := by simp [hgiver, Giver.isIdle]
          stop := by simpa [hmain] using hstop
          joined := fun _ => htaker }
      | top => exact h
      | locked rv => exact h
      | waiting => exact h
      | awake rv => exact h
      | taken q => exact h
      | got q => exact h
      | handling q => exact h
      | handled q => exact h
    | joined => exact h

theorem WorkerThreads.Ok.next (h : s.Ok) (a : WorkerAct ρ) : (s.next a).Ok := by
  cases a with
  | request e sync =>
    simp only [WorkerThreads.next]
    split
    · rename_i hgiver hmain
      split_ifs with hlock
      · have hstop := h.not_stopped hmain
        have hrequested := h.requested
        refine h.withHandoff (.lock e) trivial h.deadline ?_ (fun _ => hmain) ?_ (by simp [hmain])
        · simpa [State.next, hgiver, hstop, hlock, Giver.inHand] using hrequested
        · simp [State.next, hgiver, hstop, hlock, hmain]
      · exact h
    · exact h
  | main => exact h.mainStep
  | worker now =>
    have hts : (match s.handoff.taker with
        | .top => workerDeadline now
        | _ => s.deadline : Timespec).Valid := by
      split
      · exact workerDeadline_valid now
      · exact h.deadline
    refine h.withHandoff .take trivial hts ?_ ?_ ?_ ?_
    · simpa [State.next, takerStep_given, takerStep_giver] using h.requested
    · simpa [State.next, takerStep_giver] using h.serving
    · simpa [State.next, takerStep_stop] using h.stop
    · exact fun hmain => (congrArg _ (takerStep_ended (h.joined hmain))).trans (h.joined hmain)
  | wake rv =>
    simp only [WorkerThreads.next, h.deadline, and_true]
    split_ifs with hfailed
    · exact h
    · refine h.withHandoff (.wake rv) ?_ h.deadline h.requested h.serving h.stop ?_
      · cases rv with
        | failed => exact absurd rfl hfailed
        | ok => trivial
        | timedOut => trivial
      · exact fun hmain => by simp [State.next, h.joined hmain, Taker.wake]

theorem WorkerThreads.runs_ok (acts : List (WorkerAct ρ)) :
    (acts.foldl WorkerThreads.next WorkerThreads.start).Ok :=
  foldl_keeps (fun _ a h => h.next a) WorkerThreads.start_ok acts

/-- The entry that an act queues. -/
def StopAct.entry : StopAct ρ → Option ρ
  | .put e | .cas e => some e
  | _ => none

theorem workerActs_entry (t : State ρ) : (workerActs t).filterMap StopAct.entry = [] := by
  unfold workerActs
  split <;> (try split_ifs) <;> rfl

/-- A step queues without the lock what it queues with it. -/
theorem WorkerThreads.acts_entry (s : WorkerThreads ρ) (a : WorkerAct ρ) :
    (s.next a).handoff.given = s.handoff.given ++ (s.acts a).filterMap StopAct.entry := by
  cases a with
  | request e sync =>
    simp only [WorkerThreads.next, acts, List.filterMap_nil, List.append_nil]
    split
    · split_ifs
      · simp only [State.next]
        split <;> (try split_ifs) <;> rfl
      · rfl
    · rfl
  | main =>
    simp only [WorkerThreads.next, acts, Moc.mainStep, mainActs]
    cases hgiver : s.handoff.giver with
    | locked e => cases s.sync <;> simp [State.next, hgiver, StopAct.entry]
    | queued => simp [State.next, hgiver]
    | unlocked => simp [State.next, hgiver]
    | idle =>
      cases s.main with
      | serving => simp [State.next, hgiver, StopAct.entry]
      | flagged => simp [StopAct.entry]
      | released => cases s.handoff.taker <;> simp [StopAct.entry]
      | joined => simp
  | worker now =>
    show (takerStep s.handoff).given = s.handoff.given ++ (workerActs s.handoff).filterMap StopAct.entry
    rw [takerStep_given, workerActs_entry, List.append_nil]
  | wake rv =>
    simp only [WorkerThreads.next, acts, List.filterMap_nil, List.append_nil]
    split_ifs <;> rfl

/-- In every run, the queue, the flag, the worker and the main thread go through states that they go
through without the lock, when the same requests are queued. -/
theorem worker_refines (acts : List (WorkerAct ρ)) :
    ∃ acts' : List (StopAct ρ),
      acts'.filterMap StopAct.entry =
        (acts.foldl WorkerThreads.next WorkerThreads.start).handoff.given ∧
      (acts.foldl WorkerThreads.next WorkerThreads.start).driver =
        acts'.foldl DriverState.next DriverState.new := by
  have hrun : (acts.foldl WorkerThreads.next (WorkerThreads.start : WorkerThreads ρ)).Ok ∧
      ∃ acts' : List (StopAct ρ),
        acts'.filterMap StopAct.entry =
          (acts.foldl WorkerThreads.next WorkerThreads.start).handoff.given ∧
        (acts.foldl WorkerThreads.next WorkerThreads.start).driver =
          acts'.foldl DriverState.next DriverState.new := by
    refine foldl_keeps (I := fun s : WorkerThreads ρ => s.Ok ∧ ∃ acts' : List (StopAct ρ),
      acts'.filterMap StopAct.entry = s.handoff.given ∧
        s.driver = acts'.foldl DriverState.next DriverState.new) ?_
      ⟨WorkerThreads.start_ok, [], rfl, rfl⟩ acts
    rintro s a ⟨hok, acts', hgiven, hdriver⟩
    refine ⟨hok.next a, acts' ++ s.acts a, ?_, ?_⟩
    · rw [List.filterMap_append, hgiven, s.acts_entry]
    · rw [List.foldl_append, ← hdriver, hok.next_driver]
  exact hrun.2

/-! ## The way to the end -/

/-- `moc_stop_driver` can return. -/
def WorkerThreads.CanEnd (s : WorkerThreads ρ) : Prop :=
  ∃ more : List (WorkerAct ρ), (more.foldl WorkerThreads.next s).main = .joined

theorem WorkerThreads.canEnd_of_next (a : WorkerAct ρ) (h : (s.next a).CanEnd) : s.CanEnd := by
  obtain ⟨more, hmore⟩ := h
  exact ⟨a :: more, hmore⟩

/-- The worker's next step towards its end. -/
def WorkerThreads.towardsEnd (s : WorkerThreads ρ) : WorkerAct ρ :=
  if s.handoff.taker.isWaiting then .wake .timedOut else .worker someTime

theorem WorkerThreads.towardsEnd_frame (s : WorkerThreads ρ) :
    (s.next s.towardsEnd).handoff = s.handoff.next s.handoff.towardsEnd ∧
      (s.next s.towardsEnd).main = s.main := by
  unfold towardsEnd State.towardsEnd
  split_ifs
  · exact ⟨by simp [next], by simp [next]⟩
  · exact ⟨rfl, rfl⟩

theorem WorkerThreads.Ok.canEnd_released (h : s.Ok) (hmain : s.main = .released) : s.CanEnd := by
  induction hn : s.handoff.rank using Nat.strong_induction_on generalizing s with
  | _ n ih =>
    have hstop : s.handoff.stop = true := h.stop.mpr (by simp [hmain])
    have hidle : s.handoff.giver = .idle := h.handoff.stopped hstop
    by_cases hended : s.handoff.taker = .ended
    · refine canEnd_of_next .main ⟨[], ?_⟩
      simp [WorkerThreads.next, Moc.mainStep, hidle, hmain, hended]
    · have hlt := h.handoff.rank_lt h.unbroken (by simp [hidle, Giver.holds]) hstop hended
      obtain ⟨hhandoff, hsame⟩ := s.towardsEnd_frame
      rw [← hhandoff, hn] at hlt
      exact canEnd_of_next s.towardsEnd (ih _ hlt (h.next _) (hsame.trans hmain) rfl)

theorem WorkerThreads.Ok.canEnd_flagged (h : s.Ok) (hmain : s.main = .flagged) : s.CanEnd := by
  have hidle : s.handoff.giver = .idle := h.handoff.stopped (h.stop.mpr (by simp [hmain]))
  refine canEnd_of_next .main ((h.next .main).canEnd_released ?_)
  simp [WorkerThreads.next, Moc.mainStep, hidle, hmain]

/-- The main thread that queues a request gets through. -/
theorem WorkerThreads.Ok.canEnd_serving (h : s.Ok) (hmain : s.main = .serving) : s.CanEnd := by
  have hidle : ∀ {s : WorkerThreads ρ}, s.Ok → s.main = .serving → s.handoff.giver = .idle →
      s.CanEnd := fun h hmain hgiver => canEnd_of_next .main ((h.next .main).canEnd_flagged
    (by simp [WorkerThreads.next, Moc.mainStep, hgiver, hmain]))
  have hunlocked : ∀ {s : WorkerThreads ρ}, s.Ok → s.main = .serving →
      s.handoff.giver = .unlocked → s.CanEnd := fun h hmain hgiver =>
    canEnd_of_next .main (hidle (h.next .main)
      (by simp [WorkerThreads.next, Moc.mainStep, hgiver, hmain])
      (by simp [WorkerThreads.next, Moc.mainStep, State.next, hgiver]))
  have hqueued : ∀ {s : WorkerThreads ρ}, s.Ok → s.main = .serving →
      s.handoff.giver = .queued → s.CanEnd := fun h hmain hgiver =>
    canEnd_of_next .main (hunlocked (h.next .main)
      (by simp [WorkerThreads.next, Moc.mainStep, hgiver, hmain])
      (by simp [WorkerThreads.next, Moc.mainStep, State.next, hgiver]))
  cases hgiver : s.handoff.giver with
  | idle => exact hidle h hmain hgiver
  | unlocked => exact hunlocked h hmain hgiver
  | queued => exact hqueued h hmain hgiver
  | locked e =>
    exact canEnd_of_next .main (hqueued (h.next .main)
      (by simp [WorkerThreads.next, Moc.mainStep, hgiver, hmain])
      (by simp [WorkerThreads.next, Moc.mainStep, State.next, hgiver]))

theorem WorkerThreads.Ok.canEnd (h : s.Ok) : s.CanEnd := by
  cases hmain : s.main with
  | serving => exact h.canEnd_serving hmain
  | flagged => exact h.canEnd_flagged hmain
  | released => exact h.canEnd_released hmain
  | joined => exact ⟨[], hmain⟩

/-! ## What becomes of the requests -/

/-- `moc_stop_driver` sets the flag when the worker will come back to what waits. -/
def WorkerThreads.NothingMissed (s : WorkerThreads ρ) : WorkerAct ρ → Prop
  | .main => s.handoff.giver.isIdle = true → s.main = .serving →
      s.handoff.taker.leaves = true → s.handoff.queue = []
  | _ => True

theorem WorkerThreads.Ok.next_leftOver (h : s.Ok) (a : WorkerAct ρ) :
    (s.next a).handoff.LeftOver ↔ s.handoff.LeftOver ∨ ¬s.NothingMissed a := by
  cases a with
  | request e sync =>
    refine Iff.trans ?_ (or_iff_left (not_not_intro trivial)).symm
    simp only [WorkerThreads.next]
    split
    · split_ifs
      · exact (h.handoff.next_leftOver (.lock e)).trans (or_iff_left (not_not_intro trivial))
      · exact Iff.rfl
    · exact Iff.rfl
  | main =>
    simp only [WorkerThreads.next, Moc.mainStep, NothingMissed]
    cases hgiver : s.handoff.giver with
    | locked e =>
      simpa [InTime, Giver.isIdle] using h.handoff.next_leftOver (.put s.sync)
    | queued => simpa [InTime, Giver.isIdle] using h.handoff.next_leftOver .unlock
    | unlocked => simpa [InTime, Giver.isIdle] using h.handoff.next_leftOver .signal
    | idle =>
      cases hmain : s.main with
      | serving =>
        simpa [InTime, hgiver, Giver.isIdle] using h.handoff.next_leftOver .stop
      | flagged => simp
      | released => cases s.handoff.taker <;> simp
      | joined => simp
  | worker now => exact h.handoff.next_leftOver .take
  | wake rv =>
    refine Iff.trans ?_ (or_iff_left (not_not_intro trivial)).symm
    simp only [WorkerThreads.next]
    split_ifs
    · exact Iff.rfl
    · exact (h.handoff.next_leftOver (.wake rv)).trans (or_iff_left (not_not_intro trivial))

end

/-- Whatever steps the main thread, the worker and the wait take, each request that got to the lock
is processed once or still waits. When `moc_stop_driver` has joined the worker, all are processed but
those left in the queue, and none is left there exactly when the flag was set in time. The threads
can always end. -/
theorem requests_exact (acts : List (WorkerAct ρ)) :
    ∃ s : WorkerThreads ρ, acts.foldl WorkerThreads.next WorkerThreads.start = s ∧
      (s.handoff.done ++ s.handoff.taker.inHand ++ s.handoff.queue ++ s.handoff.giver.inHand).Perm
        s.requested ∧
      (s.main = .joined → (s.handoff.done ++ s.handoff.queue).Perm s.requested ∧
        (s.handoff.done.Perm s.requested ↔
          EachStep WorkerThreads.next WorkerThreads.NothingMissed WorkerThreads.start acts)) ∧
      ∃ more, ((acts ++ more).foldl WorkerThreads.next (WorkerThreads.start : WorkerThreads ρ)).main =
        .joined := by
  have h : (acts.foldl WorkerThreads.next (WorkerThreads.start : WorkerThreads ρ)).Ok :=
    WorkerThreads.runs_ok acts
  set s : WorkerThreads ρ := acts.foldl WorkerThreads.next WorkerThreads.start
  have hall : (s.handoff.done ++ s.handoff.taker.inHand ++ s.handoff.queue ++
      s.handoff.giver.inHand).Perm s.requested := by
    rw [← h.requested]
    exact h.perm.append_right _
  refine ⟨s, rfl, hall, fun hmain => ?_, ?_⟩
  · have htaker := h.joined hmain
    have hidle := h.handoff.stopped (h.stop.mpr (by simp [hmain]))
    have hend : (s.handoff.done ++ s.handoff.queue).Perm s.requested := by
      simpa [htaker, hidle, Taker.inHand, Giver.inHand] using hall
    refine ⟨hend, ?_⟩
    have hstart : ¬State.LeftOver (WorkerThreads.start : WorkerThreads ρ).handoff := by
      simp [WorkerThreads.start, State.LeftOver, State.start]
    have hrun : s.handoff.LeftOver ↔
        State.LeftOver (WorkerThreads.start : WorkerThreads ρ).handoff ∨
          ¬EachStep WorkerThreads.next WorkerThreads.NothingMissed WorkerThreads.start acts :=
      foldl_iff_not_eachStep (D := fun s : WorkerThreads ρ => s.handoff.LeftOver)
        (fun _ a h => WorkerThreads.Ok.next h a)
        (fun _ a h => h.next_leftOver a) WorkerThreads.start_ok acts
    rw [State.leftOver_of_ended htaker (h.handoff.ended htaker), or_iff_right hstart] at hrun
    calc s.handoff.done.Perm s.requested
        ↔ s.handoff.done.Perm (s.handoff.done ++ s.handoff.queue) :=
          ⟨fun hp => hp.trans hend.symm, fun hp => hp.trans hend⟩
      _ ↔ s.handoff.queue = [] := ⟨fun hp => ?_, fun hnil => by rw [hnil, List.append_nil]⟩
      _ ↔ EachStep WorkerThreads.next WorkerThreads.NothingMissed WorkerThreads.start acts :=
          not_iff_not.mp hrun
    have hlen := hp.length_eq
    rw [List.length_append] at hlen
    exact List.length_eq_zero_iff.mp (by omega)
  · obtain ⟨more, hmore⟩ := h.canEnd
    exact ⟨more, by rwa [List.foldl_append]⟩

end Moc
