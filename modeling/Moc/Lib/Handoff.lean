import Moc.Lib.Runs

/-!
# Handing entries over to a thread

One thread queues entries under a lock and signals a condition. Another waits for the condition with
a deadline, takes one entry at a time, and handles it without the lock. A flag tells the second
thread to end; it tests the flag only when it has found the queue empty, and no longer under the
lock. Every entry is handled once or still waits (`next_perm`), in the order of the queue
(`next_fifo`). What was queued behind the second thread's back is left over, and
`State.Ok.next_leftOver` says which step leaves it. Only a wait that fails breaks the loop
(`State.Ok.next_broken`), and one that is not broken comes nearer to its end (`State.Ok.rank_lt`).
-/

open Runs

namespace Handoff

variable {ρ : Type}

/-- `struct timespec` -/
structure Timespec where
  tvSec : ℤ
  tvNsec : ℤ

/-- What the clock gives, and what a wait takes as its deadline. -/
def Timespec.Valid (ts : Timespec) : Prop := 0 ≤ ts.tvNsec ∧ ts.tvNsec < 1000000000

instance : DecidablePred Timespec.Valid := fun _ => inferInstanceAs (Decidable (_ ∧ _))

/-- What the clock gives. -/
abbrev ClockTime := {ts : Timespec // ts.Valid}

def someTime : ClockTime := ⟨⟨0, 0⟩, by decide⟩

/-- What a wait with a deadline returns. -/
inductive WaitRv where
  | ok
  | timedOut
  | failed
  deriving DecidableEq

/-- The thread that queues entries. -/
inductive Giver (ρ : Type) where
  | idle
  /-- before the entry is queued, with the lock held -/
  | locked (e : ρ)
  /-- before the unlock -/
  | queued
  /-- before the signal -/
  | unlocked

/-- The thread that handles entries. -/
inductive Taker (ρ : Type) where
  /-- before the lock -/
  | top
  /-- before the test for an empty queue, with the lock held -/
  | locked (rv : WaitRv)
  /-- in the wait, without the lock -/
  | waiting
  /-- back from the wait, before the lock is held again -/
  | awake (rv : WaitRv)
  /-- before the unlock, with what was taken -/
  | taken (q : Option ρ)
  /-- behind the unlock -/
  | got (q : Option ρ)
  | handling (q : ρ)
  | handled (q : ρ)
  | ended

/-- Who may hold the lock. -/
inductive Holder where
  | giver
  | taker
  deriving DecidableEq

/-- The two threads and what they share. `given` has the entries in the order in which they were
queued, and `done` those that were handled. -/
structure State (ρ : Type) where
  giver : Giver ρ
  taker : Taker ρ
  lock : Option Holder
  queue : List ρ
  stop : Bool
  given : List ρ
  done : List ρ

/-- Both threads before their first step. -/
def State.start : State ρ := ⟨.idle, .top, none, [], false, [], []⟩

/-- A step of one of the threads, or of the wait. Nothing is queued once the flag is set. -/
inductive Act (ρ : Type) where
  | lock (e : ρ)
  | put (front : Bool)
  | unlock
  | signal
  | stop
  | take
  /-- The wait ends: by the deadline, by an error, or by itself. -/
  | wake (rv : WaitRv)

/-- The taker's next step. A thread that waits for the lock stays where it is. -/
def takerStep (s : State ρ) : State ρ :=
  match s.taker with
  | .top => if s.lock = none then { s with taker := .locked .ok, lock := some .taker } else s
  | .locked .failed => { s with taker := .top }
  | .locked .timedOut => { s with taker := .taken s.queue.head?, queue := s.queue.tail }
  | .locked .ok =>
    if s.queue.isEmpty then { s with taker := .waiting, lock := none }
    else { s with taker := .taken s.queue.head?, queue := s.queue.tail }
  | .waiting => s
  | .awake rv =>
    if s.lock = none then { s with taker := .locked rv, lock := some .taker } else s
  | .taken q => { s with taker := .got q, lock := none }
  | .got none => { s with taker := if s.stop then .ended else .top }
  | .got (some q) => { s with taker := .handling q }
  | .handling q => { s with taker := .handled q, done := s.done ++ [q] }
  | .handled _ => { s with taker := .top }
  | .ended => s

/-- The wait ends. A thread that does not wait does not notice. -/
def Taker.wake (rv : WaitRv) : Taker ρ → Taker ρ
  | .waiting => .awake rv
  | t => t

/-- One step. A step that its thread does not stand before changes nothing. -/
def State.next (s : State ρ) : Act ρ → State ρ
  | .lock e =>
    match s.giver with
    | .idle =>
      if s.stop = false ∧ s.lock = none then { s with giver := .locked e, lock := some .giver }
      else s
    | _ => s
  | .put front =>
    match s.giver with
    | .locked e =>
      { s with
        giver := .queued
        queue := if front then e :: s.queue else s.queue ++ [e]
        given := s.given ++ [e] }
    | _ => s
  | .unlock =>
    match s.giver with
    | .queued => { s with giver := .unlocked, lock := none }
    | _ => s
  | .signal =>
    match s.giver with
    | .unlocked => { s with giver := .idle, taker := s.taker.wake .ok }
    | _ => s
  | .stop =>
    match s.giver with
    | .idle => { s with stop := true }
    | _ => s
  | .take => takerStep s
  | .wake rv => { s with taker := s.taker.wake rv }

/-- The entry that was taken and is not handled yet. -/
def Taker.inHand : Taker ρ → List ρ
  | .taken q | .got q => q.toList
  | .handling q => [q]
  | _ => []

/-- The entry that is about to be queued. -/
def Giver.inHand : Giver ρ → List ρ
  | .locked e => [e]
  | _ => []

/-- The entries handled, in hand and waiting. -/
def State.all (s : State ρ) : List ρ := s.done ++ s.taker.inHand ++ s.queue

/-- The giver holds the lock. -/
def Giver.holds : Giver ρ → Bool
  | .locked _ | .queued => true
  | _ => false

def Giver.isIdle : Giver ρ → Bool
  | .idle => true
  | _ => false

/-- The taker holds the lock. -/
def Taker.holds : Taker ρ → Bool
  | .locked _ | .taken _ => true
  | _ => false

def Taker.isWaiting : Taker ρ → Bool
  | .waiting => true
  | _ => false

/-- The taker has seen an empty queue and will not look again under the flag. -/
def Taker.leaves : Taker ρ → Bool
  | .got none | .ended => true
  | _ => false

/-- A wait has failed. The loop goes on with the lock held and comes to lock it once more. -/
def State.Broken (s : State ρ) : Prop :=
  s.taker = .awake .failed ∨ s.taker = .locked .failed ∨ s.taker = .top ∧ s.lock = some .taker

/-- Entries wait that nobody will take. -/
def State.LeftOver (s : State ρ) : Prop := s.stop = true ∧ s.queue ≠ [] ∧ s.taker.leaves = true

@[simp] theorem Taker.wake_inHand (t : Taker ρ) (rv : WaitRv) : (t.wake rv).inHand = t.inHand := by
  cases t <;> rfl

@[simp] theorem Taker.wake_leaves (t : Taker ρ) (rv : WaitRv) : (t.wake rv).leaves = t.leaves := by
  cases t <;> rfl

@[simp] theorem Taker.wake_holds (t : Taker ρ) (rv : WaitRv) : (t.wake rv).holds = t.holds := by
  cases t <;> rfl

/-! ## Every entry once -/

theorem head?_toList_append_tail (l : List ρ) : l.head?.toList ++ l.tail = l := by
  cases l <;> rfl

theorem takerStep_all (s : State ρ) : (takerStep s).all = s.all := by
  obtain ⟨giver, taker, lock, queue, stop, given, done⟩ := s
  have hget (d : List ρ) : d ++ queue.head?.toList ++ queue.tail = d ++ [] ++ queue := by
    rw [List.append_assoc, head?_toList_append_tail, List.append_nil]
  cases taker with
  | top =>
    unfold takerStep
    split_ifs <;> rfl
  | locked rv =>
    cases rv with
    | ok =>
      simp only [takerStep]
      split_ifs
      · rfl
      · exact hget done
    | timedOut => exact hget done
    | failed => rfl
  | waiting => rfl
  | awake rv =>
    simp only [takerStep]
    split_ifs <;> rfl
  | taken q => rfl
  | got q =>
    cases q with
    | none => cases stop <;> rfl
    | some q => rfl
  | handling q =>
    show done ++ [q] ++ [] ++ queue = done ++ [q] ++ queue
    rw [List.append_nil]
  | handled q => rfl
  | ended => rfl

theorem takerStep_given (s : State ρ) : (takerStep s).given = s.given := by
  unfold takerStep
  split <;> (try split_ifs) <;> rfl

theorem takerStep_giver (s : State ρ) : (takerStep s).giver = s.giver := by
  unfold takerStep
  split <;> (try split_ifs) <;> rfl

theorem takerStep_stop (s : State ρ) : (takerStep s).stop = s.stop := by
  unfold takerStep
  split <;> (try split_ifs) <;> rfl

theorem takerStep_ended {s : State ρ} (h : s.taker = .ended) : takerStep s = s := by
  simp [takerStep, h]

/-- Only a put adds an entry. -/
theorem State.next_all (s : State ρ) (a : Act ρ) :
    ((s.next a).all = s.all ∧ (s.next a).given = s.given) ∨
      ∃ front e, a = .put front ∧ s.giver = .locked e ∧ (s.next a).given = s.given ++ [e] ∧
        (s.next a).all = s.done ++ s.taker.inHand ++ if front then e :: s.queue else s.queue ++ [e] := by
  cases a with
  | put front =>
    cases hgiver : s.giver with
    | locked e => exact .inr ⟨front, e, rfl, rfl, by simp [next, hgiver], by simp [next, hgiver, all]⟩
    | idle => exact .inl (by simp [next, hgiver])
    | queued => exact .inl (by simp [next, hgiver])
    | unlocked => exact .inl (by simp [next, hgiver])
  | take => exact .inl ⟨takerStep_all s, takerStep_given s⟩
  | wake rv => exact .inl (by simp [next, all])
  | signal =>
    refine .inl ?_
    simp only [next]
    split <;> simp [all]
  | lock e =>
    refine .inl ?_
    simp only [next]
    split <;> (try split_ifs) <;> exact ⟨rfl, rfl⟩
  | unlock =>
    refine .inl ?_
    simp only [next]
    split <;> exact ⟨rfl, rfl⟩
  | stop =>
    refine .inl ?_
    simp only [next]
    split <;> exact ⟨rfl, rfl⟩

/-- Each entry that was queued is handled once, in hand or waiting. -/
theorem next_perm {s : State ρ} (hs : s.all.Perm s.given) (a : Act ρ) :
    (s.next a).all.Perm (s.next a).given := by
  obtain ⟨hall, hgiven⟩ | ⟨front, e, -, -, hgiven, hall⟩ := s.next_all a
  · rwa [hall, hgiven]
  · rw [hall, hgiven]
    cases front with
    | false =>
      rw [if_neg (by decide), ← List.append_assoc]
      exact hs.append_right [e]
    | true =>
      rw [if_pos rfl]
      exact List.perm_middle.trans ((List.Perm.cons e hs).trans (List.perm_append_singleton e _).symm)

/-- The act queues no entry in front. -/
def AtEnd : Act ρ → Prop
  | .put front => front = false
  | _ => True

/-- Entries queued at the end are handled in their order. -/
theorem next_fifo {s : State ρ} (hs : s.all = s.given) {a : Act ρ} (ha : AtEnd a) :
    (s.next a).all = (s.next a).given := by
  obtain ⟨hall, hgiven⟩ | ⟨front, e, rfl, -, hgiven, hall⟩ := s.next_all a
  · rw [hall, hgiven, hs]
  · obtain rfl : front = false := ha
    rw [hall, hgiven, if_neg (by decide), ← hs, State.all, List.append_assoc _ s.queue]

/-! ## The lock, the flag and the empty queue -/

/-- The invariant of every run. -/
structure State.Ok (s : State ρ) : Prop where
  giver_locked : s.giver.holds = true → s.lock = some .giver
  taker_locked : s.taker.holds = true → s.lock = some .taker
  locked_giver : s.lock = some .giver → s.giver.holds = true
  locked_taker : s.lock = some .taker → s.taker.holds = true ∨ s.Broken
  stopped : s.stop = true → s.giver = .idle
  looked : s.taker = .taken none → s.queue = []
  ended : s.taker = .ended → s.stop = true

theorem State.start_ok : (State.start : State ρ).Ok where
  giver_locked := by simp [start, Giver.holds]
  taker_locked := by simp [start, Taker.holds]
  locked_giver := by simp [start]
  locked_taker := by simp [start]
  stopped := by simp [start]
  looked := by simp [start]
  ended := by simp [start]

section
variable {s : State ρ}

/-- A taker that holds the lock excludes the giver. -/
theorem State.Ok.giver_out (h : s.Ok) (hlock : s.lock ≠ some .giver) : s.giver.holds = false := by
  by_contra hholds
  exact hlock (h.giver_locked (by simpa using hholds))

theorem State.Ok.taker_out (h : s.Ok) (hlock : s.lock ≠ some .taker) : s.taker.holds = false := by
  by_contra hholds
  exact hlock (h.taker_locked (by simpa using hholds))

/-- What taking an entry leaves. -/
theorem State.Ok.taken (h : s.Ok) (hholds : s.taker.holds = true) :
    State.Ok { s with taker := .taken s.queue.head?, queue := s.queue.tail } where
  giver_locked := h.giver_locked
  taker_locked _ := h.taker_locked hholds
  locked_giver := h.locked_giver
  locked_taker _ := .inl rfl
  stopped := h.stopped
  looked hnone := by
    have hempty : s.queue.head? = none := by simpa using hnone
    have hnil : s.queue = [] := List.head?_eq_none_iff.mp hempty
    simp [hnil]
  ended := by simp

/-- The taker locks. -/
theorem State.Ok.takerLock (h : s.Ok) (hlock : s.lock = none) (rv : WaitRv) :
    State.Ok { s with taker := .locked rv, lock := some .taker } where
  giver_locked hholds := by simp [h.giver_out (by simp [hlock])] at hholds
  taker_locked _ := rfl
  locked_giver := by simp
  locked_taker _ := .inl rfl
  stopped := h.stopped
  looked := by simp
  ended := by simp

/-- The taker moves without the lock. -/
theorem State.Ok.takerMove (h : s.Ok) (hlock : s.lock ≠ some .taker) {t : Taker ρ} (done : List ρ)
    (hholds : t.holds = false) (hnone : t ≠ .taken none) (hended : t = .ended → s.stop = true) :
    State.Ok { s with taker := t, done := done } where
  giver_locked := h.giver_locked
  taker_locked := by simp [hholds]
  locked_giver := h.locked_giver
  locked_taker := by simp [hlock]
  stopped := h.stopped
  looked := by simp [hnone]
  ended := hended

/-- The taker unlocks. -/
theorem State.Ok.takerUnlock (h : s.Ok) (hholds : s.taker.holds = true) {t : Taker ρ}
    (ht : t.holds = false) (hnone : t ≠ .taken none) (hended : t ≠ .ended) :
    State.Ok { s with taker := t, lock := none } where
  giver_locked hgiver := by simp [h.giver_out (by simp [h.taker_locked hholds])] at hgiver
  taker_locked := by simp [ht]
  locked_giver := by simp
  locked_taker := by simp
  stopped := h.stopped
  looked := by simp [hnone]
  ended := by simp [hended]

/-- A taker outside the places where it may hold the lock does not. -/
theorem State.Ok.not_locked (h : s.Ok) (hholds : s.taker.holds = false) (hbroken : ¬s.Broken) :
    s.lock ≠ some .taker := by
  intro hlock
  cases h.locked_taker hlock with
  | inl hheld => simp [hholds] at hheld
  | inr hbad => exact hbroken hbad

theorem State.Ok.takerStep (h : s.Ok) : (takerStep s).Ok := by
  obtain ⟨giver, taker, lock, queue, stop, given, done⟩ := s
  cases taker with
  | top =>
    simp only [Handoff.takerStep]
    split_ifs with hlock
    · exact h.takerLock hlock .ok
    · exact h
  | locked rv =>
    cases rv with
    | ok =>
      simp only [Handoff.takerStep]
      split_ifs
      · exact h.takerUnlock rfl rfl (by simp) (by simp)
      · exact h.taken rfl
    | timedOut => exact h.taken rfl
    | failed =>
      -- The lock stays with the taker, which is what `Broken` says.
      exact { h with
        taker_locked := by simp [Handoff.takerStep, Taker.holds]
        locked_taker := fun hlock => .inr (.inr (.inr ⟨rfl, hlock⟩))
        looked := by simp [Handoff.takerStep]
        ended := by simp [Handoff.takerStep] }
  | waiting => exact h
  | awake rv =>
    simp only [Handoff.takerStep]
    split_ifs with hlock
    · exact h.takerLock hlock rv
    · exact h
  | taken q => exact h.takerUnlock rfl rfl (by simp) (by simp)
  | got q =>
    have hout : lock ≠ some .taker := h.not_locked rfl (by simp [State.Broken])
    cases q with
    | none =>
      cases stop with
      | true => exact h.takerMove hout done rfl (by simp) (by simp)
      | false => exact h.takerMove hout done rfl (by simp) (by simp)
    | some q => exact h.takerMove hout done rfl (by simp) (by simp)
  | handling q =>
    have hout : lock ≠ some .taker := h.not_locked rfl (by simp [State.Broken])
    exact h.takerMove hout (done ++ [q]) rfl (by simp) (by simp)
  | handled q =>
    have hout : lock ≠ some .taker := h.not_locked rfl (by simp [State.Broken])
    exact h.takerMove hout done rfl (by simp) (by simp)
  | ended => exact h

/-- The wait ends. -/
theorem State.Ok.wake (h : s.Ok) (rv : WaitRv) : State.Ok { s with taker := s.taker.wake rv } := by
  obtain ⟨giver, taker, lock, queue, stop, given, done⟩ := s
  cases taker with
  | waiting =>
    have hout : lock ≠ some .taker := h.not_locked rfl (by simp [State.Broken])
    exact h.takerMove hout done rfl (by simp [Taker.wake]) (by simp [Taker.wake])
  | top => exact h
  | locked rv' => exact h
  | awake rv' => exact h
  | taken q => exact h
  | got q => exact h
  | handling q => exact h
  | handled q => exact h
  | ended => exact h

theorem State.Ok.next (h : s.Ok) (a : Act ρ) : (s.next a).Ok := by
  obtain ⟨giver, taker, lock, queue, stop, given, done⟩ := s
  cases a with
  | lock e =>
    cases giver with
    | idle =>
      simp only [State.next]
      split_ifs with hfree
      · obtain ⟨rfl, rfl⟩ : stop = false ∧ lock = none := hfree
        exact { h with
          giver_locked := fun _ => rfl
          taker_locked := fun hholds => by simpa using h.taker_locked hholds
          locked_giver := fun _ => rfl
          locked_taker := by simp
          stopped := by simp }
      · exact h
    | locked e' => exact h
    | queued => exact h
    | unlocked => exact h
  | put front =>
    cases giver with
    | locked e =>
      have hlock : lock = some .giver := h.giver_locked rfl
      exact { h with
        giver_locked := fun _ => hlock
        locked_giver := fun _ => rfl
        stopped := fun hstop => by simpa using h.stopped hstop
        looked := fun hnone => by
          -- The taker has just looked with the lock held, and so has the giver the lock.
          have htaker : taker = .taken none := hnone
          simpa [hlock] using h.taker_locked (by simp [htaker, Taker.holds]) }
    | idle => exact h
    | queued => exact h
    | unlocked => exact h
  | unlock =>
    cases giver with
    | queued =>
      have hlock : lock = some .giver := h.giver_locked rfl
      exact { h with
        giver_locked := by simp [State.next, Giver.holds]
        taker_locked := fun hholds => by simpa [hlock] using h.taker_locked hholds
        locked_giver := by simp [State.next]
        locked_taker := by simp [State.next]
        stopped := fun hstop => by simpa using h.stopped hstop }
    | idle => exact h
    | locked e => exact h
    | unlocked => exact h
  | signal =>
    cases giver with
    | unlocked =>
      have hidle : State.Ok (⟨.idle, taker, lock, queue, stop, given, done⟩ : State ρ) := { h with
        giver_locked := by simp [Giver.holds]
        locked_giver := h.locked_giver
        stopped := fun _ => rfl }
      exact hidle.wake .ok
    | idle => exact h
    | locked e => exact h
    | queued => exact h
  | stop =>
    cases giver with
    | idle => exact { h with stopped := fun _ => rfl, ended := fun _ => rfl }
    | locked e => exact h
    | queued => exact h
    | unlocked => exact h
  | take => exact h.takerStep
  | wake rv => exact h.wake rv

end

/-! ## What is left over -/

/-- The flag is set when the taker will come back to what waits. -/
def InTime (s : State ρ) : Act ρ → Prop
  | .stop => s.giver.isIdle = true → s.taker.leaves = true → s.queue = []
  | _ => True

/-- The taker leaves entries behind only at the flag. -/
theorem State.Ok.takerStep_leftOver {s : State ρ} (h : s.Ok) :
    (Handoff.takerStep s).LeftOver ↔ s.LeftOver := by
  obtain ⟨giver, taker, lock, queue, stop, given, done⟩ := s
  cases taker with
  | top =>
    simp only [Handoff.takerStep]
    split_ifs <;> simp [State.LeftOver, Taker.leaves]
  | locked rv =>
    cases rv with
    | ok =>
      simp only [Handoff.takerStep]
      split_ifs <;> simp [State.LeftOver, Taker.leaves]
    | timedOut => simp [Handoff.takerStep, State.LeftOver, Taker.leaves]
    | failed => simp [Handoff.takerStep, State.LeftOver, Taker.leaves]
  | waiting => exact Iff.rfl
  | awake rv =>
    simp only [Handoff.takerStep]
    split_ifs <;> simp [State.LeftOver, Taker.leaves]
  | taken q =>
    cases q with
    | none =>
      have hempty : queue = [] := h.looked rfl
      simp [Handoff.takerStep, State.LeftOver, hempty]
    | some q => simp [Handoff.takerStep, State.LeftOver, Taker.leaves]
  | got q =>
    cases q with
    | none => cases stop <;> simp [Handoff.takerStep, State.LeftOver, Taker.leaves]
    | some q => simp [Handoff.takerStep, State.LeftOver, Taker.leaves]
  | handling q => simp [Handoff.takerStep, State.LeftOver, Taker.leaves]
  | handled q => simp [Handoff.takerStep, State.LeftOver, Taker.leaves]
  | ended => exact Iff.rfl

/-- Entries are left over by a step that sets the flag too late, and by no other. -/
theorem State.Ok.next_leftOver {s : State ρ} (h : s.Ok) (a : Act ρ) :
    (s.next a).LeftOver ↔ s.LeftOver ∨ ¬InTime s a := by
  obtain ⟨giver, taker, lock, queue, stop, given, done⟩ := s
  cases a with
  | lock e =>
    refine Iff.trans ?_ (or_iff_left (not_not_intro trivial)).symm
    simp only [State.next]
    split
    · split_ifs <;> exact Iff.rfl
    · exact Iff.rfl
  | put front =>
    refine Iff.trans ?_ (or_iff_left (not_not_intro trivial)).symm
    cases giver with
    | locked e =>
      have hstop : stop = false := by
        cases stop with
        | true => simpa using h.stopped rfl
        | false => rfl
      simp [State.next, State.LeftOver, hstop]
    | idle => exact Iff.rfl
    | queued => exact Iff.rfl
    | unlocked => exact Iff.rfl
  | unlock =>
    refine Iff.trans ?_ (or_iff_left (not_not_intro trivial)).symm
    cases giver <;> exact Iff.rfl
  | signal =>
    refine Iff.trans ?_ (or_iff_left (not_not_intro trivial)).symm
    cases giver <;> simp [State.next, State.LeftOver]
  | stop =>
    cases giver with
    | idle =>
      simp only [State.next, State.LeftOver, InTime, Giver.isIdle]
      tauto
    | locked e => simp [State.next, InTime, Giver.isIdle]
    | queued => simp [State.next, InTime, Giver.isIdle]
    | unlocked => simp [State.next, InTime, Giver.isIdle]
  | take => exact h.takerStep_leftOver.trans (or_iff_left (not_not_intro trivial)).symm
  | wake rv =>
    refine Iff.trans ?_ (or_iff_left (not_not_intro trivial)).symm
    simp [State.next, State.LeftOver]

theorem State.leftOver_of_ended {s : State ρ} (hended : s.taker = .ended) (hstop : s.stop = true) :
    s.LeftOver ↔ s.queue ≠ [] := by
  simp [State.LeftOver, hended, hstop, Taker.leaves]

/-! ## A wait that fails -/

/-- The step is no wait that fails. -/
def NotFailed (s : State ρ) : Act ρ → Prop
  | .wake .failed => s.taker.isWaiting = false
  | _ => True

theorem Taker.wake_of_not_waiting {t : Taker ρ} (h : t.isWaiting = false) (rv : WaitRv) :
    t.wake rv = t := by
  cases t with
  | waiting => simp [isWaiting] at h
  | top => rfl
  | locked rv' => rfl
  | awake rv' => rfl
  | taken q => rfl
  | got q => rfl
  | handling q => rfl
  | handled q => rfl
  | ended => rfl

section
variable {s : State ρ}

theorem State.Ok.takerStep_broken (h : s.Ok) : (Handoff.takerStep s).Broken ↔ s.Broken := by
  obtain ⟨giver, taker, lock, queue, stop, given, done⟩ := s
  cases taker with
  | top =>
    simp only [Handoff.takerStep]
    split_ifs with hlock
    · simp [State.Broken, hlock]
    · exact Iff.rfl
  | locked rv =>
    cases rv with
    | ok =>
      simp only [Handoff.takerStep]
      split_ifs <;> simp [State.Broken]
    | timedOut => simp [Handoff.takerStep, State.Broken]
    | failed =>
      have hlock : lock = some .taker := h.taker_locked rfl
      simp [Handoff.takerStep, State.Broken, hlock]
  | waiting => exact Iff.rfl
  | awake rv =>
    simp only [Handoff.takerStep]
    split_ifs <;> simp [State.Broken]
  | taken q => simp [Handoff.takerStep, State.Broken]
  | got q =>
    have hout : lock ≠ some .taker := h.not_locked rfl (by simp [State.Broken])
    cases q with
    | none => cases stop <;> simp [Handoff.takerStep, State.Broken, hout]
    | some q => simp [Handoff.takerStep, State.Broken]
  | handling q => simp [Handoff.takerStep, State.Broken]
  | handled q =>
    have hout : lock ≠ some .taker := h.not_locked rfl (by simp [State.Broken])
    simp [Handoff.takerStep, State.Broken, hout]
  | ended => exact Iff.rfl

/-- The end of a wait breaks the loop exactly when the wait fails. -/
theorem State.wake_broken (rv : WaitRv) :
    State.Broken { s with taker := s.taker.wake rv } ↔ s.Broken ∨ ¬NotFailed s (.wake rv) := by
  cases hwaiting : s.taker.isWaiting with
  | false =>
    rw [Taker.wake_of_not_waiting hwaiting]
    cases rv <;> simp [NotFailed, hwaiting, State.Broken]
  | true =>
    have htaker : s.taker = .waiting := by
      cases htaker : s.taker <;> simp [htaker, Taker.isWaiting] at hwaiting ⊢
    cases rv <;> simp [NotFailed, State.Broken, htaker, Taker.wake, Taker.isWaiting]

/-- Only a wait that fails breaks the loop, and nothing repairs it. -/
theorem State.Ok.next_broken (h : s.Ok) (a : Act ρ) :
    (s.next a).Broken ↔ s.Broken ∨ ¬NotFailed s a := by
  obtain ⟨giver, taker, lock, queue, stop, given, done⟩ := s
  cases a with
  | lock e =>
    refine Iff.trans ?_ (or_iff_left (not_not_intro trivial)).symm
    cases giver with
    | idle =>
      simp only [State.next]
      split_ifs with hfree
      · simp [State.Broken, hfree.2]
      · exact Iff.rfl
    | locked e' => exact Iff.rfl
    | queued => exact Iff.rfl
    | unlocked => exact Iff.rfl
  | put front =>
    refine Iff.trans ?_ (or_iff_left (not_not_intro trivial)).symm
    cases giver <;> exact Iff.rfl
  | unlock =>
    refine Iff.trans ?_ (or_iff_left (not_not_intro trivial)).symm
    cases giver with
    | queued =>
      have hlock : lock = some .giver := h.giver_locked rfl
      simp [State.next, State.Broken, hlock]
    | idle => exact Iff.rfl
    | locked e => exact Iff.rfl
    | unlocked => exact Iff.rfl
  | signal =>
    refine Iff.trans ?_ (or_iff_left (not_not_intro trivial)).symm
    cases giver with
    | unlocked =>
      exact State.wake_broken (s := ⟨.idle, taker, lock, queue, stop, given, done⟩) .ok |>.trans
        (or_iff_left (not_not_intro trivial))
    | idle => exact Iff.rfl
    | locked e => exact Iff.rfl
    | queued => exact Iff.rfl
  | stop =>
    refine Iff.trans ?_ (or_iff_left (not_not_intro trivial)).symm
    cases giver <;> exact Iff.rfl
  | take => exact h.takerStep_broken.trans (or_iff_left (not_not_intro trivial)).symm
  | wake rv => exact State.wake_broken rv

end

/-! ## The way to the end -/

/-- How far the taker is from its end under the flag, when every wait runs to its deadline. -/
def Taker.rank (n : ℕ) : Taker ρ → ℕ
  | .taken (some _) => 10 * n + 11
  | .got (some _) => 10 * n + 10
  | .handling _ => 10 * n + 9
  | .handled _ => 10 * n + 8
  | .top | .awake .ok | .awake .failed => 10 * n + 7
  | .locked .ok | .locked .failed => 10 * n + 6
  | .waiting => 10 * n + 5
  | .awake .timedOut => 10 * n + 4
  | .locked .timedOut => 10 * n + 3
  | .taken none => 2
  | .got none => 1
  | .ended => 0

def State.rank (s : State ρ) : ℕ := s.taker.rank s.queue.length

/-- The next step towards the end. -/
def State.towardsEnd (s : State ρ) : Act ρ := if s.taker.isWaiting then .wake .timedOut else .take

section
variable {s : State ρ}

/-- Nobody holds the lock. -/
theorem State.Ok.lock_free (h : s.Ok) (hbroken : ¬s.Broken) (hgiver : s.giver.holds = false)
    (htaker : s.taker.holds = false) : s.lock = none := by
  cases hlock : s.lock with
  | none => rfl
  | some holder =>
    cases holder with
    | giver => simpa [hgiver] using h.locked_giver hlock
    | taker => exact absurd hlock (h.not_locked htaker hbroken)

theorem State.Ok.rank_lt (h : s.Ok) (hbroken : ¬s.Broken) (hgiver : s.giver.holds = false)
    (hstop : s.stop = true) (hended : s.taker ≠ .ended) :
    (s.next s.towardsEnd).rank < s.rank := by
  obtain ⟨giver, taker, lock, queue, stop, given, done⟩ := s
  obtain rfl : stop = true := hstop
  cases taker with
  | top =>
    obtain rfl : lock = none := h.lock_free hbroken hgiver rfl
    simp [State.towardsEnd, State.next, Handoff.takerStep, State.rank, Taker.rank, Taker.isWaiting]
  | locked rv =>
    cases rv with
    | ok =>
      cases queue with
      | nil =>
        simp [State.towardsEnd, State.next, Handoff.takerStep, State.rank, Taker.rank, Taker.isWaiting]
      | cons e queue =>
        simp [State.towardsEnd, State.next, Handoff.takerStep, State.rank, Taker.rank, Taker.isWaiting]
        omega
    | timedOut =>
      cases queue with
      | nil =>
        simp [State.towardsEnd, State.next, Handoff.takerStep, State.rank, Taker.rank, Taker.isWaiting]
      | cons e queue =>
        simp [State.towardsEnd, State.next, Handoff.takerStep, State.rank, Taker.rank, Taker.isWaiting]
        omega
    | failed => exact absurd (Or.inr (Or.inl rfl)) hbroken
  | waiting =>
    simp [State.towardsEnd, State.next, State.rank, Taker.rank, Taker.isWaiting, Taker.wake]
  | awake rv =>
    obtain rfl : lock = none := h.lock_free hbroken hgiver rfl
    cases rv with
    | ok => simp [State.towardsEnd, State.next, Handoff.takerStep, State.rank, Taker.rank, Taker.isWaiting]
    | timedOut =>
      simp [State.towardsEnd, State.next, Handoff.takerStep, State.rank, Taker.rank, Taker.isWaiting]
    | failed => exact absurd (Or.inl rfl) hbroken
  | taken q =>
    cases q <;>
      simp [State.towardsEnd, State.next, Handoff.takerStep, State.rank, Taker.rank, Taker.isWaiting]
  | got q =>
    cases q <;>
      simp [State.towardsEnd, State.next, Handoff.takerStep, State.rank, Taker.rank, Taker.isWaiting]
  | handling q =>
    simp [State.towardsEnd, State.next, Handoff.takerStep, State.rank, Taker.rank, Taker.isWaiting]
  | handled q =>
    simp [State.towardsEnd, State.next, Handoff.takerStep, State.rank, Taker.rank, Taker.isWaiting]
  | ended => exact absurd rfl hended

end

end Handoff
