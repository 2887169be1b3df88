import Moc.Client.Message
import Moc.Lib.Runs

/-!
# Two threads and one answer

A trigger with an event loop sends its request, makes a new `hdfrcv`, locks `mainsync` and waits; the
event loop locks `mainsync`, unpacks the answer into `hdfrcv`, unlocks and signals. No flag says that
the answer is there, so a signal before the wait wakes nobody, and a dataset that is made after the
unpacking takes its place. `answered_iff` says which orders of the steps bring the answer to the
caller.
-/

open Bytes Memory Runs

namespace Moc

variable {HDF : Type}

/-- How far `_mevt_trigger` is. -/
inductive TriggerPc where
  /-- before `tcp_srv_send` -/
  | sending
  /-- before the datasets are made anew -/
  | sent
  /-- before `mssync_lock`, with the deadline computed -/
  | renewed
  /-- before `mssync_timedwait`, with the lock held -/
  | locked
  /-- in the timed wait, without the lock -/
  | waiting
  /-- back from the wait, by a signal or not, before the lock is held again -/
  | awake (woken : Bool)
  /-- out of `mssync_timedwait`, with the lock held -/
  | relocked (woken : Bool)
  | returned (rv : ℤ)
  deriving DecidableEq

/-- How far `msparse_msg` is with the answer. -/
inductive EventPc where
  | idle
  /-- before `unpack_hdf`, with the lock held -/
  | locked
  /-- before `mssync_unlock` -/
  | unpacked
  /-- before the test of what `unpack_hdf` returned -/
  | unlocked
  /-- before `mssync_signal` -/
  | parsed
  | done
  deriving DecidableEq

/-- Who may hold the lock of `mainsync`. -/
inductive Holder where
  | trigger
  | eventLoop
  deriving DecidableEq

/-- The two threads, what they share, and whether the deadline of the wait has passed. `inTime` says
that the answer was parsed and signalled before it. -/
structure Mainsync (HDF : Type) where
  trigger : TriggerPc
  event : EventPc
  lock : Option Holder
  evt : MocT HDF
  expired : Bool
  inTime : Bool

/-- The trigger is about to send. -/
def Mainsync.start (evt : MocT HDF) : Mainsync HDF := ⟨.sending, .idle, none, evt, false, false⟩

/-- A step of one of the threads, or of the time. -/
inductive SyncStep where
  | trigger
  | eventLoop
  | deadline
  deriving DecidableEq

/-- The next step of `_mevt_trigger`. A thread that waits for the lock stays where it is. -/
def triggerStep (H : HdfLib HDF) (s : Mainsync HDF) : Mainsync HDF :=
  match s.trigger with
  | .sending => { s with trigger := .sent }
  | .sent =>
    { s with trigger := .renewed, evt := { s.evt with hdfsnd := H.init, hdfrcv := H.init } }
  | .renewed => if s.lock = none then { s with trigger := .locked, lock := some .trigger } else s
  | .locked => { s with trigger := if s.expired then .awake false else .waiting, lock := none }
  | .waiting => if s.expired then { s with trigger := .awake false } else s
  | .awake woken =>
    if s.lock = none then { s with trigger := .relocked woken, lock := some .trigger } else s
  | .relocked woken =>
    let (rv, evt) := mevtTriggerWait H woken s.evt
    { s with trigger := .returned rv, lock := none, evt := evt }
  | .returned _ => s

/-- The next step of `msparse_msg` on an answer, of which `unpack_hdf` makes `answer`; an answer too
short for a dataset is none. The signal wakes a trigger that waits and no other. -/
def eventStep (answer : Option (ℕ × HDF)) (s : Mainsync HDF) : Mainsync HDF :=
  match s.event, answer with
  | .idle, none => if s.trigger = .sending then s else { s with event := .parsed }
  | .idle, some _ =>
    if s.trigger ≠ .sending ∧ s.lock = none then { s with event := .locked, lock := some .eventLoop }
    else s
  | .locked, some (_, hdfrcv) =>
    { s with event := .unpacked, evt := { s.evt with hdfrcv := hdfrcv } }
  | .locked, none => s
  | .unpacked, _ => { s with event := .unlocked, lock := none }
  | .unlocked, some (rv, _) => { s with event := if rv = 0 then .done else .parsed }
  | .unlocked, none => s
  | .parsed, _ =>
    { s with
      event := .done
      trigger := if s.trigger = .waiting then .awake true else s.trigger
      inTime := !s.expired }
  | .done, _ => s

/-- The deadline passes, once the trigger has computed it. -/
def deadlineStep (s : Mainsync HDF) : Mainsync HDF :=
  if s.trigger = .sending ∨ s.trigger = .sent then s else { s with expired := true }

def syncStep (H : HdfLib HDF) (answer : Option (ℕ × HDF)) (s : Mainsync HDF) :
    SyncStep → Mainsync HDF
  | .trigger => triggerStep H s
  | .eventLoop => eventStep answer s
  | .deadline => deadlineStep s

/-! ## The sequential reading -/

/-- What `unpack_hdf` makes of an answer, or none when the answer is too short for a dataset. -/
def answerOf (H : HdfLib HDF) (buf : List UInt8) (len : ℕ) : Except Fault (Option (ℕ × HDF)) :=
  if len - 8 ≥ 4 then do
    let r ← unpackHdf H buf 12 (len - 8 - 4)
    return some r
  else return none

section
variable {H : PushLib HDF} {g id reply len : ℕ} {calloc : Bool} {st : MsState HDF}
  {buf : List UInt8} {answer : Option (ℕ × HDF)}

/-- `msparse_msg` on an answer that is not old. -/
theorem msparseMsg_answer (hlen : 8 ≤ len) (hid : load32 buf 0 = .ok id)
    (hreply : load32 buf 4 = .ok reply) (hpush : ¬(id = 0 ∧ reply = 10000)) (hg : g ≤ id)
    (hanswer : answerOf H.toHdfLib buf len = .ok answer) :
    msparseMsg H g calloc st buf len = match answer with
      | none => .ok ({ st with mainsync := st.mainsync + 1 }, none)
      | some (rv, hdfrcv) =>
        let st := { st with evt := { st.evt with hdfrcv := hdfrcv } }
        if rv = 0 then .ok (st, some ⟨nerrAssert, ascii "server responsed illegal message"⟩)
        else .ok ({ st with mainsync := st.mainsync + 1 }, none) := by
  unfold msparseMsg
  rw [if_neg (by omega), hid, ok_bind, hreply, ok_bind]
  dsimp only
  rw [if_neg hpush, if_neg (by omega)]
  unfold answerOf at hanswer
  by_cases hsize : len - 8 ≥ 4
  · rw [if_pos hsize] at hanswer ⊢
    obtain ⟨r, hunpack, hsome⟩ := bind_eq_ok.mp hanswer
    cases hsome
    rw [hunpack]
    rfl
  · rw [if_neg hsize] at hanswer ⊢
    cases hanswer
    rfl

theorem mevtTriggerEloop_eq {st' : MsState HDF} {err : Option NeoErr}
    (h : msparseMsg H g calloc st buf len = .ok (st', err)) :
    mevtTriggerEloop H g calloc st buf len =
      .ok ((mevtTriggerWait H.toHdfLib (st.mainsync < st'.mainsync) st'.evt).1, { st' with
        evt := (mevtTriggerWait H.toHdfLib (st.mainsync < st'.mainsync) st'.evt).2 }) := by
  unfold mevtTriggerEloop
  rw [h]
  rfl

/-- The trigger waits and the event loop has not begun. -/
def Mainsync.waits (evt : MocT HDF) : Mainsync HDF := ⟨.waiting, .idle, none, evt, false, false⟩

/-- The event loop's steps, the deadline, and the trigger's way out of the wait. -/
def oneByOne : List SyncStep := List.replicate 5 .eventLoop ++ .deadline :: List.replicate 3 .trigger

/-- When the answer comes while the trigger waits, the steps of the two threads do what the trigger
and `msparse_msg` do one after the other. -/
theorem mevtTriggerEloop_steps (hlen : 8 ≤ len) (hid : load32 buf 0 = .ok id)
    (hreply : load32 buf 4 = .ok reply) (hpush : ¬(id = 0 ∧ reply = 10000)) (hg : g ≤ id)
    (hanswer : answerOf H.toHdfLib buf len = .ok answer) :
    ∃ rv st', mevtTriggerEloop H g calloc st buf len = .ok (rv, st') ∧
      (oneByOne.foldl (syncStep H.toHdfLib answer) (.waits st.evt)).trigger = .returned rv ∧
      (oneByOne.foldl (syncStep H.toHdfLib answer) (.waits st.evt)).evt = st'.evt := by
  have hmsg : msparseMsg H g calloc st buf len = _ :=
    msparseMsg_answer hlen hid hreply hpush hg hanswer
  match answer with
  | none =>
    refine ⟨_, _, mevtTriggerEloop_eq hmsg, ?_, ?_⟩ <;>
      simp [oneByOne, Mainsync.waits, syncStep, eventStep, triggerStep, deadlineStep]
  | some (rv, hdfrcv) =>
    by_cases hrv : rv = 0
    · -- The illegal message signals nobody, and the deadline ends the wait.
      simp only [if_pos hrv] at hmsg
      refine ⟨_, _, mevtTriggerEloop_eq hmsg, ?_, ?_⟩ <;>
        simp [oneByOne, Mainsync.waits, syncStep, eventStep, triggerStep, deadlineStep, hrv]
    · simp only [if_neg hrv] at hmsg
      refine ⟨_, _, mevtTriggerEloop_eq hmsg, ?_, ?_⟩ <;>
        simp [oneByOne, Mainsync.waits, syncStep, eventStep, triggerStep, deadlineStep, hrv]

end

/-! ## What holds while nothing is overtaken -/

/-- The trigger has made `hdfrcv` anew. -/
def TriggerPc.renewedYet : TriggerPc → Bool
  | .sending | .sent => false
  | _ => true

/-- A signal has ended the wait. -/
def TriggerPc.succeeded : TriggerPc → Bool
  | .awake woken | .relocked woken => woken
  | .returned rv => rv = repOk
  | _ => false

/-- The deadline has ended the wait. -/
def TriggerPc.gaveUp : TriggerPc → Bool
  | .awake woken | .relocked woken => !woken
  | .returned rv => rv ≠ repOk
  | _ => false

/-- The trigger holds the lock. -/
def TriggerPc.holds : TriggerPc → Bool
  | .locked | .relocked _ => true
  | _ => false

/-- The event loop has unpacked what there is to unpack. -/
def EventPc.unpackedYet : EventPc → Bool
  | .idle | .locked => false
  | _ => true

/-- The event loop holds the lock. -/
def EventPc.holds : EventPc → Bool
  | .locked | .unpacked => true
  | _ => false

/-- The dataset of an answer. -/
def answerData (H : HdfLib HDF) (answer : Option (ℕ × HDF)) : HDF := (answer.map Prod.snd).getD H.init

/-- The steps of the event loop that the trigger does not overtake: the dataset is unpacked into the
new `hdfrcv`, if there is any, and a signal in time finds the trigger waiting. -/
def NotOvertaken (H : HdfLib HDF) (answer : Option (ℕ × HDF)) (s : Mainsync HDF) : SyncStep → Prop
  | .eventLoop =>
    (s.event = .locked → s.trigger = .sent → answerData H answer = H.init) ∧
      (s.event = .parsed → s.expired = false → s.trigger = .waiting)
  | _ => True

/-- The invariant of the runs in which nothing is overtaken. -/
structure Mainsync.Ok (H : HdfLib HDF) (answer : Option (ℕ × HDF)) (s : Mainsync HDF) : Prop where
  lock_trigger : s.lock = some .trigger ↔ s.trigger.holds = true
  lock_event : s.lock = some .eventLoop ↔ s.event.holds = true
  sent : s.trigger = .sending → s.event = .idle
  expired : s.trigger.gaveUp = true → s.expired = true
  signalled : s.trigger.succeeded = true → s.event = .done
  woken : s.inTime = true → s.trigger.succeeded = true
  early : s.event.unpackedYet = true → s.trigger.renewedYet = false → answerData H answer = H.init
  dataset : s.trigger.renewedYet = true → (∀ rv, s.trigger = .returned rv → rv = repOk) →
    s.evt.hdfrcv = if s.event.unpackedYet then answerData H answer else H.init

theorem Mainsync.start_ok (H : HdfLib HDF) (answer : Option (ℕ × HDF)) (evt : MocT HDF) :
    (Mainsync.start evt).Ok H answer where
  lock_trigger := iff_of_false nofun nofun
  lock_event := iff_of_false nofun nofun
  sent _ := rfl
  expired := nofun
  signalled := nofun
  woken := nofun
  early := nofun
  dataset := nofun

theorem repErr_ne_repOk : (repErr : ℤ) ≠ repOk := by decide

theorem succeeded_returned {rv : ℤ} : (TriggerPc.returned rv).succeeded = true ↔ rv = repOk :=
  decide_eq_true_iff

theorem gaveUp_returned {rv : ℤ} : (TriggerPc.returned rv).gaveUp = true ↔ rv ≠ repOk :=
  decide_eq_true_iff

section
variable {H : HdfLib HDF} {answer : Option (ℕ × HDF)} {s : Mainsync HDF}

theorem Mainsync.Ok.deadline_keeps (h : s.Ok H answer) : (deadlineStep s).Ok H answer := by
  unfold deadlineStep
  split_ifs with hearly
  · exact h
  · exact { h with expired := fun _ => rfl }

/-- The event loop is not where it holds the lock. -/
theorem Mainsync.Ok.event_free (h : s.Ok H answer) (hlock : s.lock ≠ some .eventLoop)
    {lock : Option Holder} (hnew : lock ≠ some .eventLoop) :
    lock = some .eventLoop ↔ s.event.holds = true :=
  iff_of_false hnew fun hholds => hlock (h.lock_event.mpr hholds)

/-- The trigger is not where it holds the lock. -/
theorem Mainsync.Ok.trigger_free (h : s.Ok H answer) (hlock : s.lock ≠ some .trigger)
    {lock : Option Holder} (hnew : lock ≠ some .trigger) :
    lock = some .trigger ↔ s.trigger.holds = true :=
  iff_of_false hnew fun hholds => hlock (h.lock_trigger.mpr hholds)

theorem Mainsync.Ok.trigger_keeps (h : s.Ok H answer) : (triggerStep H s).Ok H answer := by
  obtain ⟨pc, event, lock, evt, expired, inTime⟩ := s
  cases pc with
  | sending => exact { h with sent := nofun, dataset := nofun }
  | sent =>
    -- The new dataset takes the place of one that was unpacked before, which `early` says is empty.
    refine { h with sent := nofun, early := nofun, dataset := fun _ _ => ?_ }
    show H.init = if event.unpackedYet then answerData H answer else H.init
    split_ifs with hunpacked
    · exact (h.early hunpacked rfl).symm
    · rfl
  | renewed =>
    cases lock with
    | some holder => exact h
    | none =>
      exact { h with
        lock_trigger := iff_of_true rfl rfl
        lock_event := h.event_free nofun nofun
        sent := nofun
        dataset := fun _ _ => h.dataset rfl nofun }
  | locked =>
    have hlock : lock = some .trigger := h.lock_trigger.mpr rfl
    have hfree : none = some Holder.eventLoop ↔ event.holds = true :=
      h.event_free (by rw [hlock]; exact nofun) nofun
    cases expired with
    | false =>
      exact { h with
        lock_trigger := iff_of_false nofun nofun
        lock_event := hfree
        sent := nofun
        dataset := fun _ _ => h.dataset rfl nofun }
    | true =>
      exact { h with
        lock_trigger := iff_of_false nofun nofun
        lock_event := hfree
        sent := nofun
        expired := fun _ => rfl
        dataset := fun _ _ => h.dataset rfl nofun }
  | waiting =>
    cases expired with
    | false => exact h
    | true =>
      exact { h with
        sent := nofun
        expired := fun _ => rfl
        dataset := fun _ _ => h.dataset rfl nofun }
  | awake woken =>
    cases lock with
    | some holder => exact h
    | none =>
      exact { h with
        lock_trigger := iff_of_true rfl rfl
        lock_event := h.event_free nofun nofun
        sent := nofun
        dataset := fun _ _ => h.dataset rfl nofun }
  | relocked woken =>
    have hlock : lock = some .trigger := h.lock_trigger.mpr rfl
    have hfree : none = some Holder.eventLoop ↔ event.holds = true :=
      h.event_free (by rw [hlock]; exact nofun) nofun
    cases woken with
    | false =>
      exact { h with
        lock_trigger := iff_of_false nofun nofun
        lock_event := hfree
        sent := nofun
        expired := fun _ => h.expired rfl
        signalled := fun hok => absurd (succeeded_returned.mp hok) repErr_ne_repOk
        woken := fun hin => absurd (h.woken hin) Bool.false_ne_true
        dataset := fun _ hret => absurd (hret _ rfl) repErr_ne_repOk }
    | true =>
      exact { h with
        lock_trigger := iff_of_false nofun nofun
        lock_event := hfree
        sent := nofun
        expired := fun hne => absurd rfl (gaveUp_returned.mp hne)
        signalled := fun _ => h.signalled rfl
        woken := fun _ => succeeded_returned.mpr rfl
        dataset := fun _ _ => h.dataset rfl nofun }
  | returned rv => exact h

theorem Mainsync.Ok.event_keeps (h : s.Ok H answer) (hstep : NotOvertaken H answer s .eventLoop) :
    (eventStep answer s).Ok H answer := by
  obtain ⟨pc, event, lock, evt, expired, inTime⟩ := s
  obtain ⟨hunpack, hsignal⟩ := hstep
  cases event with
  | idle =>
    cases answer with
    | none =>
      unfold eventStep
      dsimp only
      split_ifs with hpc
      · exact h
      · exact { h with
          sent := fun hsending => absurd hsending hpc
          signalled := fun hok => absurd (h.signalled hok) nofun
          early := fun _ _ => rfl
          dataset := fun hrenewed hret => h.dataset hrenewed hret }
    | some r =>
      unfold eventStep
      dsimp only
      split_ifs with hpc
      · exact { h with
          lock_trigger := h.trigger_free (by rw [hpc.2]; exact nofun) nofun
          lock_event := iff_of_true rfl rfl
          sent := fun hsending => absurd hsending hpc.1
          signalled := fun hok => absurd (h.signalled hok) nofun }
      · exact h
  | locked =>
    cases answer with
    | none => exact h
    | some r =>
      -- From here on `hdfrcv` is the answer's dataset, or is still to be made anew and the answer's
      -- dataset is empty.
      refine { h with
        sent := fun hsending => absurd (h.sent hsending) nofun
        signalled := fun hok => absurd (h.signalled hok) nofun
        early := fun _ hold => ?_
        dataset := fun _ _ => rfl }
      cases pc with
      | sending => exact absurd (h.sent rfl) nofun
      | sent => exact hunpack rfl rfl
      | renewed | locked | waiting | awake _ | relocked _ | returned _ => cases hold
  | unpacked =>
    have hlock : lock = some .eventLoop := h.lock_event.mpr rfl
    exact { h with
      lock_trigger := h.trigger_free (by rw [hlock]; exact nofun) nofun
      lock_event := iff_of_false nofun nofun
      sent := fun hsending => absurd (h.sent hsending) nofun
      signalled := fun hok => absurd (h.signalled hok) nofun }
  | unlocked =>
    cases answer with
    | none => exact h
    | some r =>
      unfold eventStep
      dsimp only
      split_ifs with hrv
      · exact { h with
          sent := fun hsending => absurd (h.sent hsending) nofun
          signalled := fun _ => rfl }
      · exact { h with
          sent := fun hsending => absurd (h.sent hsending) nofun
          signalled := fun hok => absurd (h.signalled hok) nofun }
  | parsed =>
    unfold eventStep
    dsimp only
    split_ifs with hpc
    · subst hpc
      exact { h with
        sent := nofun
        expired := nofun
        signalled := fun _ => rfl
        woken := fun _ => rfl
        dataset := fun _ _ => h.dataset rfl nofun }
    · -- The signal wakes nobody, which it may after the deadline.
      refine { h with
        sent := fun hsending => absurd (h.sent hsending) nofun
        signalled := fun _ => rfl
        woken := fun hin => absurd (hsignal rfl ?_) hpc }
      exact Bool.eq_false_of_not_eq_true' hin
  | done => exact h

theorem Mainsync.Ok.step_keeps {i : SyncStep} (h : s.Ok H answer) (hstep : NotOvertaken H answer s i) :
    (syncStep H answer s i).Ok H answer := by
  cases i with
  | trigger => exact h.trigger_keeps
  | eventLoop => exact h.event_keeps hstep
  | deadline => exact h.deadline_keeps

end

/-! ## What is lost once something is overtaken -/

section
variable (H : HdfLib HDF) (s : Mainsync HDF)

@[simp] theorem triggerStep_event : (triggerStep H s).event = s.event := by
  unfold triggerStep
  split <;> try split_ifs
  all_goals rfl

theorem triggerStep_ne_sending : (triggerStep H s).trigger ≠ .sending := by
  obtain ⟨pc, event, lock, evt, expired, inTime⟩ := s
  cases pc with
  | renewed => cases lock <;> exact nofun
  | awake woken => cases lock <;> exact nofun
  | locked => cases expired <;> exact nofun
  | waiting => cases expired <;> exact nofun
  | sending | sent | relocked _ | returned _ => exact nofun

/-- The trigger's own steps do not decide whether it succeeds. -/
@[simp] theorem triggerStep_succeeded :
    (triggerStep H s).trigger.succeeded = s.trigger.succeeded := by
  obtain ⟨pc, event, lock, evt, expired, inTime⟩ := s
  cases pc with
  | renewed => cases lock <;> rfl
  | awake woken => cases lock <;> rfl
  | locked => cases expired <;> rfl
  | waiting => cases expired <;> rfl
  | relocked woken =>
    cases woken with
    | false => exact Bool.eq_false_iff.mpr fun hok => repErr_ne_repOk (succeeded_returned.mp hok)
    | true => exact succeeded_returned.mpr rfl
  | sending | sent | returned _ => rfl

/-- The trigger has not returned with an error. -/
def Mainsync.Unfailed (s : Mainsync HDF) : Prop := ∀ rv, s.trigger = .returned rv → rv = repOk

/-- A dataset that was made anew was so in this step, or the step leaves it alone. -/
theorem triggerStep_dataset (hrenewed : (triggerStep H s).trigger.renewedYet = true)
    (hret : (triggerStep H s).Unfailed) : (triggerStep H s).evt.hdfrcv = H.init ∨
      s.trigger.renewedYet = true ∧ s.Unfailed ∧ (triggerStep H s).evt = s.evt := by
  obtain ⟨pc, event, lock, evt, expired, inTime⟩ := s
  cases pc with
  | sending => exact absurd hrenewed Bool.false_ne_true
  | sent => exact Or.inl rfl
  | renewed => cases lock <;> exact Or.inr ⟨rfl, nofun, rfl⟩
  | awake woken => cases lock <;> exact Or.inr ⟨rfl, nofun, rfl⟩
  | locked => exact Or.inr ⟨rfl, nofun, rfl⟩
  | waiting => cases expired <;> exact Or.inr ⟨rfl, nofun, rfl⟩
  | relocked woken =>
    cases woken with
    | false => exact absurd (hret _ rfl) repErr_ne_repOk
    | true => exact Or.inr ⟨rfl, nofun, rfl⟩
  | returned rv => exact Or.inr ⟨rfl, hret, rfl⟩

end

/-- The signal is over, and it did not wake the trigger. -/
def Mainsync.Missed (s : Mainsync HDF) : Prop :=
  s.event = .done ∧ s.trigger ≠ .sending ∧ s.trigger.succeeded = false

/-- The answer's dataset is unpacked, and the trigger's new dataset takes its place. -/
def Mainsync.Emptied (H : HdfLib HDF) (answer : Option (ℕ × HDF)) (s : Mainsync HDF) : Prop :=
  s.event.unpackedYet = true ∧ s.trigger ≠ .sending ∧ answerData H answer ≠ H.init ∧
    (s.trigger.renewedYet = true → s.Unfailed → s.evt.hdfrcv = H.init)

/-- The caller does not get the answer, whatever comes. -/
def Mainsync.Lost (H : HdfLib HDF) (answer : Option (ℕ × HDF)) (s : Mainsync HDF) : Prop :=
  s.Missed ∨ s.Emptied H answer

section
variable {H : HdfLib HDF} {answer : Option (ℕ × HDF)} {s : Mainsync HDF}

theorem Mainsync.Missed.keeps (h : s.Missed) (i : SyncStep) : (syncStep H answer s i).Missed := by
  obtain ⟨hdone, hsending, hfailed⟩ := h
  cases i with
  | trigger =>
    -- Without a signal the trigger leaves the wait by the deadline.
    exact ⟨(triggerStep_event H s).trans hdone, triggerStep_ne_sending H s,
      (triggerStep_succeeded H s).trans hfailed⟩
  | eventLoop =>
    have hstay : eventStep answer s = s := by
      unfold eventStep
      rw [hdone]
    rw [syncStep, hstay]
    exact ⟨hdone, hsending, hfailed⟩
  | deadline =>
    unfold syncStep deadlineStep
    dsimp only
    split_ifs
    · exact ⟨hdone, hsending, hfailed⟩
    · exact ⟨hdone, hsending, hfailed⟩

theorem Mainsync.Emptied.keeps (h : s.Emptied H answer) (i : SyncStep) :
    (syncStep H answer s i).Emptied H answer := by
  obtain ⟨hunpacked, hsending, hne, hempty⟩ := h
  cases i with
  | trigger =>
    refine ⟨by rwa [syncStep, triggerStep_event], triggerStep_ne_sending H s, hne, ?_⟩
    intro hrenewed hret
    rcases triggerStep_dataset H s hrenewed hret with hinit | ⟨hbefore, hunfailed, hevt⟩
    · exact hinit
    · rw [syncStep, hevt]
      exact hempty hbefore hunfailed
  | eventLoop =>
    -- The event loop does not unpack again.
    obtain ⟨pc, event, lock, evt, expired, inTime⟩ := s
    cases event with
    | idle | locked => cases hunpacked
    | unpacked => exact ⟨rfl, hsending, hne, hempty⟩
    | unlocked =>
      unfold syncStep eventStep
      cases answer with
      | none => exact ⟨rfl, hsending, hne, hempty⟩
      | some r =>
        refine ⟨?_, hsending, hne, hempty⟩
        dsimp only
        split_ifs <;> rfl
    | parsed =>
      unfold syncStep eventStep
      dsimp only
      split_ifs with hpc
      · subst hpc
        exact ⟨rfl, nofun, hne, fun _ _ => hempty rfl nofun⟩
      · exact ⟨rfl, hsending, hne, hempty⟩
    | done => exact ⟨rfl, hsending, hne, hempty⟩
  | deadline =>
    unfold syncStep deadlineStep
    dsimp only
    split_ifs
    · exact ⟨hunpacked, hsending, hne, hempty⟩
    · exact ⟨hunpacked, hsending, hne, hempty⟩

theorem Mainsync.Lost.keeps (h : s.Lost H answer) (i : SyncStep) :
    (syncStep H answer s i).Lost H answer :=
  h.imp (fun h => h.keeps i) fun h => h.keeps i

/-- A step that is overtaken loses the answer. -/
theorem Mainsync.Ok.lost {i : SyncStep} (h : s.Ok H answer) (hstep : ¬NotOvertaken H answer s i) :
    (syncStep H answer s i).Lost H answer := by
  cases i with
  | trigger => exact absurd trivial hstep
  | deadline => exact absurd trivial hstep
  | eventLoop =>
    obtain ⟨pc, event, lock, evt, expired, inTime⟩ := s
    unfold NotOvertaken at hstep
    rw [not_and_or] at hstep
    rcases hstep with hunpack | hsignal
    · right
      push Not at hunpack
      obtain ⟨hlocked, hpc, hne⟩ := hunpack
      dsimp only at hlocked hpc
      subst hlocked hpc
      cases answer with
      | none => exact absurd rfl hne
      | some r => exact ⟨rfl, nofun, hne, nofun⟩
    · left
      push Not at hsignal
      obtain ⟨hparsed, hearlier, hpc⟩ := hsignal
      dsimp only at hparsed hearlier hpc
      subst hparsed
      -- Before the signal nobody has succeeded, and the request was sent.
      have hfailed : pc.succeeded = false :=
        Bool.eq_false_iff.mpr fun hok => absurd (h.signalled hok) nofun
      unfold syncStep eventStep
      dsimp only
      rw [if_neg hpc]
      exact ⟨rfl, fun hsending => absurd (h.sent hsending) nofun, hfailed⟩

theorem Mainsync.Lost.not_returned (h : s.Lost H answer) (hpc : s.trigger = .returned repOk) :
    s.evt.hdfrcv ≠ answerData H answer := by
  rcases h with ⟨-, -, hfailed⟩ | ⟨-, -, hne, hempty⟩
  · rw [hpc, Bool.eq_false_iff] at hfailed
    exact absurd (succeeded_returned.mpr rfl) hfailed
  · rw [hempty (by rw [hpc]; rfl) fun rv hrv => by rw [hpc] at hrv; cases hrv; rfl]
    exact hne.symm

end

/-! ## The answer reaches the caller -/

/-- The trigger's own steps let it return, and whatever steps follow, it returns `REP_OK` and leaves
the answer's dataset in `hdfrcv`. -/
def Mainsync.Answered (H : HdfLib HDF) (answer : Option (ℕ × HDF)) (s : Mainsync HDF) : Prop :=
  (∃ n rv, ((List.replicate n SyncStep.trigger).foldl (syncStep H answer) s).trigger = .returned rv) ∧
    ∀ (is : List SyncStep) (rv : ℤ), (is.foldl (syncStep H answer) s).trigger = .returned rv →
      rv = repOk ∧ (is.foldl (syncStep H answer) s).evt.hdfrcv = answerData H answer

section
variable {H : HdfLib HDF} {answer : Option (ℕ × HDF)} {s : Mainsync HDF}

theorem Mainsync.Lost.not_answered (h : s.Lost H answer) : ¬s.Answered H answer := by
  rintro ⟨⟨n, rv, hret⟩, hall⟩
  obtain ⟨rfl, hdata⟩ := hall _ rv hret
  have hlost := foldl_keeps (I := Mainsync.Lost H answer) (fun _ i h => h.keeps i) h
    (List.replicate n .trigger)
  exact hlost.not_returned hret hdata

/-- A trigger that a signal has woken finds the lock free. -/
theorem Mainsync.Ok.returns (h : s.Ok H answer) (hwoken : s.trigger.succeeded = true) :
    ∃ n rv, ((List.replicate n SyncStep.trigger).foldl (syncStep H answer) s).trigger = .returned rv := by
  have hdone := h.signalled hwoken
  have hlock : s.lock ≠ some .eventLoop := by
    rw [Ne, h.lock_event, hdone]
    decide
  obtain ⟨pc, event, lock, evt, expired, inTime⟩ := s
  cases pc with
  | sending | sent | renewed | locked | waiting => exact absurd hwoken Bool.false_ne_true
  | returned rv => exact ⟨0, rv, rfl⟩
  | relocked woken => exact ⟨1, _, rfl⟩
  | awake woken =>
    have hfree : lock = none := by
      cases lock with
      | none => rfl
      | some holder =>
        cases holder with
        | trigger => exact absurd (h.lock_trigger.mp rfl) Bool.false_ne_true
        | eventLoop => exact absurd rfl hlock
    refine ⟨2, (mevtTriggerWait H woken evt).1, ?_⟩
    simp [syncStep, triggerStep, hfree]

/-- Once the answer was signalled in time and nothing was overtaken, the caller gets it. -/
theorem Mainsync.Ok.answered (h : s.Ok H answer) (hin : s.inTime = true) : s.Answered H answer := by
  have hwoken := h.woken hin
  refine ⟨h.returns hwoken, fun is rv hret => ?_⟩
  -- The event loop is done, so that nothing can be overtaken any more.
  have hkeep : ∀ s i, (s.Ok H answer ∧ s.trigger.succeeded = true) →
      ((syncStep H answer s i).Ok H answer ∧ (syncStep H answer s i).trigger.succeeded = true) := by
    rintro s i ⟨h, hwoken⟩
    have hdone := h.signalled hwoken
    have hstep : NotOvertaken H answer s i := by
      cases i with
      | eventLoop =>
        constructor <;> intro he <;> rw [he] at hdone <;> cases hdone
      | trigger => trivial
      | deadline => trivial
    refine ⟨h.step_keeps hstep, ?_⟩
    cases i with
    | trigger => exact (triggerStep_succeeded H s).trans hwoken
    | eventLoop =>
      have hstay : eventStep answer s = s := by
        unfold eventStep
        rw [hdone]
      rwa [syncStep, hstay]
    | deadline =>
      unfold syncStep deadlineStep
      dsimp only
      split_ifs <;> exact hwoken
  obtain ⟨hok, hsuccess⟩ := foldl_keeps hkeep ⟨h, hwoken⟩ is
  have hrv : rv = repOk := by
    rw [hret] at hsuccess
    exact succeeded_returned.mp hsuccess
  refine ⟨hrv, ?_⟩
  have hdata := hok.dataset (by rw [hret]; rfl) fun rv' hrv' => by
    rw [hret] at hrv'
    cases hrv'
    exact hrv
  rwa [hok.signalled hsuccess] at hdata

end

/-- In a run in which the answer was parsed in time, the caller gets it exactly when the trigger's
steps overtook none of the event loop's. -/
theorem answered_iff (H : HdfLib HDF) (answer : Option (ℕ × HDF)) (evt : MocT HDF)
    (is : List SyncStep) (hin : (is.foldl (syncStep H answer) (.start evt)).inTime = true) :
    (is.foldl (syncStep H answer) (.start evt)).Answered H answer ↔
      EachStep (syncStep H answer) (NotOvertaken H answer) (.start evt) is := by
  have hstart := Mainsync.start_ok H answer evt
  constructor
  · intro hanswered
    by_contra hlost
    exact (foldl_of_not_eachStep (I := Mainsync.Ok H answer) (D := Mainsync.Lost H answer)
      (fun _ _ h => h.step_keeps) (fun _ _ h => h.lost) (fun _ i h => h.keeps i) hstart
      hlost).not_answered hanswered
  · intro heach
    exact (foldl_of_eachStep (I := Mainsync.Ok H answer) (fun _ _ h => h.step_keeps) hstart
      heach).answered hin

/-- The answer comes while the trigger waits. -/
def answerAwaited : List SyncStep := List.replicate 4 .trigger ++ List.replicate 5 .eventLoop

/-- The answer comes before the trigger has made its new dataset and waits. -/
def answerFirst : List SyncStep :=
  .trigger :: List.replicate 5 .eventLoop ++ List.replicate 3 .trigger ++
    .deadline :: List.replicate 3 .trigger

/-- The answer is unpacked before the trigger has made its new dataset, and signalled while it
waits. -/
def unpackedFirst : List SyncStep :=
  .trigger :: List.replicate 3 .eventLoop ++ List.replicate 3 .trigger ++
    List.replicate 2 .eventLoop ++ List.replicate 2 .trigger

/-- An answer that is awaited reaches the caller. -/
theorem answered_awaited :
    (answerAwaited.foldl (syncStep textHdf (some (25, [98])))
      (.start (mevtCreate textHdf [97]))).Answered textHdf (some (25, [98])) :=
  (answered_iff textHdf (some (25, [98])) (mevtCreate textHdf [97]) answerAwaited rfl).mpr
    (by simp [answerAwaited, EachStep, NotOvertaken, syncStep, triggerStep, eventStep,
      Mainsync.start])

/-- Two answers in time: the one ends in a timeout, the other in `REP_OK` with an empty dataset. -/
theorem not_answered_overtaken :
    ((answerFirst.foldl (syncStep textHdf (some (25, [98])))
        (.start (mevtCreate textHdf [97]))).inTime = true ∧
      (answerFirst.foldl (syncStep textHdf (some (25, [98])))
        (.start (mevtCreate textHdf [97]))).trigger = .returned repErr) ∧
    (unpackedFirst.foldl (syncStep textHdf (some (25, [98])))
        (.start (mevtCreate textHdf [97]))).inTime = true ∧
      (unpackedFirst.foldl (syncStep textHdf (some (25, [98])))
        (.start (mevtCreate textHdf [97]))).trigger = .returned repOk ∧
      (unpackedFirst.foldl (syncStep textHdf (some (25, [98])))
        (.start (mevtCreate textHdf [97]))).evt.hdfrcv = [] :=
  ⟨⟨rfl, rfl⟩, rfl, rfl, rfl⟩

end Moc
