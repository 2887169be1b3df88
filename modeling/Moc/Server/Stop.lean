import Moc.Lib.Runs

/-!
# Stopping a plugin

`moc_stop_driver` of `server/mocd.c` on the main thread against the worker loop of
`moc_start_base_entry`. The main thread is also the one that queues requests, so it queues none once
it stops the plugin. `stop_driver` releases the plugin's cache and user table before the worker is
joined, and the worker ends only when it finds the queue empty. The queue is its list of entries.
-/

open Runs

namespace Moc

variable {ρ : Type}

/-- Where a worker stands in its loop. -/
inductive Worker (ρ : Type) where
  /-- Before `queue_get`, which it reaches when the queue is not empty or after a second. -/
  | waiting
  /-- Behind it, with its result. -/
  | got (q : Option ρ)
  /-- In `process_driver`. -/
  | processing (q : ρ)
  /-- Before `queue_entry_free`. -/
  | processed (q : ρ)
  /-- Behind the loop. -/
  | ended

/-- How far `moc_stop_driver` is. -/
inductive Stopping where
  | serving
  | flagged
  | released
  | joined
  deriving DecidableEq

/-- A plugin: `op_queue`, `loop_should_stop`, its worker, and the main thread. -/
structure DriverState (ρ : Type) where
  queue : List ρ
  loopShouldStop : Bool
  worker : Worker ρ
  main : Stopping

/-- A plugin that was just started. -/
def DriverState.new : DriverState ρ := ⟨[], false, .waiting, .serving⟩

/-- A step of the main thread or of the worker. -/
inductive StopAct (ρ : Type) where
  /-- The main thread queues an entry, at the end or in front. -/
  | put (e : ρ)
  | cas (e : ρ)
  /-- `e->loop_should_stop = 1` -/
  | setFlag
  /-- `e->stop_driver(e)` -/
  | stopDriver
  /-- `pthread_join` returns. -/
  | join
  /-- `queue_get` -/
  | get
  /-- What the worker does next with the result: process it, stop, or go on. -/
  | branch
  /-- `process_driver` returns. -/
  | finish
  /-- `queue_entry_free` -/
  | free

/-- One step. A step that its thread does not stand before changes nothing. -/
def DriverState.next (s : DriverState ρ) : StopAct ρ → DriverState ρ
  | .put e => if s.main = .serving then { s with queue := s.queue ++ [e] } else s
  | .cas e => if s.main = .serving then { s with queue := e :: s.queue } else s
  | .setFlag => if s.main = .serving then { s with loopShouldStop := true, main := .flagged } else s
  | .stopDriver => if s.main = .flagged then { s with main := .released } else s
  | .join =>
    match s.worker with
    | .ended => if s.main = .released then { s with main := .joined } else s
    | _ => s
  | .get =>
    match s.worker with
    | .waiting => { s with queue := s.queue.tail, worker := .got s.queue.head? }
    | _ => s
  | .branch =>
    match s.worker with
    | .got (some q) => { s with worker := .processing q }
    | .got none => { s with worker := if s.loopShouldStop then .ended else .waiting }
    | _ => s
  | .finish =>
    match s.worker with
    | .processing q => { s with worker := .processed q }
    | _ => s
  | .free =>
    match s.worker with
    | .processed _ => { s with worker := .waiting }
    | _ => s

/-- `stop_driver` has released the plugin's cache and user table. -/
def DriverState.Released (s : DriverState ρ) : Prop := s.main = .released ∨ s.main = .joined

/-- The worker is in `process_driver`. -/
def Worker.IsProcessing : Worker ρ → Prop
  | .processing _ => True
  | _ => False

/-- The worker has a request to process: it holds one, or will come back to a queue that has one.
Once it has found the queue empty under the flag it does not come back. -/
def DriverState.HasWork (s : DriverState ρ) : Prop :=
  match s.worker with
  | .waiting => s.queue ≠ []
  | .got (some _) => True
  | .got none => s.loopShouldStop = false ∧ s.queue ≠ []
  | .processing _ => True
  | .processed _ => s.queue ≠ []
  | .ended => False

/-- No request is processed on a released plugin. -/
def DriverState.Clean (s : DriverState ρ) : Prop := s.Released → ¬s.worker.IsProcessing

/-- `stop_driver` is called when the worker has nothing to process any more. -/
def DriverState.Drained (s : DriverState ρ) : StopAct ρ → Prop
  | .stopDriver => s.main = .flagged → ¬s.HasWork
  | _ => True

/-- How a step moves the main thread. -/
theorem DriverState.next_main (s : DriverState ρ) (a : StopAct ρ) :
    (s.next a).main = s.main ∨ (s.main = .serving ∧ (s.next a).main = .flagged) ∨
      (a = .stopDriver ∧ s.main = .flagged ∧ s.next a = { s with main := .released }) ∨
      (s.main = .released ∧ s.worker = .ended ∧ (s.next a).main = .joined) := by
  -- Only the main thread's own three acts move it.
  obtain ⟨queue, flag, worker, main⟩ := s
  cases a with
  | put e =>
    simp only [DriverState.next]
    split_ifs <;> exact Or.inl rfl
  | cas e =>
    simp only [DriverState.next]
    split_ifs <;> exact Or.inl rfl
  | setFlag =>
    simp only [DriverState.next]
    split_ifs with h
    · exact Or.inr (Or.inl ⟨h, rfl⟩)
    · exact Or.inl rfl
  | stopDriver =>
    simp only [DriverState.next]
    split_ifs with h
    · exact Or.inr (Or.inr (Or.inl ⟨trivial, h, rfl⟩))
    · exact Or.inl rfl
  | join =>
    cases worker with
    | ended =>
      simp only [DriverState.next]
      split_ifs with h
      · exact Or.inr (Or.inr (Or.inr ⟨h, trivial, rfl⟩))
      · exact Or.inl rfl
    | _ => exact Or.inl rfl
  | get => cases worker <;> exact Or.inl rfl
  | branch =>
    cases worker with
    | got q => cases q <;> exact Or.inl rfl
    | _ => exact Or.inl rfl
  | finish => cases worker <;> exact Or.inl rfl
  | free => cases worker <;> exact Or.inl rfl

/-- Once the main thread queues nothing any more, no step brings work. -/
theorem DriverState.HasWork.of_next {s : DriverState ρ} {a : StopAct ρ}
    (hmain : s.main ≠ .serving) (h : (s.next a).HasWork) : s.HasWork := by
  obtain ⟨queue, flag, worker, main⟩ := s
  cases a with
  | put e => simpa only [DriverState.next, if_neg hmain] using h
  | cas e => simpa only [DriverState.next, if_neg hmain] using h
  | setFlag => simpa only [DriverState.next, if_neg hmain] using h
  | stopDriver =>
    simp only [DriverState.next] at h
    split_ifs at h <;> exact h
  | join =>
    cases worker with
    | ended =>
      simp only [DriverState.next] at h
      split_ifs at h <;> exact h
    | _ => exact h
  | get =>
    cases worker with
    | waiting =>
      -- What the worker got was in the queue.
      cases queue with
      | nil => exact absurd rfl h.2
      | cons q queue => exact List.cons_ne_nil q queue
    | _ => exact h
  | branch =>
    cases worker with
    | got q =>
      cases q with
      | some q => trivial
      | none =>
        cases flag with
        | true => exact h.elim
        | false => exact ⟨rfl, h⟩
    | _ => exact h
  | finish =>
    cases worker with
    | processing q => trivial
    | _ => exact h
  | free => cases worker <;> exact h

/-- Before the worker is joined, work only goes through `process_driver`. -/
theorem DriverState.HasWork.next {s : DriverState ρ} (h : s.HasWork) (hmain : s.main = .released)
    (hclean : s.Clean) (a : StopAct ρ) (hclean' : (s.next a).Clean) :
    (s.next a).HasWork ∧ (s.next a).main = .released := by
  obtain ⟨queue, flag, worker, main⟩ := s
  obtain rfl : main = .released := hmain
  have hidle := hclean (Or.inl rfl)
  cases a with
  | put e => exact ⟨h, rfl⟩
  | cas e => exact ⟨h, rfl⟩
  | setFlag => exact ⟨h, rfl⟩
  | stopDriver => exact ⟨h, rfl⟩
  | join =>
    cases worker with
    | ended => exact h.elim
    | _ => exact ⟨h, rfl⟩
  | get =>
    cases worker with
    | waiting =>
      cases queue with
      | nil => exact absurd rfl h
      | cons q queue => exact ⟨trivial, rfl⟩
    | _ => exact ⟨h, rfl⟩
  | branch =>
    cases worker with
    | got q =>
      cases q with
      -- An entry would go to `process_driver`.
      | some q => exact absurd trivial (hclean' (Or.inl rfl))
      | none =>
        obtain ⟨hflag, hqueue⟩ := h
        -- Without the flag the worker goes back to the queue and does not end.
        obtain rfl : flag = false := hflag
        exact ⟨hqueue, rfl⟩
    | _ => exact ⟨h, rfl⟩
  | finish =>
    cases worker with
    | processing q => exact absurd trivial hidle
    | _ => exact ⟨h, rfl⟩
  | free => cases worker <;> exact ⟨h, rfl⟩

/-- A released plugin has no work. -/
def DriverState.Quiet (s : DriverState ρ) : Prop := s.Released → ¬s.HasWork

theorem DriverState.Quiet.clean {s : DriverState ρ} (h : s.Quiet) : s.Clean := by
  intro hrel hproc
  refine h hrel ?_
  unfold DriverState.HasWork
  cases hw : s.worker with
  | processing q => trivial
  | _ => simp [hw, Worker.IsProcessing] at hproc

/-- A step under the condition keeps a released plugin without work. -/
theorem DriverState.Quiet.next {s : DriverState ρ} (h : s.Quiet) {a : StopAct ρ}
    (ha : s.Drained a) : (s.next a).Quiet := by
  intro hrel hwork
  rcases s.next_main a with hsame | ⟨-, hflag⟩ | ⟨rfl, hmain, -⟩ | ⟨hmain, -⟩
  · have hs : s.Released := by rwa [DriverState.Released, ← hsame]
    refine h hs (hwork.of_next ?_)
    rcases hs with hs | hs <;> rw [hs] <;> nofun
  · rw [DriverState.Released, hflag] at hrel
    rcases hrel with hrel | hrel <;> cases hrel
  · exact ha hmain (hwork.of_next (by rw [hmain]; nofun))
  · exact h (Or.inl hmain) (hwork.of_next (by rw [hmain]; nofun))

theorem DriverState.new_quiet : (DriverState.new : DriverState ρ).Quiet := by
  rintro (h | h) <;> cases h

/-- A plugin that is released with work is never joined without processing it. -/
theorem DriverState.HasWork.not_joined {s : DriverState ρ} (h : s.HasWork)
    (hmain : s.main = .released) {acts : List (StopAct ρ)}
    (hclean : Always DriverState.next DriverState.Clean s acts) :
    (acts.foldl DriverState.next s).main = .released := by
  induction acts generalizing s with
  | nil => exact hmain
  | cons a acts ih =>
    obtain ⟨hwork, hmain'⟩ := h.next hmain hclean.1 a hclean.2.head
    exact ih hwork hmain' hclean.2

/-- In every run in which `stop_driver` is called only when the worker has nothing to process any
more, no request is processed on the released plugin; and in a run that gets to the end of
`moc_stop_driver` no other way leads there. -/
theorem stopped_clean_iff (acts : List (StopAct ρ)) :
    (EachStep DriverState.next DriverState.Drained .new acts →
        Always DriverState.next DriverState.Clean .new acts) ∧
      ((acts.foldl DriverState.next .new).main = .joined →
        Always DriverState.next DriverState.Clean .new acts →
        EachStep DriverState.next DriverState.Drained .new acts) := by
  refine ⟨fun h => always_of_eachStep (fun _ hs => hs.clean) (fun _ _ hs ha => hs.next ha)
    DriverState.new_quiet h, ?_⟩
  have hrun : ∀ s : DriverState ρ, (acts.foldl DriverState.next s).main = .joined →
      Always DriverState.next DriverState.Clean s acts →
      EachStep DriverState.next DriverState.Drained s acts := by
    induction acts with
    | nil => exact fun _ _ _ => trivial
    | cons a acts ih =>
      intro s hend hclean
      refine ⟨?_, ih (s.next a) hend hclean.2⟩
      cases a with
      | stopDriver =>
        intro hmain hwork
        -- The plugin is released with its work, so the run does not end joined.
        have hnext : s.next .stopDriver = { s with main := .released } := if_pos hmain
        have hrel := DriverState.HasWork.not_joined (s := s.next .stopDriver) (by rwa [hnext])
          (by rw [hnext]) hclean.2
        rw [List.foldl_cons, hrel] at hend
        cases hend
      | _ => trivial
  exact hrun _

/-- One request is queued, and released under the worker. -/
theorem stopped_not_clean :
    ¬∀ acts : List (StopAct ℕ), Always DriverState.next DriverState.Clean .new acts := by
  intro h
  have hclean := h [.put 1, .get, .setFlag, .stopDriver, .branch]
  exact hclean.2.2.2.2.2 (Or.inl rfl) trivial

/-- The request is processed before the flag is set. -/
def drainedActs : List (StopAct ℕ) :=
  [.put 1, .get, .branch, .finish, .free, .setFlag, .get, .stopDriver, .branch, .join]

theorem stopped_clean_drainedActs :
    Always DriverState.next DriverState.Clean .new drainedActs ∧
      (drainedActs.foldl DriverState.next .new).main = .joined := by
  refine ⟨(stopped_clean_iff drainedActs).1 ?_, rfl⟩
  refine ⟨trivial, trivial, trivial, trivial, trivial, trivial, trivial, ?_, trivial, trivial, trivial⟩
  intro _ hwork
  exact absurd hwork.1 (by decide)

end Moc
