import Moc.Client.Receive
import Moc.Client.Trigger
import Moc.Lib.Runs

/-!
# Which reply a trigger takes for its own

Both receivers hold the id of a frame against the counter `g_reqid`, and take every frame whose id
is not below it. The counter is shared by all threads of the client, and starts again at 1 behind
`0x0FFFFFFD`. Two systems of steps say what follows: several threads with a connection each
(`Threads`), and one thread whose answers may arrive after it has stopped waiting (`Waits`).
-/

open Bytes Memory Socket Runs

namespace Moc

/-- The test that `tcp_get_rep` and `msparse_msg` make on the id of a reply. -/
def idMatches (gReqid id : ℕ) : Bool := ¬ id < gReqid

/-- A wait on a whole frame returns it when the test holds, and otherwise looks at the next one. -/
theorem getRep_idMatches {v : Srv} (g : ℕ) (f : RepFrame) {s' : List Event}
    (hlen : v.rcvbuf.length = maxPacketLen) (hopen : v.sock.isOpen = true)
    (hwhole : Whole f.bytes v.sock.script s') :
    ∃ v', v.getRep g =
      if idMatches g f.id then .ok (some (f.reply, f.payload), v') else v'.getRep g := by
  obtain ⟨v', -, -, -, hget⟩ := getRep_frame g f hlen hopen hwhole
  refine ⟨v', hget.trans ?_⟩
  by_cases hid : f.id < g <;> simp [idMatches, hid]

/-! ## Many threads -/

section
variable {θ : Type} [DecidableEq θ]

/-- Where a thread is in `moc_trigger_r`. -/
inductive TriggerState where
  | idle
  /-- The request was sent. -/
  | sent (id : ℕ)
  /-- The server's answer has arrived on the thread's connection. -/
  | answered (id : ℕ)
  /-- `tcp_get_rep` has skipped the answer and waits for another frame. -/
  | dropped (id : ℕ)
  deriving DecidableEq

/-- The id whose answer the thread has still to look at. -/
def TriggerState.awaits : TriggerState → Option ℕ
  | .sent id => some id
  | .answered id => some id
  | _ => none

/-- The threads of a client. -/
structure Threads (θ : Type) where
  gReqid : ℕ
  trigger : θ → TriggerState

/-- A client whose threads have triggered nothing. -/
def Threads.start (θ : Type) : Threads θ := ⟨0, fun _ => .idle⟩

/-- A step of one thread, or the server's answer to it. -/
inductive ThreadStep (θ : Type) where
  | trigger (t : θ)
  | answer (t : θ)
  | receive (t : θ)
  deriving DecidableEq

/-- One step. A step that the thread is not at changes nothing. -/
def Threads.next (s : Threads θ) : ThreadStep θ → Threads θ
  | .trigger t =>
    match s.trigger t with
    | .idle =>
      let gReqid := nextReqid s.gReqid
      ⟨gReqid, Function.update s.trigger t (.sent gReqid)⟩
    | _ => s
  | .answer t =>
    match s.trigger t with
    | .sent id => ⟨s.gReqid, Function.update s.trigger t (.answered id)⟩
    | _ => s
  | .receive t =>
    match s.trigger t with
    | .answered id =>
      if idMatches s.gReqid id then ⟨s.gReqid, Function.update s.trigger t .idle⟩
      else ⟨s.gReqid, Function.update s.trigger t (.dropped id)⟩
    | _ => s

/-- No thread has skipped the answer to its own request, and none would if the answer were there
now. -/
structure Threads.Kept (s : Threads θ) : Prop where
  not_dropped : ∀ t id, s.trigger t ≠ .dropped id
  matches_ : ∀ t id, (s.trigger t).awaits = some id → idMatches s.gReqid id = true

/-- A thread that triggers draws an id that is not above the ids the other threads wait for. -/
def Threads.Undisturbed (s : Threads θ) : ThreadStep θ → Prop
  | .trigger t =>
    s.trigger t = .idle → ∀ u id, u ≠ t → (s.trigger u).awaits = some id → nextReqid s.gReqid ≤ id
  | _ => True

/-- What a step can do: nothing, or what its thread is ready for. -/
theorem Threads.next_cases (s : Threads θ) (i : ThreadStep θ) :
    s.next i = s ∨
      (∃ t, i = .trigger t ∧ s.trigger t = .idle ∧ s.next i =
        ⟨nextReqid s.gReqid, Function.update s.trigger t (.sent (nextReqid s.gReqid))⟩) ∨
      (∃ t id, s.trigger t = .sent id ∧
        s.next i = ⟨s.gReqid, Function.update s.trigger t (.answered id)⟩) ∨
      ∃ t id, s.trigger t = .answered id ∧ s.next i = ⟨s.gReqid,
        Function.update s.trigger t (if idMatches s.gReqid id then .idle else .dropped id)⟩ := by
  -- A step that finds its thread somewhere else changes nothing.
  cases i with
  | trigger t =>
    cases ht : s.trigger t with
    | idle => exact .inr (.inl ⟨t, rfl, ht, by simp [Threads.next, ht]⟩)
    | sent id => exact .inl (by simp [Threads.next, ht])
    | answered id => exact .inl (by simp [Threads.next, ht])
    | dropped id => exact .inl (by simp [Threads.next, ht])
  | answer t =>
    cases ht : s.trigger t with
    | sent id => exact .inr (.inr (.inl ⟨t, id, ht, by simp [Threads.next, ht]⟩))
    | idle => exact .inl (by simp [Threads.next, ht])
    | answered id => exact .inl (by simp [Threads.next, ht])
    | dropped id => exact .inl (by simp [Threads.next, ht])
  | receive t =>
    cases ht : s.trigger t with
    | answered id =>
      refine .inr (.inr (.inr ⟨t, id, ht, ?_⟩))
      simp only [Threads.next, ht]
      split_ifs <;> rfl
    | idle => exact .inl (by simp [Threads.next, ht])
    | sent id => exact .inl (by simp [Threads.next, ht])
    | dropped id => exact .inl (by simp [Threads.next, ht])

/-- Changing one thread keeps the property when it holds of the new state of that thread. -/
theorem Threads.Kept.update {s : Threads θ} {g : ℕ} {t : θ} (x : TriggerState) (h : s.Kept)
    (hx : ∀ id, x ≠ .dropped id) (hown : ∀ id, x.awaits = some id → idMatches g id = true)
    (hothers : ∀ u id, u ≠ t → (s.trigger u).awaits = some id → idMatches g id = true) :
    Threads.Kept ⟨g, Function.update s.trigger t x⟩ where
  not_dropped u id := by
    by_cases hu : u = t
    · subst hu
      simpa using hx id
    · simpa [hu] using h.not_dropped u id
  matches_ u id := by
    by_cases hu : u = t
    · subst hu
      simpa using hown id
    · simpa [hu] using hothers u id hu

/-- A step of an undisturbed run keeps the property. -/
theorem Threads.Kept.next {s : Threads θ} {i : ThreadStep θ} (h : s.Kept) (hi : s.Undisturbed i) :
    (s.next i).Kept := by
  rcases s.next_cases i with heq | ⟨t, rfl, ht, heq⟩ | ⟨t, id, ht, heq⟩ | ⟨t, id, ht, heq⟩
  · rwa [heq]
  · rw [heq]
    refine h.update _ (by simp) (fun id hid => ?_) fun u id hu hid => ?_
    · simp only [TriggerState.awaits, Option.some.injEq] at hid
      simp [idMatches, hid]
    · have := hi ht u id hu hid
      simp [idMatches]
      omega
  · rw [heq]
    refine h.update _ (by simp) (fun id' hid' => ?_) fun u id' _ => h.matches_ u id'
    exact h.matches_ t id' (by rw [ht]; exact hid')
  · -- The answer has the id that the thread waits for, which passes the test.
    have hmatch := h.matches_ t id (by rw [ht]; rfl)
    rw [heq, if_pos hmatch]
    exact h.update _ (by simp) (by simp [TriggerState.awaits]) fun u id' _ => h.matches_ u id'

/-- A disturbing trigger makes the test fail for a request that is still waited for. -/
theorem Threads.not_kept_next {s : Threads θ} {i : ThreadStep θ} (hi : ¬ s.Undisturbed i) :
    ¬ (s.next i).Kept := by
  cases i with
  | answer t => exact absurd trivial hi
  | receive t => exact absurd trivial hi
  | trigger t =>
    simp only [Threads.Undisturbed, not_forall, Nat.not_le] at hi
    obtain ⟨ht, u, id, hu, hid, hlt⟩ := hi
    intro h
    simp only [Threads.next, ht] at h
    have hmatch := h.matches_ u id (by simpa [hu] using hid)
    simp [idMatches] at hmatch
    omega

/-- Over every run of any number of threads, no thread ever skips the answer to its own request, nor
could if it came, if and only if no trigger draws an id above one that another thread still waits
for. -/
theorem Threads.always_kept_iff (is : List (ThreadStep θ)) :
    Always Threads.next Threads.Kept (.start θ) is ↔
      EachStep Threads.next Threads.Undisturbed (.start θ) is :=
  always_iff_eachStep (I := Threads.Kept) (L := fun _ _ => True) (fun _ h => h)
    (fun _ _ h _ hi => h.next hi) (fun _ _ _ _ hi => Threads.not_kept_next hi)
    ⟨fun _ _ => by simp [Threads.start], fun _ _ => by simp [Threads.start, TriggerState.awaits]⟩
    (eachStep_of_forall (fun _ _ => trivial) _ _)

/-- Two threads trigger, and the answer to the first one arrives then. -/
def twoTriggers : List (ThreadStep Bool) :=
  [.trigger false, .trigger true, .answer false, .receive false]

/-- The first of two threads skips its own answer. -/
theorem Threads.not_always_kept_twoTriggers :
    ¬ ∀ is : List (ThreadStep Bool), Always Threads.next
      (fun s => ∀ t id, s.trigger t ≠ .dropped id) (.start Bool) is := by
  intro h
  obtain ⟨-, -, -, -, hlast⟩ := h twoTriggers
  exact hlast false 1 (by decide)

end

/-! ## One thread and its late answers -/

/-- One thread that triggers and waits. `outstanding` is the id of the request it waits for,
`onTheWay` has the ids of the requests whose answers have not been looked at yet, and `accepted` has
the request and the frame of each answer that was taken. -/
structure Waits where
  gReqid : ℕ
  outstanding : Option ℕ
  onTheWay : List ℕ
  accepted : List (ℕ × ℕ)
  deriving DecidableEq

/-- A client that has triggered nothing. -/
def Waits.start : Waits := ⟨0, none, [], []⟩

/-- What happens: the thread triggers, its wait times out, or the receiver looks at a frame with this
id. Frames that `tcp_get_rep` finds have come in any order; `msparse_msg` also looks at frames while
no trigger waits. -/
inductive WaitStep where
  | trigger
  | timeout
  | frame (id : ℕ)
  deriving DecidableEq

/-- One step. The server answers only requests that it was sent. -/
def Waits.next (s : Waits) : WaitStep → Waits
  | .trigger =>
    match s.outstanding with
    | none =>
      let gReqid := nextReqid s.gReqid
      { s with gReqid := gReqid, outstanding := some gReqid, onTheWay := gReqid :: s.onTheWay }
    | some _ => s
  | .timeout => { s with outstanding := none }
  | .frame id =>
    if id ∈ s.onTheWay then
      let s := { s with onTheWay := s.onTheWay.erase id }
      match s.outstanding with
      | some r =>
        if idMatches s.gReqid id then
          { s with outstanding := none, accepted := s.accepted ++ [(r, id)] }
        else s
      | none => s
    else s

/-- Every answer taken was the one to its request, and every frame on the way that would be taken now
is the answer to the request the thread waits for. -/
structure Waits.Own (s : Waits) : Prop where
  accepted : ∀ p ∈ s.accepted, p.2 = p.1
  onTheWay : ∀ r, s.outstanding = some r → ∀ id ∈ s.onTheWay, idMatches s.gReqid id → id = r

/-- A trigger draws an id that no answer on the way exceeds. -/
def Waits.Overtakes (s : Waits) : WaitStep → Prop
  | .trigger => s.outstanding = none → ∀ id ∈ s.onTheWay, id ≤ nextReqid s.gReqid
  | _ => True

instance (s : Waits) (i : WaitStep) : Decidable (s.Overtakes i) :=
  match i with
  | .trigger => inferInstanceAs (Decidable (_ → ∀ id ∈ s.onTheWay, _))
  | .timeout => .isTrue trivial
  | .frame _ => .isTrue trivial

/-- What a run of overtaking triggers keeps: the thread waits for the request that drew the counter,
and no answer on the way is above it. -/
structure Waits.Behind (s : Waits) : Prop where
  accepted : ∀ p ∈ s.accepted, p.2 = p.1
  current : ∀ r, s.outstanding = some r → r = s.gReqid ∧ ∀ id ∈ s.onTheWay, id ≤ s.gReqid

theorem Waits.Behind.own {s : Waits} (h : s.Behind) : s.Own where
  accepted := h.accepted
  onTheWay r hr id hid hmatch := by
    obtain ⟨rfl, hle⟩ := h.current r hr
    have := hle id hid
    simp [idMatches] at hmatch
    omega

theorem Waits.Behind.next {s : Waits} {i : WaitStep} (h : s.Behind) (hi : s.Overtakes i) :
    (s.next i).Behind := by
  cases i with
  | trigger =>
    cases hout : s.outstanding with
    | some r =>
      have heq : s.next .trigger = s := by simp [Waits.next, hout]
      rwa [heq]
    | none =>
      simp only [Waits.next, hout]
      -- The new request draws the counter, and the answers on the way are not above it.
      refine ⟨h.accepted, fun r hr => ⟨(Option.some.inj hr).symm, fun id hid => ?_⟩⟩
      rcases List.mem_cons.mp hid with rfl | hid
      · exact Nat.le_refl _
      · exact hi hout id hid
  | timeout => exact ⟨h.accepted, fun r hr => by simp [Waits.next] at hr⟩
  | frame id =>
    by_cases hmem : id ∈ s.onTheWay
    · cases hout : s.outstanding with
      | none =>
        simp only [Waits.next, if_pos hmem, hout]
        exact ⟨h.accepted, fun r hr => by simp at hr⟩
      | some r =>
        obtain ⟨hr, hle⟩ := h.current r hout
        simp only [Waits.next, if_pos hmem, hout]
        split_ifs with hmatch
        · -- The frame taken is neither below the counter nor above it.
          refine ⟨fun p hp => ?_, fun r' hr' => by simp at hr'⟩
          rcases List.mem_append.mp hp with hp | hp
          · exact h.accepted p hp
          · have := hle id hmem
            rw [List.mem_singleton.mp hp]
            simp [idMatches] at hmatch
            dsimp only
            omega
        -- The frame is dropped, and the thread goes on waiting.
        · refine ⟨h.accepted, fun r' hr' => ?_⟩
          rw [← Option.some.inj hr']
          exact ⟨hr, fun id' hid' => hle id' (List.mem_of_mem_erase hid')⟩
    · have heq : s.next (.frame id) = s := by simp [Waits.next, hmem]
      rwa [heq]

/-- A trigger below an answer on the way would take that answer. -/
theorem Waits.not_own_next {s : Waits} {i : WaitStep} (hi : ¬ s.Overtakes i) :
    ¬ (s.next i).Own := by
  cases i with
  | timeout => exact absurd trivial hi
  | frame id => exact absurd trivial hi
  | trigger =>
    simp only [Waits.Overtakes, not_forall, Nat.not_le] at hi
    obtain ⟨hout, id, hid, hlt⟩ := hi
    intro h
    simp only [Waits.next, hout] at h
    have hown := h.onTheWay _ rfl id (List.mem_cons_of_mem _ hid) (by simp [idMatches]; omega)
    omega

/-- Over every run of triggers, timeouts and late answers, every frame taken as an answer carries the
id of the request waited for, and no other one would be taken, if and only if each trigger draws an
id that no answer still on the way exceeds. -/
theorem Waits.always_own_iff (is : List WaitStep) :
    Always Waits.next Waits.Own .start is ↔ EachStep Waits.next Waits.Overtakes .start is :=
  always_iff_eachStep (I := Waits.Behind) (L := fun _ _ => True) (fun _ h => h.own)
    (fun _ _ h _ hi => h.next hi) (fun _ _ _ _ hi => Waits.not_own_next hi)
    ⟨by simp [Waits.start], by simp [Waits.start]⟩ (eachStep_of_forall (fun _ _ => trivial) _ _)

/-- `n` triggers, each answered before the next one. -/
def answeredTriggers (n : ℕ) : List WaitStep :=
  (List.range n).flatMap fun k => [.trigger, .frame (k + 1)]

/-- Answered triggers count the counter up. -/
theorem foldl_answeredTriggers {n : ℕ} (h : n ≤ 0x0FFFFFFD) :
    ∃ acc, (answeredTriggers n).foldl Waits.next .start = ⟨n, none, [], acc⟩ := by
  induction n with
  | zero => exact ⟨[], rfl⟩
  | succ n ih =>
    obtain ⟨acc, hacc⟩ := ih (by omega)
    have hnext : nextReqid n = n + 1 := by
      unfold nextReqid
      rw [if_neg (by omega)]
      omega
    have hsplit : answeredTriggers (n + 1) =
        answeredTriggers n ++ [.trigger, .frame (n + 1)] := by
      simp [answeredTriggers, List.range_succ]
    rw [hsplit, List.foldl_append, hacc]
    exact ⟨acc ++ [(n + 1, n + 1)], by simp [Waits.next, hnext, idMatches]⟩

/-- The last of `n + 1` requests times out, and its answer comes while the next one is waited for. -/
def lateAnswer (n : ℕ) : List WaitStep :=
  answeredTriggers n ++ [.trigger, .timeout, .trigger, .frame (n + 1)]

/-- When the last request has the largest id, the next one has id 1, and takes the late answer. -/
theorem Waits.not_always_lateAnswer {n : ℕ} (hn : n = 0x0FFFFFFC) :
    ¬ Always Waits.next (fun s => ∀ p ∈ s.accepted, p.2 = p.1) .start (lateAnswer n) := by
  intro h
  obtain ⟨acc, hacc⟩ := foldl_answeredTriggers (n := n) (by omega)
  have hlast : nextReqid n = n + 1 := by
    unfold nextReqid
    rw [if_neg (by omega)]
    omega
  have hwrap : nextReqid (n + 1) = 1 := by
    unfold nextReqid
    rw [if_pos (by omega)]
  rw [lateAnswer] at h
  have hend := (always_append h).2
  rw [hacc] at hend
  simp [Always, Waits.next, hlast, hwrap, idMatches] at hend
  have hbad := hend.2 1 (n + 1) (.inr ⟨rfl, rfl⟩)
  omega

/-- Behind the wrap the answer to an older request is taken. -/
theorem Waits.not_always_own_lateAnswer :
    ¬ ∀ is, Always Waits.next (fun s => ∀ p ∈ s.accepted, p.2 = p.1) .start is := by
  intro h
  -- The number is kept as a name, so that no run of that length is ever unfolded.
  obtain ⟨n, hn⟩ : ∃ n, n = 0x0FFFFFFC := ⟨_, rfl⟩
  exact Waits.not_always_lateAnswer hn (h (lateAnswer n))

end Moc
