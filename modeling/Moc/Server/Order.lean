import Moc.Server.Invariant

/-!
# The order of the requests of one connection

`put_in_queue_long` puts an asynchronous request at the end that the worker reaches last, and a
synchronous one at the end that it takes from next. Beside the server a history is kept: the entries
in the order in which they were put into each queue, and in the order in which they were taken.
-/

open Bytes Memory Runs

namespace Moc

variable {ι HDF : Type} [DecidableEq ι]

/-- The server and its history. -/
structure Traced (ι HDF : Type) where
  server : Server ι HDF
  /-- The entries put into each queue, the first to arrive first. -/
  arrived : ι → List (QueueEntry HDF)
  /-- The entries that each worker has taken, the first one first. -/
  taken : ι → List (QueueEntry HDF)

/-- The server before its first connection. -/
def Traced.start (cfg : HDF) (gMoc : MocTable ι) : Traced ι HDF :=
  ⟨.start cfg gMoc, fun _ => [], fun _ => []⟩

/-- A history with one more entry. -/
def logged (log : ι → List (QueueEntry HDF)) : Option (ι × QueueEntry HDF) →
    ι → List (QueueEntry HDF)
  | none => log
  | some (p, e) => Function.update log p (log p ++ [e])

/-- One step. A fault ends the run. -/
def Traced.next (H : PushLib HDF) (x : Traced ι HDF) (i : ServerStep ι HDF) : Traced ι HDF :=
  match x.server.step H i with
  | .error _ => x
  | .ok server =>
    ⟨server, logged x.arrived (x.server.puts H i), logged x.taken (x.server.takes i)⟩

/-- A request of the connection `s` that is synchronous, or asynchronous. -/
def OfKind (s : ℕ) (sync : Bool) (e : QueueEntry HDF) : Bool :=
  e.req.tcpsock = s && fillSyncFlag e.req = sync

/-- The requests of one kind on one connection were taken in the order of their arrival, and those
that wait will be. -/
def Traced.InOrder (sync : Bool) (x : Traced ι HDF) : Prop :=
  ∀ p s, (x.taken p ++ x.server.world.queues p).filter (OfKind s sync) =
    (x.arrived p).filter (OfKind s sync)

/-- A synchronous request that is queued meets no other synchronous request of its connection in the
queue. -/
def Traced.Alone (H : PushLib HDF) (x : Traced ι HDF) (i : ServerStep ι HDF) : Prop :=
  ∀ p e, x.server.puts H i = some (p, e) → fillSyncFlag e.req = true →
    ∀ e' ∈ x.server.world.queues p, OfKind e.req.tcpsock true e' → e' = e

/-! ## One step -/

/-- A list does not change when its first element goes to its end exactly when it repeats one
element. -/
theorem cons_eq_append_singleton_iff {α : Type} {a : α} {l : List α} :
    a :: l = l ++ [a] ↔ ∀ x ∈ l, x = a := by
  induction l with
  | nil => simp
  | cons b l ih =>
    rw [List.cons_append, List.cons.injEq, List.forall_mem_cons]
    constructor
    · rintro ⟨rfl, h⟩
      exact ⟨rfl, ih.mp h⟩
    · rintro ⟨rfl, h⟩
      exact ⟨rfl, ih.mpr h⟩

/-- Taking the next entry moves it from the queue to the history. -/
theorem Traced.InOrder.take {x : Traced ι HDF} {sync : Bool} (h : x.InOrder sync) {p : ι}
    {e : QueueEntry HDF} {server : Server ι HDF}
    (hqueue : ∃ rest, x.server.world.queues p = e :: rest) (hq : server.world.queues =
      Function.update x.server.world.queues p (x.server.world.queues p).tail) :
    Traced.InOrder sync ⟨server, x.arrived, logged x.taken (some (p, e))⟩ := by
  intro p' s
  obtain ⟨rest, hrest⟩ := hqueue
  have hp' := h p' s
  rw [← hp', hq]
  by_cases hpp : p' = p
  · subst hpp
    simp [logged, hrest]
  · simp [logged, hpp]

/-- An asynchronous request goes to the end, whatever waits before it. -/
theorem Traced.InOrder.put {x : Traced ι HDF} {sync : Bool} (h : x.InOrder sync) {p : ι}
    {e : QueueEntry HDF} {server : Server ι HDF} (hq : server.world.queues =
      Function.update x.server.world.queues p (x.server.world.queues p ++ [e])) :
    Traced.InOrder sync ⟨server, logged x.arrived (some (p, e)), x.taken⟩ := by
  intro p' s
  have hp' := h p' s
  by_cases hpp : p' = p
  · subst hpp
    simp only [logged, hq, Function.update_self]
    rw [← List.append_assoc, List.filter_append, hp', List.filter_append]
  · simpa [logged, hq, hpp] using hp'

/-- A synchronous request goes to the front. The asynchronous ones are in order as before, and the
synchronous ones are when nothing of its connection but itself waits. -/
theorem Traced.InOrder.cas_iff {x : Traced ι HDF} {sync : Bool} (h : x.InOrder sync) {p : ι}
    {e : QueueEntry HDF} {server : Server ι HDF} (hsync : fillSyncFlag e.req = true)
    (hq : server.world.queues =
      Function.update x.server.world.queues p (e :: x.server.world.queues p)) :
    Traced.InOrder sync ⟨server, logged x.arrived (some (p, e)), x.taken⟩ ↔ (sync = true →
      ∀ e' ∈ x.server.world.queues p, OfKind e.req.tcpsock true e' → e' = e) := by
  have hown : OfKind e.req.tcpsock true e = true := by simp [OfKind, hsync]
  -- For the kind of the entry, the two lists differ in where the entry stands.
  have hmoved : ∀ l : List (QueueEntry HDF), (x.taken p ++ e :: l).filter (OfKind e.req.tcpsock true)
      = (x.taken p ++ l).filter (OfKind e.req.tcpsock true) ++ [e] ↔
      ∀ e' ∈ l, OfKind e.req.tcpsock true e' → e' = e := by
    intro l
    rw [List.filter_append, List.filter_append, List.filter_cons_of_pos hown, List.append_assoc,
      List.append_cancel_left_eq, cons_eq_append_singleton_iff]
    simp only [List.mem_filter, and_imp]
  constructor
  · rintro hin rfl
    have hp := hin p e.req.tcpsock
    simp only [logged, hq, Function.update_self] at hp
    rw [List.filter_append (x.arrived p), List.filter_singleton, hown, ← h p] at hp
    exact (hmoved _).mp hp
  · intro halone p' s
    have hp' := h p' s
    by_cases hpp : p' = p
    · subst hpp
      simp only [logged, hq, Function.update_self]
      rw [List.filter_append (x.arrived p'), ← hp']
      cases hkind : OfKind s sync e with
      | true =>
        obtain ⟨rfl, rfl⟩ : e.req.tcpsock = s ∧ true = sync := by simpa [OfKind, hsync] using hkind
        rw [List.filter_singleton, hown]
        exact (hmoved _).mpr (halone rfl)
      | false => simp [hkind]
    · simpa [logged, hq, hpp] using hp'

/-- One step keeps the asynchronous requests in order, and the synchronous ones exactly when it meets
the condition. -/
theorem Traced.inOrder_next_iff {H : PushLib HDF} {x : Traced ι HDF} {i : ServerStep ι HDF}
    {server : Server ι HDF} {sync : Bool} (hsound : x.server.world.Sound) (h : x.InOrder sync)
    (hstep : x.server.step H i = .ok server) :
    (x.next H i).InOrder sync ↔ (sync = true → x.Alone H i) := by
  have heffect := Server.step_effect hsound.counts hstep
  have hq := heffect.queues
  simp only [Traced.next, hstep]
  cases hput : x.server.puts H i with
  | some y =>
    obtain ⟨p, e⟩ := y
    -- A step that puts an entry takes none.
    have htake : x.server.takes i = none := by
      cases i <;> first | rfl | simp [Server.puts] at hput
    rw [hput] at hq
    rw [htake]
    dsimp only at hq
    have hentry : ∀ p' e', x.server.puts H i = some (p', e') → p' = p ∧ e' = e := fun p' e' heq => by
      obtain ⟨hp, he⟩ := Prod.mk.inj (Option.some.inj (hput.symm.trans heq))
      exact ⟨hp.symm, he.symm⟩
    cases hsync : fillSyncFlag e.req with
    | true =>
      rw [hsync] at hq
      refine (h.cas_iff hsync hq).trans (imp_congr_right fun _ => ?_)
      refine ⟨fun halone p' e' heq _ => ?_, fun halone => halone p e hput hsync⟩
      obtain ⟨rfl, rfl⟩ := hentry p' e' heq
      exact halone
    | false =>
      rw [hsync] at hq
      refine iff_of_true (h.put hq) fun _ p' e' heq hsync' => ?_
      obtain ⟨rfl, rfl⟩ := hentry p' e' heq
      rw [hsync] at hsync'
      cases hsync'
  | none =>
    rw [hput] at hq
    have halone : x.Alone H i := fun p e hput' => by rw [hput] at hput'; cases hput'
    refine iff_of_true ?_ fun _ => halone
    cases htake : x.server.takes i with
    | none =>
      rw [htake] at hq
      intro p s
      simp only [logged, hq]
      exact h p s
    | some y =>
      obtain ⟨p, e⟩ := y
      rw [htake] at hq
      refine h.take ?_ hq
      -- What is taken is the front of the queue.
      cases i with
      | take p' =>
        unfold Server.takes at htake
        dsimp only at htake
        split at htake
        · rename_i e' rest hrun hqueue
          obtain ⟨rfl, rfl⟩ := Prod.mk.inj (Option.some.inj htake)
          exact ⟨rest, hqueue⟩
        · cases htake
      | _ => cases htake

/-! ## Every run -/

theorem Traced.always_inOrder_iff_of_kind (H : PushLib HDF) (cfg : HDF) (gMoc : MocTable ι)
    (sync : Bool) (is : List (ServerStep ι HDF)) :
    Always (Traced.next H) (Traced.InOrder sync) (.start cfg gMoc) is ↔
      EachStep (Traced.next H) (fun x i => sync = true → x.Alone H i) (.start cfg gMoc) is := by
  refine always_iff_eachStep
    (I := fun x : Traced ι HDF => x.server.world.Sound ∧ x.InOrder sync) (L := fun _ _ => True)
    (fun x h => h.2) (fun x i h _ hi => ?_) (fun x i h _ hi => ?_)
    ⟨.start cfg gMoc, fun p s => rfl⟩ (eachStep_of_forall (fun _ _ => trivial) _ _)
  · cases hstep : x.server.step H i with
    | error f =>
      simp only [Traced.next, hstep]
      exact h
    | ok server =>
      refine ⟨?_, (inOrder_next_iff h.1 h.2 hstep).mpr hi⟩
      simp only [Traced.next, hstep]
      exact (Server.step_effect h.1.counts hstep).sound h.1
  · cases hstep : x.server.step H i with
    | error f =>
      -- A step that faults puts no entry into a queue.
      refine absurd (fun _ p e hput => ?_) hi
      rcases Server.step_error h.1.counts hstep with ⟨p, user, e, rfl, -⟩ | ⟨p, e, rfl, -⟩ <;>
        cases hput
    | ok server => exact fun hin => hi ((inOrder_next_iff h.1 h.2 hstep).mp hin)

/-- Over every run of the server, the asynchronous requests of one connection to one plugin are taken
in the order of their arrival. The synchronous ones are, in every state, if and only if none is
queued while another one of its connection waits in that queue. -/
theorem Traced.always_inOrder_iff (H : PushLib HDF) (cfg : HDF) (gMoc : MocTable ι)
    (is : List (ServerStep ι HDF)) :
    Always (Traced.next H) (Traced.InOrder false) (.start cfg gMoc) is ∧
      (Always (Traced.next H) (Traced.InOrder true) (.start cfg gMoc) is ↔
        EachStep (Traced.next H) (Traced.Alone H) (.start cfg gMoc) is) := by
  have hasync := always_inOrder_iff_of_kind H cfg gMoc false is
  have hsync := always_inOrder_iff_of_kind H cfg gMoc true is
  simp only [Bool.false_eq_true, IsEmpty.forall_iff, forall_const] at hasync hsync
  exact ⟨hasync.mpr (eachStep_of_forall (fun _ _ => trivial) _ _), hsync⟩

/-- Two synchronous requests with the ids 1 and 2 come on one connection before the worker takes
anything. -/
def pipelinedRequests : List (ServerStep Unit (List UInt8)) :=
  [.accept 0 5, .request 0 1 reqCmdStats flagsSync (ascii "a") [],
    .request 0 2 reqCmdStats flagsSync (ascii "a") [], .take ()]

/-- The second of two pipelined synchronous requests is taken first. -/
theorem Traced.not_always_prefix_pipelinedRequests :
    ¬ ∀ is, Always (Traced.next useridHdf)
      (fun x => ∀ p s sync, (x.taken p).filter (OfKind s sync) <+: (x.arrived p).filter (OfKind s sync))
      (.start [] (.single (ascii "a"))) is := by
  intro h
  obtain ⟨-, -, -, -, hlast⟩ := h pipelinedRequests
  have hids := List.IsPrefix.map (fun e => e.req.id) (hlast () 0 true)
  revert hids
  decide +kernel

end Moc
