import Moc.Server.Dispatch
import Moc.Server.Steps

/-!
# How long a queue gets

`put_in_queue_long` reads the size of a plugin's queue, and only later locks the queue and links the
entry; the worker can take entries in between. It turns a request away when the size is over
`MAX_QUEUE_ENTRY` and a multiple of 100, so the queue goes on growing to the next multiple
(`always_within_iff`), which is 2097200, and no further (`always_length_le`).
-/

open Bytes Memory Runs

namespace Moc

variable {ι HDF : Type} [DecidableEq ι]

/-! ## Arriving and linking -/

/-- The answer to a request for a busy plugin. -/
def refuseBusy (w : World ι HDF) (req : ReqInfo) (sync : Bool) : World ι HDF :=
  let w := { w with stat := { w.stat with proBusy := w.stat.proBusy + 1 } }
  if sync then tcpReplyMini w req repErrBusy else w

/-- `put_in_queue_long` up to the place where it locks the queue: the server, the entry that it is
about to link, and otherwise its result. -/
def arrive (H : HdfLib HDF) (m : Allocs) (w : World ι HDF) (req : ReqInfo) (sync : Bool)
    (ename : List UInt8) (hdfrcv : HDF) :
    Dest ι → Except Fault (World ι HDF × Option (ι × QueueEntry HDF) × Bool)
  | .plugin entry =>
    let size := (w.queues entry.opQueue).length
    if size > maxQueueEntry ∧ size % 100 = 0 then .ok (refuseBusy w req sync, none, true)
    else do
      let (w, e) ← makeQueueLongEntry H m w req ename hdfrcv
      return (w, e.map fun e => (entry.opQueue, e), e.isSome)
  | dest => do
    let (w, rv) ← handOn H m w req sync ename hdfrcv dest
    return (w, none, rv)

/-- The rest of `put_in_queue_long`. -/
def link (w : World ι HDF) (sync : Bool) : Option (ι × QueueEntry HDF) → World ι HDF
  | none => w
  | some (p, e) => enqueue w p sync e

/-- A call that nothing interrupts. -/
theorem putInQueueLong_eq_arrive (H : HdfLib HDF) (m : Allocs) (w : World ι HDF) (req : ReqInfo)
    (sync : Bool) (ename : List UInt8) (hdfrcv : HDF) :
    putInQueueLong H m w req sync ename hdfrcv = (do
      let (w, e, rv) ← arrive H m w req sync ename hdfrcv (codeDest w.gMoc ename)
      return (link w sync e, rv)) := by
  rw [putInQueueLong_eq_codeDest]
  cases codeDest w.gMoc ename with
  | plugin entry =>
    unfold handOn arrive
    dsimp only
    by_cases hbusy : (w.queues entry.opQueue).length > maxQueueEntry ∧
        (w.queues entry.opQueue).length % 100 = 0
    · rw [if_pos hbusy, if_pos hbusy]
      rfl
    · rw [if_neg hbusy, if_neg hbusy]
      cases makeQueueLongEntry H m w req ename hdfrcv with
      | error f => rfl
      | ok r =>
        obtain ⟨w', e⟩ := r
        cases e <;> rfl
  | status =>
    simp only [arrive]
    cases handOn H m w req sync ename hdfrcv .status <;> rfl
  | clientmod =>
    simp only [arrive]
    cases handOn H m w req sync ename hdfrcv .clientmod <;> rfl
  | unknown => rfl

/-! ## The network thread and the workers -/

/-- The server, and the entry that the network thread is about to link. -/
structure Broker (ι HDF : Type) where
  world : World ι HDF
  pending : Option (Bool × ι × QueueEntry HDF)

/-- A server whose queues are empty. -/
def Broker.start (w : World ι HDF) : Broker ι HDF := ⟨{ w with queues := fun _ => [] }, none⟩

/-- What the threads do. -/
inductive BrokerStep (ι HDF : Type) where
  /-- The network thread calls `put_in_queue_long`, up to the lock. -/
  | arrive (m : Allocs) (req : ReqInfo) (sync : Bool) (ename : List UInt8) (hdfrcv : HDF)
  /-- It links the entry. -/
  | link
  /-- The worker of `p` takes an entry. -/
  | take (p : ι)
  /-- Something else changes, but no queue. -/
  | other (w : World ι HDF)

/-- One step. A step that its thread is not ready for changes nothing. -/
def Broker.step (H : HdfLib HDF) (s : Broker ι HDF) :
    BrokerStep ι HDF → Except Fault (Broker ι HDF)
  | .arrive m req sync ename hdfrcv =>
    if s.pending.isSome then .ok s
    else do
      let (w, e, _) ← arrive H m s.world req sync ename hdfrcv (codeDest s.world.gMoc ename)
      return ⟨w, e.map fun e => (sync, e)⟩
  | .link =>
    match s.pending with
    | none => .ok s
    | some (sync, e) => .ok ⟨Moc.link s.world sync (some e), none⟩
  | .take p =>
    match s.world.queues p with
    | [] => .ok s
    | e :: rest =>
      let w := { s.world with
        queues := Function.update s.world.queues p rest
        running := Function.update s.world.running p (some e) }
      .ok { s with world := w }
  | .other w => .ok { s with world := { w with queues := s.world.queues } }

/-- One step of a server that may have faulted. -/
def Broker.next (H : HdfLib HDF) (x : Except Fault (Broker ι HDF)) (i : BrokerStep ι HDF) :
    Except Fault (Broker ι HDF) :=
  x >>= fun s => s.step H i

/-- No queue has more than `MAX_QUEUE_ENTRY + 1` entries. -/
def Within : Except Fault (Broker ι HDF) → Prop
  | .ok s => ∀ p, (s.world.queues p).length ≤ maxQueueEntry + 1
  | .error _ => True

/-- `i` is a request for a plugin with more than `MAX_QUEUE_ENTRY` entries in its queue: `P` holds
of the server, of the request record and the synchronous flag, and of the queue's size. -/
def WhenFull (P : World ι HDF → ReqInfo → Bool → ℕ → Prop) :
    Except Fault (Broker ι HDF) → BrokerStep ι HDF → Prop
  | .ok s, .arrive _ req sync ename _ => s.pending = none →
      ∀ entry ∈ findEntryInTable s.world.gMoc ename,
        maxQueueEntry < (s.world.queues entry.opQueue).length →
          P s.world req sync (s.world.queues entry.opQueue).length
  | _, _ => True

/-- A request for a full plugin is turned away: it is counted, answered if it is synchronous, and
nothing else changes. -/
def Refuses (H : HdfLib HDF) (x : Except Fault (Broker ι HDF)) (i : BrokerStep ι HDF) : Prop :=
  WhenFull (fun w req sync _ => Broker.next H x i = .ok ⟨refuseBusy w req sync, none⟩) x i

/-- A request for a full plugin finds a multiple of 100 entries. -/
def OnHundred (x : Except Fault (Broker ι HDF)) (i : BrokerStep ι HDF) : Prop :=
  WhenFull (fun _ _ _ size => size % 100 = 0) x i

/-! ## One step -/

/-- The entry that the network thread is about to link counts for its queue. -/
def Broker.count (s : Broker ι HDF) (p : ι) : ℕ :=
  (s.world.queues p).length + s.pending.elim 0 fun x => if p = x.2.1 then 1 else 0

/-- Linking moves the entry from the one to the other. -/
theorem length_enqueue (w : World ι HDF) (p q : ι) (sync : Bool) (e : QueueEntry HDF) :
    ((enqueue w p sync e).queues q).length = (w.queues q).length + if q = p then 1 else 0 := by
  unfold enqueue
  dsimp only
  by_cases hq : q = p
  · subst hq
    rw [Function.update_self, if_pos rfl]
    split_ifs <;> simp
  · rw [Function.update_of_ne hq, if_neg hq, Nat.add_zero]

/-- The two handlers and the answer to an unknown name queue nothing. -/
theorem handOn_queues {H : HdfLib HDF} {m : Allocs} {w : World ι HDF} {req : ReqInfo} {sync : Bool}
    {ename : List UInt8} {hdfrcv : HDF} {dest : Dest ι} {r : World ι HDF × Bool}
    (hdest : ∀ entry, dest ≠ .plugin entry)
    (h : handOn H m w req sync ename hdfrcv dest = .ok r) : r.1.queues = w.queues := by
  have hreserved : dest = .status ∨ dest = .clientmod → r.1.queues = w.queues := fun hdest => by
    rcases handOn_reserved hdest h with hrest | ⟨w₁, _, _, _, hrest, -, -, hsent⟩
    · exact hrest.queues
    · exact hsent.queues.trans hrest.queues
  cases dest with
  | plugin entry => exact absurd rfl (hdest entry)
  | status => exact hreserved (.inl rfl)
  | clientmod => exact hreserved (.inr rfl)
  | unknown =>
    rw [← Except.ok.inj h]
    cases sync <;> rfl

/-- What a call does up to the lock: it queues nothing, and an entry that is about to be linked
goes to the queue of the plugin found, which it did not find busy. -/
theorem arrive_cases {H : HdfLib HDF} {m : Allocs} {w w' : World ι HDF} {req : ReqInfo}
    {sync rv : Bool} {ename : List UInt8} {hdfrcv : HDF} {e : Option (ι × QueueEntry HDF)}
    (h : arrive H m w req sync ename hdfrcv (codeDest w.gMoc ename) = .ok (w', e, rv)) :
    w'.queues = w.queues ∧ ∀ x ∈ e, ∃ entry ∈ findEntryInTable w.gMoc ename,
      x.1 = entry.opQueue ∧
        ¬((w.queues x.1).length > maxQueueEntry ∧ (w.queues x.1).length % 100 = 0) := by
  cases hdest : codeDest w.gMoc ename with
  | plugin entry =>
    have hfind := codeDest_eq_plugin.mp hdest
    rw [hdest] at h
    unfold arrive at h
    dsimp only at h
    split_ifs at h with hbusy
    · obtain ⟨rfl, hnone⟩ := Prod.mk.inj (Except.ok.inj h)
      obtain ⟨rfl, -⟩ := Prod.mk.inj hnone
      refine ⟨?_, by simp⟩
      unfold refuseBusy
      cases sync <;> rfl
    · obtain ⟨⟨w₁, e₁⟩, hentry, h⟩ := bind_eq_ok.mp h
      obtain ⟨rfl, hsome⟩ := Prod.mk.inj (Except.ok.inj h)
      obtain ⟨rfl, -⟩ := Prod.mk.inj hsome
      refine ⟨(makeQueueLongEntry_rest hentry).queues, fun x hx => ?_⟩
      obtain ⟨e', -, rfl⟩ := Option.map_eq_some_iff.mp (Option.mem_def.mp hx)
      exact ⟨entry, hfind, rfl, hbusy⟩
  | _ =>
    rw [hdest] at h
    simp only [arrive] at h
    obtain ⟨⟨w₁, rv₁⟩, hhand, h⟩ := bind_eq_ok.mp h
    obtain ⟨rfl, hnone⟩ := Prod.mk.inj (Except.ok.inj h)
    obtain ⟨rfl, -⟩ := Prod.mk.inj hnone
    exact ⟨handOn_queues (by simp) hhand, by simp⟩

/-- What a step does to the number of entries of a queue: only an arriving request adds one, for
the plugin found, whose queue it did not find busy. -/
theorem Broker.step_count {H : HdfLib HDF} {s s' : Broker ι HDF} {i : BrokerStep ι HDF}
    (h : s.step H i = .ok s') (p : ι) : s'.count p ≤ s.count p ∨
      s'.count p = s.count p + 1 ∧ s.pending = none ∧
        ∃ m req sync ename hdfrcv, i = .arrive m req sync ename hdfrcv ∧
          ∃ entry ∈ findEntryInTable s.world.gMoc ename, p = entry.opQueue ∧
            ¬((s.world.queues p).length > maxQueueEntry ∧ (s.world.queues p).length % 100 = 0) := by
  cases i with
  | arrive m req sync ename hdfrcv =>
    unfold step at h
    dsimp only at h
    split_ifs at h with hpending
    · rw [← Except.ok.inj h]
      exact .inl le_rfl
    · obtain ⟨⟨w, e, rv⟩, harrive, h⟩ := bind_eq_ok.mp h
      have hnone : s.pending = none := by simpa using hpending
      obtain ⟨hqueues, hentry⟩ := arrive_cases harrive
      rw [← Except.ok.inj h]
      unfold count
      dsimp only
      rw [hqueues, hnone]
      cases e with
      | none => exact .inl le_rfl
      | some x =>
        -- The entry counts from here on, and not only once it is linked.
        obtain ⟨entry, hfind, hx, hbusy⟩ := hentry x rfl
        by_cases hp : p = x.1
        · subst hp
          refine .inr ⟨by simp, rfl, m, req, sync, ename, hdfrcv, rfl, entry, hfind, hx, hbusy⟩
        · exact .inl (by simp [hp])
  | link =>
    unfold step at h
    dsimp only at h
    cases hpending : s.pending with
    | none =>
      rw [hpending] at h
      rw [← Except.ok.inj h]
      exact .inl le_rfl
    | some x =>
      obtain ⟨sync, q, e⟩ := x
      rw [hpending] at h
      rw [← Except.ok.inj h]
      refine .inl (le_of_eq ?_)
      simp [count, link, length_enqueue, hpending]
  | take q =>
    unfold step at h
    dsimp only at h
    cases hqueue : s.world.queues q with
    | nil =>
      rw [hqueue] at h
      rw [← Except.ok.inj h]
      exact .inl le_rfl
    | cons e rest =>
      rw [hqueue] at h
      rw [← Except.ok.inj h]
      refine .inl (Nat.add_le_add_right ?_ _)
      dsimp only
      by_cases hp : p = q
      · subst hp
        simp [hqueue]
      · rw [Function.update_of_ne hp]
  | other w =>
    rw [← Except.ok.inj h]
    exact .inl le_rfl

/-! ## Runs -/

/-- No queue has more than `bound` entries, the one about to be linked included. -/
def CountLe (bound : ℕ) : Except Fault (Broker ι HDF) → Prop
  | .ok s => ∀ p, s.count p ≤ bound
  | .error _ => True

theorem Broker.start_countLe (w : World ι HDF) (bound : ℕ) : CountLe bound (.ok (.start w)) :=
  fun _ => Nat.zero_le _

/-- A bound is kept when a request that is taken finds fewer entries than it. -/
theorem CountLe.next {H : HdfLib HDF} {bound : ℕ} {x : Except Fault (Broker ι HDF)}
    {i : BrokerStep ι HDF} (hx : CountLe bound x)
    (hroom : ∀ s, x = .ok s → s.pending = none → ∀ m req sync ename hdfrcv,
      i = .arrive m req sync ename hdfrcv → ∀ entry ∈ findEntryInTable s.world.gMoc ename,
        ¬((s.world.queues entry.opQueue).length > maxQueueEntry ∧
          (s.world.queues entry.opQueue).length % 100 = 0) →
        (s.world.queues entry.opQueue).length ≤ bound →
          (s.world.queues entry.opQueue).length < bound) :
    CountLe bound (Broker.next H x i) := by
  cases x with
  | error f => trivial
  | ok s =>
    rw [Broker.next, ok_bind]
    cases hstep : s.step H i with
    | error f => trivial
    | ok s' =>
      intro p
      have hp := hx p
      rcases Broker.step_count hstep p with hle | ⟨heq, hnone, m, req, sync, ename, hdfrcv, rfl,
        entry, hfind, rfl, hbusy⟩
      · exact hle.trans hp
      · have hcount : s.count entry.opQueue = (s.world.queues entry.opQueue).length := by
          simp [Broker.count, hnone]
        rw [hcount] at hp heq
        have hlt := hroom s rfl hnone m req sync ename hdfrcv rfl entry hfind hbusy hp
        omega

/-- However the threads interleave, no queue gets longer than the next multiple of 100. -/
theorem always_length_le (H : HdfLib HDF) (w : World ι HDF) (is : List (BrokerStep ι HDF)) :
    Always (Broker.next H) (fun x => ∀ s, x = .ok s →
      ∀ p, (s.world.queues p).length ≤ 2097200) (.ok (.start w)) is := by
  have hsound : ∀ x : Except Fault (Broker ι HDF), CountLe 2097200 x →
      ∀ s, x = .ok s → ∀ p, (s.world.queues p).length ≤ 2097200 := by
    rintro x hx s rfl p
    exact (Nat.le_add_right _ _).trans (hx p)
  refine always_of_eachStep hsound (fun x i hx _ => hx.next ?_) (Broker.start_countLe w _)
    (eachStep_of_forall (G := fun _ _ => True) (fun _ _ => trivial) _ is)
  -- 2097200 is over the limit and a multiple of 100.
  intro s _ _ _ _ _ _ _ _ entry _ hbusy hle
  rw [maxQueueEntry] at hbusy
  omega

/-- Where a run keeps to multiples of 100, it stays within the bound. -/
theorem CountLe.next_of_onHundred {H : HdfLib HDF} {x : Except Fault (Broker ι HDF)}
    {i : BrokerStep ι HDF} (hx : CountLe (maxQueueEntry + 1) x) (hG : OnHundred x i) :
    CountLe (maxQueueEntry + 1) (Broker.next H x i) := by
  refine hx.next ?_
  rintro s rfl hnone m req sync ename hdfrcv rfl entry hfind hbusy hle
  by_contra hge
  have hfull : maxQueueEntry < (s.world.queues entry.opQueue).length := by omega
  exact hbusy ⟨hfull, hG hnone entry hfind hfull⟩

/-- A request for a full plugin is turned away exactly when it finds a multiple of 100 entries. -/
theorem refuses_iff_onHundred (H : HdfLib HDF) (x : Except Fault (Broker ι HDF))
    (i : BrokerStep ι HDF) : Refuses H x i ↔ OnHundred x i := by
  cases x with
  | error f => cases i <;> exact Iff.rfl
  | ok s =>
    cases i with
    | arrive m req sync ename hdfrcv =>
      refine forall_congr' fun hnone => forall_congr' fun entry => forall_congr' fun hfind =>
        forall_congr' fun hfull => ?_
      have hdest : codeDest s.world.gMoc ename = .plugin entry := codeDest_eq_plugin.mpr hfind
      have hstep : Broker.next H (.ok s) (.arrive m req sync ename hdfrcv) = (do
          let (w, e, _) ← arrive H m s.world req sync ename hdfrcv (.plugin entry)
          return ⟨w, e.map fun e => (sync, e)⟩) := by
        rw [Broker.next, ok_bind, Broker.step, hnone, hdest]
        rfl
      rw [hstep, arrive]
      dsimp only
      by_cases hmod : (s.world.queues entry.opQueue).length % 100 = 0
      · rw [if_pos ⟨hfull, hmod⟩]
        exact iff_of_true rfl hmod
      · rw [if_neg fun h => hmod h.2]
        refine iff_of_false (fun h => ?_) hmod
        -- Nothing is counted on the way to the queue.
        obtain ⟨⟨w, e, rv⟩, hentry, h⟩ := bind_eq_ok.mp h
        obtain ⟨⟨w₁, e₁⟩, hentry, hrest⟩ := bind_eq_ok.mp hentry
        have hw : w = w₁ := (Prod.mk.inj (Except.ok.inj hrest)).1.symm
        have hw' : w = refuseBusy s.world req sync :=
          congrArg Broker.world (Except.ok.inj h)
        have hstat := (makeQueueLongEntry_rest hentry).stat
        rw [← hw, hw'] at hstat
        have hcount : (refuseBusy s.world req sync).stat.proBusy = s.world.stat.proBusy + 1 := by
          unfold refuseBusy
          cases sync <;> rfl
        rw [hstat] at hcount
        omega
    | _ => exact Iff.rfl

/-- Every request for a full plugin is turned away, and no queue gets longer than
`MAX_QUEUE_ENTRY + 1`, exactly when every such request finds a multiple of 100 entries. -/
theorem always_within_iff (H : HdfLib HDF) (w : World ι HDF) (is : List (BrokerStep ι HDF)) :
    EachStep (Broker.next H) (Refuses H) (.ok (.start w)) is ∧
        Always (Broker.next H) Within (.ok (.start w)) is ↔
      EachStep (Broker.next H) OnHundred (.ok (.start w)) is := by
  rw [eachStep_congr (refuses_iff_onHundred H)]
  refine ⟨And.left, fun h => ⟨h, ?_⟩⟩
  have hsound : ∀ x : Except Fault (Broker ι HDF), CountLe (maxQueueEntry + 1) x → Within x := by
    intro x hx
    cases x with
    | error f => trivial
    | ok s => exact fun p => (Nat.le_add_right _ _).trans (hx p)
  exact always_of_eachStep hsound (fun x i hx hG => hx.next_of_onHundred hG)
    (Broker.start_countLe w _) h

/-- `n` requests without the synchronous flag, one after the other. -/
def asyncRequests : ℕ → List (BrokerStep Unit (List UInt8))
  | 0 => []
  | n + 1 => asyncRequests n ++ [.arrive .granted (.fresh 5 0) false (ascii "base") [], .link]

/-- A server with one plugin and a connection. -/
def baseWorld : World Unit (List UInt8) :=
  { World.start [] (.single (ascii "base")) with
    socks := Function.update (fun _ => none) 0 (some ⟨1, 5, true, none⟩) }

/-- Up to the next multiple of 100, all of them are queued. -/
theorem foldl_asyncRequests {n : ℕ} (hn : n ≤ 2097200) :
    ∃ s, (asyncRequests n).foldl (Broker.next textHdf) (.ok (.start baseWorld)) = .ok s ∧
      s.pending = none ∧ (s.world.queues ()).length = n ∧
      s.world.gMoc = .single (ascii "base") ∧ ∃ sock, s.world.socks 0 = some sock := by
  induction n with
  | zero => exact ⟨_, rfl, rfl, rfl, rfl, _, rfl⟩
  | succ n ih =>
    obtain ⟨s, hs, hpending, hlen, htable, sock, hsock⟩ := ih (by omega)
    have hfind : findEntryInTable s.world.gMoc (ascii "base") = some ⟨ascii "base", ()⟩ := by
      rw [htable]
      rfl
    have hbusy : ¬((s.world.queues ()).length > maxQueueEntry ∧
        (s.world.queues ()).length % 100 = 0) := by
      rw [hlen, maxQueueEntry]
      omega
    have hentry : makeQueueLongEntry textHdf .granted s.world (.fresh 5 0) (ascii "base") [] =
        .ok (s.world.withRef 0 sock, some (requestEntry textHdf (.fresh 5 0) (ascii "base") [])) :=
      makeQueueLongEntry_granted textHdf hsock (ascii "base") []
    have harrive : Broker.next textHdf (.ok s) (.arrive .granted (.fresh 5 0) false (ascii "base") [])
        = .ok ⟨s.world.withRef 0 sock,
          some (false, (), requestEntry textHdf (.fresh 5 0) (ascii "base") [])⟩ := by
      rw [Broker.next, ok_bind, Broker.step, hpending, codeDest_eq_plugin.mpr hfind, arrive]
      dsimp only
      rw [if_neg hbusy, hentry]
      rfl
    refine ⟨⟨enqueue (s.world.withRef 0 sock) () false
      (requestEntry textHdf (.fresh 5 0) (ascii "base") []), none⟩, ?_, rfl, ?_, htable,
      { sock with refcount := sock.refcount + 1 }, ?_⟩
    · rw [asyncRequests, List.foldl_append, hs, List.foldl_cons, harrive]
      rfl
    · rw [length_enqueue, if_pos rfl, World.withRef, hlen]
    · have hsocks : (s.world.withRef 0 sock).socks 0 =
          some { sock with refcount := sock.refcount + 1 } := by
        simp only [World.withRef, Function.update_self]
      exact hsocks

/-- A queue that takes more than `MAX_QUEUE_ENTRY + 1` of them is too long. -/
theorem not_always_within {n : ℕ} (hlong : maxQueueEntry + 1 < n) (hn : n ≤ 2097200) :
    ¬Always (Broker.next textHdf) Within (.ok (.start baseWorld)) (asyncRequests n) := by
  intro h
  obtain ⟨s, hs, -, hlen, -⟩ := foldl_asyncRequests hn
  have hend := always_last h
  rw [hs] at hend
  have hle := hend ()
  rw [hlen] at hle
  omega

/-- The request after the 2097153rd is queued too. -/
theorem not_always_within_asyncRequests :
    ¬(EachStep (Broker.next textHdf) (Refuses textHdf) (.ok (.start baseWorld))
        (asyncRequests 2097154) ∧
      Always (Broker.next textHdf) Within (.ok (.start baseWorld)) (asyncRequests 2097154)) := by
  -- The run is too long to be looked at.
  generalize hn : 2097154 = n
  exact fun h => not_always_within (by rw [maxQueueEntry]; omega) (by omega) h.2

end Moc
