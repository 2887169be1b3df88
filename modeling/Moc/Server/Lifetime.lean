import Mathlib.Algebra.BigOperators.Group.Finset.Basic
import Moc.Server.Invariant

/-!
# The lifetime of a socket

`queue.h` says why a `tcp_socket` is counted: it must not go away while a queue entry or the event
loop refers to it. `World.Counted` says that the count of each socket is the number of its
references. Every step keeps that but one: JOIN and QUIT of a user drop a reference of the user's
socket, and the user record had not taken any.
-/

open Bytes Memory Runs

namespace Moc

variable {ι HDF : Type} [DecidableEq ι]

/-! ## References -/

/-- The entries of the plugin `p` that are waiting or being processed. -/
def World.held (w : World ι HDF) (p : ι) : List (QueueEntry HDF) := w.queues p ++ (w.running p).toList

/-- The event registration of the socket `s`, as a number. -/
def World.listens (w : World ι HDF) (s : ℕ) : ℕ := if (registered w s).isSome then 1 else 0

/-- The entries that refer to the socket `s`. -/
def World.uses [Fintype ι] (w : World ι HDF) (s : ℕ) : ℕ :=
  ∑ p, (w.held p).countP fun e => e.req.tcpsock = s

/-- The references to the socket `s`. -/
def World.refs [Fintype ι] (w : World ι HDF) (s : ℕ) : ℕ := w.listens s + w.uses s

/-- The reference counts are right: each socket counts its references, and a number that is not
allocated has none. A socket was freed once, and not while the event loop listened on it. -/
structure World.Counted [Fintype ι] (w : World ι HDF) : Prop where
  count : ∀ s sock, w.socks s = some sock → sock.refcount = w.refs s ∧ 0 < w.refs s
  gone : ∀ s, w.socks s = none → w.refs s = 0
  once : (w.freed.map Prod.fst).Nodup
  unlistened : ∀ x ∈ w.freed, x.2 = false

/-- The counts of a server that has not faulted are right. -/
def Server.Counted [Fintype ι] : Except Fault (Server ι HDF) → Prop
  | .ok sv => sv.world.Counted
  | .error _ => False

/-- The step runs no JOIN that finds its user on another connection, and no QUIT that finds its
user. -/
def Server.LeavesUsers (H : PushLib HDF) :
    Except Fault (Server ι HDF) → ServerStep ι HDF → Prop
  | .ok sv, i => ∀ p e, sv.runs i = some (p, e) → ∀ uid u,
      (Joins H e uid → ¬ Elsewhere sv.world p uid (some e.req) u) ∧
        (Quits H e uid → ¬ Elsewhere sv.world p uid none u)
  | .error _, _ => True

/-- The count of the socket `s`, 0 when it is not allocated. -/
def World.refcount (w : World ι HDF) (s : ℕ) : ℤ :=
  match w.socks s with
  | some sock => sock.refcount
  | none => 0

variable [Fintype ι]

/-! ## What changes the references -/

/-- Only the entries of the plugin `p` have changed. -/
theorem World.uses_update {w w' : World ι HDF} {p : ι} (h : ∀ p' ≠ p, w'.held p' = w.held p')
    (s : ℕ) : w'.uses s + (w.held p).countP (fun e => e.req.tcpsock = s) =
      w.uses s + (w'.held p).countP fun e => e.req.tcpsock = s := by
  have hsplit : ∀ v : World ι HDF, v.uses s = (v.held p).countP (fun e => e.req.tcpsock = s) +
      ∑ p' ∈ Finset.univ.erase p, (v.held p').countP fun e => e.req.tcpsock = s := fun v =>
    (Finset.add_sum_erase _ _ (Finset.mem_univ p)).symm
  have hrest : (∑ p' ∈ Finset.univ.erase p, (w'.held p').countP fun e => e.req.tcpsock = s) =
      ∑ p' ∈ Finset.univ.erase p, (w.held p').countP fun e => e.req.tcpsock = s :=
    Finset.sum_congr rfl fun p' hp' => by rw [h p' (Finset.ne_of_mem_erase hp')]
  rw [hsplit w', hsplit w, hrest]
  omega

omit [DecidableEq ι] in
theorem World.uses_congr {w w' : World ι HDF} (hq : w'.queues = w.queues)
    (hr : w'.running = w.running) (s : ℕ) : w'.uses s = w.uses s := by
  unfold World.uses World.held
  rw [hq, hr]

/-- An entry put into a queue refers to its socket. -/
theorem World.uses_enqueue {w w' : World ι HDF} {p : ι} {sync : Bool} {e : QueueEntry HDF}
    (hq : w'.queues = (enqueue w p sync e).queues) (hr : w'.running = w.running) (s : ℕ) :
    w'.uses s = w.uses s + if e.req.tcpsock = s then 1 else 0 := by
  have hothers : ∀ p' ≠ p, w'.held p' = w.held p' := fun p' hp' => by
    simp [World.held, hq, hr, enqueue, hp']
  have hself : (w'.held p).countP (fun e => e.req.tcpsock = s) =
      (w.held p).countP (fun e => e.req.tcpsock = s) + if e.req.tcpsock = s then 1 else 0 := by
    simp only [World.held, hq, hr, enqueue, Function.update_self]
    cases sync <;> simp [List.countP_cons, List.countP_append]; omega
  have := World.uses_update hothers s
  omega

/-- Taking an entry changes no reference. -/
theorem World.uses_withTaken {w : World ι HDF} {p : ι} {e : QueueEntry HDF}
    {rest : List (QueueEntry HDF)} (hrun : w.running p = none) (hq : w.queues p = e :: rest)
    (s : ℕ) : (w.withTaken p e rest).uses s = w.uses s := by
  have hothers : ∀ p' ≠ p, (w.withTaken p e rest).held p' = w.held p' := fun p' hp' => by
    simp [World.held, World.withTaken, hp']
  have hself : ((w.withTaken p e rest).held p).countP (fun e => e.req.tcpsock = s) =
      (w.held p).countP fun e => e.req.tcpsock = s := by
    simp [World.held, World.withTaken, hrun, hq, List.countP_cons]
  have := World.uses_update hothers s
  omega

/-- The entry that a worker gives up does not refer to its socket any more. -/
theorem World.uses_withoutEntry {w : World ι HDF} {p : ι} {e : QueueEntry HDF}
    (hrun : w.running p = some e) (s : ℕ) :
    w.uses s = (w.withoutEntry p).uses s + if e.req.tcpsock = s then 1 else 0 := by
  have hothers : ∀ p' ≠ p, (w.withoutEntry p).held p' = w.held p' := fun p' hp' => by
    simp [World.held, World.withoutEntry, hp']
  have hself : (w.held p).countP (fun e => e.req.tcpsock = s) =
      ((w.withoutEntry p).held p).countP (fun e => e.req.tcpsock = s) +
        if e.req.tcpsock = s then 1 else 0 := by
    simp [World.held, World.withoutEntry, hrun, List.countP_cons]
  have := World.uses_update hothers s
  omega

/-- The entry that a worker processes refers to its socket. -/
theorem World.uses_pos {w : World ι HDF} {p : ι} {e : QueueEntry HDF}
    (hrun : w.running p = some e) : 0 < w.uses e.req.tcpsock := by
  rw [World.uses_withoutEntry hrun, if_pos rfl]
  omega

/-! ## The counts as one equation -/

omit [DecidableEq ι] in
/-- The counts are right when each of them, taken as 0 for a number that is not allocated, is the
number of references. -/
theorem World.Counted.of_refcount {w : World ι HDF} (hsound : w.Sound)
    (h : ∀ s, w.refcount s = w.refs s) (hfreed : ∀ x ∈ w.freed, x.2 = false) : w.Counted where
  count s sock hs := by
    have heq := h s
    have hpos := hsound.counts s sock hs
    simp only [World.refcount, hs] at heq
    exact ⟨heq, by omega⟩
  gone s hs := by
    have heq := h s
    simp only [World.refcount, hs] at heq
    exact_mod_cast heq.symm
  once := hsound.once
  unlistened := hfreed

omit [DecidableEq ι] in
theorem World.Counted.refcount {w : World ι HDF} (h : w.Counted) (s : ℕ) :
    w.refcount s = w.refs s := by
  unfold World.refcount
  cases hs : w.socks s with
  | none => rw [h.gone s hs, Nat.cast_zero]
  | some sock => exact (h.count s sock hs).1

omit [DecidableEq ι] in
/-- The socket of an entry that a worker processes is allocated. -/
theorem World.Counted.allocated [DecidableEq ι] {w : World ι HDF} (h : w.Counted) {p : ι}
    {e : QueueEntry HDF} (hrun : w.running p = some e) : ∃ sock, w.socks e.req.tcpsock = some sock := by
  cases hs : w.socks e.req.tcpsock with
  | some sock => exact ⟨sock, rfl⟩
  | none =>
    have hrefs := h.gone _ hs
    have huses := World.uses_pos hrun
    unfold World.refs at hrefs
    omega

omit [DecidableEq ι] [Fintype ι] in
theorem World.listens_of_some {w : World ι HDF} {s : ℕ} {sock : TcpSocket ι}
    (hs : w.socks s = some sock) : w.listens s = if sock.evt then 1 else 0 := by
  unfold World.listens registered
  rw [hs]
  cases hevt : sock.evt <;> simp [hevt]

omit [DecidableEq ι] [Fintype ι] in
theorem World.listens_of_none {w : World ι HDF} {s : ℕ} (hs : w.socks s = none) :
    w.listens s = 0 := by
  simp [World.listens, registered, hs]

omit [DecidableEq ι] [Fintype ι] in
/-- A number whose socket has not changed. -/
theorem World.refcount_congr {w w' : World ι HDF} {s : ℕ} (h : w'.socks s = w.socks s) :
    w'.refcount s = w.refcount s ∧ w'.listens s = w.listens s := by
  unfold World.refcount World.listens registered
  rw [h]
  exact ⟨rfl, rfl⟩

/-! ## Dropping a reference -/

/-- What dropping a reference of `s` does to counts and references. -/
theorem World.removeRef_refs {w w' : World ι HDF} {s : ℕ} (hcount : w.Counts)
    (h : tcpSocketRemoveRef w s = .ok w') : (∀ s' ≠ s, w'.refcount s' = w.refcount s') ∧
      (∀ s' ≠ s, w'.refs s' = w.refs s') ∧ w'.refcount s = w.refcount s - 1 ∧
      ((w'.refs s = w.refs s ∧ w'.freed = w.freed) ∨
        ∃ sock, w.socks s = some sock ∧ w.refcount s = 1 ∧ w'.refs s = w.uses s ∧
          w'.freed = w.freed ++ [(s, sock.evt)]) := by
  have hrest := tcpSocketRemoveRef_rest h
  have huses : ∀ s', w'.uses s' = w.uses s' := World.uses_congr hrest.queues hrest.running
  obtain ⟨sock, hs, ⟨hmany, rfl⟩ | ⟨hone, hfree⟩⟩ := tcpSocketRemoveRef_counts hcount h
  · have hsocks : ∀ s' ≠ s, Function.update w.socks s
        (some { sock with refcount := sock.refcount - 1 }) s' = w.socks s' := fun s' hne =>
      Function.update_of_ne hne _ _
    refine ⟨fun s' hne => (World.refcount_congr (hsocks s' hne)).1, fun s' hne => ?_, ?_,
      .inl ⟨?_, rfl⟩⟩
    · rw [World.refs, World.refs, (World.refcount_congr (hsocks s' hne)).2, huses]
    · simp [World.refcount, hs]
    · rw [World.refs, World.refs, huses, World.listens_of_some hs,
        World.listens_of_some (Function.update_self s _ _)]
  · have hothers : ∀ s' ≠ s, w'.refcount s' = w.refcount s' ∧ w'.listens s' = w.listens s' :=
      fun s' hne => World.refcount_congr (by rw [hfree.socks, Function.update_of_ne hne])
    have hgone : w'.socks s = none := by rw [hfree.socks, Function.update_self]
    refine ⟨fun s' hne => (hothers s' hne).1, fun s' hne => ?_, ?_, .inr ⟨sock, hs, ?_, ?_, hfree.freed⟩⟩
    · rw [World.refs, World.refs, (hothers s' hne).2, huses]
    · simp [World.refcount, hs, hgone, hone]
    · simp [World.refcount, hs, hone]
    · rw [World.refs, World.listens_of_none hgone, huses, Nat.zero_add]

/-- A reference is dropped by whom it belonged to. -/
theorem World.Counted.of_removeRef {w w' : World ι HDF} {s : ℕ} (hsound : w.Sound)
    (hs : w.refcount s = w.refs s + 1) (hothers : ∀ s' ≠ s, w.refcount s' = w.refs s')
    (hfreed : ∀ x ∈ w.freed, x.2 = false) (h : tcpSocketRemoveRef w s = .ok w') : w'.Counted := by
  obtain ⟨hcount', hrefs', hself, hcase⟩ := World.removeRef_refs hsound.counts h
  refine .of_refcount (hsound.removeRef h) (fun s' => ?_) ?_
  · by_cases hne : s' = s
    · subst hne
      rcases hcase with ⟨hrefs, -⟩ | ⟨sock, hsock, hone, hrefs, -⟩
      · omega
      · have : w.refs s' = w.listens s' + w.uses s' := rfl
        omega
    · rw [hcount' s' hne, hrefs' s' hne, hothers s' hne]
  · rcases hcase with ⟨-, heq⟩ | ⟨sock, hsock, hone, -, heq⟩
    · rwa [heq]
    · rw [heq]
      intro x hx
      rcases List.mem_append.mp hx with hx | hx
      · exact hfreed x hx
      · -- The last reference was not the event loop's.
        have hzero : w.listens s = 0 := by
          have : w.refs s = w.listens s + w.uses s := rfl
          omega
        rw [World.listens_of_some hsock] at hzero
        rw [List.mem_singleton.mp hx]
        simpa using hzero

/-- A reference that nobody had is dropped. -/
theorem World.Counted.not_of_removeRef {w w' : World ι HDF} {s : ℕ} (hsound : w.Sound)
    (hcounted : w.Counted) (h : tcpSocketRemoveRef w s = .ok w') : ¬ w'.Counted := by
  intro hcounted'
  obtain ⟨-, -, hself, ⟨hrefs, -⟩ | ⟨sock, hsock, hone, hrefs, hfreed⟩⟩ :=
    World.removeRef_refs hsound.counts h
  · have := hcounted.refcount s
    have := hcounted'.refcount s
    omega
  · -- The socket is freed although the event loop or an entry refers to it.
    have hevt : sock.evt = false :=
      hcounted'.unlistened (s, sock.evt) (by rw [hfreed]; simp)
    have hlistens := World.listens_of_some hsock
    rw [hevt] at hlistens
    have hcount := hcounted.refcount s
    have hcount' := hcounted'.refcount s
    have : w.refs s = w.listens s + w.uses s := rfl
    simp only [Bool.false_eq_true, if_false] at hlistens
    omega

/-! ## The commands -/

omit [DecidableEq ι] in
/-- Two servers with the same counts, references and freed sockets. -/
theorem World.Counted.congr {w w' : World ι HDF} (h : w.Counted) (hsound : w'.Sound)
    (hcount : ∀ s, w'.refcount s = w.refcount s) (hrefs : ∀ s, w'.refs s = w.refs s)
    (hfreed : w'.freed = w.freed) : w'.Counted :=
  .of_refcount hsound (fun s => by rw [hcount, hrefs, h.refcount]) (by rw [hfreed]; exact h.unlistened)

/-- A user record refers to its socket without being counted. -/
theorem World.withUser_refs {w : World ι HDF} (p : ι) (uid : Uid) {req : ReqInfo}
    {sock : TcpSocket ι} (hs : w.socks req.tcpsock = some sock) (s : ℕ) :
    (w.withUser p uid req sock).refcount s = w.refcount s ∧
      (w.withUser p uid req sock).refs s = w.refs s := by
  have huses : (w.withUser p uid req sock).uses s = w.uses s := World.uses_congr rfl rfl s
  have hnew : (w.withUser p uid req sock).socks req.tcpsock =
      some { sock with appdata := some (p, uid) } := Function.update_self _ _ _
  by_cases hne : s = req.tcpsock
  · subst hne
    rw [World.refs, World.refs, huses, World.listens_of_some hs, World.listens_of_some hnew]
    simp [World.refcount, hs, hnew]
  · have hsame : (w.withUser p uid req sock).socks s = w.socks s := Function.update_of_ne hne _ _
    obtain ⟨hcount, hlistens⟩ := World.refcount_congr hsame
    rw [World.refs, World.refs, huses, hcount, hlistens]
    exact ⟨rfl, rfl⟩

/-- `base_user_new` changes nothing of the counts. -/
theorem World.counted_baseUserNew_iff {w : World ι HDF} {calloc : Bool} {p : ι} {uid : Uid}
    {req : ReqInfo} {r : World ι HDF × Option BaseUser} (hsound : w.Sound)
    (h : baseUserNew calloc w p uid req = .ok r) : r.1.Counted ↔ w.Counted := by
  have hsound' := hsound.baseUserNew h
  rcases baseUserNew_cases h with ⟨heq, -⟩ | ⟨sock, -, -, hs, heq⟩
  · rw [heq]
  · have hrefs := World.withUser_refs p uid hs
    rw [heq] at hsound' ⊢
    exact ⟨fun hc => hc.congr hsound (fun s => (hrefs s).1.symm) (fun s => (hrefs s).2.symm) rfl,
      fun hc => hc.congr hsound' (fun s => (hrefs s).1) (fun s => (hrefs s).2) rfl⟩

/-- A command leaves the counts right exactly when it finds no user elsewhere. -/
theorem World.counted_userCommand_iff {H : PushLib HDF} {user : Bool} {p : ι} {w w' : World ι HDF}
    {q : QueueEntry HDF} (hsound : w.Sound) (hcounted : w.Counted)
    (h : userCommand H user p w q = .ok w') : w'.Counted ↔
      ∀ uid u, (Joins H q uid → ¬ Elsewhere w p uid (some q.req) u) ∧
        (Quits H q uid → ¬ Elsewhere w p uid none u) := by
  -- Dropping the reference of a user found elsewhere breaks the counts: none was taken for it.
  have hquit : ∀ {uid req r}, baseUserQuit w p uid req = .ok r →
      (r.1.Counted ↔ ∀ u, ¬ Elsewhere w p uid req u) := fun hr => by
    rcases baseUserQuit_cases hr with ⟨heq, hno⟩ | ⟨u, hu, hw⟩
    · rw [heq]
      exact iff_of_true hcounted hno
    · exact iff_of_false (hcounted.not_of_removeRef hsound hw) fun hno => hno u hu
  have huid : ∀ {uid uid'}, reqGetParamStr H q.hdfrcv "userid" = .ok uid →
      reqGetParamStr H q.hdfrcv "userid" = .ok uid' → uid' = uid := fun h h' =>
    (Except.ok.inj (h.symm.trans h')).symm
  rcases userCommand_cases h with
    ⟨uid, w₁, _, _, hjoin, h₁, h₂⟩ | ⟨uid, _, hq, h₁⟩ | ⟨hneither, rfl⟩
  · rw [World.counted_baseUserNew_iff (hsound.baseUserQuit h₁) h₂, hquit h₁]
    refine ⟨fun hno uid' u => ⟨fun hj => ?_, fun hq => ?_⟩, fun hno u => (hno uid u).1 hjoin⟩
    · rw [huid hjoin.1 hj.1]
      exact hno u
    · have hop := hjoin.2.symm.trans hq.2
      cases hop
  · rw [hquit h₁]
    refine ⟨fun hno uid' u => ⟨fun hj => ?_, fun hq' => ?_⟩, fun hno u => (hno uid u).2 hq⟩
    · have hop := hj.2.symm.trans hq.2
      cases hop
    · rw [huid hq.1 hq'.1]
      exact hno u
  · exact iff_of_true hcounted fun uid u =>
      ⟨fun hj => absurd hj (hneither uid).1, fun hq => absurd hq (hneither uid).2⟩

/-! ## The other steps -/

omit [DecidableEq ι] in
/-- A new connection has the one reference of its registration. -/
theorem World.Counted.withSocket {w : World ι HDF} {s : ℕ} {fd : ℤ} (h : w.Counted)
    (hs : w.Unused s) (hsound : (w.withSocket s fd).Sound) : (w.withSocket s fd).Counted := by
  have huses : ∀ s', (w.withSocket s fd).uses s' = w.uses s' := World.uses_congr rfl rfl
  refine .of_refcount hsound (fun s' => ?_) h.unlistened
  by_cases hne : s' = s
  · subst hne
    have hnew : (w.withSocket s' fd).socks s' = some (newSocket ι fd) := Function.update_self _ _ _
    -- A socket that was never allocated has no use.
    have hzero : w.uses s' = 0 := by
      have hrefs := h.gone s' hs.1
      unfold World.refs at hrefs
      omega
    rw [World.refs, huses, hzero, World.listens_of_some hnew]
    simp [World.refcount, hnew, newSocket]
  · have hsame : (w.withSocket s fd).socks s' = w.socks s' := Function.update_of_ne hne _ _
    obtain ⟨hcount, hlistens⟩ := World.refcount_congr hsame
    rw [hcount, World.refs, hlistens, huses]
    exact h.refcount s'

/-- A queued request has its own reference. -/
theorem World.Counted.received {H : HdfLib HDF} {w w' : World ι HDF} {req : ReqInfo}
    {ename : List UInt8} {hdfrcv : HDF} (h : w.Counted) (hsound : w'.Sound)
    (hw : Received H w req ename hdfrcv w') : w'.Counted := by
  have hput := hw.put
  cases hentry : putEntry H w req ename hdfrcv with
  | none =>
    rw [hentry] at hput
    have hsame : ∀ s, w'.refcount s = w.refcount s ∧ w'.listens s = w.listens s := fun s =>
      World.refcount_congr (by rw [hput.1])
    refine h.congr hsound (fun s => (hsame s).1) (fun s => ?_) hw.freed
    rw [World.refs, World.refs, (hsame s).2, World.uses_congr hput.2 hw.running]
  | some x =>
    obtain ⟨p, e⟩ := x
    rw [hentry] at hput
    obtain ⟨hq, sock, hs, hsocks⟩ := hput
    have huses := World.uses_enqueue hq hw.running
    have htcpsock : e.req.tcpsock = req.tcpsock := by rw [putEntry_eq_some hentry]; rfl
    refine .of_refcount hsound (fun s => ?_) (by rw [hw.freed]; exact h.unlistened)
    have hold := h.refcount s
    -- The entry in the queue is the use that the new reference counts.
    by_cases hne : s = req.tcpsock
    · subst hne
      have hnew : w'.socks req.tcpsock = some { sock with refcount := sock.refcount + 1 } := by
        rw [hsocks]
        exact Function.update_self _ _ _
      rw [World.refs, huses, htcpsock, if_pos rfl, World.listens_of_some hnew]
      rw [World.refs, World.listens_of_some hs] at hold
      simp only [World.refcount, hs, hnew] at hold ⊢
      push_cast at hold ⊢
      omega
    · have hsame : w'.socks s = w.socks s := by
        rw [hsocks]
        exact Function.update_of_ne hne _ _
      obtain ⟨hcount, hlistens⟩ := World.refcount_congr hsame
      rw [hcount, World.refs, hlistens, huses, htcpsock, if_neg (Ne.symm hne)]
      exact hold

/-- The event loop gives up a connection with its own reference. -/
theorem World.Counted.close {w w' : World ι HDF} {s : ℕ} {sock : TcpSocket ι} (h : w.Counted)
    (hsound : w.Sound) (hs : registered w s = some sock)
    (hw : tcpSocketRemoveRef (w.unlisten s sock) s = .ok w') : w'.Counted := by
  obtain ⟨hsock, hevt⟩ := registered_eq_some.mp hs
  have huses : ∀ s', (w.unlisten s sock).uses s' = w.uses s' := World.uses_congr rfl rfl
  refine .of_removeRef (hsound.unlisten hsock hevt) ?_ (fun s' hne => ?_) h.unlistened hw
  · have hnew : (w.unlisten s sock).socks s = some { sock with fd := -1, evt := false } :=
      Function.update_self _ _ _
    have hold := h.refcount s
    rw [World.refs, World.listens_of_some hsock, hevt] at hold
    rw [World.refs, huses, World.listens_of_some hnew]
    simp only [World.refcount, hsock, hnew, if_true, Bool.false_eq_true, if_false] at hold ⊢
    push_cast at hold ⊢
    omega
  · have hsame : (w.unlisten s sock).socks s' = w.socks s' := Function.update_of_ne hne _ _
    obtain ⟨hcount, hlistens⟩ := World.refcount_congr hsame
    rw [hcount, World.refs, hlistens, huses]
    exact h.refcount s'

/-- A worker frees its entry with the entry's reference. -/
theorem World.Counted.free {w w' : World ι HDF} {p : ι} {e : QueueEntry HDF} (h : w.Counted)
    (hsound : w.Sound) (hrun : w.running p = some e)
    (hw : queueEntryFree (w.withoutEntry p) e = .ok w') : w'.Counted := by
  have huses := World.uses_withoutEntry hrun
  have hsame : ∀ s, (w.withoutEntry p).refcount s = w.refcount s ∧
      (w.withoutEntry p).listens s = w.listens s := fun s => World.refcount_congr rfl
  have hsound' : (w.withoutEntry p).Sound := hsound.congr rfl rfl rfl rfl
  refine .of_removeRef hsound' ?_ (fun s' hne => ?_) h.unlistened hw
  · have hold := h.refcount e.req.tcpsock
    rw [World.refs, huses, if_pos rfl] at hold
    rw [World.refs, (hsame _).1, (hsame _).2]
    push_cast at hold ⊢
    omega
  · have hold := h.refcount s'
    rw [World.refs, huses, if_neg (Ne.symm hne)] at hold
    rw [World.refs, (hsame _).1, (hsame _).2]
    simpa using hold

/-- A step that does not fault keeps the counts right exactly when it meets the condition. -/
theorem Server.counted_step_iff {H : PushLib HDF} {sv sv' : Server ι HDF} {i : ServerStep ι HDF}
    (hsound : sv.world.Sound) (hcounted : sv.world.Counted) (hstep : sv.step H i = .ok sv') :
    sv'.world.Counted ↔ Server.LeavesUsers H (.ok sv) i := by
  have heffect := Server.step_effect hsound.counts hstep
  have hsound' := heffect.sound hsound
  generalize sv'.world = w' at heffect hsound' ⊢
  -- A step that runs no command meets the condition.
  have hno : sv.runs i = none → Server.LeavesUsers H (.ok sv) i := fun hrun p e he => by
    rw [hrun] at he
    cases he
  cases heffect with
  | idle _ _ hrun => exact iff_of_true hcounted (hno hrun)
  | accept _ _ hs => exact iff_of_true (hcounted.withSocket hs hsound') (hno rfl)
  | request _ hw => exact iff_of_true (hcounted.received hsound' hw) (hno rfl)
  | refuse _ =>
    exact iff_of_true (hcounted.congr hsound' (fun _ => rfl) (fun _ => rfl) rfl) (hno rfl)
  | close hs hw => exact iff_of_true (hcounted.close hsound hs hw) (hno rfl)
  | take hrun hq =>
    refine iff_of_true (hcounted.congr hsound' (fun _ => rfl) (fun s => ?_) rfl) (hno rfl)
    rw [World.refs, World.refs, World.uses_withTaken hrun hq]
    rfl
  | @process p user e w' hrun hp hw =>
    have hruns := Server.runs_process user hrun hp
    refine (World.counted_userCommand_iff hsound hcounted hw).trans ?_
    refine ⟨fun h p' e' he => ?_, fun h => h p e hruns⟩
    obtain ⟨rfl, rfl⟩ := Prod.mk.inj (Option.some.inj (hruns.symm.trans he))
    exact h
  | reply _ =>
    exact iff_of_true (hcounted.congr hsound' (fun _ => rfl) (fun _ => rfl) rfl) (hno rfl)
  | push _ _ =>
    exact iff_of_true (hcounted.congr hsound' (fun _ => rfl) (fun _ => rfl) rfl) (hno rfl)
  | free hrun _ hw => exact iff_of_true (hcounted.free hsound hrun hw) (hno rfl)

/-! ## Faults -/

omit [Fintype ι] in
theorem baseUserNew_ok (calloc : Bool) {w : World ι HDF} (p : ι) (uid : Uid) {req : ReqInfo}
    {sock : TcpSocket ι} (hs : w.socks req.tcpsock = some sock) :
    ∃ r, baseUserNew calloc w p uid req = .ok r := by
  unfold baseUserNew
  cases baseUserFind w p uid with
  | some user => exact ⟨_, rfl⟩
  | none =>
    dsimp only
    rw [hs]
    split_ifs <;> exact ⟨_, rfl⟩

omit [Fintype ι] in
theorem baseUserQuit_of_not_elsewhere {w : World ι HDF} {p : ι} {uid : Uid} {req : Option ReqInfo}
    (h : ∀ u, ¬ Elsewhere w p uid req u) : baseUserQuit w p uid req = .ok (w, false) := by
  unfold baseUserQuit
  cases hfind : baseUserFind w p uid with
  | none => rfl
  | some user =>
    dsimp only
    rw [if_pos]
    by_contra hany
    refine h user ⟨hfind, fun r hr heq => hany ?_⟩
    rw [hr, Option.any_some]
    simpa using heq

/-- With the counts right, no step that meets the condition faults. -/
theorem Server.step_ok_of_counted {H : PushLib HDF} {sv : Server ι HDF} {i : ServerStep ι HDF}
    (hsound : sv.world.Sound) (hcounted : sv.world.Counted)
    (hi : Server.LeavesUsers H (.ok sv) i) : ∃ sv', sv.step H i = .ok sv' := by
  cases hstep : sv.step H i with
  | ok sv' => exact ⟨sv', rfl⟩
  | error f =>
    exfalso
    rcases Server.step_error hsound.counts hstep with
      ⟨p, user, e, rfl, hrun, hp, hw⟩ | ⟨p, e, rfl, hrun, hp, hw⟩
    · obtain ⟨sock, hs⟩ := hcounted.allocated hrun
      have huser := hi p e (Server.runs_process user hrun hp)
      rcases joins_or_quits H e with ⟨uid, hjoin⟩ | ⟨uid, hquit⟩ | hneither
      · obtain ⟨r, hr⟩ := baseUserNew_ok user p uid hs
        rw [userCommand_of_joins hjoin,
          baseUserQuit_of_not_elsewhere fun u => (huser uid u).1 hjoin, ok_bind] at hw
        simp [hr] at hw
      · rw [userCommand_of_quits hquit,
          baseUserQuit_of_not_elsewhere fun u => (huser uid u).2 hquit, ok_bind] at hw
        cases hw
      · rw [userCommand_of_neither hneither] at hw
        cases hw
    · obtain ⟨sock, hs⟩ := hcounted.allocated hrun
      obtain ⟨w', hw'⟩ := tcpSocketRemoveRef_ok (w := sv.world.withoutEntry p) hs
      rw [queueEntryFree, hw'] at hw
      cases hw

/-! ## Every run -/

/-- Over every run of the server, no step faults and the counts are right in every state, each socket
freed at most once and only without references, if and only if no step runs a JOIN that finds its
user on another connection or a QUIT that finds its user. -/
theorem Server.always_counted_iff (H : PushLib HDF) (cfg : HDF) (gMoc : MocTable ι)
    (is : List (ServerStep ι HDF)) :
    Always (Server.next H) Server.Counted (.ok (.start cfg gMoc)) is ↔
      EachStep (Server.next H) (Server.LeavesUsers H) (.ok (.start cfg gMoc)) is := by
  refine always_iff_eachStep (L := fun _ _ => True)
    (I := fun x : Except Fault (Server ι HDF) =>
      ∃ sv, x = .ok sv ∧ sv.world.Sound ∧ sv.world.Counted)
    ?_ ?_ ?_ ⟨_, rfl, .start cfg gMoc, ?_⟩ (eachStep_of_forall (fun _ _ => trivial) _ _)
  · rintro _ ⟨sv, rfl, -, hcounted⟩
    exact hcounted
  · rintro _ i ⟨sv, rfl, hsound, hcounted⟩ - hi
    obtain ⟨sv', hstep⟩ := Server.step_ok_of_counted hsound hcounted hi
    exact ⟨sv', hstep, (Server.step_effect hsound.counts hstep).sound hsound,
      (Server.counted_step_iff hsound hcounted hstep).mpr hi⟩
  · rintro _ i ⟨sv, rfl, hsound, hcounted⟩ - hi hnext
    unfold Server.next at hnext
    rw [ok_bind] at hnext
    cases hstep : sv.step H i with
    | error f =>
      rw [hstep] at hnext
      exact hnext
    | ok sv' =>
      rw [hstep] at hnext
      exact hi ((Server.counted_step_iff hsound hcounted hstep).mp hnext)
  · refine .of_refcount (.start cfg gMoc) (fun s => ?_) (by simp [Server.start, World.start])
    simp [World.refcount, World.refs, World.listens, registered, World.uses, World.held,
      Server.start, World.start]

/-- The sockets freed so far, none after a fault. -/
def Server.freed : Except Fault (Server ι HDF) → List (ℕ × Bool)
  | .ok sv => sv.world.freed
  | .error _ => []

omit [DecidableEq ι] in
theorem Server.Counted.freed {x : Except Fault (Server ι HDF)} (h : Server.Counted x) :
    ∀ y ∈ Server.freed x, y.2 = false := by
  cases x with
  | error f => exact h.elim
  | ok sv => exact h.unlistened

/-- A user joins on the connection 0, and the connection 1 sends a QUIT of that user. -/
def quitOfAnother : List (ServerStep Unit (List UInt8)) :=
  [.accept 0 5, .request 0 1 reqCmdBaseJoin 0 (ascii "a") [97], .take (), .process () true, .free (),
    .accept 1 6, .request 1 1 reqCmdBaseQuit 0 (ascii "a") [97], .take (), .process () true]

/-- The QUIT frees the socket of a connection that the event loop still listens on. -/
theorem Server.not_always_counted_quitOfAnother :
    ¬ ∀ is, Always (Server.next useridHdf) Server.Counted
      (.ok (.start [] (.single (ascii "a")))) is := by
  intro h
  obtain ⟨-, -, -, -, -, -, -, -, -, hlast⟩ := h quitOfAnother
  have hfreed := hlast.freed
  revert hfreed
  decide +kernel

end Moc
