import Moc.Server.Steps

/-!
# What holds in every state of the server

The facts about sockets, users and descriptors that no order of the steps can break, whatever the
reference counts are worth: an allocated socket is counted, a freed one stays away, the `appdata` of
a socket names a user that was filed for it, and the descriptor of a connection that the event loop
listens on is its own.
-/

open Bytes Memory Runs

namespace Moc

variable {ι HDF : Type} [DecidableEq ι]

/-! ## Looking up a user -/

/-- What `tcp_socket_remove_ref` does to the last reference of `s`. -/
structure World.Frees (w : World ι HDF) (s : ℕ) (sock : TcpSocket ι) (w' : World ι HDF) : Prop where
  rest : w.SameRest w'
  socks : w'.socks = Function.update w.socks s none
  freed : w'.freed = w.freed ++ [(s, sock.evt)]
  files : w'.files = if sock.fd > 0 then Function.update w.files sock.fd none else w.files
  find : ∀ p uid, baseUserFind w' p uid =
    if sock.appdata = some (p, uid) then none else baseUserFind w p uid
  users : w'.userh = match sock.appdata with
    | some (p, uid) => Function.update w.userh p ((w.userh p).erase uid)
    | none => w.userh
  usernum : w'.usernum = match sock.appdata with
    | some (p, _) => if w.usernum p > 0 then Function.update w.usernum p (w.usernum p - 1)
      else w.usernum
    | none => w.usernum

theorem tcpSocketFree_usernum (w : World ι HDF) (s : ℕ) (sock : TcpSocket ι) :
    (tcpSocketFree w s sock).usernum = match sock.appdata with
      | some (p, _) => if w.usernum p > 0 then Function.update w.usernum p (w.usernum p - 1)
        else w.usernum
      | none => w.usernum := by
  unfold tcpSocketFree baseUserDestroy
  cases sock.appdata <;> dsimp only <;> split_ifs <;> rfl

/-- Erasing the user that a socket's `appdata` names. -/
theorem baseUserFind_free (w : World ι HDF) (s : ℕ) (sock : TcpSocket ι) (p : ι) (uid : Uid) :
    baseUserFind (tcpSocketFree w s sock) p uid =
      if sock.appdata = some (p, uid) then none else baseUserFind w p uid := by
  unfold baseUserFind
  rw [tcpSocketFree_userh]
  cases happ : sock.appdata with
  | none => simp
  | some x =>
    obtain ⟨p', uid'⟩ := x
    dsimp only
    by_cases hp : p = p'
    · subst hp
      rw [Function.update_self]
      by_cases huid : uid = uid'
      · subst huid
        rw [if_pos rfl, AList.lookup_erase]
      · rw [AList.lookup_erase_ne huid, if_neg fun h => huid (Prod.mk.inj (Option.some.inj h)).2.symm]
    · rw [Function.update_of_ne hp, if_neg fun h => hp (Prod.mk.inj (Option.some.inj h)).1.symm]

/-- Dropping a reference of a socket that is counted. -/
theorem tcpSocketRemoveRef_counts {w w' : World ι HDF} {s : ℕ} (hcount : w.Counts)
    (h : tcpSocketRemoveRef w s = .ok w') : ∃ sock, w.socks s = some sock ∧
      ((1 < sock.refcount ∧ w' = { w with
          socks := Function.update w.socks s (some { sock with refcount := sock.refcount - 1 }) }) ∨
        (sock.refcount = 1 ∧ w.Frees s sock w')) := by
  obtain ⟨sock, hs, ⟨hle, -⟩ | hmany | ⟨hone, rfl⟩⟩ := tcpSocketRemoveRef_cases h
  · have := hcount s sock hs
    omega
  · exact ⟨sock, hs, .inl hmany⟩
  · refine ⟨sock, hs, .inr ⟨hone, ?_, ?_, ?_, ?_, fun p uid => ?_, ?_, ?_⟩⟩
    · have hrest := tcpSocketFree_rest { w with
        socks := Function.update w.socks s (some { sock with refcount := 0 }) } s
          { sock with refcount := 0 }
      exact ⟨hrest.stat, hrest.cfg, hrest.gMoc, hrest.queues, hrest.running, hrest.sent⟩
    · rw [tcpSocketFree_socks, Function.update_idem]
    · exact tcpSocketFree_freed _ _ _
    · exact tcpSocketFree_files _ _ _
    · exact baseUserFind_free _ _ _ p uid
    · exact tcpSocketFree_userh _ _ _
    · exact tcpSocketFree_usernum _ _ _

omit [DecidableEq ι] in
/-- The new record is found, and the others are where they were. -/
theorem baseUserFind_withUser [DecidableEq ι] (w : World ι HDF) (p : ι) (uid : Uid) (req : ReqInfo)
    (sock : TcpSocket ι) (p' : ι) (uid' : Uid) :
    baseUserFind (w.withUser p uid req sock) p' uid' =
      if (p', uid') = (p, uid) then some ⟨uid, req.fd, req.tcpsock⟩ else baseUserFind w p' uid' := by
  unfold baseUserFind World.withUser
  dsimp only
  by_cases hp : p' = p
  · subst hp
    rw [Function.update_self]
    by_cases huid : uid' = uid
    · subst huid
      rw [AList.lookup_insert, if_pos rfl]
    · rw [AList.lookup_insert_ne huid, if_neg fun h => huid (Prod.mk.inj h).2]
  · rw [Function.update_of_ne hp, if_neg fun h => hp (Prod.mk.inj h).1]

/-! ## The invariant -/

/-- The facts about sockets that every step keeps. -/
structure World.Sound (w : World ι HDF) : Prop where
  counts : w.Counts
  gone : ∀ s ∈ w.freed.map Prod.fst, w.socks s = none
  once : (w.freed.map Prod.fst).Nodup
  appdata : ∀ s sock p uid, w.socks s = some sock → sock.appdata = some (p, uid) →
    ∃ u, baseUserFind w p uid = some u ∧ u.tcpsock = s
  listening : ∀ s sock, w.socks s = some sock → sock.evt = true → w.files sock.fd = some s
  closed : ∀ s sock, w.socks s = some sock → sock.evt = false → sock.fd = -1

omit [DecidableEq ι] in
/-- The counts stay positive when a socket is written with a positive one. -/
theorem World.Counts.update {w w' : World ι HDF} {s : ℕ} {sock : TcpSocket ι} (h : w.Counts)
    (hsocks : w'.socks = Function.update w.socks s (some sock)) (hpos : 0 < sock.refcount) :
    w'.Counts := by
  intro s' sock' hs'
  rw [hsocks, update_eq_some] at hs'
  rcases hs' with ⟨rfl, heq⟩ | ⟨-, hs'⟩
  · rwa [← Option.some.inj heq]
  · exact h s' sock' hs'

omit [DecidableEq ι] in
/-- A number that was freed is not that of an allocated socket. -/
theorem World.Sound.ne_of_freed {w : World ι HDF} {s s' : ℕ} {sock : TcpSocket ι} (h : w.Sound)
    (hs : w.socks s = some sock) (hs' : s' ∈ w.freed.map Prod.fst) : s' ≠ s := by
  rintro rfl
  exact Option.some_ne_none sock (hs.symm.trans (h.gone s' hs'))

omit [DecidableEq ι] in
theorem World.Sound.start (cfg : HDF) (gMoc : MocTable ι) :
    (World.start cfg gMoc).Sound := by
  refine ⟨?_, ?_, ?_, ?_, ?_, ?_⟩ <;> simp [World.start, World.Counts]

omit [DecidableEq ι] in
/-- The invariant looks at the sockets, the users, the descriptors and the freed numbers only. -/
theorem World.Sound.congr {w w' : World ι HDF} (h : w.Sound) (hsocks : w'.socks = w.socks)
    (huserh : w'.userh = w.userh) (hfiles : w'.files = w.files) (hfreed : w'.freed = w.freed) :
    w'.Sound where
  counts := by
    unfold World.Counts
    rw [hsocks]
    exact h.counts
  gone := by
    rw [hsocks, hfreed]
    exact h.gone
  once := by
    rw [hfreed]
    exact h.once
  appdata := by
    unfold baseUserFind
    rw [hsocks, huserh]
    exact h.appdata
  listening := by
    rw [hsocks, hfiles]
    exact h.listening
  closed := by
    rw [hsocks]
    exact h.closed

omit [DecidableEq ι] in
/-- A socket is written back with another count. -/
theorem World.Sound.withCount {w w' : World ι HDF} {s : ℕ} {sock : TcpSocket ι} {n : ℤ}
    (h : w.Sound) (hs : w.socks s = some sock) (hn : 0 < n)
    (hsocks : w'.socks = Function.update w.socks s (some { sock with refcount := n }))
    (huserh : w'.userh = w.userh) (hfiles : w'.files = w.files) (hfreed : w'.freed = w.freed) :
    w'.Sound where
  counts := h.counts.update hsocks hn
  gone s' hs' := by
    rw [hfreed] at hs'
    rw [hsocks, Function.update_of_ne (h.ne_of_freed hs hs'), h.gone s' hs']
  once := by
    rw [hfreed]
    exact h.once
  appdata s' sock' p uid hs' happ := by
    unfold baseUserFind
    rw [huserh]
    rw [hsocks, update_eq_some] at hs'
    rcases hs' with ⟨rfl, heq⟩ | ⟨-, hs'⟩
    · rw [← Option.some.inj heq] at happ
      exact h.appdata s' sock p uid hs happ
    · exact h.appdata s' sock' p uid hs' happ
  listening s' sock' hs' hevt := by
    rw [hfiles]
    rw [hsocks, update_eq_some] at hs'
    rcases hs' with ⟨rfl, heq⟩ | ⟨-, hs'⟩
    · rw [← Option.some.inj heq] at hevt ⊢
      exact h.listening s' sock hs hevt
    · exact h.listening s' sock' hs' hevt
  closed s' sock' hs' hevt := by
    rw [hsocks, update_eq_some] at hs'
    rcases hs' with ⟨rfl, heq⟩ | ⟨-, hs'⟩
    · rw [← Option.some.inj heq] at hevt ⊢
      exact h.closed s' sock hs hevt
    · exact h.closed s' sock' hs' hevt

/-- The last reference is dropped. -/
theorem World.Sound.frees {w w' : World ι HDF} {s : ℕ} {sock : TcpSocket ι} (h : w.Sound)
    (hs : w.socks s = some sock) (hfree : w.Frees s sock w') : w'.Sound where
  counts s' sock' hs' := by
    rw [hfree.socks, update_eq_some] at hs'
    exact h.counts s' sock' (hs'.resolve_left (by simp)).2
  gone s' hs' := by
    rw [hfree.freed, List.map_append, List.mem_append] at hs'
    rw [hfree.socks]
    by_cases heq : s' = s
    · rw [heq, Function.update_self]
    · rw [Function.update_of_ne heq]
      exact h.gone s' (hs'.resolve_right (by simpa using heq))
  once := by
    have hnew : s ∉ w.freed.map Prod.fst := fun hmem => h.ne_of_freed hs hmem rfl
    rw [hfree.freed, List.map_append]
    exact List.Nodup.append h.once (List.nodup_singleton s) (by simpa using hnew)
  appdata s' sock' p uid hs' happ := by
    rw [hfree.socks, update_eq_some] at hs'
    obtain ⟨hne, hs'⟩ := hs'.resolve_left (by simp)
    obtain ⟨u, hu, hsock⟩ := h.appdata s' sock' p uid hs' happ
    refine ⟨u, ?_, hsock⟩
    rw [hfree.find, if_neg, hu]
    -- The user that is erased was filed for the freed socket, and this one was not.
    intro hsame
    obtain ⟨u', hu', hsock'⟩ := h.appdata s sock p uid hs hsame
    rw [hu, Option.some.injEq] at hu'
    rw [← hu', hsock] at hsock'
    exact hne hsock'
  listening s' sock' hs' hevt := by
    rw [hfree.socks, update_eq_some] at hs'
    obtain ⟨hne, hs'⟩ := hs'.resolve_left (by simp)
    have hfile := h.listening s' sock' hs' hevt
    rw [hfree.files]
    split_ifs with hfd
    · -- A socket with an open number is still registered, so the number is its own.
      have hown : w.files sock.fd = some s := h.listening s sock hs (by
        by_contra hevt'
        have := h.closed s sock hs (by simpa using hevt')
        omega)
      rw [Function.update_of_ne, hfile]
      intro heq
      rw [heq, hown, Option.some.injEq] at hfile
      exact hne hfile.symm
    · exact hfile
  closed s' sock' hs' hevt := by
    rw [hfree.socks, update_eq_some] at hs'
    exact h.closed s' sock' (hs'.resolve_left (by simp)).2 hevt

/-- Dropping a reference keeps the invariant. -/
theorem World.Sound.removeRef {w w' : World ι HDF} {s : ℕ} (h : w.Sound)
    (hw : tcpSocketRemoveRef w s = .ok w') : w'.Sound := by
  obtain ⟨sock, hs, ⟨hmany, rfl⟩ | ⟨-, hfree⟩⟩ := tcpSocketRemoveRef_counts h.counts hw
  · exact h.withCount hs (by omega : 0 < sock.refcount - 1) rfl rfl rfl rfl
  · exact h.frees hs hfree

/-- A record for a user that is not filed keeps the invariant. -/
theorem World.Sound.withUser {w : World ι HDF} {p : ι} {uid : Uid} {req : ReqInfo}
    {sock : TcpSocket ι} (h : w.Sound) (hs : w.socks req.tcpsock = some sock)
    (hnew : baseUserFind w p uid = none) : (w.withUser p uid req sock).Sound where
  counts := h.counts.update rfl (h.counts _ sock hs)
  gone s' hs' := (Function.update_of_ne (h.ne_of_freed hs hs') _ _).trans (h.gone s' hs')
  once := h.once
  appdata s' sock' p' uid' hs' happ := by
    rw [baseUserFind_withUser]
    rcases update_eq_some.mp hs' with ⟨rfl, heq⟩ | ⟨-, hs'⟩
    · rw [← Option.some.inj heq] at happ
      rw [if_pos (Option.some.inj happ).symm]
      exact ⟨_, rfl, rfl⟩
    · -- No other socket names a user that was not filed.
      obtain ⟨u, hu, hsock⟩ := h.appdata s' sock' p' uid' hs' happ
      refine ⟨u, ?_, hsock⟩
      rw [if_neg, hu]
      intro heq
      rw [(Prod.mk.inj heq).1, (Prod.mk.inj heq).2, hnew] at hu
      cases hu
  listening s' sock' hs' hevt := by
    rcases update_eq_some.mp hs' with ⟨rfl, heq⟩ | ⟨-, hs'⟩
    · rw [← Option.some.inj heq] at hevt ⊢
      exact h.listening _ sock hs hevt
    · exact h.listening s' sock' hs' hevt
  closed s' sock' hs' hevt := by
    rcases update_eq_some.mp hs' with ⟨rfl, heq⟩ | ⟨-, hs'⟩
    · rw [← Option.some.inj heq] at hevt ⊢
      exact h.closed _ sock hs hevt
    · exact h.closed s' sock' hs' hevt

theorem World.Sound.baseUserNew {w : World ι HDF} {calloc : Bool} {p : ι} {uid : Uid}
    {req : ReqInfo} {r : World ι HDF × Option BaseUser} (h : w.Sound)
    (hr : baseUserNew calloc w p uid req = .ok r) : r.1.Sound := by
  rcases baseUserNew_cases hr with ⟨heq, -⟩ | ⟨sock, -, hnew, hs, heq⟩
  · rwa [heq]
  · rw [heq]
    exact h.withUser hs hnew

theorem World.Sound.baseUserQuit {w : World ι HDF} {p : ι} {uid : Uid} {req : Option ReqInfo}
    {r : World ι HDF × Bool} (h : w.Sound) (hr : baseUserQuit w p uid req = .ok r) :
    r.1.Sound := by
  rcases baseUserQuit_cases hr with ⟨heq, -⟩ | ⟨u, -, hw⟩
  · rwa [heq]
  · exact h.removeRef hw

theorem World.Sound.userCommand {H : PushLib HDF} {user : Bool} {p : ι} {w w' : World ι HDF}
    {q : QueueEntry HDF} (h : w.Sound) (hw : userCommand H user p w q = .ok w') : w'.Sound := by
  rcases userCommand_cases hw with ⟨uid, w₁, _, _, -, h₁, h₂⟩ | ⟨uid, _, -, h₁⟩ | ⟨-, rfl⟩
  · exact (h.baseUserQuit h₁).baseUserNew h₂
  · exact h.baseUserQuit h₁
  · exact h

omit [DecidableEq ι] in
/-- A connection that the event loop gives up keeps the invariant. -/
theorem World.Sound.unlisten {w : World ι HDF} {s : ℕ} {sock : TcpSocket ι} (h : w.Sound)
    (hs : w.socks s = some sock) (hevt : sock.evt = true) : (w.unlisten s sock).Sound where
  counts := h.counts.update rfl (h.counts s sock hs)
  gone s' hs' := (Function.update_of_ne (h.ne_of_freed hs hs') _ _).trans (h.gone s' hs')
  once := h.once
  appdata s' sock' p uid hs' happ := by
    rcases update_eq_some.mp hs' with ⟨rfl, heq⟩ | ⟨-, hs'⟩
    · rw [← Option.some.inj heq] at happ
      exact h.appdata _ sock p uid hs happ
    · exact h.appdata s' sock' p uid hs' happ
  listening s' sock' hs' hevt' := by
    rcases update_eq_some.mp hs' with ⟨rfl, heq⟩ | ⟨hne, hs'⟩
    · rw [← Option.some.inj heq] at hevt'
      cases hevt'
    · have hfile := h.listening s' sock' hs' hevt'
      refine (Function.update_of_ne (fun heq => ?_) _ _).trans hfile
      rw [heq, h.listening s sock hs hevt, Option.some.injEq] at hfile
      exact hne hfile.symm
  closed s' sock' hs' hevt' := by
    rcases update_eq_some.mp hs' with ⟨rfl, heq⟩ | ⟨-, hs'⟩
    · rw [← Option.some.inj heq]
    · exact h.closed s' sock' hs' hevt'

omit [DecidableEq ι] in
/-- A new connection keeps the invariant. -/
theorem World.Sound.withSocket {w : World ι HDF} {s : ℕ} {fd : ℤ} (h : w.Sound)
    (hfree : w.files fd = none) (hs : w.Unused s) : (w.withSocket s fd).Sound where
  counts := h.counts.update rfl one_pos
  gone s' hs' := by
    have hne : s' ≠ s := fun heq => hs.2 (heq ▸ hs')
    exact (Function.update_of_ne hne _ _).trans (h.gone s' hs')
  once := h.once
  appdata s' sock' p uid hs' happ := by
    rcases update_eq_some.mp hs' with ⟨rfl, heq⟩ | ⟨-, hs'⟩
    · rw [← Option.some.inj heq] at happ
      cases happ
    · exact h.appdata s' sock' p uid hs' happ
  listening s' sock' hs' hevt := by
    rcases update_eq_some.mp hs' with ⟨rfl, heq⟩ | ⟨-, hs'⟩
    · rw [← Option.some.inj heq]
      exact Function.update_self _ _ _
    · have hfile := h.listening s' sock' hs' hevt
      refine (Function.update_of_ne (fun heq => ?_) _ _).trans hfile
      rw [heq, hfree] at hfile
      cases hfile
  closed s' sock' hs' hevt := by
    rcases update_eq_some.mp hs' with ⟨rfl, heq⟩ | ⟨-, hs'⟩
    · rw [← Option.some.inj heq] at hevt
      cases hevt
    · exact h.closed s' sock' hs' hevt

/-- Receiving a request keeps the invariant. -/
theorem World.Sound.received {H : HdfLib HDF} {w w' : World ι HDF} {req : ReqInfo}
    {ename : List UInt8} {hdfrcv : HDF} (h : w.Sound) (hw : Received H w req ename hdfrcv w') :
    w'.Sound := by
  have hput := hw.put
  cases hentry : putEntry H w req ename hdfrcv with
  | none =>
    rw [hentry] at hput
    exact h.congr hput.1 hw.userh hw.files hw.freed
  | some x =>
    rw [hentry] at hput
    obtain ⟨-, sock, hs, hsocks⟩ := hput
    have hpos := h.counts _ sock hs
    exact h.withCount hs (by omega : 0 < sock.refcount + 1) hsocks hw.userh hw.files hw.freed

/-- Every step keeps the invariant. -/
theorem Server.Effect.sound {H : PushLib HDF} {sv : Server ι HDF} {i : ServerStep ι HDF}
    {w' : World ι HDF} (h : sv.world.Sound) (heffect : sv.Effect H i w') : w'.Sound := by
  cases heffect with
  | idle _ _ _ => exact h
  | accept _ hfree hs => exact h.withSocket hfree hs
  | request _ hw => exact h.received hw
  | refuse _ => exact h.congr rfl rfl rfl rfl
  | close hs hw =>
    obtain ⟨hsock, hevt⟩ := registered_eq_some.mp hs
    exact (h.unlisten hsock hevt).removeRef hw
  | take _ _ => exact h.congr rfl rfl rfl rfl
  | process _ _ hw => exact h.userCommand hw
  | reply _ => exact h.congr rfl rfl rfl rfl
  | push _ _ => exact h.congr rfl rfl rfl rfl
  | @free p e w' _ _ hw =>
    have hsound : (sv.world.withoutEntry p).Sound := h.congr rfl rfl rfl rfl
    exact hsound.removeRef hw

/-! ## Which steps can fault -/

theorem tcpErrorExit_of_registered {w : World ι HDF} {s : ℕ} {sock : TcpSocket ι}
    (hs : registered w s = some sock) :
    tcpErrorExit w s = tcpSocketRemoveRef (w.unlisten s sock) s := by
  rw [tcpErrorExit, hs]
  rfl

/-- Giving up a connection never faults. -/
theorem tcpSocketRemoveRef_ok {w : World ι HDF} {s : ℕ} {sock : TcpSocket ι}
    (hs : w.socks s = some sock) : ∃ w', tcpSocketRemoveRef w s = .ok w' := by
  rcases lt_trichotomy sock.refcount 1 with hlt | hone | hgt
  · exact ⟨_, tcpSocketRemoveRef_of_le hs (by omega)⟩
  · exact ⟨_, tcpSocketRemoveRef_of_one hs hone⟩
  · exact ⟨_, tcpSocketRemoveRef_of_gt hs hgt⟩

theorem tcpErrorExit_ok (w : World ι HDF) (s : ℕ) : ∃ w', tcpErrorExit w s = .ok w' := by
  cases hs : registered w s with
  | none => exact ⟨w, by rw [tcpErrorExit, hs]⟩
  | some sock =>
    rw [tcpErrorExit_of_registered hs]
    have hsock : (w.unlisten s sock).socks s = some { sock with fd := -1, evt := false } :=
      Function.update_self _ _ _
    exact tcpSocketRemoveRef_ok hsock

/-- A step faults only in a command or in freeing an entry. -/
theorem Server.step_error {H : PushLib HDF} {sv : Server ι HDF} {i : ServerStep ι HDF} {f : Fault}
    (hcount : sv.world.Counts) (h : sv.step H i = .error f) :
    (∃ p user e, i = .process p user ∧ sv.world.running p = some e ∧ sv.processed p = false ∧
        userCommand H user p sv.world e = .error f) ∨
      ∃ p e, i = .free p ∧ sv.world.running p = some e ∧ sv.processed p = true ∧
        queueEntryFree (sv.world.withoutEntry p) e = .error f := by
  cases i with
  | accept s fd => cases h
  | request s id cmd flags ename hdfrcv =>
    simp only [Server.step] at h
    cases hs : registered sv.world s with
    | none =>
      rw [hs] at h
      cases h
    | some sock =>
      rw [hs] at h
      have hsock := (registered_eq_some.mp hs).1
      obtain ⟨w', hw', -⟩ := queueReq_received H.toHdfLib (w := sv.world)
        (requestOf s sock id cmd flags) hsock (hcount s sock hsock) ename hdfrcv
      dsimp only at h
      rw [hw', ok_bind] at h
      cases h
  | refuse s frame =>
    simp only [Server.step] at h
    cases hs : registered sv.world s <;> rw [hs] at h <;> cases h
  | close s =>
    -- The object that was registered is there to drop the reference of.
    obtain ⟨w', hw'⟩ := tcpErrorExit_ok sv.world s
    simp only [Server.step, hw', ok_bind] at h
    cases h
  | take p =>
    simp only [Server.step] at h
    split at h <;> cases h
  | process p user =>
    simp only [Server.step] at h
    cases hrun : sv.world.running p with
    | none =>
      rw [hrun] at h
      cases h
    | some e =>
      rw [hrun] at h
      dsimp only at h
      split_ifs at h with hp
      rcases bind_eq_error.mp h with h | ⟨w', -, h⟩
      · exact .inl ⟨p, user, e, rfl, hrun, by simpa using hp, h⟩
      · cases h
  | fail p => cases h
  | reply p frame =>
    simp only [Server.step] at h
    cases hrun : sv.world.running p <;> rw [hrun] at h <;> cases h
  | push p uid frame =>
    simp only [Server.step] at h
    cases hu : baseUserFind sv.world p uid <;> rw [hu] at h <;> cases h
  | free p =>
    simp only [Server.step] at h
    cases hrun : sv.world.running p with
    | none =>
      rw [hrun] at h
      cases h
    | some e =>
      rw [hrun] at h
      dsimp only at h
      split_ifs at h with hp
      rcases bind_eq_error.mp h with h | ⟨w', -, h⟩
      · exact .inr ⟨p, e, rfl, hrun, hp, h⟩
      · cases h

end Moc
