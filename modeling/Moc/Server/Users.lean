import Moc.Server.Lifetime

/-!
# Users and their sockets

`base_user_new` files a user under its id and puts the record into the `appdata` of the request's
socket, so that closing the connection destroys the record. A socket has one `appdata`, and a JOIN
writes it without looking at what is there: `World.Linked` says that users and sockets point at each
other, and holds as long as no connection joins twice under different ids.
-/

open Bytes Memory Runs

namespace Moc

variable {ι HDF : Type} [DecidableEq ι]

/-! ## The invariant -/

/-- Every user is filed under its own id and is the `appdata` of its socket, which is allocated.
`usernum` counts the users. -/
structure World.Linked (w : World ι HDF) : Prop where
  filed : ∀ p uid u, baseUserFind w p uid = some u → u.uid = uid ∧
    ∃ sock, w.socks u.tcpsock = some sock ∧ sock.appdata = some (p, uid)
  usernum : ∀ p, w.usernum p = (w.userh p).keys.length

/-- Users and sockets of a server that has not faulted point at each other. -/
def Server.Linked : Except Fault (Server ι HDF) → Prop
  | .ok sv => sv.world.Linked
  | .error _ => False

/-- A JOIN of `uid` makes a new record: there is none, or there is one for another connection, and it
goes with the last reference of its socket, which the JOIN drops. -/
def World.FilesUser (w : World ι HDF) (p : ι) (uid : Uid) (req : ReqInfo) : Prop :=
  baseUserFind w p uid = none ∨ ∃ u sock, Elsewhere w p uid (some req) u ∧
    w.socks u.tcpsock = some sock ∧ sock.refcount = 1 ∧ sock.appdata = some (p, uid)

/-- The socket `s` is allocated, and no user has joined on it. -/
def World.Vacant (w : World ι HDF) (s : ℕ) : Prop :=
  ∃ sock, w.socks s = some sock ∧ sock.appdata = none

/-- A JOIN makes a record only on a connection that no user has joined on, and an entry is freed
before its socket is gone. -/
def Server.JoinsOnce (H : PushLib HDF) :
    Except Fault (Server ι HDF) → ServerStep ι HDF → Prop
  | .ok sv, .process p user => ∀ e, sv.runs (.process p user) = some (p, e) → ∀ uid,
      Joins H e uid → user = true → sv.world.FilesUser p uid e.req → sv.world.Vacant e.req.tcpsock
  | .ok sv, .free p => ∀ e, sv.world.running p = some e → sv.processed p = true →
      sv.world.socks e.req.tcpsock ≠ none
  | _, _ => True

/-! ## The size of a table -/

theorem length_keys_erase {α : Type} {β : α → Type} [DecidableEq α] {m : AList β} {a : α}
    (h : a ∈ m.keys) : (m.erase a).keys.length = m.keys.length - 1 := by
  rw [AList.keys_erase, List.length_erase_of_mem h]

theorem length_keys_insert {α : Type} {β : α → Type} [DecidableEq α] {m : AList β} {a : α}
    {b : β a} (h : a ∉ m.keys) : (m.insert a b).keys.length = m.keys.length + 1 := by
  rw [AList.keys_insert, List.length_cons, List.erase_of_not_mem h]

/-! ## Dropping a reference -/

omit [DecidableEq ι] in
/-- The users and the sockets' `appdata` are what the property looks at. -/
theorem World.Linked.congr {w w' : World ι HDF} (h : w.Linked)
    (happdata : ∀ s sock, w.socks s = some sock →
      ∃ sock', w'.socks s = some sock' ∧ sock'.appdata = sock.appdata)
    (huserh : w'.userh = w.userh) (husernum : w'.usernum = w.usernum) : w'.Linked where
  filed p uid u hu := by
    unfold baseUserFind at hu
    rw [huserh] at hu
    obtain ⟨huid, sock, hs, happ⟩ := h.filed p uid u hu
    obtain ⟨sock', hs', heq⟩ := happdata _ sock hs
    exact ⟨huid, sock', hs', heq.trans happ⟩
  usernum p := by rw [huserh, husernum, h.usernum]

omit [DecidableEq ι] in
/-- Two users do not share a socket. -/
theorem World.Linked.unique {w : World ι HDF} (h : w.Linked) {p p' : ι} {uid uid' : Uid}
    {u u' : BaseUser} (hu : baseUserFind w p uid = some u) (hu' : baseUserFind w p' uid' = some u')
    (hs : u.tcpsock = u'.tcpsock) : (p, uid) = (p', uid') := by
  obtain ⟨-, sock, hsock, happ⟩ := h.filed p uid u hu
  obtain ⟨-, sock', hsock', happ'⟩ := h.filed p' uid' u' hu'
  rw [hs, hsock', Option.some.injEq] at hsock
  rw [← hsock, happ'] at happ
  exact (Option.some.inj happ).symm

/-- Freeing a socket takes its user along. -/
theorem World.Linked.frees {w w' : World ι HDF} {s : ℕ} {sock : TcpSocket ι} (h : w.Linked)
    (hsound : w.Sound) (hs : w.socks s = some sock) (hfree : w.Frees s sock w') : w'.Linked where
  filed p uid u hu := by
    rw [hfree.find] at hu
    split_ifs at hu with happ
    obtain ⟨huid, sock', hs', happ'⟩ := h.filed p uid u hu
    refine ⟨huid, sock', ?_, happ'⟩
    rw [hfree.socks, Function.update_of_ne, hs']
    -- A user of the freed socket is the one in its `appdata`.
    intro heq
    rw [heq, hs, Option.some.injEq] at hs'
    rw [hs'] at happ
    exact happ happ'
  usernum p := by
    rw [hfree.users, hfree.usernum]
    cases happ : sock.appdata with
    | none => exact h.usernum p
    | some x =>
      obtain ⟨p', uid⟩ := x
      obtain ⟨u, hu, -⟩ := hsound.appdata s sock p' uid hs happ
      have hmem : uid ∈ (w.userh p').keys := by
        rw [← AList.mem_keys, ← AList.lookup_isSome]
        exact Option.isSome_iff_exists.mpr ⟨u, hu⟩
      have hlen := List.length_pos_of_mem hmem
      have hnum := h.usernum p'
      dsimp only
      rw [if_pos (by omega)]
      by_cases hp : p = p'
      · subst hp
        rw [Function.update_self, Function.update_self, length_keys_erase hmem]
        omega
      · rw [Function.update_of_ne hp, Function.update_of_ne hp]
        exact h.usernum p

theorem World.Linked.removeRef {w w' : World ι HDF} {s : ℕ} (h : w.Linked) (hsound : w.Sound)
    (hw : tcpSocketRemoveRef w s = .ok w') : w'.Linked := by
  obtain ⟨sock, hs, ⟨-, rfl⟩ | ⟨-, hfree⟩⟩ := tcpSocketRemoveRef_counts hsound.counts hw
  · refine h.congr (fun s' sock' hs' => ?_) rfl rfl
    by_cases hne : s' = s
    · subst hne
      rw [hs, Option.some.injEq] at hs'
      exact ⟨_, Function.update_self _ _ _, by rw [hs']⟩
    · exact ⟨sock', (Function.update_of_ne hne _ _).trans hs', rfl⟩
  · exact h.frees hsound hs hfree

/-! ## A new record -/

/-- A record on a socket that no user has joined on. -/
theorem World.Linked.withUser {w : World ι HDF} {p : ι} {uid : Uid} {req : ReqInfo}
    {sock : TcpSocket ι} (h : w.Linked) (hnew : baseUserFind w p uid = none)
    (hs : w.socks req.tcpsock = some sock) (happ : sock.appdata = none) :
    (w.withUser p uid req sock).Linked where
  filed p' uid' u hu := by
    rw [baseUserFind_withUser] at hu
    split_ifs at hu with heq
    · obtain ⟨rfl, rfl⟩ := Prod.mk.inj heq
      rw [← Option.some.inj hu]
      exact ⟨rfl, _, Function.update_self _ _ _, rfl⟩
    · obtain ⟨huid, sock', hs', happ'⟩ := h.filed p' uid' u hu
      refine ⟨huid, sock', (Function.update_of_ne (fun hsame => ?_) _ _).trans hs', happ'⟩
      rw [hsame, hs, Option.some.injEq] at hs'
      rw [← hs', happ] at happ'
      cases happ'
  usernum p' := by
    have hkey : uid ∉ (w.userh p).keys := by
      rw [← AList.mem_keys, ← AList.lookup_eq_none]
      exact hnew
    have hnum := h.usernum p'
    unfold World.withUser
    dsimp only
    by_cases hp : p' = p
    · subst hp
      rw [Function.update_self, Function.update_self, length_keys_insert hkey]
      push_cast
      omega
    · rw [Function.update_of_ne hp, Function.update_of_ne hp]
      exact hnum

/-- A record on a socket that another user has joined on leaves that user behind. -/
theorem World.Linked.not_withUser {w : World ι HDF} {p : ι} {uid : Uid} {req : ReqInfo}
    {sock : TcpSocket ι} (hsound : w.Sound) (hnew : baseUserFind w p uid = none)
    (hs : w.socks req.tcpsock = some sock) (happ : sock.appdata ≠ none) :
    ¬ (w.withUser p uid req sock).Linked := by
  intro h
  obtain ⟨⟨p', uid'⟩, happ'⟩ := Option.ne_none_iff_exists'.mp happ
  obtain ⟨u, hu, hsock⟩ := hsound.appdata _ sock p' uid' hs happ'
  have hne : (p', uid') ≠ (p, uid) := fun heq => by
    obtain ⟨rfl, rfl⟩ := Prod.mk.inj heq
    rw [hnew] at hu
    cases hu
  have hfind := baseUserFind_withUser w p uid req sock p' uid'
  rw [if_neg hne, hu] at hfind
  obtain ⟨-, sock', hs', hback⟩ := h.filed p' uid' u hfind
  have hnewsock : (w.withUser p uid req sock).socks req.tcpsock =
      some { sock with appdata := some (p, uid) } := Function.update_self _ _ _
  rw [hsock, hnewsock, Option.some.injEq] at hs'
  rw [← hs'] at hback
  exact hne (Option.some.inj hback).symm

/-! ## A JOIN -/

/-- The first half of a JOIN decides whether there is a record left. -/
theorem baseUserFind_baseUserQuit_iff {w : World ι HDF} {p : ι} {uid : Uid} {req : ReqInfo}
    {r : World ι HDF × Bool} (hcount : w.Counts) (h : baseUserQuit w p uid (some req) = .ok r) :
    baseUserFind r.1 p uid = none ↔ w.FilesUser p uid req := by
  unfold World.FilesUser
  rcases baseUserQuit_cases h with ⟨heq, hno⟩ | ⟨u, hu, hw⟩
  · rw [heq]
    exact ⟨.inl, fun hor => hor.resolve_right fun ⟨u, _, hu, _⟩ => hno u hu⟩
  · obtain ⟨sock, hs, hcase⟩ := tcpSocketRemoveRef_counts hcount hw
    -- The record in question is `u`, and its socket is `sock`.
    have hsame : (baseUserFind w p uid = none ∨ ∃ u sock, Elsewhere w p uid (some req) u ∧
        w.socks u.tcpsock = some sock ∧ sock.refcount = 1 ∧ sock.appdata = some (p, uid)) ↔
        sock.refcount = 1 ∧ sock.appdata = some (p, uid) := by
      constructor
      · rintro (hnone | ⟨u', sock', hu', hs', hone⟩)
        · rw [hu.1] at hnone
          cases hnone
        · rw [Option.some.inj (hu'.1.symm.trans hu.1), hs, Option.some.injEq] at hs'
          rwa [hs']
      · exact fun hone => .inr ⟨u, sock, hu, hs, hone⟩
    rw [hsame]
    rcases hcase with ⟨hmany, heq⟩ | ⟨hone, hfree⟩
    · have hfind : baseUserFind r.1 p uid = some u := by
        rw [heq]
        exact hu.1
      rw [hfind]
      exact iff_of_false (by simp) fun h => by omega
    · rw [hfree.find, hu.1]
      by_cases happ : sock.appdata = some (p, uid)
      · simp [happ, hone]
      · simp [happ]

/-- When a record is made, dropping the old one does not make the request's socket vacant. -/
theorem vacant_baseUserQuit_iff {w : World ι HDF} {p : ι} {uid : Uid} {req : ReqInfo}
    {r : World ι HDF × Bool} (hcount : w.Counts) (h : baseUserQuit w p uid (some req) = .ok r)
    (hfiles : w.FilesUser p uid req) : r.1.Vacant req.tcpsock ↔ w.Vacant req.tcpsock := by
  rcases baseUserQuit_cases h with ⟨heq, -⟩ | ⟨u, hu, hw⟩
  · rw [heq]
  · obtain ⟨sock, hs, -, happ⟩ : ∃ sock, w.socks u.tcpsock = some sock ∧ sock.refcount = 1 ∧
        sock.appdata = some (p, uid) := by
      rcases hfiles with hnone | ⟨u', sock, hu', hs, hsock⟩
      · rw [hu.1] at hnone
        cases hnone
      · rw [Option.some.inj (hu'.1.symm.trans hu.1)] at hs
        exact ⟨sock, hs, hsock⟩
    obtain ⟨sock', hs', hcase⟩ := tcpSocketRemoveRef_counts hcount hw
    rw [hs, Option.some.injEq] at hs'
    subst hs'
    unfold World.Vacant
    by_cases hsame : req.tcpsock = u.tcpsock
    · -- The freed socket was not vacant before either.
      rw [hsame, hs]
      refine iff_of_false ?_ (by simp [happ])
      rcases hcase with ⟨-, heq⟩ | ⟨-, hfree⟩
      · rw [heq]
        simp [happ]
      · rw [hfree.socks]
        simp
    · have hsocks : r.1.socks req.tcpsock = w.socks req.tcpsock := by
        rcases hcase with ⟨-, heq⟩ | ⟨-, hfree⟩
        · rw [heq]
          exact Function.update_of_ne hsame _ _
        · rw [hfree.socks, Function.update_of_ne hsame]
      rw [hsocks]

/-- With users and sockets linked, `base_user_quit` does not fault. -/
theorem World.Linked.baseUserQuit {w : World ι HDF} (h : w.Linked) (hsound : w.Sound) (p : ι)
    (uid : Uid) (req : Option ReqInfo) :
    ∃ r, baseUserQuit w p uid req = .ok r ∧ r.1.Linked := by
  cases hquit : Moc.baseUserQuit w p uid req with
  | ok r =>
    refine ⟨r, rfl, ?_⟩
    rcases baseUserQuit_cases hquit with ⟨heq, -⟩ | ⟨u, -, hw⟩
    · rwa [heq]
    · exact h.removeRef hsound hw
  | error f =>
    exfalso
    unfold Moc.baseUserQuit at hquit
    cases hfind : baseUserFind w p uid with
    | none =>
      rw [hfind] at hquit
      cases hquit
    | some u =>
      obtain ⟨-, sock, hs, -⟩ := h.filed p uid u hfind
      obtain ⟨w', hw'⟩ := tcpSocketRemoveRef_ok hs
      rw [hfind] at hquit
      dsimp only at hquit
      rw [hw', ok_bind] at hquit
      split_ifs at hquit
      cases hquit

/-- The second half of a JOIN, when there is no record. -/
theorem World.linked_baseUserNew_iff {w : World ι HDF} (calloc : Bool) (p : ι) (uid : Uid)
    (req : ReqInfo) (h : w.Linked) (hsound : w.Sound) :
    (∃ r, baseUserNew calloc w p uid req = .ok r ∧ r.1.Linked) ↔
      (calloc = true → baseUserFind w p uid = none → w.Vacant req.tcpsock) := by
  constructor
  · rintro ⟨r, hr, hlinked⟩ hcalloc hnone
    rcases baseUserNew_cases hr with ⟨-, ⟨u, hu⟩ | hno⟩ | ⟨sock, -, -, hs, heq⟩
    · rw [hnone] at hu
      cases hu
    · rw [hcalloc] at hno
      cases hno
    · refine ⟨sock, hs, ?_⟩
      by_contra happ
      rw [heq] at hlinked
      exact World.Linked.not_withUser hsound hnone hs happ hlinked
  · intro hvacant
    unfold baseUserNew
    cases hfind : baseUserFind w p uid with
    | some u => exact ⟨_, rfl, h⟩
    | none =>
      cases hcalloc : calloc with
      | false => exact ⟨_, rfl, h⟩
      | true =>
        obtain ⟨sock, hs, happ⟩ := hvacant hcalloc hfind
        simp only [hs, not_true_eq_false, if_false]
        exact ⟨_, rfl, h.withUser hfind hs happ⟩

/-- A command leaves users and sockets linked exactly when a JOIN that makes a record does so on a
vacant connection. -/
theorem World.linked_userCommand_iff (H : PushLib HDF) (user : Bool) (p : ι) {w : World ι HDF}
    (q : QueueEntry HDF) (h : w.Linked) (hsound : w.Sound) :
    (∃ w', userCommand H user p w q = .ok w' ∧ w'.Linked) ↔
      ∀ uid, Joins H q uid → user = true → w.FilesUser p uid q.req → w.Vacant q.req.tcpsock := by
  rcases joins_or_quits H q with ⟨uid, hjoin⟩ | ⟨uid, hquit⟩ | hneither
  · obtain ⟨⟨w₁, b⟩, h₁, hlinked₁⟩ := h.baseUserQuit hsound p uid (some q.req)
    have hfind := baseUserFind_baseUserQuit_iff hsound.counts h₁
    have hnew := World.linked_baseUserNew_iff user p uid q.req
      hlinked₁ (hsound.baseUserQuit h₁)
    have hcommand : (∃ w', userCommand H user p w q = .ok w' ∧ w'.Linked) ↔
        ∃ r, baseUserNew user w₁ p uid q.req = .ok r ∧ r.1.Linked := by
      constructor
      · rintro ⟨w', hw', hlinked'⟩
        obtain ⟨w₂, b', u, hquit, hnew⟩ := hjoin.userCommand_iff.mp hw'
        rw [h₁] at hquit
        cases hquit
        exact ⟨(w', u), hnew, hlinked'⟩
      · rintro ⟨r, hr, hlinked'⟩
        exact ⟨r.1, hjoin.userCommand_iff.mpr ⟨w₁, b, r.2, h₁, hr⟩, hlinked'⟩
    rw [hcommand, hnew]
    constructor
    · intro hvacant uid' hjoin' huser hfiles
      rw [Except.ok.inj (hjoin'.1.symm.trans hjoin.1)] at hfiles
      exact (vacant_baseUserQuit_iff hsound.counts h₁ hfiles).mp (hvacant huser (hfind.mpr hfiles))
    · intro hvacant huser hnone
      have hfiles := hfind.mp hnone
      exact (vacant_baseUserQuit_iff hsound.counts h₁ hfiles).mpr (hvacant uid hjoin huser hfiles)
  · obtain ⟨⟨w₁, b⟩, h₁, hlinked₁⟩ := h.baseUserQuit hsound p uid none
    refine iff_of_true ⟨w₁, hquit.userCommand_iff.mpr ⟨b, h₁⟩, hlinked₁⟩ ?_
    intro uid' hjoin
    have hop := hjoin.2.symm.trans hquit.2
    cases hop
  · rw [userCommand_of_neither hneither]
    exact iff_of_true ⟨w, rfl, h⟩ fun uid hjoin => absurd hjoin (hneither uid).1

/-! ## The other steps -/

/-- A step that runs no command and does not fault leaves users and sockets linked. -/
theorem Server.Effect.linked {H : PushLib HDF} {sv : Server ι HDF} {i : ServerStep ι HDF}
    {w' : World ι HDF} (hsound : sv.world.Sound) (h : sv.world.Linked) (hruns : sv.runs i = none)
    (heffect : sv.Effect H i w') : w'.Linked := by
  -- Most steps touch neither the users nor the socket table.
  have hsame : ∀ {w' : World ι HDF}, w'.socks = sv.world.socks → w'.userh = sv.world.userh →
      w'.usernum = sv.world.usernum → w'.Linked := fun hsocks =>
    h.congr fun s sock hs => ⟨sock, by rw [hsocks, hs], rfl⟩
  cases heffect with
  | idle _ _ _ => exact h
  | accept _ _ hs =>
    refine h.congr (fun s' sock hs' => ⟨sock, ?_, rfl⟩) rfl rfl
    refine (Function.update_of_ne (fun heq => ?_) _ _).trans hs'
    rw [heq, hs.1] at hs'
    cases hs'
  | @request s id cmd flags ename hdfrcv sock w' _ hw =>
    have hput := hw.put
    cases hentry : putEntry H.toHdfLib sv.world (requestOf s sock id cmd flags) ename hdfrcv with
    | none =>
      rw [hentry] at hput
      exact hsame hput.1 hw.userh hw.usernum
    | some x =>
      rw [hentry] at hput
      obtain ⟨-, sock', hs', hsocks⟩ := hput
      refine h.congr (fun t tsock ht => ?_) hw.userh hw.usernum
      rw [hsocks]
      -- The queued request only takes a reference.
      by_cases hne : t = (requestOf s sock id cmd flags).tcpsock
      · rw [hne] at ht ⊢
        rw [hs', Option.some.injEq] at ht
        exact ⟨_, Function.update_self _ _ _, by rw [ht]⟩
      · exact ⟨tsock, (Function.update_of_ne hne _ _).trans ht, rfl⟩
  | refuse _ => exact hsame rfl rfl rfl
  | @close s sock w' hs hw =>
    obtain ⟨hsock, hevt⟩ := registered_eq_some.mp hs
    have hlinked : (sv.world.unlisten s sock).Linked := by
      refine h.congr (fun t tsock ht => ?_) rfl rfl
      by_cases hne : t = s
      · subst hne
        rw [hsock, Option.some.injEq] at ht
        exact ⟨_, Function.update_self _ _ _, by rw [ht]⟩
      · exact ⟨tsock, (Function.update_of_ne hne _ _).trans ht, rfl⟩
    exact hlinked.removeRef (hsound.unlisten hsock hevt) hw
  | take _ _ => exact hsame rfl rfl rfl
  | process hrun hp _ =>
    rw [Server.runs_process _ hrun hp] at hruns
    cases hruns
  | reply _ => exact hsame rfl rfl rfl
  | push _ _ => exact hsame rfl rfl rfl
  | @free p e w' _ _ hw =>
    have hlinked : (sv.world.withoutEntry p).Linked := hsame rfl rfl rfl
    exact hlinked.removeRef (hsound.congr rfl rfl rfl rfl) hw

/-- One step leaves users and sockets linked, without a fault, exactly when it meets the
condition. -/
theorem Server.linked_step_iff {H : PushLib HDF} {sv : Server ι HDF} {i : ServerStep ι HDF}
    (hsound : sv.world.Sound) (h : sv.world.Linked) :
    Server.Linked (sv.step H i) ↔ Server.JoinsOnce H (.ok sv) i := by
  cases hruns : sv.runs i with
  | some x =>
    obtain ⟨p, e⟩ := x
    obtain ⟨⟨user, rfl⟩, hrun, hp⟩ := Server.runs_eq_some hruns
    have hcommand := World.linked_userCommand_iff H user p e h hsound
    have hstep : Server.Linked (sv.step H (.process p user)) ↔
        ∃ w', userCommand H user p sv.world e = .ok w' ∧ w'.Linked := by
      simp only [Server.step, hrun, hp, Bool.false_eq_true, if_false]
      cases hw : userCommand H user p sv.world e with
      | error f => simp [Server.Linked]
      | ok w' => simp [Server.Linked]
    rw [hstep, hcommand]
    refine ⟨fun h e' he' => ?_, fun h => h e hruns⟩
    obtain ⟨-, rfl⟩ := Prod.mk.inj (Option.some.inj (hruns.symm.trans he'))
    exact h
  | none =>
    cases hstep : sv.step H i with
    | ok sv' =>
      have heffect := Server.step_effect hsound.counts hstep
      refine iff_of_true (heffect.linked hsound h hruns) ?_
      cases i with
      | process p user =>
        intro e he
        rw [hruns] at he
        cases he
      | free p =>
        intro e hrun hp hs
        simp only [Server.step, hrun, hp, if_true] at hstep
        obtain ⟨w', hw', -⟩ := bind_eq_ok.mp hstep
        -- The step did not fault, so the socket of its entry was allocated.
        have hfault : queueEntryFree (sv.world.withoutEntry p) e = .error .useAfterFree :=
          tcpSocketRemoveRef_of_none hs
        cases hfault.symm.trans hw'
      | _ => trivial
    | error f =>
      -- A step without a command faults only where it frees an entry whose socket is gone.
      rcases Server.step_error hsound.counts hstep with
        ⟨p, user, e, rfl, hrun, hp, -⟩ | ⟨p, e, rfl, hrun, hp, hw⟩
      · rw [Server.runs_process user hrun hp] at hruns
        cases hruns
      · refine iff_of_false (fun h => h) fun hjoins => ?_
        obtain ⟨sock, hs⟩ := Option.ne_none_iff_exists'.mp (hjoins e hrun hp)
        obtain ⟨w', hw'⟩ := tcpSocketRemoveRef_ok (w := sv.world.withoutEntry p) hs
        rw [queueEntryFree, hw'] at hw
        cases hw

/-! ## Every run -/

/-- Over every run of the server, no step touches a freed socket and users and sockets point at each
other in every state, if and only if each JOIN that makes a record does so on a connection that no
user has joined on, and no entry is freed behind its socket. -/
theorem Server.always_linked_iff (H : PushLib HDF) (cfg : HDF) (gMoc : MocTable ι)
    (is : List (ServerStep ι HDF)) :
    Always (Server.next H) Server.Linked (.ok (.start cfg gMoc)) is ↔
      EachStep (Server.next H) (Server.JoinsOnce H) (.ok (.start cfg gMoc)) is := by
  refine always_iff_eachStep (L := fun _ _ => True)
    (I := fun x : Except Fault (Server ι HDF) =>
      ∃ sv, x = .ok sv ∧ sv.world.Sound ∧ sv.world.Linked)
    ?_ ?_ ?_ ⟨_, rfl, .start cfg gMoc, ?_⟩ (eachStep_of_forall (fun _ _ => trivial) _ _)
  · rintro _ ⟨sv, rfl, -, h⟩
    exact h
  · rintro _ i ⟨sv, rfl, hsound, h⟩ - hi
    have hlinked := (Server.linked_step_iff hsound h).mpr hi
    unfold Server.next
    rw [ok_bind]
    cases hstep : sv.step H i with
    | error f =>
      rw [hstep] at hlinked
      exact hlinked.elim
    | ok sv' =>
      rw [hstep] at hlinked
      exact ⟨sv', rfl, (Server.step_effect hsound.counts hstep).sound hsound, hlinked⟩
  · rintro _ i ⟨sv, rfl, hsound, h⟩ - hi hnext
    exact hi ((Server.linked_step_iff hsound h).mp hnext)
  · refine ⟨fun p uid u hu => ?_, fun p => rfl⟩
    cases hu

/-- What the socket of the user `uid` names. -/
def Server.backlink (x : Except Fault (Server ι HDF)) (p : ι) (uid : Uid) :
    Option (Option (ι × Uid)) :=
  match x with
  | .ok sv => (baseUserFind sv.world p uid).bind fun u =>
    (sv.world.socks u.tcpsock).map TcpSocket.appdata
  | .error _ => none

omit [DecidableEq ι] in
theorem Server.Linked.backlink {x : Except Fault (Server ι HDF)} (h : Server.Linked x) (p : ι)
    (uid : Uid) : Server.backlink x p uid = none ∨ Server.backlink x p uid = some (some (p, uid)) := by
  cases x with
  | error f => exact h.elim
  | ok sv =>
    cases hfind : baseUserFind sv.world p uid with
    | none => exact .inl (by simp [Server.backlink, hfind])
    | some u =>
      obtain ⟨-, sock, hs, happ⟩ := h.filed p uid u hfind
      exact .inr (by simp [Server.backlink, hfind, hs, happ])

/-- Two users join on one connection. -/
def twoJoins : List (ServerStep Unit (List UInt8)) :=
  [.accept 0 5, .request 0 1 reqCmdBaseJoin 0 (ascii "a") [97], .take (), .process () true, .free (),
    .request 0 2 reqCmdBaseJoin 0 (ascii "a") [98], .take (), .process () true, .free ()]

/-- The socket that the first of two users has joined on names the second one. -/
theorem Server.not_always_linked_twoJoins :
    ¬ ∀ is, Always (Server.next useridHdf) Server.Linked
      (.ok (.start [] (.single (ascii "a")))) is := by
  intro h
  obtain ⟨-, -, -, -, -, -, -, -, -, hlast⟩ := h twoJoins
  have hback := hlast.backlink () [97]
  revert hback
  decide +kernel

end Moc
