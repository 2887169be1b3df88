import Moc.Server.Keeps

/-!
# What a QUIT leads to

`base_user_quit` drops a reference that nobody took for the user. So the count of the user's
connection falls behind its references, and the connection goes with the last entry that refers to
it, although the event loop still listens. `World.Falls` says how a step changes count and
references, and `Server.hasQuit_iff` whether the user and the descriptor go as well.
-/

open Bytes Memory Runs

namespace Moc

variable {ι HDF : Type} [DecidableEq ι] {w w' w₁ : World ι HDF} {s s₀ : ℕ} {p : ι} {uid : Uid}

/-! ## Counts that fall behind -/

section Counts

variable [Fintype ι]

/-- How many references to the socket `s` are not counted. -/
def World.uncounted (w : World ι HDF) (s : ℕ) : ℤ := w.refs s - w.refcount s

/-- What a step may do to the socket `s`: no more references are counted than before, or the last one
is dropped. -/
def World.Falls (w w' : World ι HDF) (s : ℕ) : Prop :=
  (w.uncounted s ≤ w'.uncounted s ∧ w'.listens s ≤ w.listens s) ∨
    (w.refcount s = 1 ∧ w'.socks s = none ∧ w.uses s ≤ w'.uses s + 1)

omit [DecidableEq ι] in
theorem World.Falls.of_eq (hcount : w'.refcount s = w.refcount s)
    (hlistens : w'.listens s = w.listens s) (huses : w'.uses s = w.uses s) : w.Falls w' s := by
  left
  unfold World.uncounted World.refs
  rw [hcount, hlistens, huses]
  exact ⟨le_refl _, le_refl _⟩

omit [DecidableEq ι] in
/-- The sockets and the entries are the same. -/
theorem World.Falls.of_socks (hsocks : w'.socks = w.socks) (hqueues : w'.queues = w.queues)
    (hrunning : w'.running = w.running) : w.Falls w' s := by
  have hsame : w'.socks s = w.socks s := by rw [hsocks]
  obtain ⟨hcount, hlistens⟩ := World.refcount_congr hsame
  exact .of_eq hcount hlistens (World.uses_congr hqueues hrunning s)

/-- A dropped reference: the other sockets are as before, and this one counts one less or is
freed. -/
theorem World.removeRef_uncounted (hcounts : w.Counts) (h : tcpSocketRemoveRef w s₀ = .ok w') :
    (∀ s, w'.uses s = w.uses s) ∧
      (∀ s ≠ s₀, w'.refcount s = w.refcount s ∧ w'.listens s = w.listens s) ∧
      ((w'.uncounted s₀ = w.uncounted s₀ + 1 ∧ w'.listens s₀ = w.listens s₀) ∨
        (w.refcount s₀ = 1 ∧ w'.socks s₀ = none)) := by
  have hrest := tcpSocketRemoveRef_rest h
  have huses : ∀ s, w'.uses s = w.uses s := World.uses_congr hrest.queues hrest.running
  obtain ⟨sock, hs, ⟨-, rfl⟩ | ⟨hone, hfree⟩⟩ := tcpSocketRemoveRef_counts hcounts h
  · have hself := Function.update_self s₀ (some { sock with refcount := sock.refcount - 1 }) w.socks
    have hlistens : World.listens { w with
        socks := Function.update w.socks s₀ (some { sock with refcount := sock.refcount - 1 }) } s₀ =
          w.listens s₀ := by
      rw [World.listens_of_some hs, World.listens_of_some hself]
    refine ⟨huses, fun s hne => World.refcount_congr (Function.update_of_ne hne ..),
      Or.inl ⟨?_, hlistens⟩⟩
    unfold World.uncounted World.refs
    rw [hlistens, huses]
    simp only [World.refcount, hs, Function.update_self]
    omega
  · refine ⟨huses, fun s hne => World.refcount_congr ?_, Or.inr ⟨?_, ?_⟩⟩
    · rw [hfree.socks, Function.update_of_ne hne]
    · simp only [World.refcount, hs, hone]
    · rw [hfree.socks, Function.update_self]

theorem World.Falls.removeRef (hcounts : w.Counts) (h : tcpSocketRemoveRef w s₀ = .ok w') :
    w.Falls w' s := by
  obtain ⟨huses, hothers, hself⟩ := World.removeRef_uncounted hcounts h
  by_cases hne : s = s₀
  · subst hne
    rcases hself with ⟨huncounted, hlistens⟩ | ⟨hone, hnone⟩
    · exact Or.inl ⟨by omega, hlistens.le⟩
    · exact Or.inr ⟨hone, hnone, by rw [huses]; exact Nat.le_succ _⟩
  · exact .of_eq (hothers s hne).1 (hothers s hne).2 (huses s)

/-- The reference that is dropped was given up before: by the event loop or by an entry. -/
theorem World.Falls.of_removeRef (hcounts : w₁.Counts) (h : tcpSocketRemoveRef w₁ s₀ = .ok w')
    (hcount : ∀ s, w₁.refcount s = w.refcount s)
    (hothers : ∀ s ≠ s₀, w₁.listens s = w.listens s ∧ w₁.uses s = w.uses s)
    (hself : w₁.listens s₀ + w₁.uses s₀ + 1 = w.listens s₀ + w.uses s₀)
    (hlistens : w₁.listens s₀ ≤ w.listens s₀) : w.Falls w' s := by
  obtain ⟨huses, hsame, hdrop⟩ := World.removeRef_uncounted hcounts h
  by_cases hne : s = s₀
  · subst hne
    rcases hdrop with ⟨huncounted, hlistens'⟩ | ⟨hone, hnone⟩
    · refine Or.inl ⟨?_, by omega⟩
      have hcount := hcount s
      unfold World.uncounted World.refs at huncounted ⊢
      omega
    · exact Or.inr ⟨(hcount s).symm.trans hone, hnone, by rw [huses]; omega⟩
  · refine .of_eq ((hsame s hne).1.trans (hcount s)) ((hsame s hne).2.trans (hothers s hne).1) ?_
    rw [huses, (hothers s hne).2]

/-- A record makes no reference. -/
theorem World.Falls.baseUserNew {calloc : Bool} {req : ReqInfo} {w₂ : World ι HDF}
    {u : Option BaseUser} (h : w.Falls w₁ s) (hr : baseUserNew calloc w₁ p uid req = .ok (w₂, u)) :
    w.Falls w₂ s := by
  rcases baseUserNew_cases hr with ⟨heq, -⟩ | ⟨sock, -, -, hs, heq⟩ <;> dsimp only at heq
  · rwa [heq]
  · rw [heq]
    obtain ⟨hcount, hrefs⟩ := World.withUser_refs p uid hs s
    have huses : (w₁.withUser p uid req sock).uses s = w₁.uses s := World.uses_congr rfl rfl s
    have hlistens : (w₁.withUser p uid req sock).listens s = w₁.listens s := by
      unfold World.refs at hrefs
      omega
    rcases h with ⟨huncounted, hle⟩ | ⟨hone, hnone, hle⟩
    · refine Or.inl ⟨?_, hlistens.le.trans hle⟩
      unfold World.uncounted at huncounted ⊢
      rwa [hcount, hrefs]
    · exact Or.inr ⟨hone, (World.withUser_none hs).mpr hnone, by rw [huses]; exact hle⟩

theorem World.Falls.baseUserQuit (hsound : w.Sound) {req : Option ReqInfo} {found : Bool}
    (hr : baseUserQuit w p uid req = .ok (w₁, found)) : w.Falls w₁ s := by
  rcases baseUserQuit_cases hr with ⟨heq, -⟩ | ⟨u, -, hw⟩
  · rw [show w₁ = w from heq]
    exact .of_socks rfl rfl rfl
  · exact .removeRef hsound.counts hw

theorem World.Falls.userCommand {H : PushLib HDF} {user : Bool} {e : QueueEntry HDF}
    (hsound : w.Sound) (hw : userCommand H user p w e = .ok w') : w.Falls w' s := by
  rcases userCommand_cases hw with ⟨uid, w₁, _, _, -, h₁, h₂⟩ | ⟨uid, _, -, h₁⟩ | ⟨-, rfl⟩
  · exact (World.Falls.baseUserQuit hsound h₁).baseUserNew h₂
  · exact .baseUserQuit hsound h₁
  · exact .of_socks rfl rfl rfl

omit [DecidableEq ι] in
/-- Another connection is new. -/
theorem World.Falls.withSocket {fd : ℤ} (hne : s ≠ s₀) : w.Falls (w.withSocket s₀ fd) s := by
  obtain ⟨hcount, hlistens⟩ := World.refcount_congr (w.withSocket_of_ne hne)
  exact .of_eq hcount hlistens (World.uses_congr rfl rfl s)

/-- An entry and its reference come together. -/
theorem World.Falls.received {H : HdfLib HDF} {sock : TcpSocket ι} {id cmd flags : ℕ}
    {ename : List UInt8} {hdfrcv : HDF}
    (hw : Received H w (requestOf s₀ sock id cmd flags) ename hdfrcv w') : w.Falls w' s := by
  have hput := hw.put
  cases hentry : putEntry H w (requestOf s₀ sock id cmd flags) ename hdfrcv with
  | none =>
    rw [hentry] at hput
    exact .of_socks hput.1 hput.2 hw.running
  | some x =>
    obtain ⟨p, e⟩ := x
    rw [hentry] at hput
    obtain ⟨hq, sock', hs', hsocks⟩ := hput
    have huses := World.uses_enqueue hq hw.running
    have htcpsock : e.req.tcpsock = s₀ := by rw [putEntry_eq_some hentry]; rfl
    by_cases hne : s = s₀
    · subst hne
      have hnew : w'.socks s = some { sock' with refcount := sock'.refcount + 1 } := by
        rw [hsocks]
        exact Function.update_self ..
      have hold : w.socks s = some sock' := hs'
      have hlistens : w'.listens s = w.listens s := by
        rw [World.listens_of_some hnew, World.listens_of_some hold]
      refine Or.inl ⟨?_, hlistens.le⟩
      unfold World.uncounted World.refs
      rw [hlistens, huses, htcpsock, if_pos rfl]
      simp only [World.refcount, hnew, hold]
      omega
    · have hsame : w'.socks s = w.socks s := by
        rw [hsocks]
        exact Function.update_of_ne hne ..
      obtain ⟨hcount, hlistens⟩ := World.refcount_congr hsame
      refine .of_eq hcount hlistens ?_
      rw [huses, htcpsock, if_neg (Ne.symm hne), Nat.add_zero]

/-- The event loop gives up a connection and drops its reference. -/
theorem World.Falls.close {sock : TcpSocket ι} (hsound : w.Sound)
    (hs : registered w s₀ = some sock)
    (hw : tcpSocketRemoveRef (w.unlisten s₀ sock) s₀ = .ok w') : w.Falls w' s := by
  obtain ⟨hsock, hevt⟩ := registered_eq_some.mp hs
  have hnew : (w.unlisten s₀ sock).socks s₀ = some { sock with fd := -1, evt := false } :=
    Function.update_self ..
  have hsame : ∀ s ≠ s₀, (w.unlisten s₀ sock).socks s = w.socks s :=
    fun s hne => Function.update_of_ne hne ..
  have huses : ∀ s, (w.unlisten s₀ sock).uses s = w.uses s := World.uses_congr rfl rfl
  have hself := World.listens_of_some hnew
  have hold := World.listens_of_some hsock
  rw [hevt] at hold
  simp only [Bool.false_eq_true, if_false] at hself
  simp only [if_true] at hold
  refine .of_removeRef (hsound.unlisten hsock hevt).counts hw (fun s => ?_)
    (fun s hne => ⟨(World.refcount_congr (hsame s hne)).2, huses s⟩) ?_ ?_
  · by_cases hne : s = s₀
    · rw [hne]
      simp only [World.refcount, hnew, hsock]
    · exact (World.refcount_congr (hsame s hne)).1
  · rw [huses, hself, hold]
    omega
  · rw [hself]
    exact Nat.zero_le _

/-- The worker gives up an entry and drops its reference. -/
theorem World.Falls.free {e : QueueEntry HDF} (hsound : w.Sound) (hrun : w.running p = some e)
    (hw : queueEntryFree (w.withoutEntry p) e = .ok w') : w.Falls w' s := by
  have huses := World.uses_withoutEntry hrun
  have hsound' : (w.withoutEntry p).Sound := hsound.congr rfl rfl rfl rfl
  refine .of_removeRef hsound'.counts hw (fun _ => rfl) (fun s hne => ⟨rfl, ?_⟩) ?_ le_rfl
  · rw [huses s, if_neg (Ne.symm hne), Nat.add_zero]
  · rw [huses e.req.tcpsock, if_pos rfl]
    rfl

/-- What the steps of the server do to counts and references. A number that was never used may
become that of a new connection. -/
theorem Server.Effect.falls {H : PushLib HDF} {sv : Server ι HDF} {i : ServerStep ι HDF}
    (hsound : sv.world.Sound) (heffect : sv.Effect H i w') (s : ℕ) :
    sv.world.Falls w' s ∨ ∃ fd, sv.world.Unused s ∧ w'.socks s = some (newSocket ι fd) := by
  cases heffect with
  | idle _ _ _ => exact Or.inl (.of_socks rfl rfl rfl)
  | @accept s₀ fd _ _ hs =>
    by_cases hne : s = s₀
    · subst hne
      exact Or.inr ⟨fd, hs, Function.update_self ..⟩
    · exact Or.inl (.withSocket hne)
  | request _ hw => exact Or.inl (.received hw)
  | refuse _ => exact Or.inl (.of_socks rfl rfl rfl)
  | close hs hw => exact Or.inl (.close hsound hs hw)
  | take hrun hq => exact Or.inl (.of_eq rfl rfl (World.uses_withTaken hrun hq s))
  | process _ _ hw => exact Or.inl (.userCommand hsound hw)
  | reply _ => exact Or.inl (.of_socks rfl rfl rfl)
  | push _ _ => exact Or.inl (.of_socks rfl rfl rfl)
  | free hrun _ hw => exact Or.inl (.free hsound hrun hw)

end Counts

/-! ## A socket that goes with its last entry -/

section Counts

variable [Fintype ι] {H : PushLib HDF} {sv : Server ι HDF} {i : ServerStep ι HDF}

/-- The socket `s` was freed, or goes before its last entry does. -/
def World.Closing (w : World ι HDF) (s : ℕ) : Prop :=
  ¬w.Unused s ∧ (w.socks s = none ∨ 0 < w.uncounted s)

/-- A step that frees an entry of the socket `s` will find it freed. -/
def World.Doomed (w : World ι HDF) (s : ℕ) : Prop :=
  ¬w.Unused s ∧ w.listens s = 0 ∧ w.refcount s < w.uses s

omit [DecidableEq ι] [Fintype ι] in
theorem World.refcount_of_none (hs : w.socks s = none) : w.refcount s = 0 := by
  unfold World.refcount
  rw [hs]

omit [DecidableEq ι] in
theorem World.uncounted_of_none (hs : w.socks s = none) : w.uncounted s = w.uses s := by
  have hlistens : w.listens s = 0 := by
    unfold World.listens registered
    rw [hs]
    rfl
  unfold World.uncounted World.refs World.refcount
  rw [hs, hlistens]
  simp

omit [DecidableEq ι] [Fintype ι] in
theorem World.listens_le (w : World ι HDF) (s : ℕ) : w.listens s ≤ 1 := by
  unfold World.listens
  split_ifs <;> omega

/-- No step counts more references than there are. -/
theorem Server.Effect.uncounted_nonneg (hsound : sv.world.Sound) (heffect : sv.Effect H i w')
    (h : ∀ s, 0 ≤ sv.world.uncounted s) (s : ℕ) : 0 ≤ w'.uncounted s := by
  rcases heffect.falls hsound s with (⟨hle, -⟩ | ⟨-, hnone, -⟩) | ⟨fd, -, hs⟩
  · exact (h s).trans hle
  · rw [World.uncounted_of_none hnone]
    exact Int.natCast_nonneg _
  · have hlistens := World.listens_of_some hs
    unfold World.uncounted World.refs World.refcount
    rw [hs, hlistens]
    simp [newSocket]


omit [Fintype ι] in
theorem Server.keeps_gone (H : PushLib HDF) (sv : Server ι HDF) (i : ServerStep ι HDF) :
    sv.Keeps H i (fun w => ¬w.Unused s ∧ w.socks s = none) where
  same hsame h := ⟨(keeps_used H sv i).same hsame h.1, hsame.none_iff.mpr h.2⟩
  free {w w' s₀ sock} hsound hs hfrees h := by
    have hne : s ≠ s₀ := fun heq => by
      rw [← heq, h.2] at hs
      cases hs
    exact ⟨(keeps_used H sv i).free hsound hs hfrees h.1,
      by rw [hfrees.socks, Function.update_of_ne hne, h.2]⟩
  accept hfd hfree hs h := ⟨(keeps_used H sv i).accept hfd hfree hs h.1,
    (World.withSocket_of_ne _ (hs.ne h.1)).trans h.2⟩
  unlisten {s₀ sock} heq hs h := by
    refine ⟨(keeps_used H sv i).unlisten heq hs h.1, ?_⟩
    refine (Function.update_of_ne (fun hsame => ?_) ..).trans h.2
    have hsock := (registered_eq_some.mp hs).1
    rw [← hsame, h.2] at hsock
    cases hsock
  user hrun heq hjoin hquit hnew hs h :=
    ⟨(keeps_used H sv i).user hrun heq hjoin hquit hnew hs h.1, (World.withUser_none hs).mpr h.2⟩

theorem Server.Effect.closing (hsound : sv.world.Sound) (heffect : sv.Effect H i w')
    (h : sv.world.Closing s) : w'.Closing s := by
  obtain ⟨hused, hnone | hpos⟩ := h
  · obtain ⟨hused', hnone'⟩ := heffect.keeps hsound (keeps_gone H sv i) ⟨hused, hnone⟩
    exact ⟨hused', .inl hnone'⟩
  · refine ⟨heffect.keeps hsound (keeps_used H sv i) hused, ?_⟩
    rcases heffect.falls hsound s with (⟨hle, -⟩ | ⟨-, hnone, -⟩) | ⟨fd, hunused, -⟩
    · exact .inr (hpos.trans_le hle)
    · exact .inl hnone
    · exact absurd hunused hused

omit [DecidableEq ι] in
/-- Without entries it is freed. -/
theorem World.Closing.gone (hcounts : w.Counts) (h : w.Closing s) (huses : w.uses s = 0) :
    w.socks s = none := by
  refine h.2.resolve_right fun hpos => ?_
  cases hs : w.socks s with
  | none =>
    rw [World.uncounted_of_none hs, huses] at hpos
    exact absurd hpos (by decide)
  | some sock =>
    have hcount := hcounts s sock hs
    have hlistens := w.listens_le s
    unfold World.uncounted World.refs World.refcount at hpos
    rw [hs, huses] at hpos
    dsimp only at hpos
    omega

theorem Server.Effect.doomed (hsound : sv.world.Sound) (heffect : sv.Effect H i w')
    (h : sv.world.Doomed s) : w'.Doomed s := by
  obtain ⟨hused, hlistens, hlt⟩ := h
  refine ⟨heffect.keeps hsound (keeps_used H sv i) hused, ?_⟩
  rcases heffect.falls hsound s with (⟨hle, hlistens'⟩ | ⟨hone, hnone, huses⟩) | ⟨fd, hunused, -⟩
  · refine ⟨by omega, ?_⟩
    unfold World.uncounted World.refs at hle
    omega
  · have huncounted := World.uncounted_of_none hnone
    unfold World.uncounted World.refs at huncounted
    have hcount := World.refcount_of_none hnone
    omega
  · exact absurd hunused hused

/-- `tcp_error_exit` of a socket with an uncounted reference takes one that an entry needs. -/
theorem Server.doomed_of_close (H : PushLib HDF) {sock : TcpSocket ι} (hsound : sv.world.Sound)
    (hs : registered sv.world s = some sock)
    (hw : tcpSocketRemoveRef (sv.world.unlisten s sock) s = .ok w') (h : sv.world.Closing s) :
    w'.Doomed s := by
  obtain ⟨hsock, hevt⟩ := registered_eq_some.mp hs
  have hsound' := hsound.unlisten hsock hevt
  have hused := (keeps_used H sv (.close s)).removeRef hsound' hw
    ((keeps_used H sv (.close s)).unlisten rfl hs h.1)
  have hpos := h.2.resolve_left (by rw [hsock]; nofun)
  -- The event loop gives its reference up.
  have hnew : (sv.world.unlisten s sock).socks s = some { sock with fd := -1, evt := false } :=
    Function.update_self ..
  have hlistens := World.listens_of_some hnew
  have hlistens₀ := World.listens_of_some hsock
  simp only [Bool.false_eq_true, if_false] at hlistens
  rw [hevt] at hlistens₀
  simp only [if_true] at hlistens₀
  have hcount : (sv.world.unlisten s sock).refcount s = sv.world.refcount s := by
    simp only [World.refcount, hnew, hsock]
  have huses : (sv.world.unlisten s sock).uses s = sv.world.uses s := World.uses_congr rfl rfl s
  obtain ⟨huses', -, hdrop⟩ := World.removeRef_uncounted hsound'.counts hw
  have hsame := huses' s
  unfold World.uncounted World.refs at hpos hdrop
  rcases hdrop with ⟨huncounted, heq⟩ | ⟨hone, hnone⟩
  · exact ⟨hused, heq.trans hlistens, by omega⟩
  · have hrefs := World.uncounted_of_none hnone
    have hzero := World.refcount_of_none hnone
    unfold World.uncounted World.refs at hrefs
    exact ⟨hused, by omega, by omega⟩

omit [Fintype ι] in
/-- `tcp_socket_free` does not close 0. -/
theorem World.stays_open :
    World.Stays (fun w : World ι HDF => ¬w.Unused s ∧ w.files 0 = some s) where
  same hsame h := ⟨mt hsame.unused_iff.mp h.1, by rw [hsame.files, h.2]⟩
  free _ _ hfrees h := by
    refine ⟨fun hunused => h.1 (hfrees.unused hunused), ?_⟩
    rw [hfrees.files]
    split_ifs with hpos
    · exact (Function.update_of_ne (by omega) ..).trans h.2
    · exact h.2

/-- The descriptor 0 is not closed with its socket: it stays open, or entries are left without their
reference. -/
def World.KeepsOpen (w : World ι HDF) (s : ℕ) : Prop :=
  (¬w.Unused s ∧ w.files 0 = some s) ∨ w.Doomed s

theorem Server.Effect.keepsOpen (hsound : sv.world.Sound) (heffect : sv.Effect H i w')
    (hclosing : sv.world.Closing s) (h : sv.world.KeepsOpen s) : w'.KeepsOpen s := by
  rcases h with ⟨hused, hopen⟩ | hdoomed
  · by_cases hclose : ∃ sock, i = .close s ∧ registered sv.world s = some sock
    · obtain ⟨sock, rfl, hs⟩ := hclose
      cases heffect with
      | idle _ _ _ => exact .inl ⟨hused, hopen⟩
      | close hs hw => exact .inr (Server.doomed_of_close H hsound hs hw hclosing)
    · left
      refine heffect.keeps (Q := fun w => ¬w.Unused s ∧ w.files 0 = some s) hsound ?_ ⟨hused, hopen⟩
      refine ⟨World.stays_open, fun hfd hfree hs h => ?_, fun heq hs h => ?_,
        fun hrun heq hjoin hquit hnew hs h => ?_⟩
      · refine ⟨(keeps_used H sv i).accept hfd hfree hs h.1, ?_⟩
        refine (Function.update_of_ne (fun heq => ?_) ..).trans h.2
        rw [← heq, h.2] at hfree
        cases hfree
      · refine ⟨(keeps_used H sv i).unlisten heq hs h.1, ?_⟩
        refine (Function.update_of_ne (fun hfd => ?_) ..).trans h.2
        -- Only the socket `s` listens on 0.
        obtain ⟨hsock, hevt⟩ := registered_eq_some.mp hs
        have hfile := hsound.listening _ _ hsock hevt
        rw [← hfd, h.2, Option.some.injEq] at hfile
        exact hclose ⟨_, heq.trans (by rw [hfile]), by rw [hfile]; exact hs⟩
      · exact ⟨(keeps_used H sv i).user hrun heq hjoin hquit hnew hs h.1, h.2⟩
  · exact .inr (heffect.doomed hsound hdoomed)

/-! ## A QUIT -/

/-- The user `uid` has quit the connection `s`: it is not registered there, the socket is freed and no
descriptor is open for it. -/
structure World.HasQuit (w : World ι HDF) (p : ι) (uid : Uid) (s : ℕ) : Prop where
  user : ∀ u, baseUserFind w p uid = some u → u.tcpsock ≠ s
  freed : w.socks s = none
  closed : ∀ fd, w.files fd ≠ some s

/-- A worker of a server that a run has reached is about to process a QUIT of the user `uid`. The
user's record is `u`, and the event loop listens on its connection, whose socket is `sock`. -/
structure Server.AtQuit (H : PushLib HDF) (sv : Server ι HDF) (p : ι) (uid : Uid) (u : BaseUser)
    (sock : TcpSocket ι) : Prop where
  reached : ∃ (cfg : HDF) (gMoc : MocTable ι) (is : List (ServerStep ι HDF)),
    is.foldl (Server.next H) (.ok (.start cfg gMoc)) = .ok sv
  quits : ∃ e, sv.world.running p = some e ∧ sv.processed p = false ∧ Quits H e uid
  filed : baseUserFind sv.world p uid = some u
  live : registered sv.world u.tcpsock = some sock

/-- The QUIT leads to the QUIT of the user's connection. -/
def Server.QuitsWhen (H : PushLib HDF) (sv : Server ι HDF) (p : ι) (user : Bool) (uid : Uid)
    (s : ℕ) (sock : TcpSocket ι) (js : List (ServerStep ι HDF)) : Prop :=
  sock.appdata = some (p, uid) ∧ sock.fd ≠ 0 ∧
    EachStep (Server.next H) (Server.FilesNone H s) (Server.next H (.ok sv) (.process p user)) js

variable {sv' sv₁ : Server ι HDF} {u : BaseUser} {sock : TcpSocket ι} {user : Bool}
  {js : List (ServerStep ι HDF)}

omit [Fintype ι] in
theorem Server.AtQuit.sound (h : sv.AtQuit H p uid u sock) : sv.world.Sound := by
  obtain ⟨cfg, gMoc, is, hreach⟩ := h.reached
  exact Server.sound_of_run hreach

omit [Fintype ι] in
theorem Server.AtQuit.owns (h : sv.AtQuit H p uid u sock) : sv.world.Owns := by
  obtain ⟨cfg, gMoc, is, hreach⟩ := h.reached
  exact Server.run_keeps (fun sv i => keeps_owns H sv i) (.start cfg gMoc) (by nofun) hreach

theorem Server.AtQuit.uncounted_nonneg (h : sv.AtQuit H p uid u sock) (s : ℕ) :
    0 ≤ sv.world.uncounted s := by
  obtain ⟨cfg, gMoc, is, hreach⟩ := h.reached
  refine Server.run_of_effect (I := fun w => ∀ s, 0 ≤ w.uncounted s) (G := fun _ _ => True)
    (fun sv i _ hsound h _ heffect s => heffect.uncounted_nonneg hsound h s) (.start cfg gMoc)
    (fun s => ?_) (eachStep_of_forall (fun _ _ => trivial) _ _) hreach s
  rw [World.uncounted_of_none rfl]
  exact Int.natCast_nonneg _

omit [Fintype ι] in
/-- The QUIT drops a reference of the user's socket. -/
theorem Server.AtQuit.step (h : sv.AtQuit H p uid u sock)
    (hstep : sv.step H (.process p user) = .ok sv₁) :
    tcpSocketRemoveRef sv.world u.tcpsock = .ok sv₁.world := by
  obtain ⟨e, hrun, hp, hquits⟩ := h.quits
  simp only [Server.step, hrun, hp, Bool.false_eq_true, if_false] at hstep
  obtain ⟨w', hw, hsv⟩ := bind_eq_ok.mp hstep
  obtain ⟨b, hquit⟩ := hquits.userCommand_iff.mp hw
  rw [← Except.ok.inj hsv]
  rcases baseUserQuit_cases hquit with ⟨-, hno⟩ | ⟨u', ⟨hu', -⟩, hw⟩
  · exact absurd ⟨h.filed, by simp⟩ (hno u)
  · obtain rfl := Option.some.inj (h.filed.symm.trans hu')
    exact hw

omit [Fintype ι] in
theorem Server.AtQuit.used (h : sv.AtQuit H p uid u sock) : ¬sv.world.Unused u.tcpsock :=
  fun hunused => Option.some_ne_none _ ((registered_eq_some.mp h.live).1.symm.trans hunused.1)

omit [Fintype ι] in
/-- What holds of the user's socket. -/
theorem Server.AtQuit.socket (h : sv.AtQuit H p uid u sock) {P : TcpSocket ι → Prop} (hP : P sock)
    (sock' : TcpSocket ι) (hs : sv.world.socks u.tcpsock = some sock') : P sock' := by
  rwa [← Option.some.inj ((registered_eq_some.mp h.live).1.symm.trans hs)]

/-- The reference that is dropped was nobody's. -/
theorem Server.AtQuit.closing (h : sv.AtQuit H p uid u sock)
    (hdrop : tcpSocketRemoveRef sv.world u.tcpsock = .ok w') : w'.Closing u.tcpsock := by
  have hsound := h.sound
  refine ⟨(keeps_used H sv (.process p true)).removeRef hsound hdrop h.used, ?_⟩
  obtain ⟨-, -, ⟨huncounted, -⟩ | ⟨-, hnone⟩⟩ := World.removeRef_uncounted hsound.counts hdrop
  · have hnonneg := h.uncounted_nonneg u.tcpsock
    exact .inr (by omega)
  · exact .inl hnone

omit [Fintype ι] in
theorem Server.AtQuit.goesWith (h : sv.AtQuit H p uid u sock) (happ : sock.appdata = some (p, uid)) :
    sv.world.GoesWith p uid u.tcpsock where
  used := h.used
  names := h.socket happ
  gone hnone := absurd ((registered_eq_some.mp h.live).1.symm.trans hnone) (Option.some_ne_none _)

omit [Fintype ι] in
theorem Server.AtQuit.closes (h : sv.AtQuit H p uid u sock) (hfd : sock.fd ≠ 0) :
    sv.world.Closes u.tcpsock where
  owns := h.owns
  used := h.used
  closes := h.socket hfd
  closed hnone := absurd ((registered_eq_some.mp h.live).1.symm.trans hnone) (Option.some_ne_none _)

/-- In every state that the server reaches, a QUIT of a user on a live connection that ends well leads
to the user's and the connection's end, in every run that goes on until no entry refers to the
connection, if and only if the socket names the user, its descriptor is not 0, and no JOIN makes a
record on the connection before that. -/
theorem Server.hasQuit_iff (hquit : sv.AtQuit H p uid u sock)
    (hrun : (.process p user :: js).foldl (Server.next H) (.ok sv) = .ok sv')
    (huses : sv'.world.uses u.tcpsock = 0) :
    sv'.world.HasQuit p uid u.tcpsock ↔ sv.QuitsWhen H p user uid u.tcpsock sock js := by
  obtain ⟨sv₁, hstep, hrest⟩ := foldl_next_cons hrun
  have hsound := hquit.sound
  have hdrop := hquit.step hstep
  have hsound₁ : sv₁.world.Sound := hsound.removeRef hdrop
  obtain ⟨hsock, hevt⟩ := registered_eq_some.mp hquit.live
  have hnever : EachStep (Server.next H) (fun _ _ => True) (.ok sv₁) js :=
    eachStep_of_forall (fun _ _ => trivial) _ _
  have hsound' : sv'.world.Sound :=
    Server.run_of_effect (fun sv i _ hsound _ _ heffect => heffect.sound hsound) hsound₁ hsound₁
      hnever hrest
  -- The socket is freed in every case.
  have hclosing₁ := hquit.closing hdrop
  have hclosing : sv'.world.Closing u.tcpsock :=
    Server.run_of_effect (fun sv i _ hsound h _ heffect => heffect.closing hsound h) hsound₁
      hclosing₁ hnever hrest
  have hfreed := hclosing.gone hsound'.counts huses
  have hnext : Server.next H (.ok sv) (.process p user) = .ok sv₁ := hstep
  unfold Server.QuitsWhen
  rw [hnext]
  constructor
  · intro h
    have hnotleft : ¬sv'.world.LeftBehind p uid u.tcpsock :=
      fun ⟨⟨u', hu', hus⟩, _⟩ => h.user u' hu' hus
    have happ : sock.appdata = some (p, uid) := by
      by_contra happ
      have hleft : sv.world.LeftBehind p uid u.tcpsock :=
        ⟨⟨u, hquit.filed, rfl⟩, hquit.socket happ⟩
      exact hnotleft (Server.run_keeps (fun sv i => keeps_leftBehind H sv i) hsound₁
        (World.stays_leftBehind.removeRef hsound hdrop hleft) hrest)
    refine ⟨happ, fun hfd => ?_, ?_⟩
    · have hopen := hsound.listening _ sock hsock hevt
      rw [hfd] at hopen
      have hkeeps : sv'.world.Closing u.tcpsock ∧ sv'.world.KeepsOpen u.tcpsock :=
        Server.run_of_effect
          (I := fun w => w.Closing u.tcpsock ∧ w.KeepsOpen u.tcpsock)
          (fun sv i _ hsound h _ heffect =>
            ⟨heffect.closing hsound h.1, heffect.keepsOpen hsound h.1 h.2⟩) hsound₁
          ⟨hclosing₁, .inl (World.stays_open.removeRef hsound hdrop ⟨hquit.used, hopen⟩)⟩ hnever hrest
      rcases hkeeps.2 with ⟨-, hopen'⟩ | ⟨-, -, hlt⟩
      · exact h.closed 0 hopen'
      · rw [World.refcount_of_none hfreed, huses] at hlt
        exact absurd hlt (by decide)
    · by_contra hG
      exact hnotleft (Server.run_leftBehind hsound₁
        (World.stays_goesWith.removeRef hsound hdrop (hquit.goesWith happ)) hG hrest)
  · rintro ⟨happ, hfd, hG⟩
    have hgoes' := Server.run_goesWith hsound₁
      (World.stays_goesWith.removeRef hsound hdrop (hquit.goesWith happ)) hG hrest
    have hcloses' : sv'.world.Closes u.tcpsock :=
      Server.run_keeps (fun sv i => keeps_closes H sv i) hsound₁
        ((keeps_closes H sv (.process p user)).removeRef hsound hdrop (hquit.closes hfd)) hrest
    exact ⟨hgoes'.gone hfreed, hfreed, hcloses'.closed hfreed⟩

omit [Fintype ι] in
theorem World.stays_only :
    World.Stays (fun w : World ι HDF => ∀ u, baseUserFind w p uid = some u → u.tcpsock = s) where
  same hsame h u hu := h u (hsame.find.symm.trans hu)
  free _ _ hfrees h u hu := by
    rw [hfrees.find] at hu
    split_ifs at hu
    exact h u hu

omit [Fintype ι] in
/-- The user is registered on no other connection, unless a JOIN makes a record there. -/
theorem Server.keeps_only (hsound : sv.world.Sound)
    (hi : ∀ t ≠ s, ¬Server.FilesOn H p uid t (.ok sv) i) :
    sv.Keeps H i (fun w => ∀ u, baseUserFind w p uid = some u → u.tcpsock = s) where
  toStays := World.stays_only
  accept _ _ _ h := h
  unlisten _ _ h := h
  user {p' e uid' w r sock} hrun heq hjoin hquit hnew hs h u hu := by
    rw [baseUserFind_withUser] at hu
    split_ifs at hu with hsame
    · obtain ⟨rfl, rfl⟩ := Prod.mk.inj hsame
      rw [← Option.some.inj hu]
      by_contra hne
      have hfiles := (baseUserFind_baseUserQuit_iff hsound.counts hquit).mp hnew
      exact hi _ hne ⟨e, heq, hrun, hjoin, hfiles, rfl⟩
    · exact h u hu

omit [Fintype ι] in
/-- A user that has quit is registered nowhere, unless a JOIN has made a record on another
connection. -/
theorem Server.AtQuit.find_eq_none (hquit : sv.AtQuit H p uid u sock)
    (hrun : (.process p user :: js).foldl (Server.next H) (.ok sv) = .ok sv')
    (hG : EachStep (Server.next H) (fun x i => ∀ t ≠ u.tcpsock, ¬Server.FilesOn H p uid t x i)
      (Server.next H (.ok sv) (.process p user)) js) (h : sv'.world.HasQuit p uid u.tcpsock) :
    baseUserFind sv'.world p uid = none := by
  obtain ⟨sv₁, hstep, hrest⟩ := foldl_next_cons hrun
  have hdrop := hquit.step hstep
  have hnext : Server.next H (.ok sv) (.process p user) = .ok sv₁ := hstep
  rw [hnext] at hG
  cases hfind : baseUserFind sv'.world p uid with
  | none => rfl
  | some u' =>
    have honly₁ := World.stays_only.removeRef hquit.sound hdrop
      (fun u' hu' => congrArg BaseUser.tcpsock (Option.some.inj (hu'.symm.trans hquit.filed)))
    have honly := Server.run_of_effect
      (I := fun w => ∀ u', baseUserFind w p uid = some u' → u'.tcpsock = u.tcpsock)
      (fun sv i _ hsound h hi heffect => heffect.keeps hsound (Server.keeps_only hsound hi) h)
      (hquit.sound.removeRef hdrop) honly₁ hG hrest
    exact absurd (honly u' hfind) (h.user u' hfind)

end Counts

end Moc
