import Moc.Server.Invariant

/-!
# Where replies and pushes go

A queue entry and a user record keep the number of the descriptor that their connection had, and a
worker sends through the number long after the event loop may have closed it. The kernel may give the
number to the next connection. `World.Delivers` says that no frame reaches another connection than
the one it is for, and that no number that is still kept would lead to one.
-/

open Bytes Memory Runs

namespace Moc

variable {ι HDF : Type} [DecidableEq ι]

/-! ## Who keeps a number -/

/-- A queue entry or a user record keeps the number `fd` for the connection `s`. -/
inductive World.Holds (w : World ι HDF) : ℤ → ℕ → Prop where
  | waiting {p e} (h : e ∈ w.queues p) : Holds w e.req.fd e.req.tcpsock
  | running {p e} (h : w.running p = some e) : Holds w e.req.fd e.req.tcpsock
  | user {p uid u} (h : baseUserFind w p uid = some u) : Holds w u.fd u.tcpsock

/-- The number `fd` leads to the connection `s` or to none. -/
def World.LeadsTo (w : World ι HDF) (fd : ℤ) (s : ℕ) : Prop :=
  w.files fd = none ∨ w.files fd = some s

/-- Every frame has reached the connection it was for or none, and every number that is kept leads to
the connection it is kept for or to none. -/
structure World.Delivers (w : World ι HDF) : Prop where
  sent : ∀ x ∈ w.sent, x.reached = none ∨ x.reached = some x.meant
  holds : ∀ fd s, w.Holds fd s → w.LeadsTo fd s

/-- A number is kept only for a connection that was accepted. -/
def World.Known (w : World ι HDF) : Prop := ∀ fd s, w.Holds fd s → ¬ w.Unused s

/-- The property of a server that has not faulted. A fault ends the run. -/
def Server.Delivers : Except Fault (Server ι HDF) → Prop
  | .ok sv => sv.world.Delivers
  | .error _ => True

/-- A connection is not accepted on a number that is still kept. -/
def Server.FreshNumber :
    Except Fault (Server ι HDF) → ServerStep ι HDF → Prop
  | .ok sv, .accept s fd => 0 ≤ fd → sv.world.files fd = none → sv.world.Unused s →
      ∀ t, ¬ sv.world.Holds fd t
  | _, _ => True

/-! ## Steps that open nothing -/

/-- Nothing is sent, nothing is opened, and no number is kept that was not. -/
structure World.Shrinks (w w' : World ι HDF) : Prop where
  sent : w'.sent = w.sent
  files : ∀ fd, w'.files fd = w.files fd ∨ w'.files fd = none
  holds : ∀ fd s, w'.Holds fd s → w.Holds fd s
  unused : ∀ s, w'.Unused s → w.Unused s

omit [DecidableEq ι] in
theorem World.Shrinks.refl (w : World ι HDF) : w.Shrinks w :=
  ⟨rfl, fun _ => .inl rfl, fun _ _ h => h, fun _ h => h⟩

omit [DecidableEq ι] in
theorem World.Shrinks.trans {w₁ w₂ w₃ : World ι HDF} (h : w₁.Shrinks w₂) (h' : w₂.Shrinks w₃) :
    w₁.Shrinks w₃ where
  sent := h'.sent.trans h.sent
  files fd := (h'.files fd).elim (fun heq => (h.files fd).imp heq.trans heq.trans) .inr
  holds fd s hs := h.holds fd s (h'.holds fd s hs)
  unused s hs := h.unused s (h'.unused s hs)

omit [DecidableEq ι] in
theorem World.Delivers.shrinks {w w' : World ι HDF} (h : w.Delivers) (hw : w.Shrinks w') :
    w'.Delivers where
  sent := by
    rw [hw.sent]
    exact h.sent
  holds fd s hs := by
    rcases hw.files fd with heq | heq
    · unfold World.LeadsTo
      rw [heq]
      exact h.holds fd s (hw.holds fd s hs)
    · exact .inl heq

omit [DecidableEq ι] in
theorem World.Known.shrinks {w w' : World ι HDF} (h : w.Known) (hw : w.Shrinks w') : w'.Known :=
  fun fd s hs hunused => h fd s (hw.holds fd s hs) (hw.unused s hunused)

/-- Dropping a reference closes at most a number. -/
theorem World.Shrinks.removeRef {w w' : World ι HDF} {s : ℕ} (hcount : w.Counts)
    (h : tcpSocketRemoveRef w s = .ok w') : w.Shrinks w' := by
  have hrest := tcpSocketRemoveRef_rest h
  obtain ⟨sock, hs, ⟨-, rfl⟩ | ⟨-, hfree⟩⟩ := tcpSocketRemoveRef_counts hcount h
  -- A reference remains: only the count changes.
  · refine ⟨rfl, fun _ => .inl rfl, fun fd t hold => ?_, fun t hunused => ?_⟩
    · cases hold with
      | waiting h => exact .waiting h
      | running h => exact .running h
      | user h => exact .user h
    · refine ⟨?_, hunused.2⟩
      by_contra hne
      obtain ⟨tsock, ht⟩ := Option.ne_none_iff_exists'.mp hne
      by_cases hts : t = s
      · have hgone := hunused.1
        rw [hts] at hgone
        simp at hgone
      · have hgone := hunused.1
        dsimp only at hgone
        rw [Function.update_of_ne hts, ht] at hgone
        cases hgone
  -- The last reference: the socket is freed, and its user with it.
  · refine ⟨hrest.sent, fun fd => ?_, fun fd t hold => ?_, fun t hunused => ?_⟩
    · rw [hfree.files]
      split_ifs
      · by_cases hfd : fd = sock.fd
        · rw [hfd]
          exact .inr (Function.update_self _ _ _)
        · exact .inl (Function.update_of_ne hfd _ _)
      · exact .inl rfl
    · cases hold with
      | waiting h => exact .waiting (by rwa [hrest.queues] at h)
      | running h => exact .running (by rwa [hrest.running] at h)
      | user h =>
        rw [hfree.find] at h
        split_ifs at h
        exact .user h
    · obtain ⟨hgone, hfreed⟩ := hunused
      rw [hfree.freed, List.map_append, List.mem_append, not_or] at hfreed
      have hts : t ≠ s := fun heq => hfreed.2 (by simp [heq])
      rw [hfree.socks, Function.update_of_ne hts] at hgone
      exact ⟨hgone, hfreed.1⟩

/-- A record keeps the number that the entry has. -/
theorem World.Shrinks.withUser {w : World ι HDF} {p : ι} {uid : Uid} {req : ReqInfo}
    {sock : TcpSocket ι} (hreq : w.Holds req.fd req.tcpsock) :
    w.Shrinks (w.withUser p uid req sock) := by
  refine ⟨rfl, fun _ => .inl rfl, fun fd t hold => ?_, fun t hunused => ⟨?_, hunused.2⟩⟩
  · cases hold with
    | waiting h => exact .waiting h
    | running h => exact .running h
    | user h =>
      rw [baseUserFind_withUser] at h
      split_ifs at h
      · rw [← Option.some.inj h]
        exact hreq
      · exact .user h
  · have hgone := hunused.1
    by_cases hts : t = req.tcpsock
    · rw [hts] at hgone
      simp [World.withUser] at hgone
    · exact (Function.update_of_ne hts _ _).symm.trans hgone

theorem World.Shrinks.baseUserQuit {w : World ι HDF} {p : ι} {uid : Uid} {req : Option ReqInfo}
    {r : World ι HDF × Bool} (hcount : w.Counts) (h : baseUserQuit w p uid req = .ok r) :
    w.Shrinks r.1 := by
  rcases baseUserQuit_cases h with ⟨heq, -⟩ | ⟨u, -, hw⟩
  · rw [heq]
    exact .refl w
  · exact .removeRef hcount hw

/-- A command keeps no number but its entry's. -/
theorem World.Shrinks.userCommand {H : PushLib HDF} {user : Bool} {p : ι} {w w' : World ι HDF}
    {q : QueueEntry HDF} (hcount : w.Counts) (hrun : w.running p = some q)
    (h : userCommand H user p w q = .ok w') : w.Shrinks w' := by
  rcases userCommand_cases h with ⟨uid, w₁, _, _, -, h₁, h₂⟩ | ⟨uid, _, -, h₁⟩ | ⟨-, rfl⟩
  · have hshrinks : w.Shrinks w₁ := .baseUserQuit hcount h₁
    refine hshrinks.trans ?_
    rcases baseUserNew_cases h₂ with ⟨heq, -⟩ | ⟨sock, -, -, -, heq⟩ <;> dsimp only at heq
    · rw [heq]
      exact .refl w₁
    · have hrun₁ : w₁.running p = some q := by rw [(baseUserQuit_rest h₁).running, hrun]
      rw [heq]
      exact .withUser (.running hrun₁)
  · exact .baseUserQuit hcount h₁
  · exact .refl _

omit [DecidableEq ι] in
theorem World.Shrinks.unlisten {w : World ι HDF} {s : ℕ} (sock : TcpSocket ι) :
    w.Shrinks (w.unlisten s sock) := by
  refine ⟨rfl, fun fd => ?_, fun fd t hold => ?_, fun t hunused => ⟨?_, hunused.2⟩⟩
  · by_cases hfd : fd = sock.fd
    · rw [hfd]
      exact .inr (Function.update_self _ _ _)
    · exact .inl (Function.update_of_ne hfd _ _)
  · cases hold with
    | waiting h => exact .waiting h
    | running h => exact .running h
    | user h => exact .user h
  · have hgone := hunused.1
    by_cases hts : t = s
    · rw [hts] at hgone
      simp [World.unlisten] at hgone
    · exact (Function.update_of_ne hts _ _).symm.trans hgone

theorem World.Shrinks.withTaken {w : World ι HDF} {p : ι} {e : QueueEntry HDF}
    {rest : List (QueueEntry HDF)} (hq : w.queues p = e :: rest) :
    w.Shrinks (w.withTaken p e rest) := by
  refine ⟨rfl, fun _ => .inl rfl, fun fd t hold => ?_, fun _ h => h⟩
  cases hold with
  | @waiting p' e' h =>
    by_cases hp : p' = p
    · subst hp
      simp only [World.withTaken, Function.update_self] at h
      exact .waiting (p := p') (by rw [hq]; exact List.mem_cons_of_mem _ h)
    · simp only [World.withTaken, Function.update_of_ne hp] at h
      exact .waiting h
  | @running p' e' h =>
    by_cases hp : p' = p
    · subst hp
      simp only [World.withTaken, Function.update_self, Option.some.injEq] at h
      rw [← h]
      exact .waiting (p := p') (by rw [hq]; exact List.mem_cons_self)
    · simp only [World.withTaken, Function.update_of_ne hp] at h
      exact .running h
  | user h => exact .user h

theorem World.Shrinks.withoutEntry {w : World ι HDF} {p : ι} : w.Shrinks (w.withoutEntry p) := by
  refine ⟨rfl, fun _ => .inl rfl, fun fd t hold => ?_, fun _ h => h⟩
  cases hold with
  | waiting h => exact .waiting h
  | @running p' e h =>
    by_cases hp : p' = p
    · subst hp
      simp [World.withoutEntry] at h
    · simp only [World.withoutEntry, Function.update_of_ne hp] at h
      exact .running h
  | user h => exact .user h

/-! ## Sending, receiving and accepting -/

omit [DecidableEq ι] in
/-- Frames are sent to a number that leads to whom they are for. -/
theorem World.Delivers.sends {w w' : World ι HDF} {fd : ℤ} {s : ℕ}
    (frames : List (List UInt8)) (h : w.Delivers) (hfd : w.LeadsTo fd s)
    (hsent : w'.sent = w.sent ++ frames.map fun frame => ⟨fd, s, w.files fd, frame⟩)
    (hfiles : w'.files = w.files)
    (hholds : ∀ fd' s', w'.Holds fd' s' → w.Holds fd' s' ∨ fd' = fd ∧ s' = s) : w'.Delivers where
  sent x hx := by
    rw [hsent] at hx
    rcases List.mem_append.mp hx with hx | hx
    · exact h.sent x hx
    · obtain ⟨frame, -, rfl⟩ := List.mem_map.mp hx
      exact hfd
  holds fd' s' hs' := by
    unfold World.LeadsTo
    rw [hfiles]
    rcases hholds fd' s' hs' with hold | ⟨rfl, rfl⟩
    · exact h.holds fd' s' hold
    · exact hfd

omit [DecidableEq ι] in
/-- Sending a frame keeps no number. -/
theorem World.Delivers.sendFrame {w : World ι HDF} {fd : ℤ} {s : ℕ} (h : w.Delivers)
    (hfd : w.LeadsTo fd s) (frame : List UInt8) : (sendFrame w fd s frame).Delivers := by
  refine h.sends [frame] hfd rfl rfl fun fd' s' hs' => .inl ?_
  cases hs' with
  | waiting h => exact .waiting h
  | running h => exact .running h
  | user h => exact .user h

/-- A request that is received is kept with the number of its connection. -/
theorem Received.holds {H : HdfLib HDF} {w w' : World ι HDF} {req : ReqInfo} {ename : List UInt8}
    {hdfrcv : HDF} (hw : Received H w req ename hdfrcv w') (fd : ℤ) (s : ℕ) (h : w'.Holds fd s) :
    w.Holds fd s ∨ fd = req.fd ∧ s = req.tcpsock := by
  cases h with
  | running h => exact .inl (.running (by rwa [hw.running] at h))
  | user h =>
    unfold baseUserFind at h
    rw [hw.userh] at h
    exact .inl (.user h)
  | @waiting p e h =>
    have hput := hw.put
    cases hentry : putEntry H w req ename hdfrcv with
    | none =>
      rw [hentry] at hput
      exact .inl (.waiting (by rwa [hput.2] at h))
    | some x =>
      obtain ⟨p', e'⟩ := x
      rw [hentry] at hput
      rw [hput.1] at h
      unfold enqueue at h
      dsimp only at h
      by_cases hp : p = p'
      · -- The new entry is at one end or the other.
        subst hp
        rw [Function.update_self] at h
        have hmem : e = e' ∨ e ∈ w.queues p := by
          split_ifs at h
          · exact List.mem_cons.mp h
          · exact (List.mem_append.mp h).symm.imp_left List.mem_singleton.mp
        rcases hmem with rfl | hmem
        · rw [putEntry_eq_some hentry]
          exact .inr ⟨rfl, rfl⟩
        · exact .inl (.waiting hmem)
      · rw [Function.update_of_ne hp] at h
        exact .inl (.waiting h)

/-- What a step keeps of the property: everything, when it meets the condition. -/
theorem Server.Effect.delivers {H : PushLib HDF} {sv : Server ι HDF} {i : ServerStep ι HDF}
    {w' : World ι HDF} (hsound : sv.world.Sound) (hknown : sv.world.Known)
    (h : sv.world.Delivers) (heffect : sv.Effect H i w') (hi : Server.FreshNumber (.ok sv) i) :
    w'.Delivers ∧ w'.Known := by
  have hshrinks : ∀ {w' : World ι HDF}, sv.world.Shrinks w' → w'.Delivers ∧ w'.Known :=
    fun hw => ⟨h.shrinks hw, hknown.shrinks hw⟩
  -- A frame is sent, and everything else stays.
  have hsend : ∀ {fd s frame}, sv.world.LeadsTo fd s →
      (sendFrame sv.world fd s frame).Delivers ∧ (sendFrame sv.world fd s frame).Known :=
    fun hfd => ⟨h.sendFrame hfd _, fun fd t hold => by
      cases hold with
      | waiting h => exact hknown _ _ (.waiting h)
      | running h => exact hknown _ _ (.running h)
      | user h => exact hknown _ _ (.user h)⟩
  cases heffect with
  | idle _ _ _ => exact ⟨h, hknown⟩
  | @accept s fd hfd hfree hs =>
    have hfresh := hi hfd hfree hs
    have hholds : ∀ fd' t, (sv.world.withSocket s fd).Holds fd' t → sv.world.Holds fd' t :=
      fun fd' t hold => by
        cases hold with
        | waiting h => exact .waiting h
        | running h => exact .running h
        | user h => exact .user h
    refine ⟨⟨h.sent, fun fd' t hold => ?_⟩, fun fd' t hold hunused => ?_⟩
    · have hold' := hholds fd' t hold
      have hne : fd' ≠ fd := fun heq => hfresh t (heq ▸ hold')
      unfold World.LeadsTo World.withSocket
      dsimp only
      rw [Function.update_of_ne hne]
      exact h.holds fd' t hold'
    · refine hknown fd' t (hholds fd' t hold) ⟨?_, hunused.2⟩
      have hgone := hunused.1
      by_cases hts : t = s
      · rw [hts]
        exact hs.1
      · exact (Function.update_of_ne hts _ _).symm.trans hgone
  | @request s id cmd flags ename hdfrcv sock w' hs hw =>
    obtain ⟨hsock, hevt⟩ := registered_eq_some.mp hs
    obtain ⟨frames, hsent⟩ := hw.sent
    refine ⟨h.sends frames (.inr (hsound.listening s sock hsock hevt)) hsent hw.files hw.holds, ?_⟩
    intro fd t hold hunused
    have hallocated : sv.world.Unused t := by
      refine ⟨?_, by rw [← hw.freed]; exact hunused.2⟩
      have hgone := hunused.1
      have hput := hw.put
      cases hentry : putEntry H.toHdfLib sv.world (requestOf s sock id cmd flags) ename hdfrcv with
      | none =>
        rw [hentry] at hput
        rwa [hput.1] at hgone
      | some x =>
        rw [hentry] at hput
        obtain ⟨-, sock', -, hsocks⟩ := hput
        rw [hsocks] at hgone
        by_cases hts : t = (requestOf s sock id cmd flags).tcpsock
        · rw [hts] at hgone
          simp [World.withRef] at hgone
        · exact (Function.update_of_ne hts _ _).symm.trans hgone
    rcases hw.holds fd t hold with hold | ⟨-, rfl⟩
    · exact hknown fd t hold hallocated
    · exact absurd (hsock.symm.trans hallocated.1) (by simp)
  | @refuse s frame sock hs =>
    obtain ⟨hsock, hevt⟩ := registered_eq_some.mp hs
    exact hsend (.inr (hsound.listening s sock hsock hevt))
  | @close s sock w' hs hw =>
    obtain ⟨hsock, hevt⟩ := registered_eq_some.mp hs
    have hunlisten := hsound.unlisten hsock hevt
    exact hshrinks (.trans (.unlisten sock) (.removeRef hunlisten.counts hw))
  | take _ hq => exact hshrinks (.withTaken hq)
  | process hrun _ hw => exact hshrinks (.userCommand hsound.counts hrun hw)
  | reply hrun => exact hsend (h.holds _ _ (.running hrun))
  | push hu _ => exact hsend (h.holds _ _ (.user hu))
  | @free p e w' _ _ hw =>
    have hsound' : (sv.world.withoutEntry p).Sound := hsound.congr rfl rfl rfl rfl
    exact hshrinks (.trans .withoutEntry (.removeRef hsound'.counts hw))

/-! ## Every run -/

/-- Over every run of the server, every frame reaches the connection it is for or none, and every
number that is kept leads to the connection it is kept for or to none, in every state, if and only if
no connection is accepted on a number that a queue entry or a user record still keeps. -/
theorem Server.always_delivers_iff (H : PushLib HDF) (cfg : HDF) (gMoc : MocTable ι)
    (is : List (ServerStep ι HDF)) :
    Always (Server.next H) Server.Delivers (.ok (.start cfg gMoc)) is ↔
      EachStep (Server.next H) Server.FreshNumber (.ok (.start cfg gMoc)) is := by
  refine always_iff_eachStep (L := fun _ _ => True)
    (I := fun x : Except Fault (Server ι HDF) => Server.Delivers x ∧
      ∀ sv, x = .ok sv → sv.world.Sound ∧ sv.world.Known)
    (fun x h => h.1) ?_ ?_ ⟨?_, ?_⟩ (eachStep_of_forall (fun _ _ => trivial) _ _)
  · rintro x i ⟨h, hinv⟩ - hi
    cases x with
    | error f => exact ⟨trivial, fun sv heq => by cases heq⟩
    | ok sv =>
      obtain ⟨hsound, hknown⟩ := hinv sv rfl
      unfold Server.next
      rw [ok_bind]
      cases hstep : sv.step H i with
      | error f => exact ⟨trivial, fun sv heq => by cases heq⟩
      | ok sv' =>
        have heffect := Server.step_effect hsound.counts hstep
        obtain ⟨hdelivers, hknown'⟩ := heffect.delivers hsound hknown h hi
        refine ⟨hdelivers, fun sv'' heq => ?_⟩
        rw [← Except.ok.inj heq]
        exact ⟨heffect.sound hsound, hknown'⟩
  · rintro x i ⟨h, hinv⟩ - hi hnext
    cases x with
    | error f => exact hi trivial
    | ok sv =>
      obtain ⟨hsound, hknown⟩ := hinv sv rfl
      cases i with
      | accept s fd =>
        -- The number that is kept leads to the new connection.
        simp only [Server.FreshNumber, not_forall, not_not] at hi
        obtain ⟨hfd, hfree, hs, t, hold⟩ := hi
        have heq : tcpNewconnection sv.world s fd = sv.world.withSocket s fd :=
          if_pos ⟨hfd, hfree, hs⟩
        have hdelivers : (sv.world.withSocket s fd).Delivers := by
          rw [← heq]
          exact hnext
        have hold' : (sv.world.withSocket s fd).Holds fd t := by
          cases hold with
          | waiting h => exact .waiting h
          | running h => exact .running h
          | user h => exact .user h
        have hfile : (sv.world.withSocket s fd).files fd = some s := Function.update_self _ _ _
        rcases hdelivers.holds fd t hold' with hnone | hsome
        · rw [hfile] at hnone
          cases hnone
        · rw [hfile, Option.some.injEq] at hsome
          exact hknown fd t hold (hsome ▸ hs)
      | _ => exact hi trivial
  · refine ⟨fun x hx => ?_, fun fd s hold => .inl rfl⟩
    cases hx
  · intro sv heq
    rw [← Except.ok.inj heq]
    refine ⟨.start cfg gMoc, fun fd s hold => ?_⟩
    cases hold with
    | waiting h => cases h
    | running h => cases h
    | user h => cases h

/-- A request waits while its connection is closed and its number goes to another one. -/
def reusedNumber : List (ServerStep Unit (List UInt8)) :=
  [.accept 0 5, .request 0 1 reqCmdStats flagsSync (ascii "a") [], .close 0, .accept 1 5, .take (),
    .process () true, .reply () (miniFrame 1 repOk)]

/-- What was sent so far, nothing after a fault. -/
def Server.sent : Except Fault (Server ι HDF) → List Sent
  | .ok sv => sv.world.sent
  | .error _ => []

/-- The reply to a request of the connection 0 reaches the connection 1. -/
theorem Server.not_always_delivers_reusedNumber :
    ¬ ∀ is, Always (Server.next useridHdf)
      (fun x => ∀ y ∈ Server.sent x, y.reached = none ∨ y.reached = some y.meant)
      (.ok (.start [] (.single (ascii "a")))) is := by
  intro h
  obtain ⟨-, -, -, -, -, -, -, hlast⟩ := h reusedNumber
  have hsent : ¬ ∀ y ∈ Server.sent (reusedNumber.foldl (Server.next useridHdf)
      (.ok (.start [] (.single (ascii "a"))))), y.reached = none ∨ y.reached = some y.meant := by
    decide +kernel
  exact hsent hlast

end Moc
