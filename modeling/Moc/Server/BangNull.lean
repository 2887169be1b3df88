import Moc.Server.BangTables

/-!
# When the bang plugin dereferences null

The plugin follows some pointers unchecked: the id of the new object of a JOIN, the table of a user
that never looked for one, and the table that `bang_autoselect_table_in_room` may not find.
`Bang.NonNull` says for each step when none of them is null, and `bang_nonNull_iff` that a run
follows null at the first step where this fails. -/

open Bytes Memory Runs

namespace Moc

namespace Bang

variable {b b' b₁ : Bang} {env : BangEnv} {q : BangRequest}

/-- What a command finds that dereferences no null pointer. -/
def CommandNonNull (b : Bang) (env : BangEnv) (q : BangRequest) : Prop :=
  match q.cmd with
  | .join userid =>
    ∀ uid, getParamStr "userid" userid = .ok uid → env.calloc = true → b.JoinsWell q uid
  | .quit => True
  -- A user that is idle needs a table that is not full.
  | .toBattle => ∀ a u, b.baseGetUser q = .ok (.ok a) → b.users a = some u → u.state = .idle →
      ∃ t, 0 ≤ (b.tables t).number ∧ (b.tables t).number < bangTableUserMaximum
  | .acceptBattle => ∀ a u, b.baseGetUser q = .ok (.ok a) → b.users a = some u → u.table ≠ none
  | .turn redirection => ∀ a u val, b.baseGetUser q = .ok (.ok a) → b.users a = some u →
      getParamStr "redirection" redirection = .ok val → env.msgNew a = none → u.table ≠ none

/-- A step that dereferences no null pointer. -/
def NonNull (b : Bang) : BangStep → Prop
  | .accept _ => True
  | .request _ _ _ => True
  | .close c => ∀ k, b.socks c = some k → k.evt = true → b.ClosesWell c
  | .process env =>
    ∀ q rest, b.running = none → b.queue = q :: rest → b.CommandNonNull env q
  | .free => ∀ q, b.running = some q → b.ClosesWell q.conn

/-- What a command that succeeds has done. -/
def CommandEffect (b : Bang) (env : BangEnv) (q : BangRequest) (b' : Bang) : Prop :=
  match q.cmd with
  | .join _ => b.JoinEffect b'
  | .quit => b' = b
  | .toBattle =>
    (b' = b ∧ ∀ a u, b.baseGetUser q = .ok (.ok a) → b.users a = some u → u.state ≠ .idle) ∨
    ∃ a u uid t, b.baseGetUser q = .ok (.ok a) ∧ b.users a = some u ∧ u.uid = some uid ∧
      u.state = .idle ∧ b.bangAutoselectTableInRoom = some t ∧
      Seats t b (⟨uid, a⟩ :: b.invited env a t) b'
  | .acceptBattle =>
    (b' = b ∧ ∀ a, b.baseGetUser q ≠ .ok (.ok a)) ∨
    ∃ a u t, b.baseGetUser q = .ok (.ok a) ∧ b.users a = some u ∧ u.table = some t ∧
      (b.withHash t (b.accepted a env.uid t)).Keeps b'
  | .turn _ => b' = b

/-- A request without a user is answered at once. -/
theorem baseGetUser_cases (b : Bang) (q : BangRequest) :
    b.baseGetUser q = .error .useAfterFree ∨ (∃ err, b.baseGetUser q = .ok (.error err)) ∨
      ∃ a, b.baseGetUser q = .ok (.ok a) := by
  unfold baseGetUser
  cases b.socks q.conn with
  | none => exact Or.inl rfl
  | some k =>
    dsimp only
    rcases k.appdata with - | a
    · exact Or.inr (Or.inl ⟨_, rfl⟩)
    · exact Or.inr (Or.inr ⟨a, rfl⟩)

/-- A reference that is dropped follows null if and only if the connection does not close well. -/
theorem Ok.removeRef_null (h : b.Ok) (c : BangConn) :
    (b.tcpSocketRemoveRef c = .error .nullPointer ↔ ¬b.ClosesWell c) ∧
      ∀ b', b.tcpSocketRemoveRef c = .ok b' → b.Drops c b' := by
  rcases h.removeRef c with ⟨hfree, hc⟩ | ⟨k, hc, ⟨hnull, hnot⟩ | ⟨b₁, hb₁, hwell, hd⟩⟩
  · rw [hfree]
    refine ⟨iff_of_false nofun (not_not.mpr fun k a u hk => ?_), fun _ => nofun⟩
    rw [hc] at hk
    cases hk
  · rw [hnull]
    exact ⟨iff_of_true rfl hnot, fun _ => nofun⟩
  · rw [hb₁]
    refine ⟨iff_of_false nofun (not_not.mpr hwell), fun b' hb => ?_⟩
    rw [← Except.ok.inj hb]
    exact hd

/-- Whether a connection closes well does not depend on the listener. -/
theorem closesWell_update {c : BangConn} {k : BangSocket} (k' : BangSocket)
    (hc : b.socks c = some k) (href : k'.refcount = k.refcount)
    (ha : k'.appdata = k.appdata) :
    ({ b with socks := Function.update b.socks c (some k') } : Bang).ClosesWell c ↔
      b.ClosesWell c := by
  have hself : Function.update b.socks c (some k') c = some k' := Function.update_self ..
  constructor
  · intro hwell k₀ a u hk₀ hone happ hu
    obtain rfl := Option.some.inj (hc.symm.trans hk₀)
    exact hwell k' a u hself (href.trans hone) (ha.trans happ) hu
  · intro hwell k₀ a u hk₀ hone happ hu
    obtain rfl := Option.some.inj (hself.symm.trans hk₀)
    exact hwell k a u hc (href.symm.trans hone) (ha.symm.trans happ) hu

theorem Ok.cmdJoin (h : b.Ok) (env : BangEnv) (q : BangRequest) (userid : Option Uid) :
    (b.cmdJoin env q userid = .error .nullPointer ↔
      ¬∀ uid, getParamStr "userid" userid = .ok uid → env.calloc = true → b.JoinsWell q uid) ∧
    ∀ b' err, b.cmdJoin env q userid = .ok (b', err) → b.JoinEffect b' := by
  obtain ⟨hnull, hok⟩ := h.bangUserNew env q userid
  rw [← hnull]
  cases hnew : b.bangUserNew env q userid with
  | error e =>
    rw [Bang.cmdJoin, hnew, error_bind]
    exact ⟨by simp only [Except.error.injEq], fun b' err hb => by cases hb⟩
  | ok r =>
    obtain ⟨b₁, err⟩ := r
    have heffect := hok b₁ err hnew
    -- The push changes nothing.
    have hrun : ∃ err', b.cmdJoin env q userid = .ok (b₁, err') := by
      rw [Bang.cmdJoin, hnew, ok_bind]
      cases err with
      | some err => exact ⟨_, rfl⟩
      | none =>
        dsimp only
        split_ifs
        · exact ⟨_, rfl⟩
        · cases env.msgNew b.nextUser <;> exact ⟨_, rfl⟩
    obtain ⟨err', hrun⟩ := hrun
    rw [hrun]
    refine ⟨iff_of_false (by simp) (by simp), fun b' err'' hb => ?_⟩
    cases hb
    exact heffect

/-- The request has one user. -/
theorem forall_user {F : ℕ → BangUser → Prop} {a : ℕ} {u : BangUser}
    (hget : b.baseGetUser q = .ok (.ok a)) (hu : b.users a = some u) :
    (∀ a' u', b.baseGetUser q = .ok (.ok a') → b.users a' = some u' → F a' u') ↔ F a u := by
  refine ⟨fun hall => hall a u hget hu, fun hone a' u' ha' hu' => ?_⟩
  obtain rfl := Except.ok.inj (Except.ok.inj (hget.symm.trans ha'))
  obtain rfl := Option.some.inj (hu.symm.trans hu')
  exact hone

theorem Ok.commandToBattle (h : b.Ok) (env : BangEnv) (hcmd : q.cmd = .toBattle) :
    (b.processDriver env q = .error .nullPointer ↔ ¬b.CommandNonNull env q) ∧
      ∀ b' err, b.processDriver env q = .ok (b', err) → b.CommandEffect env q b' := by
  unfold processDriver CommandNonNull CommandEffect
  rw [hcmd]
  dsimp only
  rcases b.baseGetUser_cases q with hget | ⟨err, hget⟩ | ⟨a, hget⟩
  · rw [cmdToBattle, hget, error_bind]
    exact ⟨iff_of_false nofun fun hnot => hnot fun a u => nofun, fun _ _ => nofun⟩
  · rw [cmdToBattle, hget, ok_bind]
    refine ⟨iff_of_false nofun fun hnot => hnot fun a u => nofun, fun b' err hb => ?_⟩
    cases hb
    exact Or.inl ⟨rfl, fun a u => nofun⟩
  obtain ⟨u, uid, hu, huid, -⟩ := h.appUser hget
  -- What is left to say is that an idle user finds a table.
  have hroom := forall_user (F := fun _ u' => u'.state = .idle →
    ∃ t, 0 ≤ (b.tables t).number ∧ (b.tables t).number < bangTableUserMaximum) hget hu
  have hfull : ¬(∃ t, 0 ≤ (b.tables t).number ∧ (b.tables t).number < bangTableUserMaximum) ↔
      b.bangAutoselectTableInRoom = none := by
    rw [bangAutoselectTableInRoom_eq_none_iff, not_exists]
  have hrun : b.cmdToBattle env q = b.bangBroadcastToBattleMessage env a := by
    rw [cmdToBattle, hget, ok_bind]
  rw [hroom, hrun, Classical.not_imp, hfull]
  rcases h.broadcast env hu huid with ⟨hnull, hidle, hnone⟩ | ⟨b', err, hb', heffect⟩
  · rw [hnull]
    exact ⟨iff_of_true rfl ⟨hidle, hnone⟩, fun _ _ => nofun⟩
  rw [hb']
  rcases heffect with ⟨hbusy, hsame⟩ | ⟨t, hidle, hselect, hs⟩
  · refine ⟨iff_of_false nofun fun hboth => hbusy hboth.1, fun b'' err' hb => Or.inl ?_⟩
    cases hb
    exact ⟨hsame, (forall_user hget hu).mpr hbusy⟩
  · refine ⟨iff_of_false nofun fun hboth => ?_, fun b'' err' hb => Or.inr ?_⟩
    · exact absurd (hselect.symm.trans hboth.2) (Option.some_ne_none t)
    · cases hb
      exact ⟨a, u, uid, t, hget, hu, huid, hidle, hselect, hs⟩

theorem Ok.commandAcceptBattle (h : b.Ok) (env : BangEnv) (hcmd : q.cmd = .acceptBattle) :
    (b.processDriver env q = .error .nullPointer ↔ ¬b.CommandNonNull env q) ∧
      ∀ b' err, b.processDriver env q = .ok (b', err) → b.CommandEffect env q b' := by
  unfold processDriver CommandNonNull CommandEffect
  rw [hcmd]
  dsimp only
  rcases b.baseGetUser_cases q with hget | ⟨err, hget⟩ | ⟨a, hget⟩
  · rw [cmdAcceptBattle, hget, error_bind]
    exact ⟨iff_of_false nofun fun hnot => hnot fun a u => nofun, fun _ _ => nofun⟩
  · rw [cmdAcceptBattle, hget, ok_bind]
    refine ⟨iff_of_false nofun fun hnot => hnot fun a u => nofun, fun b' err hb => ?_⟩
    cases hb
    exact Or.inl ⟨rfl, nofun⟩
  obtain ⟨u, uid, hu, huid, -⟩ := h.appUser hget
  rw [forall_user (F := fun _ u' => u'.table ≠ none) hget hu]
  -- A user with a table either meets one that was freed, or accepts.
  rcases h.accept env hget hu with ⟨hnull, hnone⟩ | ⟨t, ht, ⟨hfree, -⟩ | ⟨b', err, hb', hk⟩⟩
  · rw [hnull]
    exact ⟨iff_of_true rfl fun hsome => hsome hnone, fun _ _ => nofun⟩
  · rw [hfree, ht]
    exact ⟨iff_of_false nofun (not_not.mpr (Option.some_ne_none t)), fun _ _ => nofun⟩
  · rw [hb', ht]
    refine ⟨iff_of_false nofun (not_not.mpr (Option.some_ne_none t)), fun b'' err' hb => ?_⟩
    cases hb
    exact Or.inr ⟨a, u, t, hget, hu, ht, hk⟩

theorem Ok.commandTurn (h : b.Ok) (env : BangEnv) {redirection : Option (List UInt8)}
    (hcmd : q.cmd = .turn redirection) :
    (b.processDriver env q = .error .nullPointer ↔ ¬b.CommandNonNull env q) ∧
      ∀ b' err, b.processDriver env q = .ok (b', err) → b.CommandEffect env q b' := by
  unfold processDriver CommandNonNull CommandEffect
  rw [hcmd]
  dsimp only
  rcases b.baseGetUser_cases q with hget | ⟨err, hget⟩ | ⟨a, hget⟩
  · rw [cmdTurn, hget, error_bind]
    exact ⟨iff_of_false nofun fun hnot => hnot fun a u val => nofun, fun _ _ => nofun⟩
  · rw [cmdTurn, hget, ok_bind]
    refine ⟨iff_of_false nofun fun hnot => hnot fun a u val => nofun, fun b' err hb => ?_⟩
    cases hb
    rfl
  obtain ⟨u, uid, hu, huid, -⟩ := h.appUser hget
  obtain ⟨hnull, hok⟩ := h.turn env hget hu redirection
  refine ⟨hnull.trans ⟨fun ⟨hnone, hmsg, val, hval⟩ hall => ?_, fun hnot => ?_⟩, hok⟩
  · exact hall a u val hget hu hval hmsg hnone
  · push Not at hnot
    obtain ⟨a', u', val, ha', hu', hval, hmsg, hnone⟩ := hnot
    obtain rfl := Except.ok.inj (Except.ok.inj (hget.symm.trans ha'))
    obtain rfl := Option.some.inj (hu.symm.trans hu')
    exact ⟨hnone, hmsg, val, hval⟩

/-- A QUIT finds its own user or none. -/
theorem Ok.quit_run (h : b.Ok) (q : BangRequest) :
    b.cmdQuit q = .error .useAfterFree ∨ ∃ err, b.cmdQuit q = .ok (b, err) := by
  rcases b.baseGetUser_cases q with hget | ⟨err, hget⟩ | ⟨a, hget⟩
  · rw [cmdQuit, hget, error_bind]
    exact Or.inl rfl
  · rw [cmdQuit, hget, ok_bind]
    exact Or.inr ⟨some err, rfl⟩
  · exact Or.inr ⟨none, h.quitCmd hget⟩

theorem Ok.command (h : b.Ok) (env : BangEnv) (q : BangRequest) :
    (b.processDriver env q = .error .nullPointer ↔ ¬b.CommandNonNull env q) ∧
      ∀ b' err, b.processDriver env q = .ok (b', err) → b.CommandEffect env q b' := by
  cases hcmd : q.cmd with
  | join userid =>
    unfold processDriver CommandNonNull CommandEffect
    rw [hcmd]
    exact h.cmdJoin env q userid
  | quit =>
    unfold processDriver CommandNonNull CommandEffect
    rw [hcmd]
    dsimp only
    rcases h.quit_run q with hfree | ⟨err, hok⟩
    · rw [hfree]
      exact ⟨iff_of_false nofun fun hnot => hnot trivial, fun _ _ => nofun⟩
    · rw [hok]
      refine ⟨iff_of_false nofun fun hnot => hnot trivial, fun b' err' hb => ?_⟩
      cases hb
      rfl
  | toBattle => exact h.commandToBattle env hcmd
  | acceptBattle => exact h.commandAcceptBattle env hcmd
  | turn redirection => exact h.commandTurn env hcmd

theorem Ok.commandEffect (h : b.Ok) (he : b.CommandEffect env q b') : b'.Ok := by
  unfold CommandEffect at he
  split at he
  case h_1 => exact h.joinEffect he
  case h_2 =>
    rw [he]
    exact h
  case h_3 =>
    rcases he with ⟨rfl, -⟩ | ⟨a, u, uid, t, -, -, -, -, -, hs⟩
    · exact h
    · exact h.seats hs
  case h_4 =>
    rcases he with ⟨rfl, -⟩ | ⟨a, u, t, -, -, -, hk⟩
    · exact h
    · exact (h.withHash fun k o => accepted_lookup).keeps hk
  case h_5 =>
    rw [he]
    exact h

/-- What a step that succeeds has done. Between the commands only references are dropped. -/
def StepEffect (b : Bang) (i : BangStep) (b' : Bang) : Prop :=
  b.Keeps b' ∨ (∃ b₁ c, b.Keeps b₁ ∧ b₁.Drops c b') ∨
    ∃ env q rest, i = .process env ∧ b.running = none ∧ b.queue = q :: rest ∧
      { b with queue := rest, running := some q }.CommandEffect env q b'

/-- The worker takes an entry. -/
theorem take_keeps (b : Bang) (q : BangRequest) (rest : List BangRequest) :
    b.Keeps { b with queue := rest, running := some q } :=
  b.keeps_socks fun _ k _ hs ha => ⟨k, hs, ha⟩

theorem Ok.stepEffect {i : BangStep} (h : b.Ok) (he : b.StepEffect i b') : b'.Ok := by
  rcases he with hk | ⟨b₁, c, hk, hd⟩ | ⟨env, q, rest, -, -, -, he⟩
  · exact h.keeps hk
  · exact (h.keeps hk).drops hd
  · exact (h.keeps (b.take_keeps q rest)).commandEffect he

/-- A step that comes to an end has followed no null pointer. -/
theorem step_ok {i : BangStep} (hnon : b.NonNull i) (he : b.StepEffect i b₁) :
    ((.ok b₁ : Except Fault Bang) = .error .nullPointer ↔ ¬b.NonNull i) ∧
      ∀ b', (.ok b₁ : Except Fault Bang) = .ok b' → b.StepEffect i b' := by
  refine ⟨iff_of_false nofun (not_not.mpr hnon), fun b' hb => ?_⟩
  rw [← Except.ok.inj hb]
  exact he

/-- The worker processes the next entry. -/
theorem Ok.process {rest : List BangRequest} (h : b.Ok) (env : BangEnv)
    (hrunning : b.running = none) (hqueue : b.queue = q :: rest) :
    (b.step (.process env) = .error .nullPointer ↔ ¬b.NonNull (.process env)) ∧
      ∀ b', b.step (.process env) = .ok b' → b.StepEffect (.process env) b' := by
  obtain ⟨hnull, hok⟩ := (h.keeps (b.take_keeps q rest)).command env q
  have hcommand : b.NonNull (.process env) ↔ b.CommandNonNull env q := by
    refine ⟨fun hall => hall q rest hrunning hqueue, fun hone q' rest' _ hqueue' => ?_⟩
    rw [← (List.cons.inj (hqueue.symm.trans hqueue')).1]
    exact hone
  rw [hcommand, step_process env hrunning hqueue]
  -- The error of a command is dropped, and a fault stays.
  cases hrun : ({ b with queue := rest, running := some q } : Bang).processDriver env q with
  | error e =>
    rw [hrun, Except.error.injEq] at hnull
    rw [error_bind, Except.error.injEq]
    exact ⟨hnull, fun b' hb => by cases hb⟩
  | ok r =>
    obtain ⟨b₁, err⟩ := r
    rw [hrun] at hnull
    refine ⟨(iff_of_false (by simp) (by simp)).trans hnull, fun b' hb => Or.inr (Or.inr ?_)⟩
    rw [← Except.ok.inj hb]
    exact ⟨env, q, rest, rfl, hrunning, hqueue, hok b₁ err hrun⟩

/-- A step dereferences null if and only if it is not `NonNull`. -/
theorem Ok.step (h : b.Ok) (i : BangStep) : (b.step i = .error .nullPointer ↔ ¬b.NonNull i) ∧
    ∀ b', b.step i = .ok b' → b.StepEffect i b' := by
  cases i with
  | accept fd =>
    have hnon : b.NonNull (.accept fd) := trivial
    unfold Bang.step
    dsimp only
    by_cases hfd : fd < 0
    · rw [if_pos hfd]
      exact step_ok hnon (Or.inl (.refl b))
    · -- The new connection has no user.
      rw [if_neg hfd]
      refine step_ok hnon (Or.inl (b.keeps_socks fun c k a hc ha => ?_))
      rcases update_eq_some.mp hc with ⟨-, hk⟩ | ⟨-, hold⟩
      · rw [← Option.some.inj hk] at ha
        cases ha
      · exact ⟨k, hold, ha⟩
  | request c cmd sync =>
    have hnon : b.NonNull (.request c cmd sync) := trivial
    unfold Bang.step
    dsimp only
    cases hc : b.socks c with
    | none => exact step_ok hnon (Or.inl (.refl b))
    | some k =>
      dsimp only
      by_cases hevt : k.evt = true
      · rw [if_pos hevt]
        exact step_ok hnon (Or.inl (b.keeps_update hc rfl))
      · rw [if_neg hevt]
        exact step_ok hnon (Or.inl (.refl b))
  | close c =>
    unfold Bang.step
    dsimp only
    cases hc : b.socks c with
    | none =>
      refine step_ok (fun k hk => ?_) (Or.inl (.refl b))
      rw [hc] at hk
      cases hk
    | some k =>
      dsimp only
      -- The listener goes first, and its reference with it.
      have hthis : b.NonNull (.close c) ↔ (k.evt = true → b.ClosesWell c) := by
        refine ⟨fun hall => hall k hc, fun hone k' hk' => ?_⟩
        rw [← Option.some.inj (hc.symm.trans hk')]
        exact hone
      by_cases hevt : k.evt = true
      · rw [if_pos hevt, hthis, ← closesWell_update { k with evt := false } hc rfl rfl]
        have hkeeps : b.Keeps { b with
            socks := Function.update b.socks c (some { k with evt := false }) } :=
          b.keeps_update hc rfl
        obtain ⟨hnull, hok⟩ := (h.keeps hkeeps).removeRef_null c
        exact ⟨hnull.trans (not_congr ⟨fun hwell _ => hwell, fun hall => hall hevt⟩),
          fun b' hb => Or.inr (Or.inl ⟨_, c, hkeeps, hok b' hb⟩)⟩
      · rw [if_neg hevt]
        exact step_ok (hthis.mpr fun hevt' => absurd hevt' hevt) (Or.inl (.refl b))
  | process env =>
    cases hrunning : b.running with
    | some q =>
      have hstep : b.step (.process env) = .ok b := by
        unfold Bang.step
        rw [hrunning]
      rw [hstep]
      refine step_ok (fun q' rest hnone => ?_) (Or.inl (.refl b))
      rw [hrunning] at hnone
      cases hnone
    | none =>
      cases hqueue : b.queue with
      | nil =>
        have hstep : b.step (.process env) = .ok b := by
          unfold Bang.step
          rw [hrunning, hqueue]
        rw [hstep]
        refine step_ok (fun q' rest _ hcons => ?_) (Or.inl (.refl b))
        rw [hqueue] at hcons
        cases hcons
      | cons q rest => exact h.process env hrunning hqueue
  | free =>
    unfold Bang.step
    dsimp only
    cases hrunning : b.running with
    | none =>
      refine step_ok (fun q hq => ?_) (Or.inl (.refl b))
      rw [hrunning] at hq
      cases hq
    | some q =>
      have hkeeps : b.Keeps { b with running := none } :=
        b.keeps_socks fun s k a hs ha => ⟨k, hs, ha⟩
      have hthis : b.NonNull .free ↔ b.ClosesWell q.conn := by
        refine ⟨fun hall => hall q hrunning, fun hwell q' hq' => ?_⟩
        rw [← Option.some.inj (hrunning.symm.trans hq')]
        exact hwell
      obtain ⟨hnull, hok⟩ := (h.keeps hkeeps).removeRef_null q.conn
      rw [hthis]
      exact ⟨hnull, fun b' hb => Or.inr (Or.inl ⟨_, q.conn, hkeeps, hok b' hb⟩)⟩

/-- The plugin follows a null pointer in a run if and only if some step is not `Bang.NonNull`: a
JOIN under an id that stays in use, a TO_BATTLE that finds no table, an ACCEPT_BATTLE or a TURN of a
user without a table, or the last reference of such a user's connection. -/
theorem bang_nonNull_iff (is : List BangStep) :
    Always Bang.next (fun x => x ≠ .error .nullPointer) (.ok .start) is ↔
      EachStep Bang.next (fun x i => ∀ b, x = .ok b → b.NonNull i) (.ok .start) is := by
  -- The invariant carries the users along, and says of a fault that it is not a null pointer.
  refine always_iff_eachStep (L := fun _ _ => True)
    (I := fun x => x ≠ .error .nullPointer ∧ ∀ b, x = .ok b → b.Ok) ?_ ?_ ?_ ?_
    (eachStep_of_forall (fun _ _ => trivial) _ _)
  · exact fun x hx => hx.1
  · rintro (e | b) i hx - hG
    · exact hx
    · obtain ⟨hnull, hok⟩ := (hx.2 b rfl).step i
      show b.step i ≠ .error .nullPointer ∧ ∀ b', b.step i = .ok b' → b'.Ok
      exact ⟨fun h => hnull.mp h (hG b rfl), fun b' h => (hx.2 b rfl).stepEffect (hok b' h)⟩
  · rintro (e | b) i hx - hG hnot
    · exact hG nofun
    · refine hG fun b' hb => ?_
      rw [← Except.ok.inj hb]
      by_contra hnull
      exact hnot (((hx.2 b rfl).step i).1.mpr hnull)
  · refine ⟨nofun, fun b hb => ?_⟩
    rw [← Except.ok.inj hb]
    exact start_ok

/-- A client joins and goes before it looked for a table: `bang_user_destroy` follows its table. -/
theorem bang_not_nonNull : ¬∀ is : List BangStep,
    Always Bang.next (fun x => x ≠ .error .nullPointer) (.ok .start) is := by
  intro hall
  have hrun := hall [.accept 5, .request ⟨1, 5⟩ (.join (some (ascii "a"))) true,
    .process ⟨true, fun _ => none, .listed, []⟩, .free, .close ⟨1, 5⟩]
  exact hrun.2.2.2.2.2 rfl

end Bang

end Moc
