import Moc.Server.BangCounters

/-!
# The connections of the bang plugin

`Bang.Moves` says what a step does to connections and to the users on them, and `Bang.Counted` that
each connection counts its listener and its queue entries. A JOIN drops a reference that nobody took,
but unless it is the last one the JOIN crashes. -/

open Bytes Memory Runs

namespace Moc

namespace Bang

variable {b b' b₁ b₂ : Bang} {a : ℕ} {u : BangUser} {uid : Uid} {c c' : BangConn} {k : BangSocket}
  {env : BangEnv} {q : BangRequest} {rest : List BangRequest} {i : BangStep}

/-! ## Who is on a connection -/

/-- The user of a socket is filed, and on its connection. -/
theorem Ok.on_appdata (h : b.Ok) (hc : b.socks c = some k) (ha : k.appdata = some a) :
    ∃ uid, b.On uid a c := by
  obtain ⟨u, uid, hu, huid, hconn⟩ := h.appdata c k a hc ha
  exact ⟨uid, h.filed a u uid hu huid, u, hu, hconn⟩

/-- Nobody has two ids. -/
theorem Ok.on_uid {uid' : Uid} (h : b.Ok) (hon : b.On uid a c) (hon' : b.On uid' a c') :
    uid' = uid := by
  obtain ⟨u, hu, huid⟩ := h.found uid a hon.1
  obtain ⟨u', hu', huid'⟩ := h.found uid' a hon'.1
  obtain rfl := Option.some.inj (hu.symm.trans hu')
  exact Option.some.inj (huid'.symm.trans huid)

theorem Ok.lookup_eq_none (h : b.Ok) (hno : ∀ a c, ¬b.On uid a c) : b.userh.lookup uid = none := by
  cases hfound : b.userh.lookup uid with
  | none => rfl
  | some a =>
    obtain ⟨u, hu, -⟩ := h.found uid a hfound
    exact absurd ⟨hfound, u, hu, rfl⟩ (hno a u.conn)

/-! ## A connection that is freed -/

/-- `b'` is `b` after the last reference of the connection `c`, whose socket was `k`, was dropped. -/
structure Frees (b : Bang) (c : BangConn) (k : BangSocket) (b' : Bang) : Prop where
  refcount : k.refcount = 1
  socks : b'.socks = Function.update b.socks c none
  nextSock : b'.nextSock = b.nextSock
  queue : b'.queue = b.queue
  running : b'.running = b.running
  on : ∀ uid a c', b'.On uid a c' ↔ b.On uid a c' ∧ k.appdata ≠ some a

/-- `bang_user_destroy` changes neither connections nor requests, and only its user goes. -/
theorem Ok.bangUserDestroy_on (h : b.Ok) (hu : b.users a = some u) (huid : u.uid = some uid)
    (hd : b.bangUserDestroy a = .ok b') : b'.socks = b.socks ∧ b'.nextSock = b.nextSock ∧
      b'.queue = b.queue ∧ b'.running = b.running ∧
      ∀ uid' a' c', b'.On uid' a' c' ↔ b.On uid' a' c' ∧ a ≠ a' := by
  have huserh := (bangUserDestroy_eq hd hu huid).1
  unfold bangUserDestroy at hd
  rw [derefUser_of_some hu, ok_bind, huid, readStr, ok_bind] at hd
  cases ht : u.table with
  | none =>
    rw [ht] at hd
    cases hd
  | some t =>
    rw [ht] at hd
    have hrest : b'.socks = b.socks ∧ b'.nextSock = b.nextSock ∧ b'.queue = b.queue ∧
        b'.running = b.running ∧ b'.users = Function.update b.users a none := by
      dsimp only at hd
      rw [← Except.ok.inj hd]
      split_ifs <;> exact ⟨rfl, rfl, rfl, rfl, rfl⟩
    obtain ⟨hsocks, hnextSock, hqueue, hrunning, husers⟩ := hrest
    refine ⟨hsocks, hnextSock, hqueue, hrunning, fun uid' a' c' => ?_⟩
    unfold On
    rw [huserh, husers, lookup_erase_eq]
    by_cases ha : a' = a
    · subst ha
      rw [Function.update_self]
      exact iff_of_false (fun hon => by obtain ⟨-, _, hnone, -⟩ := hon; cases hnone)
        fun hon => hon.2 rfl
    · rw [Function.update_of_ne ha, and_iff_left (Ne.symm ha)]
      refine and_congr_left fun _ => ?_
      -- Another user has another id.
      split_ifs with hsame
      · refine iff_of_false (by simp) fun hfound => ha ?_
        rw [hsame, h.filed a u uid hu huid] at hfound
        exact (Option.some.inj hfound).symm
      · exact Iff.rfl

/-- Every count is positive. -/
def Positive (b : Bang) : Prop := ∀ c k, b.socks c = some k → 0 < k.refcount

/-- A connection whose last reference was dropped is freed, with the user that it names. -/
theorem Ok.tcpSocketFree_frees (h : b.Ok) (hc : b.socks c = some k) (hone : k.refcount = 1)
    (hr : tcpSocketFree { b with
      socks := Function.update b.socks c (some { k with refcount := k.refcount - 1 }) } c
        { k with refcount := k.refcount - 1 } = .ok b') : b.Frees c k b' := by
  unfold tcpSocketFree at hr
  cases happ : k.appdata with
  | none =>
    rw [happ] at hr
    rw [← Except.ok.inj hr]
    refine ⟨hone, Function.update_idem .., rfl, rfl, rfl, fun uid a c' => ?_⟩
    rw [happ]
    exact (and_iff_left nofun).symm
  | some a =>
    rw [happ] at hr
    dsimp only at hr
    obtain ⟨b₁, hdestroy, hr⟩ := bind_eq_ok.mp hr
    obtain ⟨u, uid, hu, huid, -⟩ := h.appdata c k a hc happ
    have hkeeps : b.Keeps { b with
        socks := Function.update b.socks c (some ⟨k.refcount - 1, k.evt, some a⟩) } :=
      b.keeps_update hc happ.symm
    obtain ⟨hsocks, hnextSock, hqueue, hrunning, hon⟩ :=
      (h.keeps hkeeps).bangUserDestroy_on hu huid hdestroy
    rw [← Except.ok.inj hr]
    refine ⟨hone, ?_, hnextSock, hqueue, hrunning, fun uid' a' c' => ?_⟩
    · show Function.update b₁.socks c none = _
      rw [hsocks]
      exact Function.update_idem ..
    · rw [happ]
      exact (hon uid' a' c').trans (and_congr_right fun _ => by simp)

/-- A dropped reference: the connection counts one less, or it is freed. -/
theorem Ok.removeRef_conn (h : b.Ok) (hpos : b.Positive) (hr : b.tcpSocketRemoveRef c = .ok b') :
    ∃ k, b.socks c = some k ∧ ((1 < k.refcount ∧ b' = { b with
      socks := Function.update b.socks c (some { k with refcount := k.refcount - 1 }) }) ∨
      b.Frees c k b') := by
  unfold tcpSocketRemoveRef at hr
  cases hc : b.socks c with
  | none =>
    rw [hc] at hr
    cases hr
  | some k =>
    rw [hc] at hr
    dsimp only at hr
    have hcount := hpos c k hc
    refine ⟨k, rfl, ?_⟩
    rw [if_neg (by omega)] at hr
    by_cases hone : k.refcount = 1
    · rw [if_pos (by omega)] at hr
      exact Or.inr (h.tcpSocketFree_frees hc hone hr)
    · rw [if_neg (by omega)] at hr
      exact Or.inl ⟨by omega, (Except.ok.inj hr).symm⟩

/-! ## A JOIN -/

/-- `b'` is `b` after the new object `a` was filed under `uid` for the connection `c`, whose socket
was `k`. -/
structure Registers (b : Bang) (uid : Uid) (a : ℕ) (c : BangConn) (k : BangSocket) (b' : Bang) :
    Prop where
  sock : b.socks c = some k
  socks : b'.socks = Function.update b.socks c (some { k with appdata := some a })
  nextSock : b'.nextSock = b.nextSock
  queue : b'.queue = b.queue
  running : b'.running = b.running
  on : ∀ uid' a' c', b'.On uid' a' c' ↔ (uid' = uid ∧ a' = a ∧ c' = c) ∨ b.On uid' a' c'
  unfiled : ∀ a' c', ¬b.On uid a' c'
  new : ∀ uid' c', ¬b.On uid' a c'

/-- What comes before and after changes no connection. -/
theorem Registers.trans {b₃ : Bang} (h : b₁.Registers uid a c k b₂) (hsame : b.SameConns b₁)
    (hsame' : b₂.SameConns b₃) : b.Registers uid a c k b₃ where
  sock := by rw [← hsame.socks, h.sock]
  socks := by rw [hsame'.socks, h.socks, hsame.socks]
  nextSock := by rw [hsame'.nextSock, h.nextSock, hsame.nextSock]
  queue := by rw [hsame'.queue, h.queue, hsame.queue]
  running := by rw [hsame'.running, h.running, hsame.running]
  on uid' a' c' := by rw [hsame'.on, h.on, hsame.on]
  unfiled a' c' := by
    rw [← hsame.on]
    exact h.unfiled a' c'
  new uid' c' := by
    rw [← hsame.on]
    exact h.new uid' c'

theorem Frees.of_same (h : b₁.Frees c k b') (hsame : b.SameConns b₁) : b.Frees c k b' where
  refcount := h.refcount
  socks := by rw [h.socks, hsame.socks]
  nextSock := by rw [h.nextSock, hsame.nextSock]
  queue := by rw [h.queue, hsame.queue]
  running := by rw [h.running, hsame.running]
  on uid a c' := by rw [h.on, hsame.on]

/-- The object of a JOIN is on no connection. -/
theorem Ok.alloc_sameConns (h : b.Ok) : b.SameConns b.alloc := by
  refine ⟨rfl, rfl, rfl, rfl, fun uid a c => and_congr_right fun hfound => ?_⟩
  obtain ⟨u, hu, -⟩ := h.found uid a hfound
  have hne := (h.user_lt a u hu).ne
  unfold Bang.alloc
  dsimp only
  rw [Function.update_of_ne hne]

/-- `base_user_new` with an object that has no id. -/
theorem Ok.baseUserNew_registers {o : ℕ} (h : b.Ok) (hu : b.users a = some u) (hblank : u.uid = none)
    (hfree : b.userh.lookup uid = none) (hr : b.baseUserNew uid q a = .ok (b', o)) :
    ∃ k, b.Registers uid a q.conn k b' := by
  unfold Bang.baseUserNew at hr
  rw [hfree] at hr
  dsimp only at hr
  rw [derefUser_of_some hu, ok_bind] at hr
  cases hs : b.socks q.conn with
  | none =>
    rw [hs] at hr
    cases hr
  | some k =>
    rw [hs] at hr
    -- Nobody is found under the id of an object that has none.
    have hnew : ∀ uid' c', ¬b.On uid' a c' := by
      rintro uid' c' ⟨hfound, -⟩
      obtain ⟨v, hv, huid⟩ := h.found uid' a hfound
      obtain rfl := Option.some.inj (hu.symm.trans hv)
      rw [hblank] at huid
      cases huid
    have hunfiled : ∀ a' c', ¬b.On uid a' c' := by
      rintro a' c' ⟨hfound, -⟩
      rw [hfree] at hfound
      cases hfound
    rw [← (Prod.mk.inj (Except.ok.inj hr)).1]
    refine ⟨k, hs, rfl, rfl, rfl, rfl, fun uid' a' c' => ?_, hunfiled, hnew⟩
    by_cases huid : uid' = uid
    · subst huid
      rw [or_iff_left (hunfiled a' c')]
      unfold On
      dsimp only
      rw [AList.lookup_insert]
      constructor
      · rintro ⟨ha, v, hv, hconn⟩
        obtain rfl := Option.some.inj ha
        rw [Function.update_self] at hv
        rw [← hconn, ← Option.some.inj hv]
        exact ⟨rfl, rfl, rfl⟩
      · rintro ⟨-, rfl, rfl⟩
        exact ⟨rfl, _, Function.update_self .., rfl⟩
    · rw [or_iff_right (fun hsame => huid hsame.1)]
      unfold On
      dsimp only
      rw [AList.lookup_insert_ne huid]
      refine and_congr_right fun hfound => ?_
      have hne : a' ≠ a := by
        rintro rfl
        obtain ⟨v, hv, -⟩ := h.found uid' a' hfound
        exact hnew uid' v.conn ⟨hfound, v, hv, rfl⟩
      rw [Function.update_of_ne hne]

/-- A JOIN of `uid` gives up no connection, or that on which its user was. -/
def Quits (b : Bang) (q : BangRequest) (uid : Uid) (b₁ : Bang) : Prop :=
  (b.SameConns b₁ ∧ ∀ a c, ¬b.On uid a c) ∨
    ∃ a c k, b.On uid a c ∧ q.conn ≠ c ∧ b.socks c = some k ∧ k.appdata = some a ∧ b.Frees c k b₁

/-- What a JOIN that ends has done: nothing, as it has no id or no object, or it has filed a new
user. -/
theorem Ok.cmdJoin_moves {userid : Option Uid} {err : Option NeoErr} (h : b.Ok) (hpos : b.Positive)
    (hr : b.cmdJoin env q userid = .ok (b', err)) :
    (b.SameConns b' ∧ ∀ uid, getParamStr "userid" userid = .ok uid → env.calloc ≠ true) ∨
      ∃ uid b₁ k, getParamStr "userid" userid = .ok uid ∧ env.calloc = true ∧ b.Quits q uid b₁ ∧
        b₁.Ok ∧ b₁.Registers uid b.nextUser q.conn k b' := by
  obtain ⟨err', hr⟩ := cmdJoin_eq_ok hr
  rcases bangUserNew_cases hr with
    ⟨rfl, hnone⟩ | ⟨uid, b₁, moved, b₂, o, hparam, hcalloc, hquit, hnew, hidle⟩
  · exact Or.inl ⟨SameConns.frame.refl _, hnone⟩
  · have hcases := baseUserQuit_cases hquit
    have hblank : b₁.Ok ∧ ∃ u, b₁.users b.nextUser = some u ∧ u.uid = none := by
      rcases hcases with ⟨-, heq⟩ | ⟨c, -, hdrop⟩
      · rw [heq]
        exact ⟨h.alloc, .blank, Function.update_self .., rfl⟩
      · rcases h.alloc.removeRef c with ⟨hfree, -⟩ | ⟨k, -, ⟨hnull, -⟩ | ⟨b₁', hb, -, hd⟩⟩
        · cases hfree.symm.trans hdrop
        · cases hnull.symm.trans hdrop
        · obtain rfl := Except.ok.inj (hb.symm.trans hdrop)
          obtain ⟨u, hu, huid, -⟩ := hd.blank
          exact ⟨h.alloc.drops hd, u, hu, huid⟩
    obtain ⟨hb₁, u, hu, huid⟩ := hblank
    -- The id is free: a user that is filed already leaves the object without one.
    have hfree : b₁.userh.lookup uid = none := by
      cases hfound : b₁.userh.lookup uid with
      | none => rfl
      | some a' =>
        have hfind : b₁.baseUserNew uid q b.nextUser = .ok (b₁, a') := by rw [baseUserNew, hfound]
        obtain ⟨rfl, -⟩ := Prod.mk.inj (Except.ok.inj (hfind.symm.trans hnew))
        cases (bangStateTransitIdle_of_blank hu huid).symm.trans hidle
    obtain ⟨k, hreg⟩ := hb₁.baseUserNew_registers hu huid hfree hnew
    refine Or.inr ⟨uid, b₁, k, hparam, hcalloc, ?_, hb₁,
      hreg.trans (SameConns.frame.refl b₁) (SameConns.frame.transitIdle hidle)⟩
    rcases hcases with ⟨-, heq⟩ | ⟨c, hc, hdrop⟩
    · rw [heq] at hfree ⊢
      refine Or.inl ⟨h.alloc_sameConns, fun a c hon => ?_⟩
      exact Option.some_ne_none a (hon.1.symm.trans hfree)
    · obtain ⟨a, v, ha, hv, hne, hconn⟩ := h.takesOver_alloc.mp ((hc c).mpr rfl)
      have hon : b.On uid a c := ⟨ha, v, hv, hconn⟩
      obtain ⟨k', hk', ⟨-, heq⟩ | hfrees⟩ := h.alloc.removeRef_conn (c := c) hpos hdrop
      · rw [heq] at hfree
        exact absurd (ha.symm.trans hfree) (Option.some_ne_none a)
      · have hfrees := hfrees.of_same h.alloc_sameConns
        have happ : k'.appdata = some a := by
          by_contra happ
          have hgone := ((hfrees.on uid a c).mpr ⟨hon, happ⟩).1
          exact Option.some_ne_none a (hgone.symm.trans hfree)
        exact Or.inr ⟨a, c, k', hon, by rwa [← hconn], hk', happ, hfrees⟩

/-! ## The steps -/

/-- The plugin when the worker has taken the entry `q`. -/
def taken (b : Bang) (q : BangRequest) (rest : List BangRequest) : Bang :=
  { b with queue := rest, running := some q }

/-- The plugin when the worker has given up its entry. -/
def given (b : Bang) : Bang := { b with running := none }

/-- The plugin when the event loop has given up the connection `c`, whose socket is `k`. -/
def unlisten (b : Bang) (c : BangConn) (k : BangSocket) : Bang :=
  { b with socks := Function.update b.socks c (some { k with evt := false }) }

theorem Ok.given (h : b.Ok) : b.given.Ok := h.keeps (b.keeps_socks fun _ k _ hs ha => ⟨k, hs, ha⟩)

theorem Ok.unlisten (h : b.Ok) (hc : b.socks c = some k) : (b.unlisten c k).Ok :=
  h.keeps (b.keeps_update hc rfl)

/-- The step runs `q`, a JOIN of `uid` to which an object is granted. -/
def RunsJoin (b : Bang) (i : BangStep) (q : BangRequest) (uid : Uid) : Prop :=
  ∃ env rest userid, i = .process env ∧ b.running = none ∧ b.queue = q :: rest ∧
    q.cmd = .join userid ∧ getParamStr "userid" userid = .ok uid ∧ env.calloc = true

/-- A step runs one JOIN. -/
theorem RunsJoin.unique {q' : BangRequest} {uid' : Uid} (h : b.RunsJoin i q uid)
    (h' : b.RunsJoin i q' uid') : q' = q ∧ uid' = uid := by
  obtain ⟨env, rest, userid, -, -, hqueue, hcmd, hparam, -⟩ := h
  obtain ⟨env', rest', userid', -, -, hqueue', hcmd', hparam', -⟩ := h'
  obtain ⟨rfl, -⟩ := List.cons.inj (hqueue.symm.trans hqueue')
  obtain rfl := BangCmd.join.inj (hcmd.symm.trans hcmd')
  exact ⟨rfl, Except.ok.inj (hparam'.symm.trans hparam)⟩

/-- What a step that does not fault does to connections and requests. -/
inductive Moves (b : Bang) : BangStep → Bang → Prop where
  | idle {i : BangStep} (hjoin : ∀ q uid, ¬b.RunsJoin i q uid)
      (hclose : ∀ c k, i = .close c → b.socks c = some k → k.evt = false) : Moves b i b
  | accept {fd : ℤ} : Moves b (.accept fd) { b with
      socks := Function.update b.socks ⟨b.nextSock, fd⟩ (some ⟨1, true, none⟩)
      nextSock := b.nextSock + 1 }
  | request {c : BangConn} {cmd : BangCmd} {sync : Bool} {k : BangSocket}
      (hc : b.socks c = some k) (hevt : k.evt = true) :
      Moves b (.request c cmd sync) { b with
        socks := Function.update b.socks c (some { k with refcount := k.refcount + 1 })
        queue := b.queue ++ [⟨c, cmd, sync⟩] }
  | close {c : BangConn} {k : BangSocket} {b' : Bang} (hc : b.socks c = some k) (hevt : k.evt = true)
      (hr : (b.unlisten c k).tcpSocketRemoveRef c = .ok b') : Moves b (.close c) b'
  | command {env : BangEnv} {q : BangRequest} {rest : List BangRequest} {b' : Bang}
      (hrunning : b.running = none) (hqueue : b.queue = q :: rest)
      (hjoin : ∀ q uid, ¬b.RunsJoin (.process env) q uid) (hsame : (b.taken q rest).SameConns b') :
      Moves b (.process env) b'
  | join {env : BangEnv} {q : BangRequest} {rest : List BangRequest} {uid : Uid} {a : ℕ}
      {k : BangSocket} {b₁ b' : Bang} (hrunning : b.running = none) (hqueue : b.queue = q :: rest)
      (hjoin : b.RunsJoin (.process env) q uid) (hquits : (b.taken q rest).Quits q uid b₁)
      (hok : b₁.Ok) (hreg : b₁.Registers uid a q.conn k b') : Moves b (.process env) b'
  | free {q : BangRequest} {b' : Bang} (hrunning : b.running = some q)
      (hr : b.given.tcpSocketRemoveRef q.conn = .ok b') : Moves b .free b'

theorem Ok.command_moves {err : Option NeoErr} (h : b.Ok) (hpos : b.Positive)
    (hrunning : b.running = none) (hqueue : b.queue = q :: rest)
    (hr : (b.taken q rest).processDriver env q = .ok (b', err)) : b.Moves (.process env) b' := by
  have hok : (b.taken q rest).Ok := h.keeps (b.take_keeps q rest)
  -- The command that is run is that of the first entry.
  have hthis : ∀ {q' uid}, b.RunsJoin (.process env) q' uid → ∃ userid, q.cmd = .join userid ∧
      getParamStr "userid" userid = .ok uid ∧ env.calloc = true := by
    rintro q' uid ⟨env', rest', userid, henv, -, hqueue', hcmd, hparam, hcalloc⟩
    obtain rfl := BangStep.process.inj henv
    obtain ⟨rfl, -⟩ := List.cons.inj (hqueue.symm.trans hqueue')
    exact ⟨userid, hcmd, hparam, hcalloc⟩
  have hcommand : (b.taken q rest).SameConns b' → (∀ userid, q.cmd ≠ .join userid) →
      b.Moves (.process env) b' := fun hsame hno =>
    .command hrunning hqueue (fun q' uid hjoin =>
      let ⟨userid, hcmd, _⟩ := hthis hjoin
      hno userid hcmd) hsame
  have heffect := (hok.command env q).2 b' err hr
  unfold processDriver at hr
  unfold CommandEffect at heffect
  cases hcmd : q.cmd with
  | join userid =>
    rw [hcmd] at hr
    rcases hok.cmdJoin_moves hpos hr with ⟨hsame, hno⟩ | ⟨uid, b₁, k, hparam, hcalloc, hrest⟩
    · refine .command hrunning hqueue (fun q' uid hjoin => ?_) hsame
      obtain ⟨userid', hcmd', hparam, hcalloc⟩ := hthis hjoin
      obtain rfl := BangCmd.join.inj (hcmd.symm.trans hcmd')
      exact hno uid hparam hcalloc
    · exact .join hrunning hqueue ⟨env, rest, userid, rfl, hrunning, hqueue, hcmd, hparam, hcalloc⟩
        hrest.1 hrest.2.1 hrest.2.2
  | quit =>
    rw [hcmd] at heffect
    obtain rfl : b' = b.taken q rest := heffect
    exact hcommand (SameConns.frame.refl _) (by rw [hcmd]; nofun)
  | toBattle =>
    rw [hcmd] at hr
    exact hcommand (SameConns.frame.cmdToBattle hr) (by rw [hcmd]; nofun)
  | acceptBattle =>
    rw [hcmd] at hr
    exact hcommand (SameConns.frame.cmdAcceptBattle hr) (by rw [hcmd]; nofun)
  | turn redirection =>
    rw [hcmd] at heffect
    obtain rfl : b' = b.taken q rest := heffect
    exact hcommand (SameConns.frame.refl _) (by rw [hcmd]; nofun)

theorem Ok.step_moves (h : b.Ok) (hpos : b.Positive) (hs : b.step i = .ok b') : b.Moves i b' := by
  -- A step that does nothing runs no JOIN and closes nothing.
  have hidle : (∀ q rest env, i = .process env → b.running = none → b.queue ≠ q :: rest) →
      (∀ c k, i = .close c → b.socks c = some k → k.evt = false) → b.Moves i b :=
    fun hno hclose => .idle (fun q uid ⟨env, rest, _, hi, hrunning, hqueue, _⟩ =>
      hno q rest env hi hrunning hqueue) hclose
  unfold Bang.step at hs
  cases i with
  | accept fd =>
    dsimp only at hs
    split_ifs at hs <;> rw [← Except.ok.inj hs]
    · exact hidle nofun nofun
    · exact .accept
  | request c cmd sync =>
    dsimp only at hs
    cases hc : b.socks c with
    | none =>
      rw [hc] at hs
      rw [← Except.ok.inj hs]
      exact hidle nofun nofun
    | some k =>
      rw [hc] at hs
      dsimp only at hs
      split_ifs at hs with hevt <;> rw [← Except.ok.inj hs]
      · exact .request hc hevt
      · exact hidle nofun nofun
  | close c =>
    dsimp only at hs
    cases hc : b.socks c with
    | none =>
      rw [hc] at hs
      rw [← Except.ok.inj hs]
      refine hidle nofun fun c' k hi hk => ?_
      rw [← BangStep.close.inj hi, hc] at hk
      cases hk
    | some k =>
      rw [hc] at hs
      dsimp only at hs
      split_ifs at hs with hevt
      · exact .close hc hevt hs
      · rw [← Except.ok.inj hs]
        refine hidle nofun fun c' k' hi hk => ?_
        rw [← BangStep.close.inj hi] at hk
        obtain rfl := Option.some.inj (hc.symm.trans hk)
        exact Bool.eq_false_of_not_eq_true hevt
  | process env =>
    dsimp only at hs
    cases hrunning : b.running with
    | some q =>
      rw [hrunning] at hs
      rw [← Except.ok.inj hs]
      exact hidle (fun q rest env _ hnone => by rw [hrunning] at hnone; cases hnone) nofun
    | none =>
      cases hqueue : b.queue with
      | nil =>
        rw [hrunning, hqueue] at hs
        rw [← Except.ok.inj hs]
        exact hidle (fun q rest env _ _ => by rw [hqueue]; nofun) nofun
      | cons q rest =>
        obtain ⟨err, hrun⟩ := (step_process_iff hrunning hqueue).mp hs
        exact h.command_moves hpos hrunning hqueue hrun
  | free =>
    dsimp only at hs
    cases hrunning : b.running with
    | none =>
      rw [hrunning] at hs
      rw [← Except.ok.inj hs]
      exact hidle nofun nofun
    | some q =>
      rw [hrunning] at hs
      exact .free hrunning hs

/-! ## What a connection counts -/

/-- The entries that refer to the connection `c`. -/
def entries (b : Bang) (c : BangConn) : ℕ :=
  (b.queue ++ b.running.toList).countP fun q => q.conn = c

/-- Each connection counts its listener and its entries, and one more where `extra` says so. A
connection that was not accepted has no entries. -/
structure Counted (b : Bang) (extra : BangConn → ℕ) : Prop where
  fresh : ∀ c, b.nextSock ≤ c.tcpsock → b.socks c = none ∧ b.entries c = 0
  count : ∀ c k, b.socks c = some k →
    k.refcount = (if k.evt then 1 else 0) + b.entries c + extra c
  positive : b.Positive

theorem start_counted : Bang.start.Counted 0 := ⟨fun _ _ => ⟨rfl, rfl⟩, nofun, nofun⟩

theorem Counted.same (h : b.Counted 0) (hsame : b.SameConns b') : b'.Counted 0 := by
  have hentries : ∀ c, b'.entries c = b.entries c := fun c => by
    rw [entries, entries, hsame.queue, hsame.running]
  refine ⟨fun c hc => ?_, fun c k hk => ?_, fun c k hk => ?_⟩
  · rw [hsame.nextSock] at hc
    rw [hsame.socks, hentries]
    exact h.fresh c hc
  · rw [hsame.socks] at hk
    rw [hentries]
    exact h.count c k hk
  · rw [hsame.socks] at hk
    exact h.positive c k hk

theorem Counted.lt (h : b.Counted 0) (hc : b.socks c = some k) : c.tcpsock < b.nextSock := by
  by_contra hle
  rw [(h.fresh c (not_lt.mp hle)).1] at hc
  cases hc

/-- One socket is written, and its count is right. -/
theorem Counted.update {extra extra' : BangConn → ℕ} (h : b.Counted extra)
    (hc : b.socks c = some k) {k' : BangSocket}
    (hsocks : b'.socks = Function.update b.socks c (some k')) (hnextSock : b'.nextSock = b.nextSock)
    (hcount : k'.refcount = (if k'.evt then 1 else 0) + b'.entries c + extra' c)
    (hpos : 0 < k'.refcount) (hentries : ∀ c' ≠ c, b'.entries c' = b.entries c')
    (hextra : ∀ c' ≠ c, extra' c' = extra c') : b'.Counted extra' := by
  refine ⟨fun c' hle => ?_, fun c' k₀ hk₀ => ?_, fun c' k₀ hk₀ => ?_⟩
  · rw [hnextSock] at hle
    obtain ⟨hnone, hzero⟩ := h.fresh c' hle
    have hne : c' ≠ c := fun heq => by
      rw [heq, hc] at hnone
      cases hnone
    rw [hsocks, Function.update_of_ne hne, hentries c' hne]
    exact ⟨hnone, hzero⟩
  · rw [hsocks] at hk₀
    rcases update_eq_some.mp hk₀ with ⟨rfl, heq⟩ | ⟨hne, hold⟩
    · rwa [← Option.some.inj heq]
    · rw [hentries c' hne, hextra c' hne]
      exact h.count c' k₀ hold
  · rw [hsocks] at hk₀
    rcases update_eq_some.mp hk₀ with ⟨rfl, heq⟩ | ⟨hne, hold⟩
    · rwa [← Option.some.inj heq]
    · exact h.positive c' k₀ hold

/-- A freed connection counts nothing. -/
theorem Counted.frees {extra : BangConn → ℕ} (h : b.Counted extra) (hc : b.socks c = some k)
    (hf : b.Frees c k b') (hextra : ∀ c' ≠ c, extra c' = 0) : b'.Counted 0 := by
  have hentries : ∀ c, b'.entries c = b.entries c := fun c => by
    rw [entries, entries, hf.queue, hf.running]
  refine ⟨fun c' hle => ?_, fun c' k₀ hk₀ => ?_, fun c' k₀ hk₀ => ?_⟩
  · rw [hf.nextSock] at hle
    obtain ⟨hnone, hzero⟩ := h.fresh c' hle
    rw [hf.socks, hentries]
    refine ⟨(Function.update_of_ne (fun heq => ?_) ..).trans hnone, hzero⟩
    rw [heq, hc] at hnone
    cases hnone
  · rw [hf.socks] at hk₀
    obtain ⟨hne, hold⟩ := (update_eq_some.mp hk₀).resolve_left (by simp)
    have hcount := h.count c' k₀ hold
    rw [hextra c' hne] at hcount
    rw [hentries]
    exact hcount
  · rw [hf.socks] at hk₀
    obtain ⟨-, hold⟩ := (update_eq_some.mp hk₀).resolve_left (by simp)
    exact h.positive c' k₀ hold

/-- The reference that is dropped was one too many. -/
theorem Counted.removeRef (h : b.Counted (Pi.single c 1)) (hok : b.Ok)
    (hr : b.tcpSocketRemoveRef c = .ok b') : b'.Counted 0 := by
  have hextra : ∀ c' ≠ c, (Pi.single c 1 : BangConn → ℕ) c' = 0 :=
    fun c' hne => Pi.single_eq_of_ne hne 1
  obtain ⟨k, hc, ⟨hmany, heq⟩ | hf⟩ := hok.removeRef_conn h.positive hr
  · have hcount := h.count c k hc
    rw [Pi.single_eq_same] at hcount
    subst heq
    refine h.update hc rfl rfl ?_ ?_ (fun _ _ => rfl) (fun c' hne => (hextra c' hne).symm)
    · show k.refcount - 1 = (if k.evt then 1 else 0) + (b.entries c : ℤ) + ((0 : ℕ) : ℤ)
      push_cast at hcount ⊢
      omega
    · show 0 < k.refcount - 1
      omega
  · exact h.frees hc hf hextra

/-- Who registers changes no count. -/
theorem Counted.registers (h : b.Counted 0) (hreg : b.Registers uid a c k b') : b'.Counted 0 := by
  have hentries : ∀ c, b'.entries c = b.entries c := fun c => by
    rw [entries, entries, hreg.queue, hreg.running]
  refine h.update hreg.sock hreg.socks hreg.nextSock ?_ (h.positive c k hreg.sock)
    (fun c' _ => hentries c') (fun _ _ => rfl)
  rw [hentries]
  exact h.count c k hreg.sock

theorem Counted.taken (h : b.Counted 0) (hrunning : b.running = none) (hqueue : b.queue = q :: rest) :
    (b.taken q rest).Counted 0 := by
  have hentries : ∀ c, (b.taken q rest).entries c = b.entries c := fun c => by
    simp only [entries, Bang.taken, hrunning, hqueue, Option.toList, List.countP_append,
      List.countP_cons, List.countP_nil]
    omega
  refine ⟨fun c hc => ?_, fun c k hk => ?_, h.positive⟩
  · rw [hentries]
    exact h.fresh c hc
  · rw [hentries]
    exact h.count c k hk

/-- A new connection is counted by its listener only. -/
theorem Counted.accept (h : b.Counted 0) (fd : ℤ) : Counted { b with
    socks := Function.update b.socks ⟨b.nextSock, fd⟩ (some ⟨1, true, none⟩)
    nextSock := b.nextSock + 1 } 0 := by
  obtain ⟨-, hzero⟩ := h.fresh ⟨b.nextSock, fd⟩ le_rfl
  refine ⟨fun c hle => ?_, fun c k hk => ?_, fun c k hk => ?_⟩
  · have hlt : b.nextSock < c.tcpsock := hle
    obtain ⟨hnone, hentries⟩ := h.fresh c hlt.le
    refine ⟨(Function.update_of_ne (fun heq => ?_) ..).trans hnone, hentries⟩
    rw [heq] at hlt
    exact lt_irrefl _ hlt
  · rcases update_eq_some.mp hk with ⟨rfl, heq⟩ | ⟨-, hold⟩
    · rw [← Option.some.inj heq]
      show (1 : ℤ) = 1 + (b.entries ⟨b.nextSock, fd⟩ : ℤ) + ((0 : ℕ) : ℤ)
      rw [hzero]
      rfl
    · exact h.count c k hold
  · rcases update_eq_some.mp hk with ⟨-, heq⟩ | ⟨-, hold⟩
    · rw [← Option.some.inj heq]
      exact Int.one_pos
    · exact h.positive c k hold

/-- An entry takes the reference that it counts. -/
theorem Counted.request (h : b.Counted 0) (hc : b.socks c = some k) (cmd : BangCmd)
    (sync : Bool) : Counted { b with
      socks := Function.update b.socks c (some { k with refcount := k.refcount + 1 })
      queue := b.queue ++ [⟨c, cmd, sync⟩] } 0 := by
  have hcount := h.count c k hc
  have hpos := h.positive c k hc
  have hentries : ∀ c', entries { b with
      socks := Function.update b.socks c (some { k with refcount := k.refcount + 1 })
      queue := b.queue ++ [⟨c, cmd, sync⟩] } c' = b.entries c' + if c = c' then 1 else 0 := by
    intro c'
    simp only [entries, List.countP_append, List.countP_cons, List.countP_nil, decide_eq_true_eq]
    omega
  refine h.update hc rfl rfl ?_ ?_ (fun c' hne => ?_) (fun _ _ => rfl)
  · rw [hentries, if_pos rfl]
    show k.refcount + 1 = _
    rw [hcount]
    push_cast
    ring
  · show 0 < k.refcount + 1
    omega
  · rw [hentries, if_neg (Ne.symm hne), Nat.add_zero]

/-- The reference of the event loop is one too many when it has given up the connection. -/
theorem Counted.unlisten (h : b.Counted 0) (hc : b.socks c = some k) (hevt : k.evt = true) :
    (b.unlisten c k).Counted (Pi.single c 1) := by
  have hcount := h.count c k hc
  rw [hevt, if_pos rfl] at hcount
  refine h.update hc rfl rfl ?_ (h.positive c k hc) (fun _ _ => rfl)
    fun c' hne => Pi.single_eq_of_ne hne 1
  rw [Pi.single_eq_same]
  show k.refcount = 0 + (b.entries c : ℤ) + ((1 : ℕ) : ℤ)
  rw [hcount, Pi.zero_apply]
  push_cast
  ring

/-- The reference of an entry is one too many when the worker has given it up. -/
theorem Counted.given (h : b.Counted 0) (hrunning : b.running = some q) :
    b.given.Counted (Pi.single q.conn 1) := by
  have hentries : ∀ c, b.entries c = b.given.entries c +
      (Pi.single q.conn 1 : BangConn → ℕ) c := by
    intro c
    simp only [entries, Bang.given, hrunning, Option.toList, List.countP_append, List.countP_cons,
      List.countP_nil, decide_eq_true_eq, Pi.single_apply, eq_comm (a := c)]
    omega
  refine ⟨fun c hc => ?_, fun c k hk => ?_, h.positive⟩
  · obtain ⟨hnone, hzero⟩ := h.fresh c hc
    have hsum := hentries c
    exact ⟨hnone, by omega⟩
  · rw [h.count c k hk, hentries]
    push_cast
    simp only [Pi.zero_apply]
    ring

/-- Every step keeps the counts right. -/
theorem Ok.counted (hok : b.Ok) (h : b.Counted 0) (hm : b.Moves i b') : b'.Counted 0 := by
  cases hm with
  | idle _ _ => exact h
  | accept => exact h.accept _
  | request hc _ => exact h.request hc _ _
  | close hc hevt hr => exact (h.unlisten hc hevt).removeRef (hok.unlisten hc) hr
  | command hrunning hqueue _ hsame => exact (h.taken hrunning hqueue).same hsame
  | join hrunning hqueue _ hquits _ hreg =>
    have htaken := h.taken hrunning hqueue
    rcases hquits with ⟨hsame, -⟩ | ⟨a', c', k', -, -, hc', -, hf⟩
    · exact (htaken.same hsame).registers hreg
    · exact (htaken.frees hc' hf fun _ _ => rfl).registers hreg
  | free hrunning hr => exact (h.given hrunning).removeRef hok.given hr

end Bang

end Moc
