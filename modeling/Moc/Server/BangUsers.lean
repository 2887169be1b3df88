import Moc.Lib.Runs
import Moc.Server.Bang

/-!
# The users of the bang plugin

`Bang.Ok` says how users, hashes and sockets of the plugin point at each other, in every run. A JOIN
files a user for its connection (`Enters`), the last reference of a connection takes its user along
(`Leaves`), and everything else leaves the users alone but for their states (`Keeps`).
-/

open Bytes Memory Runs

namespace Moc

namespace Bang

/-! ## The invariant -/

/-- The users of the plugin are filed under their ids, the hashes and the sockets lead to them, and
those who sit have a table. A table may also lead to a user that was freed. -/
structure Ok (b : Bang) : Prop where
  user_lt : ∀ a u, b.users a = some u → a < b.nextUser
  filed : ∀ a u uid, b.users a = some u → u.uid = some uid → b.userh.lookup uid = some a
  found : ∀ uid a, b.userh.lookup uid = some a → ∃ u, b.users a = some u ∧ u.uid = some uid
  idle : ∀ uid a, b.idleHash.lookup uid = some a → ∃ u, b.users a = some u ∧ u.uid = some uid
  seat_lt : ∀ t uid a, (b.tables t).hash.lookup uid = some a → a < b.nextUser
  seated : ∀ t uid a u, (b.tables t).hash.lookup uid = some a → b.users a = some u →
    u.uid = some uid ∧ u.table ≠ none
  appdata : ∀ s k a, b.socks s = some k → k.appdata = some a →
    ∃ u uid, b.users a = some u ∧ u.uid = some uid ∧ u.conn = s

theorem start_ok : Bang.start.Ok where
  user_lt := nofun
  filed := nofun
  found := nofun
  idle := nofun
  seat_lt := nofun
  seated := nofun
  appdata := nofun

/-! ## Changes that concern nobody's seat -/

/-- The same users at the same tables. States may change, the idle hash may lose entries, and so may
the sockets. -/
structure Keeps (b b' : Bang) : Prop where
  users : ∀ a, (b'.users a).map (fun u => { u with state := .idle }) =
    (b.users a).map fun u => { u with state := .idle }
  nextUser : b'.nextUser = b.nextUser
  userh : b'.userh = b.userh
  tables : b'.tables = b.tables
  idle : ∀ uid a, b'.idleHash.lookup uid = some a → b.idleHash.lookup uid = some a
  appdata : ∀ s k' a, b'.socks s = some k' → k'.appdata = some a →
    ∃ k, b.socks s = some k ∧ k.appdata = some a

variable {b b' b₁ b₂ : Bang} {a : ℕ} {u : BangUser} {uid : Uid} {t : TableId} {s : BangConn}
  {env : BangEnv} {q : BangRequest}

theorem Keeps.refl (b : Bang) : b.Keeps b where
  users _ := rfl
  nextUser := rfl
  userh := rfl
  tables := rfl
  idle _ _ h := h
  appdata _ k _ hs ha := ⟨k, hs, ha⟩

theorem Keeps.trans (h : b.Keeps b₁) (h' : b₁.Keeps b₂) : b.Keeps b₂ where
  users a := (h'.users a).trans (h.users a)
  nextUser := h'.nextUser.trans h.nextUser
  userh := h'.userh.trans h.userh
  tables := h'.tables.trans h.tables
  idle uid a hidle := h.idle uid a (h'.idle uid a hidle)
  appdata s k a hs ha := by
    obtain ⟨k₁, hs₁, ha₁⟩ := h'.appdata s k a hs ha
    exact h.appdata s k₁ a hs₁ ha₁

/-- A user is the same before and after, but for its state. -/
theorem Keeps.user (h : b.Keeps b') (hu : b'.users a = some u) :
    ∃ state, b.users a = some { u with state := state } := by
  have hsame := h.users a
  rw [hu, Option.map_some, eq_comm, Option.map_eq_some_iff] at hsame
  obtain ⟨u₀, hu₀, heq⟩ := hsame
  obtain ⟨uid, conn, table, state⟩ := u₀
  obtain ⟨rfl, rfl, rfl, -⟩ := BangUser.mk.inj heq
  exact ⟨state, hu₀⟩

theorem Keeps.user' (h : b.Keeps b') (hu : b.users a = some u) :
    ∃ state, b'.users a = some { u with state := state } := by
  have hsame := h.users a
  rw [hu, Option.map_some, Option.map_eq_some_iff] at hsame
  obtain ⟨u₀, hu₀, heq⟩ := hsame
  obtain ⟨uid, conn, table, state⟩ := u₀
  obtain ⟨rfl, rfl, rfl, -⟩ := BangUser.mk.inj heq
  exact ⟨state, hu₀⟩

theorem Keeps.users_eq_none (h : b.Keeps b') (ha : b'.users a = none) : b.users a = none := by
  by_contra hsome
  obtain ⟨u, hu⟩ := Option.ne_none_iff_exists'.mp hsome
  obtain ⟨state, hu'⟩ := h.user' hu
  rw [ha] at hu'
  cases hu'

theorem Ok.keeps (h : b.Ok) (hk : b.Keeps b') : b'.Ok where
  user_lt a u hu := by
    obtain ⟨state, hu₀⟩ := hk.user hu
    rw [hk.nextUser]
    exact h.user_lt a _ hu₀
  filed a u uid hu huid := by
    obtain ⟨state, hu₀⟩ := hk.user hu
    rw [hk.userh]
    exact h.filed a _ uid hu₀ huid
  found uid a hfound := by
    rw [hk.userh] at hfound
    obtain ⟨u, hu, huid⟩ := h.found uid a hfound
    obtain ⟨state, hu'⟩ := hk.user' hu
    exact ⟨_, hu', huid⟩
  idle uid a hidle := by
    obtain ⟨u, hu, huid⟩ := h.idle uid a (hk.idle uid a hidle)
    obtain ⟨state, hu'⟩ := hk.user' hu
    exact ⟨_, hu', huid⟩
  seat_lt t uid a hseat := by
    rw [hk.tables] at hseat
    rw [hk.nextUser]
    exact h.seat_lt t uid a hseat
  seated t uid a u hseat hu := by
    rw [hk.tables] at hseat
    obtain ⟨state, hu₀⟩ := hk.user hu
    exact h.seated t uid a { u with state := state } hseat hu₀
  appdata s k a hs ha := by
    obtain ⟨k₀, hs₀, ha₀⟩ := hk.appdata s k a hs ha
    obtain ⟨u, uid, hu, huid, hsock⟩ := h.appdata s k₀ a hs₀ ha₀
    obtain ⟨state, hu'⟩ := hk.user' hu
    exact ⟨_, uid, hu', huid, hsock⟩

theorem setState_keeps (b : Bang) (a : ℕ) (state : BattleState) : b.Keeps (b.setState a state) where
  users a' := by
    unfold setState
    dsimp only
    by_cases ha : a' = a
    · rw [ha, Function.update_self, Option.map_map]
      rfl
    · rw [Function.update_of_ne ha]
  nextUser := rfl
  userh := rfl
  tables := rfl
  idle _ _ h := h
  appdata _ k _ hs ha := ⟨k, hs, ha⟩

theorem removeIdle_keeps (b : Bang) (uid : Uid) : b.Keeps (b.removeIdle uid) where
  users _ := rfl
  nextUser := rfl
  userh := rfl
  tables := rfl
  idle k a h := by
    unfold removeIdle at h
    by_cases hk : k = uid
    · rw [hk, AList.lookup_erase] at h
      cases h
    · rwa [AList.lookup_erase_ne hk] at h
  appdata _ k _ hs ha := ⟨k, hs, ha⟩

/-- The sockets may change as long as the users in their `appdata` stay. -/
theorem keeps_socks (b : Bang) {socks : BangConn → Option BangSocket} {nextSock : ℕ}
    {queue : List BangRequest} {running : Option BangRequest}
    (h : ∀ s k' a, socks s = some k' → k'.appdata = some a →
      ∃ k, b.socks s = some k ∧ k.appdata = some a) :
    b.Keeps { b with socks := socks, nextSock := nextSock, queue := queue, running := running } where
  users _ := rfl
  nextUser := rfl
  userh := rfl
  tables := rfl
  idle _ _ h := h
  appdata := h

/-- One socket changes, and its `appdata` does not. -/
theorem keeps_update (b : Bang) {s : BangConn} {k k' : BangSocket} {queue : List BangRequest}
    {running : Option BangRequest} (hs : b.socks s = some k) (ha : k'.appdata = k.appdata) :
    b.Keeps { b with
      socks := Function.update b.socks s (some k'), queue := queue, running := running } := by
  refine b.keeps_socks fun s' k'' a hs' ha' => ?_
  rcases update_eq_some.mp hs' with ⟨rfl, heq⟩ | ⟨-, hold⟩
  · rw [← Option.some.inj heq, ha] at ha'
    exact ⟨k, hs, ha'⟩
  · exact ⟨k'', hold, ha'⟩

/-! ## A user goes -/

/-- `b'` is `b` after the user object `a`, filed under `uid` and sitting at `t`, was destroyed. -/
structure Leaves (b : Bang) (a : ℕ) (uid : Uid) (t : TableId) (b' : Bang) : Prop where
  users : b'.users = Function.update b.users a none
  nextUser : b'.nextUser = b.nextUser
  userh : ∀ k, b'.userh.lookup k = if k = uid then none else b.userh.lookup k
  tables : b'.tables = Function.update b.tables t
    ⟨(b.tables t).number - 1, (b.tables t).hash.erase uid⟩
  idle : ∀ k a', b'.idleHash.lookup k = some a' → k ≠ uid ∧ b.idleHash.lookup k = some a'
  appdata : ∀ s k' a', b'.socks s = some k' → k'.appdata = some a' →
    a' ≠ a ∧ ∃ k, b.socks s = some k ∧ k.appdata = some a'

theorem lookup_erase_eq (hash : UserHash) (k uid : Uid) :
    (hash.erase uid).lookup k = if k = uid then none else hash.lookup k := by
  split_ifs with hk
  · rw [hk, AList.lookup_erase]
  · rw [AList.lookup_erase_ne hk]

theorem lookup_insert_eq (hash : UserHash) (k uid : Uid) (a : ℕ) :
    (hash.insert uid a).lookup k = if k = uid then some a else hash.lookup k := by
  split_ifs with hk
  · rw [hk, AList.lookup_insert]
  · rw [AList.lookup_insert_ne hk]

/-- `bang_user_destroy` on a user with a table. -/
theorem bangUserDestroy_of_table (hu : b.users a = some u) (huid : u.uid = some uid)
    (ht : u.table = some t) : ∃ b', b.bangUserDestroy a = .ok b' ∧ b'.socks = b.socks ∧
      b'.users = Function.update b.users a none ∧ b'.nextUser = b.nextUser ∧
      (∀ k, b'.userh.lookup k = if k = uid then none else b.userh.lookup k) ∧
      b'.tables = Function.update b.tables t
        ⟨(b.tables t).number - 1, (b.tables t).hash.erase uid⟩ ∧
      ∀ k a', b'.idleHash.lookup k = some a' → k ≠ uid ∧ b.idleHash.lookup k = some a' := by
  have hread : b.derefUser a = .ok u := by rw [derefUser, hu]
  have herase : ∀ k, ((b.userh.erase uid).erase uid).lookup k =
      if k = uid then none else b.userh.lookup k := by
    intro k
    rw [lookup_erase_eq, lookup_erase_eq]
    split_ifs <;> rfl
  unfold bangUserDestroy
  rw [hread, ok_bind, huid, readStr, ok_bind, ht]
  dsimp only
  rw [pure_eq_ok]
  by_cases hidle : (b.idleHash.lookup uid).isSome
  · simp only [if_pos hidle]
    refine ⟨_, rfl, rfl, rfl, rfl, herase, rfl, fun k a' h => ?_⟩
    have hk : ((b.idleHash.erase uid).lookup k) = some a' := h
    rw [lookup_erase_eq] at hk
    split_ifs at hk with hne
    exact ⟨hne, hk⟩
  · simp only [if_neg hidle]
    refine ⟨_, rfl, rfl, rfl, rfl, herase, rfl, fun k a' h => ⟨?_, h⟩⟩
    -- The user was not in the idle hash.
    rintro rfl
    have hnone : b.idleHash.lookup k = none := Option.not_isSome_iff_eq_none.mp hidle
    exact absurd (hnone.symm.trans h) (Option.some_ne_none a').symm

theorem bangUserDestroy_of_none (hu : b.users a = some u) (huid : u.uid = some uid)
    (ht : u.table = none) : b.bangUserDestroy a = .error .nullPointer := by
  have hread : b.derefUser a = .ok u := by rw [derefUser, hu]
  unfold bangUserDestroy
  rw [hread, ok_bind, huid, readStr, ok_bind, ht]

theorem Ok.leaves (h : b.Ok) (hu : b.users a = some u) (huid : u.uid = some uid)
    (hl : b.Leaves a uid t b') : b'.Ok where
  user_lt a' u' hu' := by
    rw [hl.users] at hu'
    rw [hl.nextUser]
    rcases update_eq_some.mp hu' with ⟨-, hnone⟩ | ⟨-, hold⟩
    · cases hnone
    · exact h.user_lt a' u' hold
  filed a' u' uid' hu' huid' := by
    rw [hl.users] at hu'
    rcases update_eq_some.mp hu' with ⟨-, hnone⟩ | ⟨hne, hold⟩
    · cases hnone
    -- Two users have two ids, so the entry that goes is another one.
    · have hfiled := h.filed a' u' uid' hold huid'
      rw [hl.userh, if_neg, hfiled]
      rintro rfl
      rw [h.filed a u uid' hu huid] at hfiled
      exact hne (Option.some.inj hfiled).symm
  found uid' a' hfound := by
    rw [hl.userh] at hfound
    split_ifs at hfound with hne
    obtain ⟨u', hu', huid'⟩ := h.found uid' a' hfound
    rw [hl.users]
    refine ⟨u', update_eq_some.mpr (Or.inr ⟨?_, hu'⟩), huid'⟩
    rintro rfl
    rw [hu, Option.some.injEq] at hu'
    rw [← hu', huid] at huid'
    exact hne (Option.some.inj huid').symm
  idle uid' a' hidle := by
    obtain ⟨hne, hold⟩ := hl.idle uid' a' hidle
    obtain ⟨u', hu', huid'⟩ := h.idle uid' a' hold
    rw [hl.users]
    refine ⟨u', update_eq_some.mpr (Or.inr ⟨?_, hu'⟩), huid'⟩
    rintro rfl
    rw [hu, Option.some.injEq] at hu'
    rw [← hu', huid] at huid'
    exact hne (Option.some.inj huid').symm
  seat_lt t' uid' a' hseat := by
    rw [hl.tables] at hseat
    rw [hl.nextUser]
    by_cases ht : t' = t
    · rw [ht, Function.update_self, lookup_erase_eq] at hseat
      split_ifs at hseat
      exact h.seat_lt t uid' a' hseat
    · rw [Function.update_of_ne ht] at hseat
      exact h.seat_lt t' uid' a' hseat
  seated t' uid' a' u' hseat hu' := by
    rw [hl.users] at hu'
    rcases update_eq_some.mp hu' with ⟨-, hnone⟩ | ⟨-, hold⟩
    · cases hnone
    rw [hl.tables] at hseat
    by_cases ht : t' = t
    · rw [ht, Function.update_self, lookup_erase_eq] at hseat
      split_ifs at hseat
      exact h.seated t uid' a' u' hseat hold
    · rw [Function.update_of_ne ht] at hseat
      exact h.seated t' uid' a' u' hseat hold
  appdata s k a' hs ha := by
    obtain ⟨hne, k₀, hs₀, ha₀⟩ := hl.appdata s k a' hs ha
    obtain ⟨u', uid', hu', huid', hsock⟩ := h.appdata s k₀ a' hs₀ ha₀
    rw [hl.users]
    exact ⟨u', uid', update_eq_some.mpr (Or.inr ⟨hne, hu'⟩), huid', hsock⟩

/-! ## Dropping a reference -/

/-- The user that goes with the last reference of the socket `s` has a table. -/
def ClosesWell (b : Bang) (s : BangConn) : Prop :=
  ∀ k a u, b.socks s = some k → k.refcount = 1 → k.appdata = some a → b.users a = some u →
    u.table ≠ none

/-- What dropping a reference of `s` does when it succeeds: nobody goes, or with the last reference
the user of the socket does. -/
def Drops (b : Bang) (s : BangConn) (b' : Bang) : Prop :=
  (b.Keeps b' ∧ ∀ k, b.socks s = some k → k.refcount = 1 → k.appdata = none) ∨
    ∃ k a u uid t, b.socks s = some k ∧ k.refcount = 1 ∧ k.appdata = some a ∧
      b.users a = some u ∧ u.uid = some uid ∧ u.table = some t ∧ b.Leaves a uid t b'

/-- `tcp_socket_free` of the socket `s`: the plugin loses its user, if it has one. -/
theorem Ok.free (h : b.Ok) {k : BangSocket} (hs : b.socks s = some k) :
    (b.tcpSocketFree s k = .error .nullPointer ∧
      ∃ a u, k.appdata = some a ∧ b.users a = some u ∧ u.table = none) ∨
    ∃ b', b.tcpSocketFree s k = .ok b' ∧ (b.Keeps b' ∧ k.appdata = none ∨
      ∃ a u uid t, k.appdata = some a ∧
        b.users a = some u ∧ u.uid = some uid ∧ u.table = some t ∧ b.Leaves a uid t b') := by
  unfold tcpSocketFree
  cases happ : k.appdata with
  | none =>
    refine Or.inr ⟨_, rfl, Or.inl ⟨b.keeps_socks fun s' k' a hs' ha' => ?_, rfl⟩⟩
    rcases update_eq_some.mp hs' with ⟨-, hnone⟩ | ⟨-, hold⟩
    · cases hnone
    · exact ⟨k', hold, ha'⟩
  | some a =>
    -- `on_close` destroys the user in the `appdata`, which the invariant says is live and has an
    -- id.
    obtain ⟨u, uid, hu, huid, hsock⟩ := h.appdata s k a hs happ
    dsimp only
    cases ht : u.table with
    | none =>
      rw [bangUserDestroy_of_none hu huid ht, error_bind]
      exact Or.inl ⟨rfl, a, u, rfl, hu, ht⟩
    | some t =>
      obtain ⟨b₁, hdestroy, hsocks, husers, hnext, huserh, htables, hidle⟩ :=
        bangUserDestroy_of_table hu huid ht
      rw [hdestroy, ok_bind]
      refine Or.inr ⟨_, rfl, Or.inr ⟨a, u, uid, t, rfl, hu, huid, ht, ?_⟩⟩
      refine ⟨husers, hnext, huserh, htables, hidle, fun s' k' a' hs' ha' => ?_⟩
      rcases update_eq_some.mp hs' with ⟨-, hnone⟩ | ⟨hne, hold⟩
      · cases hnone
      rw [hsocks] at hold
      refine ⟨?_, k', hold, ha'⟩
      -- A user is in the `appdata` of its own socket only.
      rintro rfl
      obtain ⟨u', -, hu', -, hsock'⟩ := h.appdata s' k' a' hold ha'
      rw [hu, Option.some.injEq] at hu'
      rw [← hu', hsock] at hsock'
      exact hne hsock'.symm

/-- The sockets before a user goes matter for their users only. -/
theorem Leaves.of_socks {socks : BangConn → Option BangSocket} {queue : List BangRequest}
    {running : Option BangRequest}
    (hl : ({ b with socks := socks, queue := queue, running := running } : Bang).Leaves a uid t b')
    (h : ∀ s k' a, socks s = some k' → k'.appdata = some a →
      ∃ k, b.socks s = some k ∧ k.appdata = some a) : b.Leaves a uid t b' where
  users := hl.users
  nextUser := hl.nextUser
  userh := hl.userh
  tables := hl.tables
  idle := hl.idle
  appdata s k' a' hs ha := by
    obtain ⟨hne, k, hs, ha⟩ := hl.appdata s k' a' hs ha
    exact ⟨hne, h s k a' hs ha⟩

theorem Ok.removeRef (h : b.Ok) (s : BangConn) :
    (b.tcpSocketRemoveRef s = .error .useAfterFree ∧ b.socks s = none) ∨
    ∃ k, b.socks s = some k ∧
      (b.tcpSocketRemoveRef s = .error .nullPointer ∧ ¬b.ClosesWell s ∨
        ∃ b', b.tcpSocketRemoveRef s = .ok b' ∧ b.ClosesWell s ∧ b.Drops s b') := by
  unfold tcpSocketRemoveRef
  cases hs : b.socks s with
  | none => exact Or.inl ⟨rfl, rfl⟩
  | some k =>
    have hthis : ∀ k', b.socks s = some k' → k' = k := by
      intro k' hs'
      rw [hs] at hs'
      exact (Option.some.inj hs').symm
    refine Or.inr ⟨k, rfl, ?_⟩
    dsimp only
    -- Only the last of the counted references frees the socket.
    by_cases hone : k.refcount = 1
    · -- The last reference goes.
      have hkeeps : b.Keeps { b with
          socks := Function.update b.socks s (some { k with refcount := k.refcount - 1 }) } :=
        b.keeps_update hs rfl
      rw [if_neg (by omega), if_pos (by omega)]
      rcases (h.keeps hkeeps).free (Function.update_self ..) with
        ⟨hnull, a, u, ha, hu, ht⟩ | ⟨b', hb, hgone⟩
      · exact Or.inl ⟨hnull, fun hwell => hwell k a u hs hone ha hu ht⟩
      refine Or.inr ⟨b', hb, ?_⟩
      rcases hgone with ⟨hk, happ⟩ | ⟨a, u, uid, t, ha, hu, huid, ht, hl⟩
      · refine ⟨fun k' a u hs' _ ha => ?_, Or.inl ⟨hkeeps.trans hk, fun k' hs' _ => ?_⟩⟩
        · rw [hthis k' hs'] at ha
          exact absurd (happ.symm.trans ha) (Option.some_ne_none a).symm
        · rw [hthis k' hs']
          exact happ
      · refine ⟨fun k' a' u' hs' _ ha' hu' => ?_, Or.inr
          ⟨k, a, u, uid, t, hs, hone, ha, hu, huid, ht, hl.of_socks hkeeps.appdata⟩⟩
        rw [hthis k' hs'] at ha'
        obtain rfl := Option.some.inj (ha.symm.trans ha')
        obtain rfl := Option.some.inj (hu.symm.trans hu')
        rw [ht]
        exact Option.some_ne_none t
    · -- Another reference is left, or none was counted.
      right
      have hfew : ∀ k', b.socks s = some k' → k'.refcount ≠ 1 := fun k' hs' => by
        rwa [hthis k' hs']
      have hwell : b.ClosesWell s := fun k' a u hs' hone' => absurd hone' (hfew k' hs')
      by_cases hcount : k.refcount ≤ 0
      · rw [if_pos hcount]
        exact ⟨b, rfl, hwell, Or.inl ⟨.refl b, fun k' hs' hone' => absurd hone' (hfew k' hs')⟩⟩
      · rw [if_neg hcount, if_neg (by omega)]
        exact ⟨_, rfl, hwell,
          Or.inl ⟨b.keeps_update hs rfl, fun k' hs' hone' => absurd hone' (hfew k' hs')⟩⟩

theorem Ok.drops (h : b.Ok) (hd : b.Drops s b') : b'.Ok := by
  rcases hd with ⟨hk, -⟩ | ⟨k, a, u, uid, t, -, -, -, hu, huid, -, hl⟩
  · exact h.keeps hk
  · exact h.leaves hu huid hl

/-! ## A user comes -/

/-- The object that `bang_user_new` allocates. -/
def alloc (b : Bang) : Bang :=
  { b with users := Function.update b.users b.nextUser (some .blank), nextUser := b.nextUser + 1 }

/-- A JOIN that does not fault leaves the plugin as it was, or runs on the plugin with the new object. -/
theorem bangUserNew_cases {userid : Option Uid} {err : Option NeoErr}
    (h : b.bangUserNew env q userid = .ok (b', err)) :
    (b' = b ∧ ∀ uid, getParamStr "userid" userid = .ok uid → env.calloc ≠ true) ∨
      ∃ uid b₁ moved b₂ a, getParamStr "userid" userid = .ok uid ∧ env.calloc = true ∧
        b.alloc.baseUserQuit uid q = .ok (b₁, moved) ∧
        b₁.baseUserNew uid q b.nextUser = .ok (b₂, a) ∧
        b₂.bangStateTransitIdle b.nextUser = .ok b' := by
  unfold Bang.bangUserNew at h
  cases hparam : getParamStr "userid" userid with
  | error err =>
    rw [hparam] at h
    exact Or.inl ⟨(Prod.mk.inj (Except.ok.inj h)).1.symm, fun uid huid => by cases huid⟩
  | ok uid =>
    rw [hparam] at h
    dsimp only at h
    by_cases hcalloc : env.calloc = true
    swap
    · rw [if_pos hcalloc] at h
      exact Or.inl ⟨(Prod.mk.inj (Except.ok.inj h)).1.symm, fun _ _ => hcalloc⟩
    rw [if_neg (not_not.mpr hcalloc)] at h
    obtain ⟨⟨b₁, moved⟩, hquit, h⟩ := bind_eq_ok.mp h
    obtain ⟨⟨b₂, a⟩, hnew, h⟩ := bind_eq_ok.mp h
    obtain ⟨b₃, hidle, h⟩ := bind_eq_ok.mp h
    rw [(Prod.mk.inj (Except.ok.inj h)).1] at hidle
    exact Or.inr ⟨uid, b₁, moved, b₂, a, rfl, hcalloc, hquit, hnew, hidle⟩

/-- The worker takes the next entry, and the error of its command is dropped. -/
theorem step_process {rest : List BangRequest} (env : BangEnv) (hrunning : b.running = none)
    (hqueue : b.queue = q :: rest) :
    b.step (.process env) =
      { b with queue := rest, running := some q }.processDriver env q >>= fun r => .ok r.1 := by
  unfold Bang.step
  rw [hrunning, hqueue]
  rfl

theorem step_process_iff {rest : List BangRequest} (hrunning : b.running = none)
    (hqueue : b.queue = q :: rest) : b.step (.process env) = .ok b' ↔
      ∃ err, { b with queue := rest, running := some q }.processDriver env q = .ok (b', err) := by
  rw [step_process env hrunning hqueue, bind_eq_ok]
  constructor
  · rintro ⟨⟨b₁, err⟩, hrun, hb⟩
    rw [← Except.ok.inj hb]
    exact ⟨err, hrun⟩
  · rintro ⟨err, hrun⟩
    exact ⟨(b', err), hrun, rfl⟩

theorem Ok.alloc (h : b.Ok) : b.alloc.Ok := by
  have hold : ∀ a u, b.users a = some u → b.alloc.users a = some u := by
    intro a u hu
    exact update_eq_some.mpr (Or.inr ⟨(h.user_lt a u hu).ne, hu⟩)
  -- The new object has a number that no table, hash or socket holds, and no id.
  constructor
  case user_lt =>
    intro a u hu
    rcases update_eq_some.mp hu with ⟨rfl, -⟩ | ⟨-, hu⟩
    · exact Nat.lt_succ_self _
    · exact Nat.lt_succ_of_lt (h.user_lt a u hu)
  case filed =>
    intro a u uid hu huid
    rcases update_eq_some.mp hu with ⟨-, hblank⟩ | ⟨-, hu⟩
    · rw [← Option.some.inj hblank] at huid
      cases huid
    · exact h.filed a u uid hu huid
  case found =>
    intro uid a hfound
    obtain ⟨u, hu, huid⟩ := h.found uid a hfound
    exact ⟨u, hold a u hu, huid⟩
  case idle =>
    intro uid a hidle
    obtain ⟨u, hu, huid⟩ := h.idle uid a hidle
    exact ⟨u, hold a u hu, huid⟩
  case seat_lt => exact fun t uid a hseat => Nat.lt_succ_of_lt (h.seat_lt t uid a hseat)
  case seated =>
    intro t uid a u hseat hu
    rcases update_eq_some.mp hu with ⟨heq, -⟩ | ⟨-, hu⟩
    · exact absurd heq (h.seat_lt t uid a hseat).ne
    · exact h.seated t uid a u hseat hu
  case appdata =>
    intro s k a hs ha
    obtain ⟨u, uid, hu, huid, hsock⟩ := h.appdata s k a hs ha
    exact ⟨u, uid, hold a u hu, huid, hsock⟩

/-- `b'` is `b` after the blank object `a` was filed under `uid` for the socket `s`. -/
structure Enters (b : Bang) (a : ℕ) (uid : Uid) (s : BangConn) (b' : Bang) : Prop where
  blank : ∃ u, b.users a = some u ∧ u.uid = none
  unfiled : b.userh.lookup uid = none
  users : ∃ u, u.uid = some uid ∧ u.conn = s ∧ u.table = none ∧
    b'.users = Function.update b.users a (some u)
  nextUser : b'.nextUser = b.nextUser
  userh : ∀ k, b'.userh.lookup k = if k = uid then some a else b.userh.lookup k
  tables : b'.tables = b.tables
  idle : ∀ k a', b'.idleHash.lookup k = some a' →
    k = uid ∧ a' = a ∨ b.idleHash.lookup k = some a'
  appdata : ∀ s' k' a', b'.socks s' = some k' → k'.appdata = some a' →
    s' = s ∧ a' = a ∨ ∃ k, b.socks s' = some k ∧ k.appdata = some a'

/-- The blank object is in no hash and no socket. -/
theorem Enters.ne (he : b.Enters a uid s b') {a' : ℕ} (hu : b.users a' = some u)
    (huid : u.uid ≠ none) : a' ≠ a := by
  rintro rfl
  obtain ⟨u₀, hu₀, hnone⟩ := he.blank
  rw [hu, Option.some.injEq] at hu₀
  rw [hu₀] at huid
  exact huid hnone

theorem Ok.enters (h : b.Ok) (he : b.Enters a uid s b') : b'.Ok := by
  obtain ⟨unew, huid, hsock, htable, husers⟩ := he.users
  have hself : b'.users a = some unew := by rw [husers, Function.update_self]
  -- Every user with an id stays, and the one more is the new one.
  have hold : ∀ a' u k, b.users a' = some u → u.uid = some k → b'.users a' = some u := by
    intro a' u k hu hk
    rw [husers]
    exact update_eq_some.mpr (Or.inr ⟨he.ne hu (by rw [hk]; exact Option.some_ne_none k), hu⟩)
  have hsplit : ∀ {a' u}, b'.users a' = some u →
      a' = a ∧ u = unew ∨ a' ≠ a ∧ b.users a' = some u := by
    intro a' u hu
    rw [husers] at hu
    exact (update_eq_some.mp hu).imp_left fun ⟨ha, hu⟩ => ⟨ha, (Option.some.inj hu).symm⟩
  constructor
  case user_lt =>
    intro a' u hu
    rw [he.nextUser]
    rcases hsplit hu with ⟨rfl, -⟩ | ⟨-, hu⟩
    · obtain ⟨u₀, hu₀, -⟩ := he.blank
      exact h.user_lt _ u₀ hu₀
    · exact h.user_lt a' u hu
  case filed =>
    intro a' u k hu hk
    rw [he.userh]
    rcases hsplit hu with ⟨rfl, rfl⟩ | ⟨-, hu⟩
    · rw [huid] at hk
      rw [if_pos (Option.some.inj hk).symm]
    · have hfiled := h.filed a' u k hu hk
      rw [if_neg, hfiled]
      rintro rfl
      rw [he.unfiled] at hfiled
      cases hfiled
  case found =>
    intro k a' hfound
    rw [he.userh] at hfound
    split_ifs at hfound with hk
    · cases hfound
      exact ⟨unew, hself, by rw [huid, hk]⟩
    · obtain ⟨u, hu, hk⟩ := h.found k a' hfound
      exact ⟨u, hold a' u k hu hk, hk⟩
  case idle =>
    intro k a' hidle
    rcases he.idle k a' hidle with ⟨rfl, rfl⟩ | hidle
    · exact ⟨unew, hself, huid⟩
    · obtain ⟨u, hu, hk⟩ := h.idle k a' hidle
      exact ⟨u, hold a' u k hu hk, hk⟩
  case seat_lt =>
    intro t k a' hseat
    rw [he.tables] at hseat
    rw [he.nextUser]
    exact h.seat_lt t k a' hseat
  case seated =>
    intro t k a' u hseat hu
    rw [he.tables] at hseat
    rcases hsplit hu with ⟨rfl, -⟩ | ⟨-, hu⟩
    · obtain ⟨u₀, hu₀, hnone⟩ := he.blank
      rw [(h.seated t k a' u₀ hseat hu₀).1] at hnone
      cases hnone
    · exact h.seated t k a' u hseat hu
  case appdata =>
    intro s' k a' hs ha
    rcases he.appdata s' k a' hs ha with ⟨rfl, rfl⟩ | ⟨k₀, hs₀, ha₀⟩
    · exact ⟨unew, uid, hself, huid, hsock⟩
    · obtain ⟨u, uid', hu, huid', hsock'⟩ := h.appdata s' k₀ a' hs₀ ha₀
      exact ⟨u, uid', hold a' u uid' hu huid', huid', hsock'⟩

theorem derefUser_of_some (hu : b.users a = some u) : b.derefUser a = .ok u := by
  rw [derefUser, hu]

/-- A user that is filed already is not filed again, and the new object stays without an id. -/
theorem bangStateTransitIdle_of_blank (hu : b.users a = some u) (huid : u.uid = none) :
    b.bangStateTransitIdle a = .error .nullPointer := by
  unfold bangStateTransitIdle
  rw [derefUser_of_some hu, ok_bind, huid, readStr, error_bind]

theorem bangStateTransitIdle_of_new (hu : b.users a = some u) (huid : u.uid = some uid)
    (hidle : b.idleHash.lookup uid = none) : b.bangStateTransitIdle a =
      .ok ({ b with
        idleHash := b.idleHash.insert uid a, idleNumber := b.idleNumber + 1 }.setState a .idle) := by
  unfold bangStateTransitIdle
  rw [derefUser_of_some hu, ok_bind, huid, readStr, ok_bind, hidle, if_neg (by simp)]
  rfl

/-- The end of `bang_user_new` for an id that is not in use. -/
theorem Ok.userNew (h : b.Ok) (hu : b.users a = some u) (hblank : u.uid = none)
    (htable : u.table = none) (huid : b.userh.lookup uid = none) :
    b.baseUserNew uid q a = .error .useAfterFree ∨ ∃ b₁ b', b.baseUserNew uid q a = .ok (b₁, a) ∧
      b₁.bangStateTransitIdle a = .ok b' ∧ b.Enters a uid q.conn b' := by
  unfold baseUserNew
  rw [huid]
  dsimp only
  rw [derefUser_of_some hu, ok_bind]
  cases hs : b.socks q.conn with
  | none => exact Or.inl rfl
  | some k =>
    right
    -- An id in the idle hash would be that of a filed user.
    have hidle : b.idleHash.lookup uid = none := by
      by_contra hsome
      obtain ⟨a', ha'⟩ := Option.ne_none_iff_exists'.mp hsome
      obtain ⟨u', hu', huid'⟩ := h.idle uid a' ha'
      rw [h.filed a' u' uid hu' huid'] at huid
      cases huid
    have hself : Function.update b.users a (some { u with
        uid := some uid, conn := q.conn }) a = _ := Function.update_self ..
    -- The state is written twice, and the record comes to the same.
    refine ⟨_, _, rfl, bangStateTransitIdle_of_new hself rfl hidle, ?_⟩
    refine ⟨⟨u, hu, hblank⟩, huid, ?_, rfl, ?_, rfl, ?_, ?_⟩
    · refine ⟨{ u with
        uid := some uid, conn := q.conn, state := .idle }, rfl, rfl, htable, ?_⟩
      unfold setState
      dsimp only
      rw [hself, Function.update_idem]
      rfl
    · exact fun k => lookup_insert_eq b.userh k uid a
    · intro k a' hlookup
      have hinsert : (b.idleHash.insert uid a).lookup k = some a' := hlookup
      rw [lookup_insert_eq] at hinsert
      split_ifs at hinsert with hk
      · exact Or.inl ⟨hk, (Option.some.inj hinsert).symm⟩
      · exact Or.inr hinsert
    · intro s' k' a' hs' ha'
      rcases update_eq_some.mp hs' with ⟨rfl, hk'⟩ | ⟨-, hold⟩
      · rw [← Option.some.inj hk'] at ha'
        exact Or.inl ⟨rfl, (Option.some.inj ha').symm⟩
      · exact Or.inr ⟨k', hold, ha'⟩

/-- The end of `bang_user_new`, with the blank object `a`. -/
theorem Ok.fileUser (h : b.Ok) (hu : b.users a = some u) (hblank : u.uid = none)
    (htable : u.table = none) {r : Result}
    (hr : r = (do
      let (b, _) ← b.baseUserNew uid q a
      let b ← b.bangStateTransitIdle a
      return (b, none))) :
    (r = .error .nullPointer ↔ b.userh.lookup uid ≠ none) ∧
      ∀ b' err, r = .ok (b', err) → b.Enters a uid q.conn b' := by
  cases hlookup : b.userh.lookup uid with
  | some a' =>
    -- The user under the id is returned, and the new object is looked up by its null id.
    have hfind : b.baseUserNew uid q a = .ok (b, a') := by rw [baseUserNew, hlookup]
    rw [hfind, ok_bind] at hr
    dsimp only at hr
    rw [bangStateTransitIdle_of_blank hu hblank, error_bind] at hr
    rw [hr]
    exact ⟨iff_of_true rfl (Option.some_ne_none a'), fun _ _ => nofun⟩
  | none =>
    -- The id is free, and only a socket that was freed can stop the JOIN.
    rcases h.userNew (q := q) hu hblank htable hlookup with hfree | ⟨b₁, b', hnew, hidle, he⟩
    · rw [hfree, error_bind] at hr
      rw [hr]
      exact ⟨⟨nofun, fun hne => absurd rfl hne⟩, fun _ _ => nofun⟩
    · rw [hnew, ok_bind] at hr
      dsimp only at hr
      rw [hidle, ok_bind] at hr
      rw [hr]
      refine ⟨⟨nofun, fun hne => absurd rfl hne⟩, fun b'' err hb => ?_⟩
      cases hb
      exact he

/-- An id that a JOIN may use: nobody has it, or a user on another connection that goes with the
reference which the JOIN drops, and that has a table. -/
def JoinsWell (b : Bang) (q : BangRequest) (uid : Uid) : Prop :=
  ∀ a v, b.userh.lookup uid = some a → b.users a = some v →
    q.conn ≠ v.conn ∧
      ∀ k, b.socks v.conn = some k → k.refcount = 1 ∧ k.appdata = some a ∧ v.table ≠ none

/-- The start of `bang_user_new`: afterwards the id is free if the JOIN may use it. -/
theorem Ok.quit (h : b.Ok) (q : BangRequest) (uid : Uid) :
    (b.baseUserQuit uid q = .error .nullPointer ∧ ¬b.JoinsWell q uid) ∨
    (b.baseUserQuit uid q = .error .useAfterFree ∧ b.JoinsWell q uid) ∨
    ∃ b₁ r, b.baseUserQuit uid q = .ok (b₁, r) ∧ (b₁ = b ∨ ∃ s, b.Drops s b₁) ∧
      (b₁.userh.lookup uid ≠ none ↔ ¬b.JoinsWell q uid) := by
  unfold baseUserQuit
  cases hlookup : b.userh.lookup uid with
  | none =>
    refine Or.inr (Or.inr ⟨b, false, rfl, Or.inl rfl, ?_⟩)
    refine iff_of_false (not_not.mpr hlookup) (not_not.mpr fun a v ha => ?_)
    rw [hlookup] at ha
    cases ha
  | some a =>
    obtain ⟨v, hv, huid⟩ := h.found uid a hlookup
    dsimp only
    rw [derefUser_of_some hv, ok_bind]
    -- Of all users only the one that is filed under the id matters.
    have hwell : b.JoinsWell q uid ↔ q.conn ≠ v.conn ∧
        ∀ k, b.socks v.conn = some k → k.refcount = 1 ∧ k.appdata = some a ∧ v.table ≠ none := by
      refine ⟨fun hall => hall a v hlookup hv, fun hall a' v' ha hv' => ?_⟩
      rw [hlookup, Option.some.injEq] at ha
      rw [← ha, hv, Option.some.injEq] at hv'
      rw [← hv', ← ha]
      exact hall
    rw [hwell]
    by_cases hsame : q.conn = v.conn
    · rw [if_pos hsame]
      refine Or.inr (Or.inr ⟨b, false, rfl, Or.inl rfl, ?_⟩)
      exact iff_of_true (by rw [hlookup]; exact Option.some_ne_none a) fun hall => hall.1 hsame
    rw [if_neg hsame, and_iff_right hsame]
    rcases h.removeRef v.conn with ⟨hfree, hs⟩ | ⟨k, hs, ⟨hnull, hcloses⟩ | ⟨b₁, hb, -, hd⟩⟩
    · rw [hfree, error_bind, hs]
      exact Or.inr (Or.inl ⟨rfl, nofun⟩)
    · -- The user of the connection has no table, be it this one or another.
      rw [hnull, error_bind]
      refine Or.inl ⟨rfl, fun hall => hcloses fun k' w u hs' hone happ hu => ?_⟩
      obtain ⟨-, happ', htable⟩ := hall k' hs'
      obtain rfl := Option.some.inj (happ.symm.trans happ')
      rw [hv, Option.some.injEq] at hu
      rwa [← hu]
    rw [hb, ok_bind]
    refine Or.inr (Or.inr ⟨b₁, true, rfl, Or.inr ⟨_, hd⟩, ?_⟩)
    -- A reference was dropped. Whether the id is free now depends on whose socket it was.
    rcases hd with ⟨hk, hnone⟩ | ⟨k', w, u, uid', t, hs', hone, happ, hu, huid', ht, hl⟩
    · -- Nobody goes, and the id stays in use.
      rw [hk.userh, hlookup]
      refine iff_of_true (Option.some_ne_none a) fun hall => ?_
      obtain ⟨hone, happ, -⟩ := hall k hs
      exact absurd ((hnone k hs hone).symm.trans happ) (Option.some_ne_none a).symm
    obtain rfl := Option.some.inj (hs.symm.trans hs')
    rw [hl.userh]
    by_cases hsame' : uid = uid'
    · -- The user who goes is the one with the id.
      rw [if_pos hsame']
      have hw : w = a := by
        have hfiled := h.filed w u uid' hu huid'
        rw [← hsame', hlookup] at hfiled
        exact (Option.some.inj hfiled).symm
      rw [hw, hv, Option.some.injEq] at hu
      refine iff_of_false (not_not.mpr rfl) (not_not.mpr fun k' hk' => ?_)
      obtain rfl := Option.some.inj (hs.symm.trans hk')
      rw [hu, ht, ← hw]
      exact ⟨hone, happ, Option.some_ne_none t⟩
    · rw [if_neg hsame', hlookup]
      refine iff_of_true (Option.some_ne_none a) fun hall => hsame' ?_
      obtain ⟨-, happ', -⟩ := hall k hs
      obtain rfl := Option.some.inj (happ.symm.trans happ')
      obtain rfl := Option.some.inj (hv.symm.trans hu)
      exact Option.some.inj (huid.symm.trans huid')

/-- What a JOIN that succeeds has done. -/
def JoinEffect (b b' : Bang) : Prop :=
  b.Keeps b' ∨
    ∃ b₁ uid s, (b₁ = b.alloc ∨ ∃ s', b.alloc.Drops s' b₁) ∧ b₁.Enters b.nextUser uid s b'

/-- The object of a JOIN keeps its blank fields while another user goes. -/
theorem Drops.blank (hd : b.alloc.Drops s b') :
    ∃ u, b'.users b.nextUser = some u ∧ u.uid = none ∧ u.table = none := by
  have hblank : b.alloc.users b.nextUser = some .blank := Function.update_self ..
  -- Who goes has an id.
  rcases hd with ⟨hk, -⟩ | ⟨k, a, u, uid, t, -, -, -, hu, huid, -, hl⟩
  · obtain ⟨state, hu⟩ := hk.user' hblank
    exact ⟨_, hu, rfl, rfl⟩
  · refine ⟨.blank, ?_, rfl, rfl⟩
    rw [hl.users, Function.update_of_ne, hblank]
    rintro rfl
    rw [hblank, Option.some.injEq] at hu
    rw [← hu] at huid
    cases huid

theorem Ok.joinsWell_alloc (h : b.Ok) (q : BangRequest) (uid : Uid) :
    b.alloc.JoinsWell q uid ↔ b.JoinsWell q uid := by
  -- The users that are filed are not the new one.
  have hold : ∀ a v, b.userh.lookup uid = some a →
      (b.alloc.users a = some v ↔ b.users a = some v) := by
    intro a v ha
    obtain ⟨u, hu, -⟩ := h.found uid a ha
    unfold Bang.alloc
    dsimp only
    rw [Function.update_of_ne (h.user_lt a u hu).ne]
  exact ⟨fun hall a v ha hv => hall a v ha ((hold a v ha).mpr hv),
    fun hall a v ha hv => hall a v ha ((hold a v ha).mp hv)⟩

theorem Ok.bangUserNew (h : b.Ok) (env : BangEnv) (q : BangRequest) (userid : Option Uid) :
    (b.bangUserNew env q userid = .error .nullPointer ↔
      ¬∀ uid, getParamStr "userid" userid = .ok uid → env.calloc = true → b.JoinsWell q uid) ∧
    ∀ b' err, b.bangUserNew env q userid = .ok (b', err) → b.JoinEffect b' := by
  cases hparam : getParamStr "userid" userid with
  | error err =>
    have hrun : b.bangUserNew env q userid = .ok (b, some err) := by rw [Bang.bangUserNew, hparam]
    rw [hrun]
    refine ⟨iff_of_false (by simp) (not_not.mpr fun uid huid => by cases huid), fun b' err hb => ?_⟩
    cases hb
    exact Or.inl (.refl b)
  | ok uid =>
    by_cases hcalloc : env.calloc = true
    swap
    · have hrun : ∃ err, b.bangUserNew env q userid = .ok (b, some err) := by
        rw [Bang.bangUserNew, hparam]
        exact ⟨_, if_pos hcalloc⟩
      obtain ⟨err, hrun⟩ := hrun
      rw [hrun]
      refine ⟨iff_of_false (by simp) (not_not.mpr fun uid _ hc => absurd hc hcalloc),
        fun b' err hb => ?_⟩
      cases hb
      exact Or.inl (.refl b)
    -- The rest runs on the plugin with the new object.
    have hrun : b.bangUserNew env q userid = b.alloc.baseUserQuit uid q >>= fun r₁ =>
        r₁.1.baseUserNew uid q b.nextUser >>= fun r₂ =>
        r₂.1.bangStateTransitIdle b.nextUser >>= fun b₃ => .ok (b₃, none) := by
      rw [Bang.bangUserNew, hparam]
      exact if_neg (not_not.mpr hcalloc)
    have hiff : (∀ uid', (Except.ok uid : Except NeoErr Uid) = .ok uid' → env.calloc = true →
        b.JoinsWell q uid') ↔ b.alloc.JoinsWell q uid := by
      rw [h.joinsWell_alloc]
      refine ⟨fun hall => hall uid rfl hcalloc, fun hwell uid' heq _ => ?_⟩
      rw [← Except.ok.inj heq]
      exact hwell
    rw [hiff, hrun]
    rcases h.alloc.quit q uid with ⟨hnull, hjoin⟩ | ⟨hfree, hjoin⟩ | ⟨b₁, r, hquit, heffect, hjoin⟩
    · rw [hnull, error_bind]
      exact ⟨iff_of_true rfl hjoin, fun b' err hb => by cases hb⟩
    · rw [hfree, error_bind]
      exact ⟨iff_of_false (by simp) (not_not.mpr hjoin), fun b' err hb => by cases hb⟩
    · rw [hquit, ok_bind]
      -- The object is still blank when it is filed.
      have hblank : b₁.Ok ∧ ∃ u, b₁.users b.nextUser = some u ∧ u.uid = none ∧ u.table = none := by
        rcases heffect with rfl | ⟨s, hd⟩
        · exact ⟨h.alloc, .blank, Function.update_self .., rfl, rfl⟩
        · exact ⟨h.alloc.drops hd, hd.blank⟩
      obtain ⟨hb₁, u, hu, huid, htable⟩ := hblank
      obtain ⟨hnull, hok⟩ := hb₁.fileUser hu huid htable rfl
      exact ⟨hnull.trans hjoin, fun b' err hb => Or.inr ⟨b₁, uid, _, heffect, hok b' err hb⟩⟩

theorem Ok.joinEffect (h : b.Ok) (he : b.JoinEffect b') : b'.Ok := by
  rcases he with hk | ⟨b₁, uid, s, rfl | ⟨s', hd⟩, he⟩
  · exact h.keeps hk
  · exact h.alloc.enters he
  · exact (h.alloc.drops hd).enters he

end Bang

end Moc
