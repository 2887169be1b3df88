import Moc.Server.BangFrame

/-!
# The counters of the bang plugin

`usernum` is kept by hand beside the hash of the users, and `bang_idle_user_number` beside that of
the idle users. The second is right in every run. The first is counted down twice for each user that
is destroyed, by `bang_user_destroy` and by the `base_user_destroy` that it calls, and the guard at
zero hides this from whoever is alone. -/

open Bytes Memory Runs

namespace Moc

namespace Bang

variable {b b' b₁ : Bang} {a : ℕ} {u : BangUser} {uid : Uid} {t : TableId} {c : BangConn}
  {env : BangEnv} {q : BangRequest}

/-! ## The counters -/

/-- Each of the two counters is the number of entries of its hash. -/
structure CountsUsers (b : Bang) : Prop where
  usernum : b.usernum = b.userh.keys.length
  idleNumber : b.idleNumber = b.idleHash.keys.length

/-- How many users `usernum` leaves out. -/
def missed (b : Bang) : ℤ := b.userh.keys.length - b.usernum

/-- `usernum` leaves out as many users as before, and the idle users are counted if they were. -/
structure SameCount (b b' : Bang) : Prop where
  missed : b'.missed = b.missed
  idle : b.idleNumber = b.idleHash.keys.length → b'.idleNumber = b'.idleHash.keys.length

theorem SameCount.refl (b : Bang) : b.SameCount b := ⟨rfl, id⟩

theorem SameCount.trans (h : b.SameCount b₁) (h' : b₁.SameCount b') : b.SameCount b' :=
  ⟨h'.missed.trans h.missed, fun hidle => h'.idle (h.idle hidle)⟩

theorem countsUsers_iff : b.CountsUsers ↔ b.missed = 0 ∧ b.idleNumber = b.idleHash.keys.length := by
  have husers : b.missed = 0 ↔ b.usernum = b.userh.keys.length := by
    unfold missed
    omega
  exact ⟨fun h => ⟨husers.mpr h.usernum, h.idleNumber⟩, fun h => ⟨husers.mp h.1, h.2⟩⟩

theorem SameCount.countsUsers_iff (h : b.SameCount b')
    (hidle : b.idleNumber = b.idleHash.keys.length) : b'.CountsUsers ↔ b.CountsUsers := by
  rw [Bang.countsUsers_iff, Bang.countsUsers_iff, h.missed]
  exact and_congr_right fun _ => iff_of_true (h.idle hidle) hidle

theorem SameCount.countsUsers (h : b.SameCount b') (hcount : b.CountsUsers) : b'.CountsUsers :=
  (h.countsUsers_iff hcount.idleNumber).mpr hcount

/-! ## What leaves the counts alone -/

/-- The guard of the counter is not met, as the user is there. -/
theorem removeIdle_sameCount (h : b.idleHash.lookup uid ≠ none) :
    b.SameCount (b.removeIdle uid) where
  missed := rfl
  idle hidle := by
    have hlength := length_keys_erase h
    unfold removeIdle decNumber
    dsimp only
    rw [if_pos (by omega)]
    omega

theorem SameCount.frame : Frame SameCount where
  refl := .refl
  trans := .trans
  setState _ _ _ := ⟨rfl, id⟩
  seat _ _ _ _ := ⟨rfl, id⟩
  tables _ _ := ⟨rfl, id⟩
  addIdle {b uid} hidle a := by
    -- A user that is not among the idle ones makes one more.
    refine ⟨rfl, fun hcount => ?_⟩
    have hlength := length_keys_insert a hidle
    show b.idleNumber + 1 = ((b.idleHash.insert uid a).keys.length : ℤ)
    rw [hlength, hcount]
    rfl
  removeIdle := removeIdle_sameCount

/-! ## A user that is destroyed -/

/-- A user is removed, and counted down twice. -/
theorem bangUserDestroy_eq (h : b.bangUserDestroy a = .ok b') (hu : b.users a = some u)
    (huid : u.uid = some uid) : b'.userh = b.userh.erase uid ∧
      b'.usernum = decNumber (decNumber b.usernum) ∧
      (b.idleNumber = b.idleHash.keys.length → b'.idleNumber = b'.idleHash.keys.length) := by
  unfold bangUserDestroy at h
  rw [derefUser_of_some hu, ok_bind, huid, readStr, ok_bind] at h
  cases ht : u.table with
  | none =>
    rw [ht] at h
    cases h
  | some t =>
    rw [ht] at h
    dsimp only at h
    by_cases hidle : (b.idleHash.lookup uid).isSome
    · rw [if_pos hidle] at h
      rw [← Except.ok.inj h]
      exact ⟨erase_erase_self b.userh uid, rfl,
        (removeIdle_sameCount (Option.isSome_iff_ne_none.mp hidle)).idle⟩
    · rw [if_neg hidle] at h
      rw [← Except.ok.inj h]
      exact ⟨erase_erase_self b.userh uid, rfl, id⟩

/-- The connection `c` has one reference left, and a user. -/
def LastOf (b : Bang) (c : BangConn) : Prop :=
  ∃ k, b.socks c = some k ∧ k.refcount = 1 ∧ k.appdata ≠ none

/-- Who the last one is does not depend on the listener. -/
theorem lastOf_update {k : BangSocket} (k' : BangSocket) (hc : b.socks c = some k)
    (href : k'.refcount = k.refcount) (ha : k'.appdata = k.appdata) :
    ({ b with socks := Function.update b.socks c (some k') } : Bang).LastOf c ↔ b.LastOf c := by
  have hself : Function.update b.socks c (some k') c = some k' := Function.update_self ..
  constructor
  · rintro ⟨k₀, hk₀, hone, happ⟩
    obtain rfl := Option.some.inj (hself.symm.trans hk₀)
    exact ⟨k, hc, href.symm.trans hone, ha ▸ happ⟩
  · rintro ⟨k₀, hk₀, hone, happ⟩
    obtain rfl := Option.some.inj (hc.symm.trans hk₀)
    exact ⟨k', hself, href.trans hone, ha ▸ happ⟩

/-- A dropped reference leaves the counters right if and only if it takes no user along that others
are filed with. The idle users are counted in any case. -/
theorem Ok.removeRef_countsUsers_iff (h : b.Ok) (hcount : b.CountsUsers)
    (hr : b.tcpSocketRemoveRef c = .ok b') : b'.idleNumber = b'.idleHash.keys.length ∧
      (b'.CountsUsers ↔ (b.LastOf c → b.userh.keys.length ≤ 1)) := by
  -- Without a user that goes the counters are as before.
  have hkept : b.SameCount b' → ¬b.LastOf c → b'.idleNumber = b'.idleHash.keys.length ∧
      (b'.CountsUsers ↔ (b.LastOf c → b.userh.keys.length ≤ 1)) := fun hsame hlast =>
    ⟨hsame.idle hcount.idleNumber,
      iff_of_true (hsame.countsUsers hcount) fun hlast' => absurd hlast' hlast⟩
  unfold tcpSocketRemoveRef at hr
  cases hc : b.socks c with
  | none =>
    rw [hc] at hr
    cases hr
  | some k =>
    rw [hc] at hr
    dsimp only at hr
    have hthis : b.LastOf c ↔ k.refcount = 1 ∧ k.appdata ≠ none := by
      refine ⟨fun ⟨k', hc', hlast⟩ => ?_, fun hlast => ⟨k, hc, hlast⟩⟩
      rwa [← Option.some.inj (hc.symm.trans hc')] at hlast
    by_cases hone : k.refcount = 1
    swap
    · -- No reference was counted, or another is left.
      have hlast : ¬b.LastOf c := fun hlast => hone (hthis.mp hlast).1
      split_ifs at hr
      · rw [← Except.ok.inj hr] at hkept ⊢
        exact hkept (.refl b) hlast
      · omega
      · rw [← Except.ok.inj hr] at hkept ⊢
        exact hkept ⟨rfl, id⟩ hlast
    rw [if_neg (by omega), if_pos (by omega)] at hr
    unfold tcpSocketFree at hr
    cases happ : k.appdata with
    | none =>
      have hlast : ¬b.LastOf c := fun hlast => (hthis.mp hlast).2 happ
      rw [happ] at hr
      rw [← Except.ok.inj hr] at hkept ⊢
      exact hkept ⟨rfl, id⟩ hlast
    | some a =>
      have hlast : b.LastOf c := hthis.mpr ⟨hone, by rw [happ]; exact Option.some_ne_none a⟩
      rw [happ] at hr
      dsimp only at hr
      obtain ⟨b₁, hdestroy, hr⟩ := bind_eq_ok.mp hr
      obtain ⟨u, uid, hu, huid, -⟩ := h.appdata c k a hc happ
      have hgone := bangUserDestroy_eq hdestroy hu huid
      have huserh : b₁.userh = b.userh.erase uid := hgone.1
      have husernum : b₁.usernum = decNumber (decNumber b.usernum) := hgone.2.1
      have hidle := hgone.2.2 hcount.idleNumber
      have hlength := length_keys_erase
        ((h.filed a u uid hu huid).trans_ne (Option.some_ne_none a))
      have hnum := hcount.usernum
      rw [← Except.ok.inj hr, countsUsers_iff]
      refine ⟨hidle, ?_⟩
      -- Two users and more are one too few afterwards.
      have hmissed : b₁.missed = 0 ↔ b.userh.keys.length ≤ 1 := by
        unfold missed
        rw [huserh, husernum]
        unfold decNumber
        split_ifs <;> omega
      exact ⟨fun hboth _ => hmissed.mp hboth.1,
        fun hfew => ⟨hmissed.mpr (hfew hlast), hidle⟩⟩

/-! ## A JOIN -/

/-- A user that is filed is counted. -/
theorem baseUserNew_sameCount {o : ℕ} (h : b.baseUserNew uid q a = .ok (b', o)) :
    b.SameCount b' := by
  unfold baseUserNew at h
  cases hlookup : b.userh.lookup uid with
  | some a' =>
    rw [hlookup] at h
    rw [← (Prod.mk.inj (Except.ok.inj h)).1]
    exact .refl b
  | none =>
    rw [hlookup] at h
    dsimp only at h
    obtain ⟨user, -, h⟩ := bind_eq_ok.mp h
    cases hs : b.socks q.conn with
    | none =>
      rw [hs] at h
      cases h
    | some k =>
      rw [hs] at h
      rw [← (Prod.mk.inj (Except.ok.inj h)).1]
      refine ⟨?_, id⟩
      have hlength := length_keys_insert a hlookup
      unfold missed
      dsimp only
      rw [hlength]
      push_cast
      omega

/-- A JOIN of `uid` drops a reference of `c`: that is where its user is, elsewhere than the request.
-/
def TakesOver (b : Bang) (q : BangRequest) (uid : Uid) (c : BangConn) : Prop :=
  ∃ a v, b.userh.lookup uid = some a ∧ b.users a = some v ∧ q.conn ≠ v.conn ∧ v.conn = c

/-- The first half of a JOIN drops at most one reference. -/
theorem baseUserQuit_cases {moved : Bool} (h : b.baseUserQuit uid q = .ok (b', moved)) :
    ((∀ c, ¬b.TakesOver q uid c) ∧ b' = b) ∨
      ∃ c, (∀ c', b.TakesOver q uid c' ↔ c' = c) ∧ b.tcpSocketRemoveRef c = .ok b' := by
  unfold baseUserQuit at h
  unfold TakesOver
  cases hlookup : b.userh.lookup uid with
  | none =>
    rw [hlookup] at h
    exact Or.inl ⟨fun c => by simp, (Prod.mk.inj (Except.ok.inj h)).1.symm⟩
  | some a =>
    rw [hlookup] at h
    dsimp only at h
    obtain ⟨v, hv, h⟩ := bind_eq_ok.mp h
    have hv' : b.users a = some v := by
      unfold derefUser at hv
      split at hv
      · cases hv
      · rename_i v' hv'
        rw [hv', Except.ok.inj hv]
    by_cases hsame : q.conn = v.conn
    · rw [if_pos hsame] at h
      refine Or.inl ⟨?_, (Prod.mk.inj (Except.ok.inj h)).1.symm⟩
      rintro c ⟨a', v', ha', hv'', hne, -⟩
      obtain rfl := Option.some.inj ha'
      exact hne (hsame.trans (congrArg _ (Option.some.inj (hv'.symm.trans hv''))))
    · rw [if_neg hsame] at h
      obtain ⟨b₁, hdrop, h⟩ := bind_eq_ok.mp h
      rw [(Prod.mk.inj (Except.ok.inj h)).1] at hdrop
      refine Or.inr ⟨v.conn, fun c' => ⟨?_, fun heq => ?_⟩, hdrop⟩
      · rintro ⟨a', v', ha', hv'', -, rfl⟩
        obtain rfl := Option.some.inj ha'
        exact congrArg _ (Option.some.inj (hv''.symm.trans hv'))
      · exact ⟨a, v, rfl, hv', hsame, heq.symm⟩

/-- The object of a JOIN is not yet one that anybody looks up. -/
theorem Ok.takesOver_alloc (h : b.Ok) : b.alloc.TakesOver q uid c ↔ b.TakesOver q uid c := by
  have hold : ∀ a, b.userh.lookup uid = some a → b.alloc.users a = b.users a := by
    intro a ha
    obtain ⟨u, hu, -⟩ := h.found uid a ha
    exact Function.update_of_ne (h.user_lt a u hu).ne ..
  exact exists_congr fun a => exists_congr fun v => and_congr_right fun ha => by rw [hold a ha]

/-- A JOIN leaves the counters right if and only if it takes no user along that others are filed
with. -/
theorem Ok.bangUserNew_countsUsers_iff {userid : Option Uid} {err : Option NeoErr} (h : b.Ok)
    (hcount : b.CountsUsers) (hr : b.bangUserNew env q userid = .ok (b', err)) :
    b'.CountsUsers ↔ ∀ uid c, getParamStr "userid" userid = .ok uid → env.calloc = true →
      b.TakesOver q uid c → b.LastOf c → b.userh.keys.length ≤ 1 := by
  rcases bangUserNew_cases hr with
    ⟨rfl, hnone⟩ | ⟨uid, b₁, moved, b₂, o, hparam, hcalloc, hquit, hnew, hidle⟩
  · exact iff_of_true hcount fun uid _ huid hcalloc => absurd hcalloc (hnone uid huid)
  · -- What comes after the user who goes counts right.
    have hrest : b₁.SameCount b' :=
      (baseUserNew_sameCount hnew).trans (SameCount.frame.transitIdle hidle)
    have hgoal : (∀ uid' c, getParamStr "userid" userid = .ok uid' → env.calloc = true →
        b.TakesOver q uid' c → b.LastOf c → b.userh.keys.length ≤ 1) ↔
        ∀ c, b.alloc.TakesOver q uid c → b.alloc.LastOf c → b.alloc.userh.keys.length ≤ 1 := by
      refine ⟨fun hall c hover => hall uid c hparam hcalloc (h.takesOver_alloc.mp hover), ?_⟩
      intro hall uid' c huid _ hover
      rw [← Except.ok.inj (hparam.symm.trans huid)] at hover
      exact hall c (h.takesOver_alloc.mpr hover)
    have hcount' : b.alloc.CountsUsers := ⟨hcount.usernum, hcount.idleNumber⟩
    rw [hgoal]
    rcases baseUserQuit_cases (b := b.alloc) hquit with ⟨hno, heq⟩ | ⟨c, hc, hdrop⟩
    · rw [heq] at hrest
      exact iff_of_true ((hrest.countsUsers_iff hcount.idleNumber).mpr hcount')
        fun c hover => absurd hover (hno c)
    · obtain ⟨hidle₁, hiff⟩ := h.alloc.removeRef_countsUsers_iff hcount' hdrop
      rw [hrest.countsUsers_iff hidle₁, hiff]
      refine ⟨fun hfew c' hover => ?_, fun hall => hall c ((hc c).mpr rfl)⟩
      rw [(hc c').mp hover]
      exact hfew

/-! ## The steps -/

/-- A command that destroys a user destroys the only one. -/
def CommandDestroysAlone (b : Bang) (env : BangEnv) (q : BangRequest) : Prop :=
  match q.cmd with
  | .join userid => ∀ uid c, getParamStr "userid" userid = .ok uid → env.calloc = true →
      b.TakesOver q uid c → b.LastOf c → b.userh.keys.length ≤ 1
  | _ => True

/-- A step that destroys a user destroys the only one: the connection whose last reference is
dropped has no user, or nobody else is filed. -/
def DestroysAlone (b : Bang) : BangStep → Prop
  | .close c => (∃ k, b.socks c = some k ∧ k.evt = true) → b.LastOf c → b.userh.keys.length ≤ 1
  | .process env =>
    ∀ q rest, b.running = none → b.queue = q :: rest → b.CommandDestroysAlone env q
  | .free => ∀ q, b.running = some q → b.LastOf q.conn → b.userh.keys.length ≤ 1
  | _ => True

theorem Ok.command_countsUsers_iff {err : Option NeoErr} (h : b.Ok) (hcount : b.CountsUsers)
    (hr : b.processDriver env q = .ok (b', err)) :
    b'.CountsUsers ↔ b.CommandDestroysAlone env q := by
  have heffect := (h.command env q).2 b' err hr
  unfold processDriver at hr
  unfold CommandEffect at heffect
  unfold CommandDestroysAlone
  cases hcmd : q.cmd with
  | join userid =>
    rw [hcmd] at hr
    dsimp only at hr ⊢
    obtain ⟨err', hnew⟩ := cmdJoin_eq_ok hr
    exact h.bangUserNew_countsUsers_iff hcount hnew
  | quit =>
    rw [hcmd] at heffect
    rw [show b' = b from heffect]
    exact iff_of_true hcount trivial
  | toBattle =>
    rw [hcmd] at hr
    exact iff_of_true ((SameCount.frame.cmdToBattle hr).countsUsers hcount) trivial
  | acceptBattle =>
    rw [hcmd] at hr
    exact iff_of_true ((SameCount.frame.cmdAcceptBattle hr).countsUsers hcount) trivial
  | turn redirection =>
    rw [hcmd] at heffect
    rw [show b' = b from heffect]
    exact iff_of_true hcount trivial

/-- A step that ends leaves the counters right if and only if it destroys nobody or the only user.
-/
theorem Ok.step_countsUsers_iff {i : BangStep} (h : b.Ok) (hcount : b.CountsUsers)
    (hs : b.step i = .ok b') : b'.CountsUsers ↔ b.DestroysAlone i := by
  unfold Bang.step at hs
  cases i with
  | accept fd =>
    dsimp only at hs
    split_ifs at hs
    · rw [← Except.ok.inj hs]
      exact iff_of_true hcount trivial
    · rw [← Except.ok.inj hs]
      exact iff_of_true ⟨hcount.usernum, hcount.idleNumber⟩ trivial
  | request c cmd sync =>
    dsimp only at hs
    split at hs
    · rw [← Except.ok.inj hs]
      exact iff_of_true hcount trivial
    · split_ifs at hs
      · rw [← Except.ok.inj hs]
        exact iff_of_true ⟨hcount.usernum, hcount.idleNumber⟩ trivial
      · rw [← Except.ok.inj hs]
        exact iff_of_true hcount trivial
  | close c =>
    dsimp only at hs
    unfold DestroysAlone
    cases hc : b.socks c with
    | none =>
      rw [hc] at hs
      rw [← Except.ok.inj hs]
      refine iff_of_true hcount fun ⟨k, hk, _⟩ => ?_
      rw [hc] at hk
      cases hk
    | some k =>
      rw [hc] at hs
      dsimp only at hs
      by_cases hevt : k.evt = true
      · -- The event loop gives up its reference, which may be the last.
        rw [if_pos hevt] at hs
        have hkeeps : b.Keeps { b with
            socks := Function.update b.socks c (some { k with evt := false }) } :=
          b.keeps_update hc rfl
        have hcount' : CountsUsers { b with
            socks := Function.update b.socks c (some { k with evt := false }) } :=
          ⟨hcount.usernum, hcount.idleNumber⟩
        rw [((h.keeps hkeeps).removeRef_countsUsers_iff hcount' hs).2,
          lastOf_update { k with evt := false } hc rfl rfl]
        exact ⟨fun hfew _ => hfew, fun hfew => hfew ⟨k, hc, hevt⟩⟩
      · rw [if_neg hevt] at hs
        rw [← Except.ok.inj hs]
        refine iff_of_true hcount fun ⟨k', hk', hevt'⟩ => absurd ?_ hevt
        rwa [Option.some.inj (hc.symm.trans hk')]
  | process env =>
    dsimp only at hs
    unfold DestroysAlone
    cases hrunning : b.running with
    | some q =>
      rw [hrunning] at hs
      rw [← Except.ok.inj hs]
      exact iff_of_true hcount fun _ _ => nofun
    | none =>
      cases hqueue : b.queue with
      | nil =>
        rw [hrunning, hqueue] at hs
        rw [← Except.ok.inj hs]
        exact iff_of_true hcount fun _ _ _ => nofun
      | cons q rest =>
        obtain ⟨err, hrun⟩ := (step_process_iff hrunning hqueue).mp hs
        have hcount' : CountsUsers { b with queue := rest, running := some q } :=
          ⟨hcount.usernum, hcount.idleNumber⟩
        rw [(h.keeps (b.take_keeps q rest)).command_countsUsers_iff hcount' hrun]
        refine ⟨fun hone q' rest' _ heq => ?_, fun hall => hall q rest rfl rfl⟩
        rw [← (List.cons.inj heq).1]
        exact hone
  | free =>
    dsimp only at hs
    unfold DestroysAlone
    cases hrunning : b.running with
    | none =>
      rw [hrunning] at hs
      rw [← Except.ok.inj hs]
      exact iff_of_true hcount fun _ => nofun
    | some q =>
      -- So does the worker with that of its entry.
      rw [hrunning] at hs
      dsimp only at hs
      have hkeeps : b.Keeps { b with running := none } :=
        b.keeps_socks fun s k a hs ha => ⟨k, hs, ha⟩
      have hcount' : CountsUsers { b with running := none } :=
        ⟨hcount.usernum, hcount.idleNumber⟩
      rw [((h.keeps hkeeps).removeRef_countsUsers_iff hcount' hs).2]
      refine ⟨fun hfew q' heq => ?_, fun hall => hall q rfl⟩
      rw [← Option.some.inj heq]
      exact hfew

/-! ## Every run -/

/-- In a run that does not crash both counters are right in every state if and only if nobody is
destroyed while another user is filed. -/
theorem bang_countsUsers_iff {is : List BangStep}
    (hrun : ∃ b, is.foldl Bang.next (.ok .start) = .ok b) :
    Always Bang.next (fun x => ∀ b, x = .ok b → b.CountsUsers) (.ok .start) is ↔
      EachStep Bang.next (fun x i => ∀ b, x = .ok b → b.DestroysAlone i) (.ok .start) is := by
  -- No step of such a run crashes.
  have hstep : EachStep Bang.next (fun x i => ∃ b, Bang.next x i = .ok b) (.ok .start) is := by
    by_contra hcrash
    have hbreak : ∀ x i, True → (¬∃ b, Bang.next x i = .ok b) → ∃ e, Bang.next x i = .error e := by
      intro x i _ hno
      cases hx : Bang.next x i with
      | error e => exact ⟨e, rfl⟩
      | ok b => exact absurd ⟨b, hx⟩ hno
    obtain ⟨e, he⟩ := foldl_of_not_eachStep (D := fun x => ∃ e, x = .error e)
      (fun _ _ _ _ => trivial) hbreak (fun x i ⟨e, he⟩ => ⟨e, by rw [he]; rfl⟩) trivial hcrash
    obtain ⟨b, hb⟩ := hrun
    rw [hb] at he
    cases he
  refine always_iff_eachStep (I := fun x => ∀ b, x = .ok b → b.Ok ∧ b.CountsUsers)
    ?_ ?_ ?_ ?_ hstep
  · exact fun x hx b hb => (hx b hb).2
  · rintro (e | b) i hx - hG b' hb
    · cases hb
    · obtain ⟨hok, hcount⟩ := hx b rfl
      exact ⟨hok.stepEffect ((hok.step i).2 b' hb),
        (hok.step_countsUsers_iff hcount hb).mpr (hG b rfl)⟩
  · rintro (e | b) i hx ⟨b', hb⟩ hG hcounts
    · cases hb
    · obtain ⟨hok, hcount⟩ := hx b rfl
      refine hG fun b₀ hb₀ => ?_
      rw [← Except.ok.inj hb₀]
      exact (hok.step_countsUsers_iff hcount hb).mp (hcounts b' hb)
  · rintro b hb
    rw [← Except.ok.inj hb]
    exact ⟨start_ok, rfl, rfl⟩

/-- A client that is alone joins, looks for a table and goes. -/
def joinsAlone : List BangStep :=
  [.accept 5, .request ⟨1, 5⟩ (.join (some (ascii "a"))) true,
    .process ⟨true, fun _ => none, .listed, []⟩, .free, .request ⟨1, 5⟩ .toBattle true,
    .process ⟨true, fun _ => none, .listed, []⟩, .free, .close ⟨1, 5⟩]

theorem bang_countsUsers_joinsAlone :
    Always Bang.next (fun x => ∀ b, x = .ok b → b.CountsUsers) (.ok .start) joinsAlone := by
  refine (bang_countsUsers_iff ⟨_, rfl⟩).mpr ⟨fun _ _ => trivial, fun _ _ => trivial, ?_, ?_,
    fun _ _ => trivial, ?_, ?_, ?_, trivial⟩
  · rintro _ ⟨⟩ q rest - ⟨⟩ uid c - - ⟨a, v, ha, -⟩
    cases ha
  · rintro _ ⟨⟩ q ⟨⟩ -
    decide
  · rintro _ ⟨⟩ q rest - ⟨⟩
    trivial
  · rintro _ ⟨⟩ q ⟨⟩ -
    decide
  · rintro _ ⟨⟩ - -
    decide

/-- Two clients join, one of them looks for a table and goes: no user is counted any more, and one
is left. -/
theorem bang_not_countsUsers : ¬∀ is : List BangStep,
    (∃ b, is.foldl Bang.next (.ok .start) = .ok b) →
      Always Bang.next (fun x => ∀ b, x = .ok b → b.CountsUsers) (.ok .start) is := by
  intro hall
  have hrun := hall [.accept 5, .accept 6, .request ⟨1, 5⟩ (.join (some (ascii "a"))) true,
    .process ⟨true, fun _ => none, .listed, []⟩, .free,
    .request ⟨2, 6⟩ (.join (some (ascii "b"))) true,
    .process ⟨true, fun _ => none, .listed, []⟩, .free,
    .request ⟨1, 5⟩ .toBattle true, .process ⟨true, fun _ => none, .listed, []⟩, .free,
    .close ⟨1, 5⟩] ⟨_, rfl⟩
  have hlast := always_last hrun _ rfl
  exact absurd hlast.usernum (by decide)

end Bang

end Moc
