import Moc.Server.BangConns
import Moc.Server.Quit

/-!
# A QUIT in the bang plugin

`cmd_quit` of the bang plugin hands its own entry to `base_user_quit`, which does nothing for a user
whose connection the entry is from. So the user and its connection stay, until the connection is
closed or its user joins on another one. -/

open Bytes Memory Runs

namespace Moc

namespace Bang

variable {b b' b₁ : Bang} {a : ℕ} {uid : Uid} {c c' : BangConn} {k : BangSocket} {env : BangEnv}
  {q : BangRequest} {i : BangStep}

/-! ## What every step keeps -/

/-- The same connections, but for their counts, and the same users on them. -/
structure SameNamed (b b' : Bang) : Prop where
  socks : ∀ c, (b'.socks c).map (fun k => (k.evt, k.appdata)) =
    (b.socks c).map fun k => (k.evt, k.appdata)
  nextSock : b'.nextSock = b.nextSock
  on : ∀ uid a c, b'.On uid a c ↔ b.On uid a c

theorem SameConns.named (h : b.SameConns b') : b.SameNamed b' :=
  ⟨fun c => by rw [h.socks], h.nextSock, h.on⟩

theorem SameNamed.symm (h : b.SameNamed b') : b'.SameNamed b :=
  ⟨fun c => (h.socks c).symm, h.nextSock.symm, fun uid a c => (h.on uid a c).symm⟩

theorem SameNamed.socket (h : b.SameNamed b') {k' : BangSocket} (hc : b'.socks c = some k') :
    ∃ k, b.socks c = some k ∧ k'.evt = k.evt ∧ k'.appdata = k.appdata := by
  have hsame := h.socks c
  rw [hc, Option.map_some, eq_comm, Option.map_eq_some_iff] at hsame
  obtain ⟨k, hk, heq⟩ := hsame
  obtain ⟨hevt, happ⟩ := Prod.mk.inj heq
  exact ⟨k, hk, hevt.symm, happ.symm⟩

theorem SameNamed.none_iff (h : b.SameNamed b') : b'.socks c = none ↔ b.socks c = none := by
  rw [← Option.map_eq_none_iff, h.socks, Option.map_eq_none_iff]

/-- A count changes, and the queue. -/
theorem SameNamed.recount (hc : b.socks c = some k) (n : ℤ) (queue : List BangRequest) :
    b.SameNamed { b with
      socks := Function.update b.socks c (some { k with refcount := n }), queue := queue } := by
  refine ⟨fun c' => ?_, rfl, fun _ _ _ => Iff.rfl⟩
  dsimp only
  by_cases hne : c' = c
  · rw [hne, Function.update_self, hc]
    rfl
  · rw [Function.update_of_ne hne]

theorem taken_named (b : Bang) (q : BangRequest) (rest : List BangRequest) :
    b.SameNamed (b.taken q rest) := ⟨fun _ => rfl, rfl, fun _ _ _ => Iff.rfl⟩

theorem given_named (b : Bang) : b.SameNamed b.given := ⟨fun _ => rfl, rfl, fun _ _ _ => Iff.rfl⟩

/-- What a dropped reference keeps. -/
structure Stays (Q : Bang → Prop) : Prop where
  same : ∀ {b b' : Bang}, b.SameNamed b' → Q b → Q b'
  free : ∀ {b b' : Bang} {c k}, b.Ok → b.socks c = some k → b.Frees c k b' → Q b → Q b'

theorem Stays.removeRef {Q : Bang → Prop} (hstays : Stays Q) (hok : b.Ok) (hpos : b.Positive)
    (hr : b.tcpSocketRemoveRef c = .ok b') (h : Q b) : Q b' := by
  obtain ⟨k, hc, ⟨-, rfl⟩ | hf⟩ := hok.removeRef_conn hpos hr
  · exact hstays.same (.recount hc (k.refcount - 1) b.queue) h
  · exact hstays.free hok hc hf h

theorem Stays.quits {Q : Bang → Prop} (hstays : Stays Q) (hok : b.Ok) (hquits : b.Quits q uid b₁)
    (h : Q b) : Q b₁ := by
  rcases hquits with ⟨hsame, -⟩ | ⟨a, c, k, -, -, hc, -, hf⟩
  · exact hstays.same hsame.named h
  · exact hstays.free hok hc hf h

theorem Positive.unlisten (h : b.Positive) (hc : b.socks c = some k) : (b.unlisten c k).Positive := by
  intro c' k' hk'
  rcases update_eq_some.mp hk' with ⟨-, heq⟩ | ⟨-, hold⟩
  · rw [← Option.some.inj heq]
    exact h c k hc
  · exact h c' k' hold

/-- What the step `i` keeps, whatever it does to connections and users. -/
structure Kept (b : Bang) (i : BangStep) (Q : Bang → Prop) : Prop extends Stays Q where
  accept : ∀ fd, Q b → Q { b with
    socks := Function.update b.socks ⟨b.nextSock, fd⟩ (some ⟨1, true, none⟩)
    nextSock := b.nextSock + 1 }
  unlisten : ∀ {c k}, b.socks c = some k → Q b → Q (b.unlisten c k)
  registers : ∀ {b₁ b' : Bang} {q uid a k}, b.RunsJoin i q uid → b₁.Registers uid a q.conn k b' →
    Q b₁ → Q b'

theorem Moves.keeps {Q : Bang → Prop} (hok : b.Ok) (hcount : b.Counted 0) (hm : b.Moves i b')
    (hkept : b.Kept i Q) (h : Q b) : Q b' := by
  have htaken : ∀ {q rest}, (b.taken q rest).Ok := fun {q rest} => hok.keeps (b.take_keeps q rest)
  cases hm with
  | idle _ _ => exact h
  | @accept fd => exact hkept.accept fd h
  | request hc _ => exact hkept.same (.recount hc _ _) h
  | close hc _ hr =>
    exact hkept.removeRef (hok.unlisten hc) (hcount.positive.unlisten hc) hr (hkept.unlisten hc h)
  | @command _ q rest _ _ _ _ hsame =>
    exact hkept.same hsame.named (hkept.same (b.taken_named q rest) h)
  | @join _ q rest _ _ _ _ _ _ _ hjoin hquits _ hreg =>
    exact hkept.registers hjoin hreg
      (hkept.quits htaken hquits (hkept.same (b.taken_named q rest) h))
  | free _ hr => exact hkept.removeRef hok.given hcount.positive hr (hkept.same b.given_named h)

/-! ## The user of a connection -/

/-- Who is on a connection is on no other, and under one id there is one user. -/
theorem On.unique {a' : ℕ} (hon : b.On uid a c) (hon' : b.On uid a' c') : a' = a ∧ c' = c := by
  obtain ⟨hfound, u, hu, hconn⟩ := hon
  obtain ⟨hfound', u', hu', hconn'⟩ := hon'
  obtain rfl := Option.some.inj (hfound.symm.trans hfound')
  obtain rfl := Option.some.inj (hu.symm.trans hu')
  exact ⟨rfl, hconn'.symm.trans hconn⟩

/-- The object of a socket is on its connection only. -/
theorem Ok.conn_of_on (h : b.Ok) (hc : b.socks c = some k) (ha : k.appdata = some a)
    (hon : b.On uid a c') : c' = c := by
  obtain ⟨uid', hon'⟩ := h.on_appdata hc ha
  obtain rfl := h.on_uid hon hon'
  exact (hon'.unique hon).2

/-- The user `uid` goes when the connection `c` is freed, or it went. -/
structure GoesWith (b : Bang) (uid : Uid) (c : BangConn) : Prop where
  used : c.tcpsock < b.nextSock
  names : ∀ k, b.socks c = some k → ∃ a, k.appdata = some a ∧ b.On uid a c
  gone : b.socks c = none → ∀ a, ¬b.On uid a c

/-- The user `uid` is on the connection `c`, whose socket does not name it. -/
def LeftBehind (b : Bang) (uid : Uid) (c : BangConn) : Prop :=
  ∃ a, b.On uid a c ∧ ∀ k, b.socks c = some k → k.appdata ≠ some a

/-- The event loop does not listen on the connection `c`, which was accepted. -/
def Shut (b : Bang) (c : BangConn) : Prop :=
  c.tcpsock < b.nextSock ∧ ∀ k, b.socks c = some k → k.evt = false

/-- A connection that was accepted is not accepted again. -/
theorem ne_of_lt (hlt : c.tcpsock < b.nextSock) (fd : ℤ) : c ≠ ⟨b.nextSock, fd⟩ := fun heq => by
  rw [heq] at hlt
  exact lt_irrefl _ hlt

theorem unlisten_socket {k' : BangSocket} (hc : b.socks c = some k)
    (hk' : (b.unlisten c k).socks c' = some k') :
    ∃ k, b.socks c' = some k ∧ k'.appdata = k.appdata ∧ (k.evt = false → k'.evt = false) := by
  rcases update_eq_some.mp hk' with ⟨rfl, heq⟩ | ⟨-, hold⟩
  · refine ⟨k, hc, ?_, fun _ => ?_⟩ <;> rw [← Option.some.inj heq]
  · exact ⟨k', hold, rfl, id⟩

theorem unlisten_none (hnone : (b.unlisten c k).socks c' = none) : b.socks c' = none := by
  by_cases hne : c' = c
  · have hself : (b.unlisten c k).socks c = _ := Function.update_self ..
    rw [hne, hself] at hnone
    cases hnone
  · exact (Function.update_of_ne hne ..).symm.trans hnone

theorem stays_goesWith : Stays (fun b => b.GoesWith uid c) where
  same hsame h := by
    refine ⟨hsame.nextSock ▸ h.used, fun k' hk' => ?_, fun hnone a hon => ?_⟩
    · obtain ⟨k, hk, -, happ⟩ := hsame.socket hk'
      obtain ⟨a, ha, hon⟩ := h.names k hk
      exact ⟨a, happ.trans ha, (hsame.on uid a c).mpr hon⟩
    · exact h.gone (hsame.none_iff.mp hnone) a ((hsame.on uid a c).mp hon)
  free {b b' c₀ k} hok hc hf h := by
    refine ⟨hf.nextSock ▸ h.used, fun k' hk' => ?_, fun hnone a hon => ?_⟩
    · rw [hf.socks] at hk'
      obtain ⟨hne, hold⟩ := (update_eq_some.mp hk').resolve_left (by simp)
      obtain ⟨a, ha, hon⟩ := h.names k' hold
      refine ⟨a, ha, (hf.on uid a c).mpr ⟨hon, fun happ => hne ?_⟩⟩
      exact hok.conn_of_on hc happ hon
    · obtain ⟨hold, happ⟩ := (hf.on uid a c).mp hon
      by_cases hne : c = c₀
      · -- The freed socket named the user.
        subst hne
        obtain ⟨a', ha', hon'⟩ := h.names k hc
        exact happ (ha'.trans (congrArg some (hold.unique hon').1))
      · rw [hf.socks, Function.update_of_ne hne] at hnone
        exact h.gone hnone a hold

theorem stays_leftBehind : Stays (fun b => b.LeftBehind uid c) where
  same hsame := by
    rintro ⟨a, hon, happ⟩
    refine ⟨a, (hsame.on uid a c).mpr hon, fun k' hk' => ?_⟩
    obtain ⟨k, hk, -, heq⟩ := hsame.socket hk'
    rw [heq]
    exact happ k hk
  free {b b' c₀ k} hok hc hf := by
    rintro ⟨a, hon, happ⟩
    refine ⟨a, (hf.on uid a c).mpr ⟨hon, fun ha => ?_⟩, fun k' hk' => ?_⟩
    · obtain rfl := hok.conn_of_on hc ha hon
      exact happ k hc ha
    · rw [hf.socks] at hk'
      exact happ k' ((update_eq_some.mp hk').resolve_left (by simp)).2

theorem stays_shut : Stays (fun b => b.Shut c) where
  same hsame := by
    rintro ⟨hlt, hevt⟩
    refine ⟨hsame.nextSock ▸ hlt, fun k' hk' => ?_⟩
    obtain ⟨k, hk, heq, -⟩ := hsame.socket hk'
    exact heq.trans (hevt k hk)
  free _ _ hf := by
    rintro ⟨hlt, hevt⟩
    refine ⟨hf.nextSock ▸ hlt, fun k' hk' => ?_⟩
    rw [hf.socks] at hk'
    exact hevt k' ((update_eq_some.mp hk').resolve_left (by simp)).2

/-- The step runs a JOIN that makes a record of the user `uid` on the connection `c`. -/
def FilesOn (b : Bang) (uid : Uid) (c : BangConn) (i : BangStep) : Prop :=
  ∃ q, b.RunsJoin i q uid ∧ q.conn = c

/-- The step gives up the connection `c`: it closes it, or is a JOIN elsewhere of a user that is
there. -/
def GivesUp (b : Bang) (c : BangConn) (i : BangStep) : Prop :=
  i = .close c ∨ ∃ q uid a, b.RunsJoin i q uid ∧ b.On uid a c ∧ q.conn ≠ c

/-- A step leaves the user with its connection, unless a JOIN makes a record there. -/
theorem kept_goesWith (hi : ∀ uid', ¬b.FilesOn uid' c i) : b.Kept i (fun b => b.GoesWith uid c) where
  toStays := stays_goesWith
  accept fd h := by
    have hsame : Function.update b.socks ⟨b.nextSock, fd⟩ (some ⟨1, true, none⟩) c = b.socks c :=
      Function.update_of_ne (ne_of_lt h.used fd) ..
    exact ⟨h.used.trans (Nat.lt_succ_self _), fun k hk => h.names k (hsame.symm.trans hk),
      fun hnone => h.gone (hsame.symm.trans hnone)⟩
  unlisten {c₀ k} hc h := by
    refine ⟨h.used, fun k' hk' => ?_, fun hnone => h.gone (unlisten_none hnone)⟩
    obtain ⟨k₀, hk₀, heq, -⟩ := unlisten_socket hc hk'
    obtain ⟨a, ha, hon⟩ := h.names k₀ hk₀
    exact ⟨a, heq.trans ha, hon⟩
  registers {b₁ b' q uid' a k} hjoin hreg h := by
    have hne : c ≠ q.conn := fun heq => hi uid' ⟨q, hjoin, heq.symm⟩
    have hsame : b'.socks c = b₁.socks c := by rw [hreg.socks, Function.update_of_ne hne]
    refine ⟨hreg.nextSock ▸ h.used, fun k' hk' => ?_, fun hnone a' hon => ?_⟩
    · obtain ⟨a', ha', hon⟩ := h.names k' (hsame.symm.trans hk')
      exact ⟨a', ha', (hreg.on uid a' c).mpr (Or.inr hon)⟩
    · rcases (hreg.on uid a' c).mp hon with ⟨-, -, heq⟩ | hold
      · exact hne heq
      · exact h.gone (hsame.symm.trans hnone) a' hold

theorem kept_leftBehind : b.Kept i (fun b => b.LeftBehind uid c) where
  toStays := stays_leftBehind
  accept fd := by
    rintro ⟨a, hon, happ⟩
    refine ⟨a, hon, fun k hk => ?_⟩
    rcases update_eq_some.mp hk with ⟨-, heq⟩ | ⟨-, hold⟩
    · rw [← Option.some.inj heq]
      nofun
    · exact happ k hold
  unlisten {c₀ k} hc := by
    rintro ⟨a, hon, happ⟩
    refine ⟨a, hon, fun k' hk' => ?_⟩
    obtain ⟨k₀, hk₀, heq, -⟩ := unlisten_socket hc hk'
    rw [heq]
    exact happ k₀ hk₀
  registers {b₁ b' q uid' a' k} _ hreg := by
    rintro ⟨a, hon, happ⟩
    refine ⟨a, (hreg.on uid a c).mpr (Or.inr hon), fun k' hk' => ?_⟩
    rw [hreg.socks] at hk'
    rcases update_eq_some.mp hk' with ⟨-, heq⟩ | ⟨-, hold⟩
    · rw [← Option.some.inj heq]
      intro ha
      exact hreg.new uid c (Option.some.inj ha ▸ hon)
    · exact happ k' hold

theorem kept_shut : b.Kept i (fun b => b.Shut c) where
  toStays := stays_shut
  accept fd := by
    rintro ⟨hlt, hevt⟩
    refine ⟨hlt.trans (Nat.lt_succ_self _), fun k hk => hevt k ?_⟩
    exact (Function.update_of_ne (ne_of_lt hlt fd) ..).symm.trans hk
  unlisten {c₀ k} hc := by
    rintro ⟨hlt, hevt⟩
    refine ⟨hlt, fun k' hk' => ?_⟩
    obtain ⟨k₀, hk₀, -, hkeep⟩ := unlisten_socket hc hk'
    exact hkeep (hevt k₀ hk₀)
  registers {b₁ b' q uid' a k} _ hreg := by
    rintro ⟨hlt, hevt⟩
    refine ⟨hreg.nextSock ▸ hlt, fun k' hk' => ?_⟩
    rw [hreg.socks] at hk'
    rcases update_eq_some.mp hk' with ⟨rfl, heq⟩ | ⟨-, hold⟩
    · rw [← Option.some.inj heq]
      exact hevt k hreg.sock
    · exact hevt k' hold

/-- The user is on no other connection, unless a JOIN makes a record there. -/
theorem kept_only (hi : ∀ c' ≠ c, ¬b.FilesOn uid c' i) :
    b.Kept i (fun b => ∀ a c', b.On uid a c' → c' = c) where
  same hsame h a c' hon := h a c' ((hsame.on uid a c').mp hon)
  free _ _ hf h a c' hon := h a c' ((hf.on uid a c').mp hon).1
  accept _ h := h
  unlisten _ h := h
  registers {b₁ b' q uid' a k} hjoin hreg h a' c' hon := by
    rcases (hreg.on uid a' c').mp hon with ⟨rfl, -, rfl⟩ | hold
    · by_contra hne
      exact hi _ hne ⟨q, hjoin, rfl⟩
    · exact h a' c' hold

/-- A JOIN that makes a record on the connection of a user leaves the user behind. -/
theorem Moves.leftBehind {uid' : Uid} (hok : b.Ok) (hm : b.Moves i b') (h : b.GoesWith uid c)
    (hi : b.FilesOn uid' c i) : b'.LeftBehind uid c := by
  obtain ⟨q₀, hrun, rfl⟩ := hi
  have hrun' := hrun
  obtain ⟨env, rest₀, userid, rfl, -, hqueue₀, -⟩ := hrun'
  cases hm with
  | idle hno _ => exact absurd hrun (hno q₀ uid')
  | command _ _ hno _ => exact absurd hrun (hno q₀ uid')
  | @join _ q rest _ a k b₁ _ _ hqueue _ hquits _ hreg =>
    obtain ⟨rfl, -⟩ := List.cons.inj (hqueue₀.symm.trans hqueue)
    have htaken : (b.taken q₀ rest).GoesWith uid q₀.conn :=
      stays_goesWith.same (b.taken_named q₀ rest) h
    have h₁ : b₁.GoesWith uid q₀.conn :=
      stays_goesWith.quits (hok.keeps (b.take_keeps q₀ rest)) hquits htaken
    -- The socket named the user until the record was made.
    obtain ⟨a', -, hon⟩ := h₁.names k hreg.sock
    refine ⟨a', (hreg.on uid a' q₀.conn).mpr (Or.inr hon), fun k' hk' => ?_⟩
    rw [hreg.socks, Function.update_self, Option.some.injEq] at hk'
    rw [← hk']
    exact fun ha => hreg.new uid q₀.conn (Option.some.inj ha ▸ hon)

/-- A connection that is given up is not listened on any more. -/
theorem Moves.shut (hok : b.Ok) (hcount : b.Counted 0) (hm : b.Moves i b')
    (hlt : c.tcpsock < b.nextSock) (hi : b.GivesUp c i) : b'.Shut c := by
  rcases hi with rfl | ⟨q₀, uid', a, hrun, hon, hne⟩
  · cases hm with
    | idle _ hclose => exact ⟨hlt, fun k hk => hclose c k rfl hk⟩
    | @close _ k _ hc _ hr =>
      refine stays_shut.removeRef (hok.unlisten hc) (hcount.positive.unlisten hc) hr
        ⟨hlt, fun k' hk' => ?_⟩
      have hself : (b.unlisten c k).socks c = _ := Function.update_self ..
      rw [← Option.some.inj (hself.symm.trans hk')]
  · have hrun' := hrun
    obtain ⟨env, rest₀, userid, rfl, -⟩ := hrun'
    cases hm with
    | idle hno _ => exact absurd hrun (hno q₀ uid')
    | command _ _ hno _ => exact absurd hrun (hno q₀ uid')
    | @join _ q rest _ _ k b₁ _ _ _ hjoin hquits _ hreg =>
      obtain ⟨rfl, rfl⟩ := hrun.unique hjoin
      rcases hquits with ⟨-, hno⟩ | ⟨a', c', k', hon', -, -, -, hf⟩
      · exact absurd hon (hno a c)
      · -- The user's connection is freed.
        obtain rfl : c = c' := ((show b.On _ a' c' from hon').unique hon).2
        have hnone : b'.socks c = none := by
          rw [hreg.socks, Function.update_of_ne (Ne.symm hne), hf.socks, Function.update_self]
        refine ⟨?_, fun k hk => ?_⟩
        · rw [hreg.nextSock, hf.nextSock]
          exact hlt
        · rw [hnone] at hk
          cases hk

/-- A connection that is not given up is listened on. -/
theorem Moves.open (hok : b.Ok) (hcount : b.Counted 0) (hm : b.Moves i b')
    (h : ∃ k, b.socks c = some k ∧ k.evt = true) (hi : ¬b.GivesUp c i) :
    ∃ k, b'.socks c = some k ∧ k.evt = true := by
  -- A reference of another connection is dropped.
  have hother : ∀ {b₀ : Bang} {c₀ : BangConn}, b₀.Ok → b₀.Positive → c ≠ c₀ →
      b₀.tcpSocketRemoveRef c₀ = .ok b' → b₀.socks c = b.socks c → ∃ k, b'.socks c = some k ∧ k.evt = true := by
    intro b₀ c₀ hok₀ hpos₀ hne hr hsame
    obtain ⟨k₀, -, ⟨-, rfl⟩ | hf⟩ := hok₀.removeRef_conn hpos₀ hr
    · have hkeep : Function.update b₀.socks c₀ (some { k₀ with refcount := k₀.refcount - 1 }) c =
          b₀.socks c := Function.update_of_ne hne ..
      dsimp only
      rwa [hkeep, hsame]
    · rwa [hf.socks, Function.update_of_ne hne, hsame]
  obtain ⟨k, hc, hevt⟩ := h
  cases hm with
  | idle _ _ => exact ⟨k, hc, hevt⟩
  | @accept fd =>
    by_cases hne : c = ⟨b.nextSock, fd⟩
    · subst hne
      exact ⟨_, Function.update_self .., rfl⟩
    · exact ⟨k, (Function.update_of_ne hne ..).trans hc, hevt⟩
  | @request c₀ cmd sync k₀ hc₀ _ =>
    obtain ⟨k', hk', heq, -⟩ := (SameNamed.recount hc₀ _ (b.queue ++ [⟨c₀, cmd, sync⟩])).symm.socket hc
    exact ⟨k', hk', heq.symm.trans hevt⟩
  | @close c₀ k₀ _ hc₀ _ hr =>
    have hne : c ≠ c₀ := fun heq => hi (Or.inl (by rw [heq]))
    exact hother (hok.unlisten hc₀) (hcount.positive.unlisten hc₀) hne hr
      (Function.update_of_ne hne ..)
  | @command _ q rest _ _ _ _ hsame =>
    rw [hsame.socks]
    exact ⟨k, hc, hevt⟩
  | @join _ q rest _ _ k₀ b₁ _ _ _ hjoin hquits _ hreg =>
    have hsocks : b₁.socks c = b.socks c := by
      rcases hquits with ⟨hsame, -⟩ | ⟨a', c', k', hon', hne', -, -, hf⟩
      · rw [hsame.socks]
        rfl
      · have hne : c ≠ c' := fun heq => hi (Or.inr ⟨q, _, a', hjoin, heq ▸ hon', heq ▸ hne'⟩)
        rw [hf.socks, Function.update_of_ne hne]
        rfl
    rw [hreg.socks]
    by_cases hne : c = q.conn
    · subst hne
      obtain rfl := Option.some.inj ((hreg.sock.symm.trans hsocks).trans hc)
      exact ⟨_, Function.update_self .., hevt⟩
    · rw [Function.update_of_ne hne, hsocks]
      exact ⟨k, hc, hevt⟩
  | @free q _ hrunning hr =>
    by_cases hne : c = q.conn
    swap
    · exact hother hok.given hcount.positive hne hr rfl
    subst hne
    -- The listener and the entry have a reference each, so one is left.
    have hcount' := hcount.count q.conn k hc
    have hentries : 0 < b.entries q.conn := by
      unfold entries
      rw [hrunning]
      exact List.countP_pos_iff.mpr ⟨q, by simp, by simp⟩
    rw [hevt, if_pos rfl, Pi.zero_apply] at hcount'
    obtain ⟨k', hc', ⟨-, rfl⟩ | hf⟩ := hok.given.removeRef_conn hcount.positive hr
    · obtain rfl := Option.some.inj (hc.symm.trans hc')
      exact ⟨_, Function.update_self .., hevt⟩
    · obtain rfl := Option.some.inj (hc.symm.trans hc')
      have hone := hf.refcount
      omega

/-! ## Runs -/

/-- The plugin has faulted, or its users, connections and counts are right and `I` holds. -/
def Reached (I : Bang → Prop) (x : Except Fault Bang) : Prop :=
  ∀ b, x = .ok b → b.Ok ∧ b.Counted 0 ∧ I b

theorem Reached.next {I I' : Bang → Prop} {x : Except Fault Bang} (hx : Reached I x)
    (keep : ∀ b b', x = .ok b → b.Ok → b.Counted 0 → I b → b.Moves i b' → I' b') :
    Reached I' (Bang.next x i) := by
  rintro b' hb'
  obtain ⟨b, hb, hstep⟩ := bind_eq_ok.mp hb'
  obtain ⟨hok, hcount, hI⟩ := hx b hb
  have hm := hok.step_moves hcount.positive hstep
  exact ⟨hok.stepEffect ((hok.step i).2 b' hstep), hok.counted hcount hm,
    keep b b' hb hok hcount hI hm⟩

theorem run_reached (is : List BangStep) :
    Reached (fun _ => True) (is.foldl Bang.next (.ok .start)) := by
  refine foldl_keeps (fun x i hx => hx.next fun _ _ _ _ _ _ _ => trivial) (fun b hb => ?_) is
  rw [← Except.ok.inj hb]
  exact ⟨start_ok, start_counted, trivial⟩

/-- A condition on a plugin that has not faulted. -/
def Unless (G : Bang → BangStep → Prop) (x : Except Fault Bang) (i : BangStep) : Prop :=
  ∀ b, x = .ok b → ¬G b i

variable {I D : Bang → Prop} {G : Bang → BangStep → Prop} {js : List BangStep} {x : Except Fault Bang}

/-- What every step keeps that does not meet `G`, a run without such steps keeps. -/
theorem Reached.run (hx : Reached I x)
    (keep : ∀ (b b' : Bang) i, b.Ok → b.Counted 0 → I b → ¬G b i → b.Moves i b' → I b')
    (hG : EachStep Bang.next (Unless G) x js) : Reached I (js.foldl Bang.next x) :=
  foldl_of_eachStep (fun _ i hx hi => hx.next fun b b' hb hok hcount hI hm =>
    keep b b' i hok hcount hI (hi b hb) hm) hx hG

/-- A step that meets `G` leads into `D`, which no step leaves. -/
theorem Reached.run_breaks (hx : Reached I x)
    (keep : ∀ (b b' : Bang) i, b.Ok → b.Counted 0 → I b → ¬G b i → b.Moves i b' → I b')
    (break_ : ∀ (b b' : Bang) i, b.Ok → b.Counted 0 → I b → G b i → b.Moves i b' → D b')
    (stay : ∀ (b b' : Bang) i, b.Ok → b.Counted 0 → D b → b.Moves i b' → D b')
    (hG : ¬EachStep Bang.next (Unless G) x js) : Reached D (js.foldl Bang.next x) := by
  refine foldl_of_not_eachStep (fun x i hx hi => ?_) (fun x i hx hi => ?_) (fun x i hx => ?_) hx hG
  · exact hx.next fun b b' hb hok hcount hI hm => keep b b' i hok hcount hI (hi b hb) hm
  · refine hx.next fun b b' hb hok hcount hI hm => break_ b b' i hok hcount hI ?_ hm
    by_contra hno
    exact hi fun b₀ hb₀ => by rwa [← Except.ok.inj (hb.symm.trans hb₀)]
  · exact hx.next fun b b' _ hok hcount hD hm => stay b b' i hok hcount hD hm

/-! ## A QUIT -/

/-- The user `uid` has quit the connection `c`: it is not on it, and the connection is freed. -/
def HasQuit (b : Bang) (uid : Uid) (c : BangConn) : Prop :=
  (∀ a, ¬b.On uid a c) ∧ b.socks c = none

/-- The worker of a plugin that a run has reached is about to process `q`, a QUIT on the connection of
the user `uid`, on which the event loop listens. -/
structure AtQuit (b : Bang) (q : BangRequest) (uid : Uid) : Prop where
  reached : ∃ is : List BangStep, is.foldl Bang.next (.ok .start) = .ok b
  running : b.running = none
  queue : ∃ rest, b.queue = q :: rest
  quit : q.cmd = .quit
  on : ∃ a, b.On uid a q.conn
  live : ∃ k, b.socks q.conn = some k ∧ k.evt = true

/-- The connection's socket names the user, the connection is given up, and no JOIN makes a record on
it. -/
def QuitsWhen (b : Bang) (env : BangEnv) (q : BangRequest) (uid : Uid) (js : List BangStep) : Prop :=
  (∃ k a, b.socks q.conn = some k ∧ k.appdata = some a ∧ b.On uid a q.conn) ∧
    ¬EachStep Bang.next (Unless fun b => b.GivesUp q.conn) (Bang.next (.ok b) (.process env)) js ∧
      EachStep Bang.next (Unless fun b i => ∃ uid', b.FilesOn uid' q.conn i)
        (Bang.next (.ok b) (.process env)) js

/-- A QUIT that ends leaves connections and users as they were. -/
theorem AtQuit.next (h : b.AtQuit q uid) (hI : ∀ rest, I (b.taken q rest)) :
    Reached I (Bang.next (.ok b) (.process env)) := by
  intro b₁ hs
  obtain ⟨rest, hqueue⟩ := h.queue
  obtain ⟨is, hreach⟩ := h.reached
  obtain ⟨hok, hcount, -⟩ := run_reached is b hreach
  have hok' : (b.taken q rest).Ok := hok.keeps (b.take_keeps q rest)
  obtain ⟨err, hrun⟩ := (step_process_iff h.running hqueue).mp hs
  have heffect := (hok'.command env q).2 b₁ err hrun
  unfold CommandEffect at heffect
  rw [h.quit] at heffect
  rw [show b₁ = b.taken q rest from heffect]
  exact ⟨hok', hcount.taken h.running hqueue, hI rest⟩

/-- In every state that the plugin reaches, a QUIT on the live connection of a user leads to the user's
and the connection's end, in every run that goes on until no entry refers to the connection, if and
only if the socket names the user, something else gives the connection up, and no JOIN makes a record
on it before that. -/
theorem hasQuit_iff {js : List BangStep} (h : b.AtQuit q uid)
    (hrun : (.process env :: js).foldl Bang.next (.ok b) = .ok b')
    (hentries : b'.entries q.conn = 0) :
    b'.HasQuit uid q.conn ↔ b.QuitsWhen env q uid js := by
  obtain ⟨a, hon⟩ := h.on
  obtain ⟨k, hc, hevt⟩ := h.live
  obtain ⟨is, hreach⟩ := h.reached
  have hlt := (run_reached is b hreach).2.1.lt hc
  have hrest : js.foldl Bang.next (Bang.next (.ok b) (.process env)) = .ok b' := hrun
  have hopen : Reached (fun b => ∃ k, b.socks q.conn = some k ∧ k.evt = true)
      (Bang.next (.ok b) (.process env)) := h.next fun _ => ⟨k, hc, hevt⟩
  have hgoes : k.appdata = some a → Reached (fun b => b.GoesWith uid q.conn)
      (Bang.next (.ok b) (.process env)) := fun happ => h.next fun _ =>
    ⟨hlt, fun k' hk' => ⟨a, by rwa [← Option.some.inj (hc.symm.trans hk')], hon⟩,
      fun hnone => absurd (hc.symm.trans hnone) (Option.some_ne_none k)⟩
  have hleft : ∀ {x : Except Fault Bang}, Reached (fun b => b.LeftBehind uid q.conn) x →
      Reached (fun b => b.LeftBehind uid q.conn) (js.foldl Bang.next x) := fun hx =>
    hx.run (G := fun _ _ => False)
      (fun b b' i hok hcount hI _ hm => hm.keeps hok hcount kept_leftBehind hI)
      (eachStep_of_forall (fun _ _ _ _ => id) _ _)
  constructor
  · rintro ⟨hgone, hfreed⟩
    have hnotleft : ¬b'.LeftBehind uid q.conn := fun ⟨a', hon', _⟩ => hgone a' hon'
    have happ : k.appdata = some a := by
      by_contra happ
      have hnext : Reached (fun b => b.LeftBehind uid q.conn) (Bang.next (.ok b) (.process env)) :=
        h.next fun _ => ⟨a, hon, fun k' hk' => by rwa [← Option.some.inj (hc.symm.trans hk')]⟩
      exact hnotleft (hleft hnext b' hrest).2.2
    refine ⟨⟨k, a, hc, happ, hon⟩, fun hG => ?_, ?_⟩
    · obtain ⟨-, -, k', hk', -⟩ := hopen.run (fun b b' i hok hcount hI hi hm =>
        hm.open hok hcount hI hi) hG b' hrest
      rw [hfreed] at hk'
      cases hk'
    · by_contra hG
      refine hnotleft ((hgoes happ).run_breaks (D := fun b => b.LeftBehind uid q.conn) ?_ ?_ ?_ hG
        b' hrest).2.2
      · exact fun b b' i hok hcount hI hi hm => hm.keeps hok hcount
          (kept_goesWith fun uid' hfiles => hi ⟨uid', hfiles⟩) hI
      · exact fun b b' i hok hcount hI ⟨uid', hi⟩ hm => hm.leftBehind hok hI hi
      · exact fun b b' i hok hcount hI hm => hm.keeps hok hcount kept_leftBehind hI
  · rintro ⟨⟨k', a', hc', happ, hon'⟩, hup, hfiles⟩
    obtain rfl := Option.some.inj (hc.symm.trans hc')
    obtain rfl := (hon.unique hon').1
    obtain ⟨-, hcount, hgoes'⟩ := (hgoes happ).run (fun b b' i hok hcount hI hi hm =>
      hm.keeps hok hcount (kept_goesWith fun uid' hfiles => hi ⟨uid', hfiles⟩) hI) hfiles b' hrest
    have hshut := (hopen.run_breaks (D := fun b => b.Shut q.conn)
      (fun b b' i hok hcount hI hi hm => hm.open hok hcount hI hi)
      (fun b b' i hok hcount hI hi hm => by
        obtain ⟨k, hk, -⟩ := hI
        exact hm.shut hok hcount (hcount.lt hk) hi)
      (fun b b' i hok hcount hI hm => hm.keeps hok hcount kept_shut hI) hup b' hrest).2.2
    -- Neither the event loop nor an entry has a reference.
    have hfreed : b'.socks q.conn = none := by
      cases hk' : b'.socks q.conn with
      | none => rfl
      | some k' =>
        have hcount' := hcount.count q.conn k' hk'
        have hpos := hcount.positive q.conn k' hk'
        rw [hshut.2 k' hk', hentries, Pi.zero_apply] at hcount'
        simp only [Bool.false_eq_true, if_false, Nat.cast_zero] at hcount'
        omega
    exact ⟨hgoes'.gone hfreed, hfreed⟩

/-- A user that has quit is filed nowhere, unless a JOIN has made a record on another connection. -/
theorem AtQuit.lookup_eq_none {js : List BangStep} (h : b.AtQuit q uid)
    (hrun : (.process env :: js).foldl Bang.next (.ok b) = .ok b')
    (hG : EachStep Bang.next (Unless fun b i => ∃ c ≠ q.conn, b.FilesOn uid c i)
      (Bang.next (.ok b) (.process env)) js) (hquit : b'.HasQuit uid q.conn) :
    b'.userh.lookup uid = none := by
  obtain ⟨a, hon⟩ := h.on
  have hnext : Reached (fun b => ∀ a c, b.On uid a c → c = q.conn)
      (Bang.next (.ok b) (.process env)) :=
    h.next fun _ a' c' hon' => (hon.unique (show b.On uid a' c' from hon')).2
  obtain ⟨hok, -, honly⟩ := hnext.run (fun b b' i hok hcount hI hi hm =>
    hm.keeps hok hcount (kept_only fun c' hne hfiles => hi ⟨c', hne, hfiles⟩) hI) hG b' hrun
  refine hok.lookup_eq_none fun a' c' hon' => ?_
  obtain rfl := honly a' c' hon'
  exact hquit.1 a' hon'

end Bang

/-! ## Both plugins -/

/-- In every state that a server reaches, a QUIT of a user on a live connection leads to the end of
both, in every run that goes on until no entry refers to the connection, exactly under a condition.
For the base plugin: the socket names the user, its descriptor is not 0, and no JOIN makes a record on
the connection meanwhile. For the bang plugin, where the QUIT does nothing: the socket names the user,
something else gives the connection up, and no JOIN makes a record on it. A user that has quit is not
in `userh`, unless it has joined on another connection. -/
theorem quits_iff {ι HDF : Type} [DecidableEq ι] [Fintype ι] (H : PushLib HDF) {uid : Uid} :
    (∀ {sv sv' : Server ι HDF} {p : ι} {user : Bool} {u : BaseUser} {sock : TcpSocket ι}
        {js : List (ServerStep ι HDF)},
      sv.AtQuit H p uid u sock →
        (.process p user :: js).foldl (Server.next H) (.ok sv) = .ok sv' →
        sv'.world.uses u.tcpsock = 0 →
        (sv'.world.HasQuit p uid u.tcpsock ↔ sv.QuitsWhen H p user uid u.tcpsock sock js) ∧
          (EachStep (Server.next H) (fun x i => ∀ t ≠ u.tcpsock, ¬Server.FilesOn H p uid t x i)
              (Server.next H (.ok sv) (.process p user)) js →
            sv'.world.HasQuit p uid u.tcpsock → baseUserFind sv'.world p uid = none)) ∧
    ∀ {b b' : Bang} {q : BangRequest} {env : BangEnv} {js : List BangStep},
      b.AtQuit q uid → (.process env :: js).foldl Bang.next (.ok b) = .ok b' →
        b'.entries q.conn = 0 →
        (b'.HasQuit uid q.conn ↔ b.QuitsWhen env q uid js) ∧
          (EachStep Bang.next (Bang.Unless fun b i => ∃ c ≠ q.conn, b.FilesOn uid c i)
              (Bang.next (.ok b) (.process env)) js →
            b'.HasQuit uid q.conn → b'.userh.lookup uid = none) :=
  ⟨fun hquit hrun huses =>
      ⟨Server.hasQuit_iff hquit hrun huses, fun hG => hquit.find_eq_none hrun hG⟩,
    fun hquit hrun hentries =>
      ⟨Bang.hasQuit_iff hquit hrun hentries, fun hG => hquit.lookup_eq_none hrun hG⟩⟩

/-- A user of the base plugin joins, and a worker takes its QUIT. -/
def joinsAndQuits : List (ServerStep Unit (List UInt8)) :=
  [.accept 0 5, .request 0 1 reqCmdBaseJoin 0 (ascii "a") [97], .take (), .process () true, .free (),
    .request 0 2 reqCmdBaseQuit 0 (ascii "a") [97], .take ()]

/-- A user of the bang plugin joins, looks for a battle and asks for its QUIT. -/
def playsAndQuits : List BangStep :=
  [.accept 5, .request ⟨1, 5⟩ (.join (some (ascii "a"))) true,
    .process ⟨true, fun _ => none, .listed, []⟩, .free, .request ⟨1, 5⟩ .toBattle true,
    .process ⟨true, fun _ => none, .listed, []⟩, .free, .request ⟨1, 5⟩ .quit true]

theorem Server.filesNone_free (H : PushLib HDF) {ι : Type} [DecidableEq ι] (s : ℕ) (p : ι)
    (x : Except Fault (Server ι HDF)) : Server.FilesNone H s x (.free p) := by
  rintro p' uid hfiles
  cases x with
  | error f => exact hfiles
  | ok sv =>
    obtain ⟨e, hi, -⟩ := hfiles
    cases hi

/-- Where the user of the bang plugin stands before the QUIT, after it, and when the connection is
closed. -/
theorem exists_playsAndQuits : ∃ (b b₁ b₂ : Bang) (q : BangRequest) (k : BangSocket),
    playsAndQuits.foldl Bang.next (.ok .start) = .ok b ∧
      [BangStep.process ⟨true, fun _ => none, .listed, []⟩, .free].foldl Bang.next (.ok b) = .ok b₁ ∧
      Bang.next (.ok b₁) (.close ⟨1, 5⟩) = .ok b₂ ∧ b.AtQuit q (ascii "a") ∧ q.conn = ⟨1, 5⟩ ∧
      (b.socks ⟨1, 5⟩ = some k ∧ k.appdata = some 0 ∧ b.On (ascii "a") 0 ⟨1, 5⟩) ∧
      b₁.entries ⟨1, 5⟩ = 0 ∧ b₁.socks ⟨1, 5⟩ ≠ none ∧ b₂.entries ⟨1, 5⟩ = 0 :=
  ⟨_, _, _, _, _, rfl, rfl, rfl,
    ⟨⟨playsAndQuits, rfl⟩, rfl, ⟨_, rfl⟩, rfl, ⟨0, rfl, _, rfl, rfl⟩, _, rfl, rfl⟩,
    rfl, ⟨rfl, rfl, rfl, _, rfl, rfl⟩, by decide +kernel, nofun, by decide +kernel⟩

theorem quits_playsAndQuits :
    (∃ sv', (joinsAndQuits ++ [ServerStep.process () true, .free ()]).foldl (Server.next useridHdf)
        (.ok (.start [] (.single (ascii "a")))) = .ok sv' ∧ sv'.world.HasQuit () [97] 0) ∧
      ∃ b', (playsAndQuits ++ [BangStep.process ⟨true, fun _ => none, .listed, []⟩, .free,
        .close ⟨1, 5⟩]).foldl Bang.next (.ok .start) = .ok b' ∧ b'.HasQuit (ascii "a") ⟨1, 5⟩ := by
  constructor
  · obtain ⟨sv, sv', e, u, sock, hreach, hrun, hrunning, hquits, hu, hs, hlive, huses, happ, hfd⟩ :
        ∃ (sv sv' : Server Unit (List UInt8)) (e : QueueEntry (List UInt8)) (u : BaseUser)
          (sock : TcpSocket Unit),
          joinsAndQuits.foldl (Server.next useridHdf) (.ok (.start [] (.single (ascii "a")))) = .ok sv ∧
          [ServerStep.process () true, .free ()].foldl (Server.next useridHdf) (.ok sv) = .ok sv' ∧
          (sv.world.running () = some e ∧ sv.processed () = false) ∧ Quits useridHdf e [97] ∧
          baseUserFind sv.world () [97] = some u ∧ u.tcpsock = 0 ∧
          registered sv.world 0 = some sock ∧ sv'.world.uses 0 = 0 ∧
          sock.appdata = some ((), [97]) ∧ sock.fd = 5 :=
      ⟨_, _, _, _, _, rfl, rfl, ⟨rfl, rfl⟩, ⟨rfl, rfl⟩, rfl, rfl, rfl, by decide +kernel, rfl, rfl⟩
    have hat : sv.AtQuit useridHdf () [97] u sock :=
      ⟨⟨_, _, _, hreach⟩, ⟨e, hrunning.1, hrunning.2, hquits⟩, hu, by rw [hs, hlive]⟩
    have hquit := ((quits_iff useridHdf).1 hat hrun (by rw [hs, huses])).1.mpr
      ⟨happ, by rw [hfd]; decide, Server.filesNone_free _ _ _ _, trivial⟩
    rw [hs] at hquit
    exact ⟨sv', by rw [List.foldl_append, hreach, hrun], hquit⟩
  · obtain ⟨b, b₁, b₂, q, k, hreach, hrun, hclose, hat, hconn, hnames, -, -, hentries⟩ :=
      exists_playsAndQuits
    have hjs : (BangStep.process ⟨true, fun _ => none, .listed, []⟩ :: [.free, .close ⟨1, 5⟩]).foldl
        Bang.next (.ok b) = .ok b₂ := by
      rw [← hclose, ← hrun]
      rfl
    have hquit := ((quits_iff (ι := Unit) useridHdf).2 hat hjs (by rw [hconn, hentries])).1.mpr
      ⟨⟨k, 0, by rwa [hconn]⟩, ?_, ?_, ?_, trivial⟩
    · rw [hconn] at hquit
      exact ⟨b₂, by rw [List.foldl_append, hreach, hjs], hquit⟩
    -- The connection is closed.
    · rintro ⟨-, hnever, -⟩
      exact hnever b₁ hrun (Or.inl (by rw [hconn]))
    · rintro _ - ⟨uid', q', ⟨env, rest, userid, hi, -⟩, -⟩
      cases hi
    · rintro _ - ⟨uid', q', ⟨env, rest, userid, hi, -⟩, -⟩
      cases hi

/-- Two users of the base plugin join on one connection, and the first one quits. -/
def joinsTwiceAndQuits : List (ServerStep Unit (List UInt8)) :=
  [.accept 0 5, .request 0 1 reqCmdBaseJoin 0 (ascii "a") [97], .take (), .process () true, .free (),
    .request 0 2 reqCmdBaseJoin 0 (ascii "a") [98], .take (), .process () true, .free (),
    .request 0 3 reqCmdBaseQuit 0 (ascii "a") [97], .take ()]

/-- The connection of the two users is closed, and the one that has quit is still in `userh`. The user
of the bang plugin that has quit is still there, with its connection. -/
theorem not_quits : (¬∀ {ι HDF : Type} [DecidableEq ι] [Fintype ι] {H : PushLib HDF}
      {sv sv' : Server ι HDF} {p : ι} {user : Bool} {uid : Uid} {u : BaseUser} {sock : TcpSocket ι}
      {js : List (ServerStep ι HDF)}, sv.AtQuit H p uid u sock →
        (.process p user :: js).foldl (Server.next H) (.ok sv) = .ok sv' →
        sv'.world.uses u.tcpsock = 0 → sv'.world.HasQuit p uid u.tcpsock) ∧
    ¬∀ {b b' : Bang} {q : BangRequest} {env : BangEnv} {uid : Uid} {js : List BangStep},
      b.AtQuit q uid → (.process env :: js).foldl Bang.next (.ok b) = .ok b' →
        b'.entries q.conn = 0 → b'.HasQuit uid q.conn := by
  constructor
  · intro hall
    obtain ⟨sv, sv', e, u, sock, hreach, hrun, hrunning, hquits, hu, hs, hlive, huses, u', hu', hs'⟩ :
        ∃ (sv sv' : Server Unit (List UInt8)) (e : QueueEntry (List UInt8)) (u : BaseUser)
          (sock : TcpSocket Unit),
          joinsTwiceAndQuits.foldl (Server.next useridHdf) (.ok (.start [] (.single (ascii "a")))) =
            .ok sv ∧
          [ServerStep.process () true, .free ()].foldl (Server.next useridHdf) (.ok sv) = .ok sv' ∧
          (sv.world.running () = some e ∧ sv.processed () = false) ∧ Quits useridHdf e [97] ∧
          baseUserFind sv.world () [97] = some u ∧ u.tcpsock = 0 ∧
          registered sv.world 0 = some sock ∧ sv'.world.uses 0 = 0 ∧
          ∃ u', baseUserFind sv'.world () [97] = some u' ∧ u'.tcpsock = 0 :=
      ⟨_, _, _, _, _, rfl, rfl, ⟨rfl, rfl⟩, ⟨rfl, rfl⟩, rfl, rfl, rfl, by decide +kernel, _, rfl, rfl⟩
    have hat : sv.AtQuit useridHdf () [97] u sock :=
      ⟨⟨_, _, _, hreach⟩, ⟨e, hrunning.1, hrunning.2, hquits⟩, hu, by rw [hs, hlive]⟩
    exact (hall hat hrun (by rw [hs, huses])).user u' hu' (hs'.trans hs.symm)
  · intro hall
    obtain ⟨b, b₁, -, q, -, -, hrun, -, hat, hconn, -, hentries, hsocks, -⟩ := exists_playsAndQuits
    obtain ⟨-, hfreed⟩ := hall hat hrun (by rw [hconn, hentries])
    rw [hconn] at hfreed
    exact hsocks hfreed

end Moc
