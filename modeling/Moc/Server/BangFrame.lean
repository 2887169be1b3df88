import Moc.Server.Seating

/-!
# What a command leaves alone

TO_BATTLE and ACCEPT_BATTLE change states, seats and the idle users, and nothing else of the plugin.
`Bang.Frame` is a relation that such changes are in, and the functions behind the two commands only
make such changes. `SameConns` is one: connections, requests and ids stay as they are. -/

open Bytes Memory Runs

namespace Moc

namespace Bang

variable {b b' b₁ : Bang} {a : ℕ} {u : BangUser} {uid : Uid} {t : TableId} {c : BangConn}
  {env : BangEnv} {q : BangRequest} {R : Bang → Bang → Prop}

/-! ## States, seats and idle users -/

/-- `R` relates a plugin to what becomes of it when states, seats or the idle users change. -/
structure Frame (R : Bang → Bang → Prop) : Prop where
  refl : ∀ b, R b b
  trans : ∀ {b b₁ b'}, R b b₁ → R b₁ b' → R b b'
  setState : ∀ (b : Bang) a state, R b (b.setState a state)
  seat : ∀ (b : Bang) t a uid, R b (b.seat t a uid)
  tables : ∀ (b : Bang) tables, R b { b with tables := tables }
  addIdle : ∀ {b : Bang} {uid}, b.idleHash.lookup uid = none → ∀ a,
    R b { b with idleHash := b.idleHash.insert uid a, idleNumber := b.idleNumber + 1 }
  removeIdle : ∀ {b : Bang} {uid}, b.idleHash.lookup uid ≠ none → R b (b.removeIdle uid)

theorem Frame.transitIdle (hR : Frame R) (h : b.bangStateTransitIdle a = .ok b') : R b b' := by
  unfold bangStateTransitIdle at h
  obtain ⟨user, -, h⟩ := bind_eq_ok.mp h
  obtain ⟨uid, -, h⟩ := bind_eq_ok.mp h
  split_ifs at h with hidle
  · rw [← Except.ok.inj h]
    exact hR.setState b a .idle
  · rw [← Except.ok.inj h]
    exact hR.trans (hR.addIdle (Option.not_isSome_iff_eq_none.mp hidle) a) (hR.setState _ _ _)

theorem Frame.transitBattling (hR : Frame R) {err : Option NeoErr}
    (h : b.bangStateTransitBattling env a = .ok (b', err)) : R b b' := by
  unfold bangStateTransitBattling at h
  obtain ⟨user, -, h⟩ := bind_eq_ok.mp h
  obtain ⟨uid, -, h⟩ := bind_eq_ok.mp h
  split_ifs at h with hidle
  · rw [← (Prod.mk.inj (Except.ok.inj h)).1]
    exact hR.setState b a .unknown
  have hremove : R b ((b.removeIdle uid).setState a .battling) := by
    refine hR.trans (hR.removeIdle fun hnone => hidle ?_) (hR.setState _ _ _)
    rw [hnone]
    rfl
  -- What is sent then changes nothing.
  cases ht : user.table with
  | none =>
    rw [ht] at h
    cases h
  | some t =>
    rw [ht] at h
    dsimp only at h
    cases hmsg : env.msgNew a <;>
    · rw [hmsg] at h
      rw [← (Prod.mk.inj (Except.ok.inj h)).1]
      exact hremove

theorem Frame.inviteIdle (hR : Frame R) {n : ℤ} {l : List (Σ _ : Uid, ℕ)}
    (h : inviteIdle t a n b l = .ok b') : R b b' := by
  induction l generalizing b with
  | nil =>
    rw [← Except.ok.inj h]
    exact hR.refl b
  | cons e l ih =>
    obtain ⟨k, o⟩ := e
    rw [Bang.inviteIdle] at h
    obtain ⟨ouser, -, h⟩ := bind_eq_ok.mp h
    split_ifs at h
    · exact ih h
    · rw [← Except.ok.inj h]
      exact hR.refl b
    · obtain ⟨uid, -, h⟩ := bind_eq_ok.mp h
      exact hR.trans (hR.trans (hR.seat b t o uid) (hR.setState _ _ _)) (ih h)

theorem Frame.broadcast (hR : Frame R) {err : Option NeoErr}
    (h : b.bangBroadcastToBattleMessage env a = .ok (b', err)) : R b b' := by
  unfold bangBroadcastToBattleMessage at h
  obtain ⟨user, -, h⟩ := bind_eq_ok.mp h
  split_ifs at h
  · rw [← (Prod.mk.inj (Except.ok.inj h)).1]
    exact hR.refl b
  cases hselect : b.bangAutoselectTableInRoom with
  | none =>
    rw [hselect] at h
    cases h
  | some t =>
    rw [hselect] at h
    dsimp only at h
    obtain ⟨uid, -, h⟩ := bind_eq_ok.mp h
    have hseat := hR.seat b t a uid
    split_ifs at h
    · exact hR.trans hseat (hR.transitBattling h)
    · rw [← (Prod.mk.inj (Except.ok.inj h)).1]
      exact hR.trans hseat (hR.setState _ _ _)
    · cases hmsg : env.msgNew a with
      | some err =>
        rw [hmsg] at h
        rw [← (Prod.mk.inj (Except.ok.inj h)).1]
        exact hseat
      | none =>
        rw [hmsg] at h
        dsimp only at h
        obtain ⟨b₁, hinvite, h⟩ := bind_eq_ok.mp h
        rw [← (Prod.mk.inj (Except.ok.inj h)).1]
        exact hR.trans (hR.trans hseat (hR.inviteIdle hinvite)) (hR.setState _ _ _)

theorem Frame.battleAll (hR : Frame R) {l : List (Σ _ : Uid, ℕ)} {err : Option NeoErr}
    (h : battleAll env b l = .ok (b', err)) : R b b' := by
  induction l generalizing b with
  | nil =>
    rw [← (Prod.mk.inj (Except.ok.inj h)).1]
    exact hR.refl b
  | cons e l ih =>
    rw [Bang.battleAll] at h
    obtain ⟨⟨b₁, err₁⟩, hone, h⟩ := bind_eq_ok.mp h
    have hfirst := hR.transitBattling hone
    dsimp only at h
    cases err₁ with
    | some err₁ =>
      rw [← (Prod.mk.inj (Except.ok.inj h)).1]
      exact hfirst
    | none => exact hR.trans hfirst (ih h)

theorem Frame.cmdToBattle (hR : Frame R) {err : Option NeoErr}
    (h : b.cmdToBattle env q = .ok (b', err)) : R b b' := by
  unfold Bang.cmdToBattle at h
  obtain ⟨r, -, h⟩ := bind_eq_ok.mp h
  cases r with
  | error err =>
    rw [← (Prod.mk.inj (Except.ok.inj h)).1]
    exact hR.refl b
  | ok a => exact hR.broadcast h

theorem Frame.cmdAcceptBattle (hR : Frame R) {err : Option NeoErr}
    (h : b.cmdAcceptBattle env q = .ok (b', err)) : R b b' := by
  unfold Bang.cmdAcceptBattle at h
  obtain ⟨r, -, h⟩ := bind_eq_ok.mp h
  cases r with
  | error err =>
    rw [← (Prod.mk.inj (Except.ok.inj h)).1]
    exact hR.refl b
  | ok a =>
    dsimp only at h
    obtain ⟨user, -, h⟩ := bind_eq_ok.mp h
    cases ht : user.table with
    | none =>
      rw [ht] at h
      cases h
    | some t =>
      rw [ht] at h
      dsimp only at h
      obtain ⟨hash, -, h⟩ := bind_eq_ok.mp h
      exact hR.trans (hR.trans (hR.setState b a .acceptBattle) (hR.tables _ _)) (hR.battleAll h)

/-- The push that a JOIN ends with changes nothing. -/
theorem cmdJoin_eq_ok {userid : Option Uid} {err : Option NeoErr}
    (h : b.cmdJoin env q userid = .ok (b', err)) :
    ∃ err', b.bangUserNew env q userid = .ok (b', err') := by
  unfold Bang.cmdJoin at h
  obtain ⟨⟨b₁, err₁⟩, hnew, h⟩ := bind_eq_ok.mp h
  refine ⟨err₁, ?_⟩
  dsimp only at h
  cases err₁ with
  | some err₁ => rwa [(Prod.mk.inj (Except.ok.inj h)).1] at hnew
  | none =>
    dsimp only at h
    split_ifs at h
    · rwa [(Prod.mk.inj (Except.ok.inj h)).1] at hnew
    · cases hmsg : env.msgNew b.nextUser <;>
      · rw [hmsg] at h
        rwa [(Prod.mk.inj (Except.ok.inj h)).1] at hnew

/-! ## Connections, requests and ids -/

/-- `uid` is filed as the user `a` of the connection `c`. -/
def On (b : Bang) (uid : Uid) (a : ℕ) (c : BangConn) : Prop :=
  b.userh.lookup uid = some a ∧ ∃ u, b.users a = some u ∧ u.conn = c

/-- The same connections and requests, and the same users on them. -/
structure SameConns (b b' : Bang) : Prop where
  socks : b'.socks = b.socks
  nextSock : b'.nextSock = b.nextSock
  queue : b'.queue = b.queue
  running : b'.running = b.running
  on : ∀ uid a c, b'.On uid a c ↔ b.On uid a c

/-- A user that is written keeps its connection. -/
theorem SameConns.update {f : BangUser → BangUser} (hf : ∀ u, (f u).conn = u.conn)
    (husers : b'.users = Function.update b.users a ((b.users a).map f)) (huserh : b'.userh = b.userh)
    (hsocks : b'.socks = b.socks) (hnextSock : b'.nextSock = b.nextSock)
    (hqueue : b'.queue = b.queue) (hrunning : b'.running = b.running) : b.SameConns b' := by
  refine ⟨hsocks, hnextSock, hqueue, hrunning, fun uid a' c => ?_⟩
  unfold On
  rw [huserh, husers]
  refine and_congr_right fun _ => ?_
  by_cases ha : a' = a
  · rw [ha, Function.update_self]
    cases b.users a with
    | none => exact Iff.rfl
    | some u => simp [hf]
  · rw [Function.update_of_ne ha]

theorem SameConns.frame : Frame SameConns where
  refl _ := ⟨rfl, rfl, rfl, rfl, fun _ _ _ => Iff.rfl⟩
  trans h h' := ⟨h'.socks.trans h.socks, h'.nextSock.trans h.nextSock, h'.queue.trans h.queue,
    h'.running.trans h.running, fun uid a c => (h'.on uid a c).trans (h.on uid a c)⟩
  setState _ _ state := .update (f := fun u => { u with state := state }) (fun _ => rfl) rfl rfl rfl
    rfl rfl rfl
  seat _ t _ _ := .update (f := fun u => { u with table := some t }) (fun _ => rfl) rfl rfl rfl rfl
    rfl rfl
  tables _ _ := ⟨rfl, rfl, rfl, rfl, fun _ _ _ => Iff.rfl⟩
  addIdle _ _ := ⟨rfl, rfl, rfl, rfl, fun _ _ _ => Iff.rfl⟩
  removeIdle _ := ⟨rfl, rfl, rfl, rfl, fun _ _ _ => Iff.rfl⟩

end Bang

end Moc
