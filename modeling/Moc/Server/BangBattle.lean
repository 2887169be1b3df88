import Moc.Server.Seating

/-!
# How a battle starts

`cmd_accept_battle` is to keep those at the table who look for a battle, and to put them and the
user who accepts into it. Its first loop removes `uid`, to which nothing was assigned, in place of
the user it has come to, and it does not count down. `bang_battleStarts_iff` says when the battle
starts all the same. -/

open Bytes Memory Runs

namespace Moc

namespace Bang

variable {b b' b₁ : Bang} {a o : ℕ} {u : BangUser} {k uid : Uid} {t : TableId} {env : BangEnv}
  {q : BangRequest}

/-! ## The second loop -/

/-- The state that `bang_state_transit_battling` gives to the user `uid`. -/
def battleState (b : Bang) (uid : Uid) : BattleState :=
  if (b.idleHash.lookup uid).isSome then .battling else .unknown

/-- A user with a table, to whom the push can be sent. -/
theorem bangStateTransitBattling_eq (hu : b.users a = some u) (huid : u.uid = some uid)
    (ht : u.table ≠ none) (hmsg : env.msgNew a = none) (hfd : 0 < u.conn.fd) :
    ∃ b', b.bangStateTransitBattling env a = .ok (b', none) ∧ b'.tables = b.tables ∧
      b'.users = Function.update b.users a (some { u with state := b.battleState uid }) ∧
      ∀ k, k ≠ uid → b'.idleHash.lookup k = b.idleHash.lookup k := by
  obtain ⟨_, conn, table, state₀⟩ := u
  dsimp only at huid ht hfd
  obtain ⟨t, rfl⟩ := Option.ne_none_iff_exists'.mp ht
  subst huid
  have hsend : baseMsgSend conn.fd = none := if_neg (by omega)
  have hset : ∀ (b₁ : Bang) state, b₁.users = b.users → (b₁.setState a state).users =
      Function.update b.users a (some ⟨some uid, conn, some t, state⟩) := by
    intro b₁ state hsame
    unfold setState
    rw [hsame, hu, Option.map_some]
  unfold bangStateTransitBattling battleState
  rw [derefUser_of_some hu, ok_bind]
  dsimp only [readStr]
  rw [ok_bind]
  cases hidle : b.idleHash.lookup uid with
  | none => exact ⟨_, rfl, rfl, hset _ _ rfl, fun _ _ => rfl⟩
  | some a' =>
    rw [if_neg (by simp), hmsg, hsend]
    exact ⟨_, rfl, rfl, hset _ _ rfl, fun k hk => AList.lookup_erase_ne hk⟩

/-- The second loop meets a user that was freed, or gives every user of the list its state and leaves
the others alone. -/
theorem battleAll_states {l : List (Σ _ : Uid, ℕ)} (hmsg : ∀ o, env.msgNew o = none)
    (hl : ∀ e ∈ l, ∀ v, b.users e.2 = some v → v.uid = some e.1 ∧ v.table ≠ none ∧ 0 < v.conn.fd)
    (hnodup : (l.map Sigma.fst).Nodup) :
    (battleAll env b l = .error .useAfterFree ∧ ∃ e ∈ l, b.users e.2 = none) ∨
      ∃ b', battleAll env b l = .ok (b', none) ∧ b'.tables = b.tables ∧
        (∀ e ∈ l, ∃ v, b.users e.2 = some v ∧
          b'.users e.2 = some { v with state := b.battleState e.1 }) ∧
        ∀ o, (∀ e ∈ l, e.2 ≠ o) → b'.users o = b.users o := by
  induction l generalizing b with
  | nil => exact Or.inr ⟨b, rfl, rfl, nofun, fun _ _ => rfl⟩
  | cons e l ih =>
    obtain ⟨k, o⟩ := e
    rw [List.map_cons, List.nodup_cons] at hnodup
    rw [battleAll]
    cases hu : b.users o with
    | none =>
      rw [bangStateTransitBattling, derefUser, hu, error_bind, error_bind]
      exact Or.inl ⟨rfl, ⟨k, o⟩, List.mem_cons_self, hu⟩
    | some u =>
      obtain ⟨huid, ht, hfd⟩ := hl ⟨k, o⟩ List.mem_cons_self u hu
      obtain ⟨b₁, hb₁, htables, husers, hidle⟩ :=
        bangStateTransitBattling_eq hu huid ht (hmsg o) hfd
      rw [hb₁, ok_bind]
      -- The rest of the list are other users under other ids.
      have hkey : ∀ e ∈ l, e.1 ≠ k := fun e he heq =>
        hnodup.1 (List.mem_map.mpr ⟨e, he, heq⟩)
      have hne : ∀ e ∈ l, e.2 ≠ o := by
        intro e he heq
        rw [← heq] at hu
        have huid' := (hl e (List.mem_cons_of_mem _ he) u hu).1
        exact hkey e he (Option.some.inj (huid'.symm.trans huid))
      have hsame : ∀ o', o' ≠ o → b₁.users o' = b.users o' := by
        intro o' ho'
        rw [husers, Function.update_of_ne ho']
      have hrest : ∀ e ∈ l, ∀ v, b₁.users e.2 = some v →
          v.uid = some e.1 ∧ v.table ≠ none ∧ 0 < v.conn.fd := by
        intro e he v hv
        rw [hsame e.2 (hne e he)] at hv
        exact hl e (List.mem_cons_of_mem _ he) v hv
      rcases ih hrest hnodup.2 with ⟨hfree, e, he, hnone⟩ | ⟨b', hb', htables', hstates, hothers⟩
      · rw [hsame e.2 (hne e he)] at hnone
        exact Or.inl ⟨hfree, e, List.mem_cons_of_mem _ he, hnone⟩
      refine Or.inr ⟨b', hb', htables'.trans htables, fun e he => ?_, fun o' ho' => ?_⟩
      · rcases List.mem_cons.mp he with rfl | he
        · refine ⟨u, hu, ?_⟩
          rw [hothers o hne, husers, Function.update_self]
        · obtain ⟨v, hv, hv'⟩ := hstates e he
          rw [hsame e.2 (hne e he)] at hv
          refine ⟨v, hv, ?_⟩
          rw [hv']
          unfold battleState
          rw [hidle e.1 (hkey e he)]
      · rw [hothers o' fun e he => ho' e (List.mem_cons_of_mem _ he),
          hsame o' (ho' ⟨k, o⟩ List.mem_cons_self).symm]

/-- The keys that a walk through a hash comes to. -/
theorem visit_nodupKeys (order : HashOrder) (hash : UserHash) :
    ((order.visit hash.entries).map Sigma.fst).Nodup :=
  ((order.perm _).map Sigma.fst).nodup_iff.mpr hash.nodupKeys

/-- An ACCEPT_BATTLE whose pushes succeed meets a user that was freed, or gives their state to those
that its first loop has left at the table. -/
theorem Ok.acceptBattle_states (h : b.Ok) (hget : b.baseGetUser q = .ok (.ok a))
    (hu : b.users a = some u) (ht : u.table = some t) (hmsg : ∀ o, env.msgNew o = none)
    (hfd : ∀ k o v, (b.tables t).hash.lookup k = some o → b.users o = some v → 0 < v.conn.fd) :
    (b.cmdAcceptBattle env q = .error .useAfterFree ∧
        ∃ k o, (b.tables t).hash.lookup k = some o ∧ b.users o = none) ∨
      ∃ b', b.cmdAcceptBattle env q = .ok (b', none) ∧
        b'.tables t = ⟨(b.tables t).number, b.accepted a env.uid t⟩ ∧
        (∀ k o, (b.accepted a env.uid t).lookup k = some o → ∃ v, b.users o = some v ∧
          b'.users o = some { v with state := b.battleState k }) ∧
        ∀ o, o ≠ a → (∀ k, (b.accepted a env.uid t).lookup k ≠ some o) →
          b'.users o = b.users o := by
  unfold cmdAcceptBattle
  rw [hget, ok_bind]
  dsimp only
  rw [derefUser_of_some hu, ok_bind, ht]
  dsimp only
  have hself : (b.setState a .acceptBattle).users a = some { u with state := .acceptBattle } := by
    unfold setState
    dsimp only
    rw [Function.update_self, hu, Option.map_some]
  have hother : ∀ o, o ≠ a → (b.setState a .acceptBattle).users o = b.users o :=
    fun o ho => b.setState_users_of_ne .acceptBattle ho
  -- The acceptance changes one state and nothing else.
  have huser : ∀ o v, (b.setState a .acceptBattle).users o = some v →
      ∃ v₀, b.users o = some v₀ ∧ v₀.uid = v.uid ∧ v₀.table = v.table ∧ v₀.conn = v.conn ∧
        ∀ state, { v₀ with state := state } = { v with state := state } := by
    intro o v hv
    by_cases ho : o = a
    · rw [ho, hself] at hv
      rw [ho, ← Option.some.inj hv]
      exact ⟨u, hu, rfl, rfl, rfl, fun _ => rfl⟩
    · rw [hother o ho] at hv
      exact ⟨v, hv, rfl, rfl, rfl, fun _ => rfl⟩
  have htables : (b.setState a .acceptBattle).tables t = b.tables t := rfl
  rw [htables]
  rcases b.rejectOthers_accepted a env t with ⟨hfree, hdead⟩ | hok
  · rw [hfree, error_bind]
    exact Or.inl ⟨rfl, hdead⟩
  rw [hok, ok_bind]
  have hseated : ∀ e ∈ env.order.visit (b.accepted a env.uid t).entries, ∀ v,
      ((b.withHash t (b.accepted a env.uid t)).setState a .acceptBattle).users e.2 = some v →
      v.uid = some e.1 ∧ v.table ≠ none ∧ 0 < v.conn.fd := by
    intro e he v hv
    have hseat := accepted_lookup (mem_visit.mp he)
    obtain ⟨v₀, hv₀, huid, htable, hconn, -⟩ := huser e.2 v hv
    rw [← huid, ← htable, ← hconn]
    obtain ⟨hid, htab⟩ := h.seated t e.1 e.2 v₀ hseat hv₀
    exact ⟨hid, htab, hfd e.1 e.2 v₀ hseat hv₀⟩
  rcases battleAll_states hmsg hseated (visit_nodupKeys env.order _) with
    ⟨hfree, e, he, hnone⟩ | ⟨b', hb', htables', hstates, hothers⟩
  · exact Or.inl ⟨hfree, e.1, e.2, accepted_lookup (mem_visit.mp he),
      (b.setState_keeps a .acceptBattle).users_eq_none hnone⟩
  refine Or.inr ⟨b', hb', ?_, fun k o hk => ?_, fun o ho hgone => ?_⟩
  · rw [htables']
    exact Function.update_self ..
  · obtain ⟨v, hv, hv'⟩ := hstates ⟨k, o⟩ (mem_visit.mpr hk)
    obtain ⟨v₀, hv₀, -, -, -, heq⟩ := huser o v hv
    refine ⟨v₀, hv₀, ?_⟩
    rw [heq]
    exact hv'
  · rw [hothers o fun e he heq => hgone e.1 (by rw [← heq]; exact mem_visit.mp he)]
    exact hother o ho

/-! ## When the battle starts -/

/-- The user `a` who accepts, and the users who are at `t` in state TO_BATTLE. -/
def Battles (b : Bang) (a : ℕ) (t : TableId) (o : ℕ) : Prop :=
  o = a ∨ ∃ k v, (b.tables t).hash.lookup k = some o ∧ b.users o = some v ∧ v.state = .toBattle

def IsBattling (b : Bang) (o : ℕ) : Prop := ∃ v, b.users o = some v ∧ v.state = .battling

/-- The battle at `t` has started in `b'`: those who take part are in the hash of the table, and
nobody else is, they have become BATTLING, and nobody else has, and the table counts them. -/
structure BattleStarts (b : Bang) (a : ℕ) (t : TableId) (b' : Bang) : Prop where
  hash : ∀ o, (∃ k, (b'.tables t).hash.lookup k = some o) ↔ b.Battles a t o
  battling : ∀ o, (b'.IsBattling o ∧ ¬b.IsBattling o) ↔ b.Battles a t o
  number : (b'.tables t).number = (b'.tables t).hash.keys.length

/-- What an ACCEPT_BATTLE of `a` at `t` needs, where `uid` is what the variable holds: who accepts is
in the hash of the table, nobody in it was freed, `uid` names everybody who is to go, those who stay
are in the idle hash, and the table counts them already. -/
structure AcceptsRight (b : Bang) (a : ℕ) (t : TableId) (uid : Uid) : Prop where
  self : ∃ k, (b.tables t).hash.lookup k = some a
  live : ∀ k o, (b.tables t).hash.lookup k = some o → b.users o ≠ none
  named : ∀ k o v, (b.tables t).hash.lookup k = some o → b.users o = some v → o ≠ a →
    v.state ≠ .toBattle → k = uid
  idle : ∀ k o, (b.tables t).hash.lookup k = some o → b.Battles a t o →
    b.idleHash.lookup k ≠ none
  number : (b.tables t).number = (b.tables t).hash.entries.countP fun e => !b.rejects a e

theorem rejects_iff : b.rejects a ⟨k, o⟩ = true ↔
    o ≠ a ∧ ∃ v, b.users o = some v ∧ v.state ≠ .toBattle := by
  unfold rejects
  rw [decide_eq_true_eq]
  refine and_congr_right fun _ => ?_
  rw [Option.any_eq_true]
  exact exists_congr fun v => and_congr_right fun _ => by rw [decide_eq_true_eq]

/-- `uid` names everybody who is to go. -/
def NamesRejected (b : Bang) (a : ℕ) (t : TableId) (uid : Uid) : Prop :=
  ∀ k o, (b.tables t).hash.lookup k = some o → b.rejects a ⟨k, o⟩ = true → k = uid

theorem AcceptsRight.names (h : b.AcceptsRight a t uid) : b.NamesRejected a t uid := by
  intro k o hseat hreject
  obtain ⟨hne, v, hv, hstate⟩ := rejects_iff.mp hreject
  exact h.named k o v hseat hv hne hstate

/-- Who is removed is then one who is to go. -/
theorem NamesRejected.rejects (h : b.NamesRejected a t uid)
    (hany : (b.tables t).hash.entries.any (b.rejects a) = true)
    (hseat : (b.tables t).hash.lookup uid = some o) : b.rejects a ⟨uid, o⟩ = true := by
  obtain ⟨⟨k, o'⟩, he, hreject⟩ := List.any_eq_true.mp hany
  have hseat' : (b.tables t).hash.lookup k = some o' := AList.mem_lookup_iff.mpr he
  obtain rfl := h k o' hseat' hreject
  obtain rfl := Option.some.inj (hseat.symm.trans hseat')
  exact hreject

/-- Then the first loop keeps those who are to stay. -/
theorem NamesRejected.lookup_iff (h : b.NamesRejected a t uid) :
    (b.accepted a uid t).lookup k = some o ↔
      (b.tables t).hash.lookup k = some o ∧ b.rejects a ⟨k, o⟩ = false := by
  constructor
  · intro hstay
    have hseat := accepted_lookup hstay
    refine ⟨hseat, ?_⟩
    -- Somebody who is to go has the one id that is removed.
    by_contra hreject
    rw [Bool.not_eq_false] at hreject
    have hany : (b.tables t).hash.entries.any (b.rejects a) = true :=
      List.any_eq_true.mpr ⟨⟨k, o⟩, AList.mem_lookup_iff.mp hseat, hreject⟩
    unfold accepted at hstay
    rw [if_pos hany, h k o hseat hreject, AList.lookup_erase] at hstay
    cases hstay
  · rintro ⟨hseat, hstay⟩
    unfold accepted
    split_ifs with hany
    · rw [AList.lookup_erase_ne, hseat]
      intro heq
      have hreject := h.rejects hany (heq ▸ hseat)
      rw [← heq, hstay] at hreject
      cases hreject
    · exact hseat

theorem length_keys_erase_eq_countP {κ ν : Type} [DecidableEq κ] (hash : AList fun _ : κ => ν)
    (k : κ) : (hash.erase k).keys.length = hash.entries.countP fun e => e.1 ≠ k := by
  have hnodup : hash.keys.Nodup := hash.nodupKeys
  have hkeys : hash.keys = hash.entries.map Sigma.fst := rfl
  rw [AList.keys_erase, hnodup.erase_eq_filter, ← List.countP_eq_length_filter, hkeys,
    List.countP_map]
  refine List.countP_congr fun e _ => ?_
  rw [Function.comp_apply, bne_iff_ne, decide_eq_true_eq]

theorem NamesRejected.length (h : b.NamesRejected a t uid) :
    (b.accepted a uid t).keys.length =
      (b.tables t).hash.entries.countP fun e => !b.rejects a e := by
  unfold accepted
  split_ifs with hany
  · -- The one entry that goes is the one under `uid`.
    rw [length_keys_erase_eq_countP]
    refine List.countP_congr fun e he => ?_
    have hseat : (b.tables t).hash.lookup e.1 = some e.2 := AList.mem_lookup_iff.mpr he
    rw [decide_eq_true_eq, Bool.not_eq_true']
    constructor
    · intro hne
      rw [← Bool.not_eq_true]
      exact fun hreject => hne (h e.1 e.2 hseat hreject)
    · intro hstay heq
      have hreject := h.rejects hany (heq ▸ hseat)
      rw [← heq, hstay] at hreject
      cases hreject
  · rw [List.any_eq_true] at hany
    have hall : ∀ e ∈ (b.tables t).hash.entries, (!b.rejects a e) = true := fun e he => by
      rw [Bool.not_eq_true', ← Bool.not_eq_true]
      exact fun hreject => hany ⟨e, he, hreject⟩
    rw [List.countP_eq_length.mpr hall]
    exact List.length_map ..

/-- Who takes part is in the hash and was not to go. -/
theorem battles_iff (hself : ∃ k, (b.tables t).hash.lookup k = some a)
    (hlive : ∀ k o, (b.tables t).hash.lookup k = some o → b.users o ≠ none) :
    b.Battles a t o ↔
      ∃ k, (b.tables t).hash.lookup k = some o ∧ b.rejects a ⟨k, o⟩ = false := by
  constructor
  · rintro (rfl | ⟨k, v, hseat, hv, hstate⟩)
    · obtain ⟨k, hseat⟩ := hself
      refine ⟨k, hseat, ?_⟩
      rw [← Bool.not_eq_true, rejects_iff]
      exact fun hreject => hreject.1 rfl
    · refine ⟨k, hseat, ?_⟩
      rw [← Bool.not_eq_true, rejects_iff]
      rintro ⟨-, v', hv', hstate'⟩
      obtain rfl := Option.some.inj (hv.symm.trans hv')
      exact hstate' hstate
  · rintro ⟨k, hseat, hstay⟩
    by_cases hself : o = a
    · exact Or.inl hself
    obtain ⟨v, hv⟩ := Option.ne_none_iff_exists'.mp (hlive k o hseat)
    refine Or.inr ⟨k, v, hseat, hv, ?_⟩
    by_contra hstate
    rw [← Bool.not_eq_true, rejects_iff] at hstay
    exact hstay ⟨hself, v, hv, hstate⟩

/-- The battle starts right if it has what it needs. -/
theorem AcceptsRight.battleStarts (h : b.AcceptsRight a t uid) (hu : b.users a = some u)
    (hstate : u.state = .receiveBattle)
    (htable : b'.tables t = ⟨(b.tables t).number, b.accepted a uid t⟩)
    (hstates : ∀ k o, (b.accepted a uid t).lookup k = some o → ∃ v, b.users o = some v ∧
      b'.users o = some { v with state := b.battleState k })
    (hothers : ∀ o, o ≠ a → (∀ k, (b.accepted a uid t).lookup k ≠ some o) →
      b'.users o = b.users o) : b.BattleStarts a t b' := by
  have hhash : ∀ o, (∃ k, (b.accepted a uid t).lookup k = some o) ↔ b.Battles a t o := fun o => by
    rw [battles_iff h.self h.live]
    exact exists_congr fun k => h.names.lookup_iff
  refine ⟨?_, fun o => ⟨?_, fun hbattles => ⟨?_, ?_⟩⟩, ?_⟩
  · rw [htable]
    exact hhash
  -- Who has become BATTLING was in the hash.
  · rintro ⟨⟨v, hv, hbattling⟩, hnot⟩
    by_contra hbattles
    have hgone : ∀ k, (b.accepted a uid t).lookup k ≠ some o := fun k hk =>
      hbattles ((hhash o).mp ⟨k, hk⟩)
    rw [hothers o (fun heq => hbattles (Or.inl heq)) hgone] at hv
    exact hnot ⟨v, hv, hbattling⟩
  · obtain ⟨k, hk⟩ := (hhash o).mpr hbattles
    obtain ⟨v, -, hv'⟩ := hstates k o hk
    refine ⟨_, hv', ?_⟩
    exact if_pos (Option.isSome_iff_ne_none.mpr (h.idle k o (accepted_lookup hk) hbattles))
  · rintro ⟨v, hv, hbattling⟩
    rcases hbattles with rfl | ⟨k, v', -, hv', hstate'⟩
    · obtain rfl := Option.some.inj (hu.symm.trans hv)
      exact absurd (hstate.symm.trans hbattling) (by decide)
    · obtain rfl := Option.some.inj (hv'.symm.trans hv)
      exact absurd (hstate'.symm.trans hbattling) (by decide)
  · rw [htable]
    dsimp only
    rw [h.number, h.names.length]

/-- It starts right only if it has what it needs. -/
theorem BattleStarts.acceptsRight (h : b.BattleStarts a t b') (hok : b.Ok)
    (htable : b'.tables t = ⟨(b.tables t).number, b.accepted a uid t⟩)
    (hstates : ∀ k o, (b.accepted a uid t).lookup k = some o → ∃ v, b.users o = some v ∧
      b'.users o = some { v with state := b.battleState k }) : b.AcceptsRight a t uid := by
  have hhash := h.hash
  have hnumber := h.number
  rw [htable] at hhash hnumber
  dsimp only at hhash hnumber
  have hnamed : ∀ k o v, (b.tables t).hash.lookup k = some o → b.users o = some v → o ≠ a →
      v.state ≠ .toBattle → k = uid := by
    intro k o v hseat hv hne hstate
    -- Somebody who is to go is not in the hash any more, and only `uid` was removed from it.
    by_contra hkey
    have hstay : (b.accepted a uid t).lookup k = some o := by
      unfold accepted
      split_ifs
      · rwa [AList.lookup_erase_ne hkey]
      · exact hseat
    rcases (hhash o).mp ⟨k, hstay⟩ with heq | ⟨k', v', -, hv', hstate'⟩
    · exact hne heq
    · obtain rfl := Option.some.inj (hv.symm.trans hv')
      exact hstate hstate'
  have hnames : b.NamesRejected a t uid := by
    intro k o hseat hreject
    obtain ⟨hne, v, hv, hstate⟩ := rejects_iff.mp hreject
    exact hnamed k o v hseat hv hne hstate
  have hself : ∃ k, (b.tables t).hash.lookup k = some a := by
    obtain ⟨k, hk⟩ := (hhash a).mpr (Or.inl rfl)
    exact ⟨k, accepted_lookup hk⟩
  refine ⟨hself, fun k o hseat hdead => ?_, hnamed, fun k o hseat hbattles hidle => ?_, ?_⟩
  · -- A freed user is not one who is to go, so it is still there.
    have hstay : (b.accepted a uid t).lookup k = some o := by
      rw [hnames.lookup_iff]
      refine ⟨hseat, ?_⟩
      rw [← Bool.not_eq_true, rejects_iff]
      rintro ⟨-, v, hv, -⟩
      rw [hdead] at hv
      cases hv
    obtain ⟨v, hv, -⟩ := hstates k o hstay
    rw [hdead] at hv
    cases hv
  · -- A user who takes part and is not idle has become UNKNOWN.
    obtain ⟨k', hk'⟩ := (hhash o).mpr hbattles
    obtain ⟨v, hv, hv'⟩ := hstates k' o hk'
    have hkey : k' = k := by
      have huid := (hok.seated t k o v hseat hv).1
      have huid' := (hok.seated t k' o v (accepted_lookup hk') hv).1
      exact Option.some.inj (huid'.symm.trans huid)
    obtain ⟨⟨w, hw, hbattling⟩, -⟩ := (h.battling o).mpr hbattles
    obtain rfl := Option.some.inj (hv'.symm.trans hw)
    have hunknown : b.battleState k' = .unknown := by
      rw [hkey]
      unfold battleState
      rw [hidle]
      rfl
    exact absurd (hunknown.symm.trans hbattling) (by decide)
  · rw [hnumber, hnames.length]

theorem run_ok {is : List BangStep} (hrun : is.foldl Bang.next (.ok .start) = .ok b) : b.Ok := by
  refine foldl_keeps (I := fun x : Except Fault Bang => ∀ b, x = .ok b → b.Ok) ?_ ?_ is b hrun
  · rintro (e | b) i hx b' hb
    · cases hb
    · exact (hx b rfl).stepEffect (((hx b rfl).step i).2 b' hb)
  · rintro b hb
    rw [← Except.ok.inj hb]
    exact start_ok

/-- In every state of every run in which a user in state RECEIVE_BATTLE accepts, and all pushes
succeed, the battle starts if and only if `AcceptsRight` holds. -/
theorem bang_battleStarts_iff {is : List BangStep} {rest : List BangRequest}
    (hrun : is.foldl Bang.next (.ok .start) = .ok b) (hrunning : b.running = none)
    (hqueue : b.queue = q :: rest) (hcmd : q.cmd = .acceptBattle)
    (hget : b.baseGetUser q = .ok (.ok a)) (hu : b.users a = some u)
    (hstate : u.state = .receiveBattle) (ht : u.table = some t) (hmsg : ∀ o, env.msgNew o = none)
    (hfd : ∀ k o v, (b.tables t).hash.lookup k = some o → b.users o = some v → 0 < v.conn.fd) :
    (∃ b', b.step (.process env) = .ok b' ∧ b.BattleStarts a t b') ↔
      b.AcceptsRight a t env.uid := by
  have hok := run_ok hrun
  have hstep : b.step (.process env) =
      { b with queue := rest, running := some q }.cmdAcceptBattle env q >>= fun r => .ok r.1 := by
    rw [step_process env hrunning hqueue, processDriver, hcmd]
  rw [hstep]
  rcases (hok.keeps (b.take_keeps q rest)).acceptBattle_states (q := q) hget hu ht hmsg hfd with
    ⟨hfree, k, o, hseat, hdead⟩ | ⟨b', hb', htable, hstates, hothers⟩
  · -- The loops come to a user that was freed.
    rw [hfree, error_bind]
    refine iff_of_false ?_ fun h => h.live k o hseat hdead
    rintro ⟨b', hb', -⟩
    cases hb'
  · rw [hb', ok_bind]
    constructor
    · rintro ⟨b'', hb'', hstarts⟩
      obtain rfl := Except.ok.inj hb''
      exact hstarts.acceptsRight hok htable hstates
    · exact fun h => ⟨b', rfl, h.battleStarts hu hstate htable hstates hothers⟩

/-- Two clients join, the first looks for a battle, and the second, who is invited, accepts. -/
def challenged : List BangStep :=
  [.accept 5, .accept 6, .request ⟨1, 5⟩ (.join (some (ascii "a"))) true,
    .process ⟨true, fun _ => none, .listed, []⟩, .free,
    .request ⟨2, 6⟩ (.join (some (ascii "b"))) true,
    .process ⟨true, fun _ => none, .listed, []⟩, .free, .request ⟨1, 5⟩ .toBattle true,
    .process ⟨true, fun _ => none, .listed, []⟩, .free, .request ⟨2, 6⟩ .acceptBattle true]

theorem bang_battleStarts_challenged : ∃ b b', challenged.foldl Bang.next (.ok .start) = .ok b ∧
    b.step (.process ⟨true, fun _ => none, .listed, []⟩) = .ok b' ∧
    b.BattleStarts 1 ⟨0, by decide⟩ b' := by
  obtain ⟨b, hrun, hrunning, hqueue, hget, hnumber, hentries, ha, hb, hidlea, hidleb⟩ :
      ∃ b, challenged.foldl Bang.next (.ok .start) = .ok b ∧ b.running = none ∧
        b.queue = [⟨⟨2, 6⟩, .acceptBattle, true⟩] ∧
        b.baseGetUser ⟨⟨2, 6⟩, .acceptBattle, true⟩ = .ok (.ok 1) ∧
        (b.tables ⟨0, by decide⟩).number = 2 ∧
        (b.tables ⟨0, by decide⟩).hash.entries = [⟨ascii "b", 1⟩, ⟨ascii "a", 0⟩] ∧
        b.users 0 = some ⟨some (ascii "a"), ⟨1, 5⟩, some ⟨0, by decide⟩, .toBattle⟩ ∧
        b.users 1 = some ⟨some (ascii "b"), ⟨2, 6⟩, some ⟨0, by decide⟩, .receiveBattle⟩ ∧
        b.idleHash.lookup (ascii "a") = some 0 ∧ b.idleHash.lookup (ascii "b") = some 1 :=
    ⟨_, rfl, rfl, rfl, rfl, rfl, rfl, rfl, rfl, rfl, rfl⟩
  -- The two are at the table.
  have hseats : ∀ k o, (b.tables ⟨0, by decide⟩).hash.lookup k = some o →
      (k = ascii "b" ∧ o = 1) ∨ (k = ascii "a" ∧ o = 0) := by
    intro k o hseat
    have hmem := AList.mem_lookup_iff.mp hseat
    rw [hentries] at hmem
    rcases List.mem_pair.mp hmem with heq | heq <;>
    · cases heq
      simp
  have hself : (b.tables ⟨0, by decide⟩).hash.lookup (ascii "b") = some 1 := by
    refine AList.mem_lookup_iff.mpr ?_
    rw [hentries]
    exact List.mem_cons_self
  have hnobody : ∀ k o, (b.tables ⟨0, by decide⟩).hash.lookup k = some o →
      b.rejects 1 ⟨k, o⟩ = false := by
    intro k o hseat
    unfold rejects
    rcases hseats k o hseat with ⟨-, rfl⟩ | ⟨-, rfl⟩
    · rfl
    · rw [ha]
      rfl
  have haccepts : b.AcceptsRight 1 ⟨0, by decide⟩ [] := by
    refine ⟨⟨_, hself⟩, fun k o hseat => ?_, fun k o v hseat hv hne hstate => ?_,
      fun k o hseat _ => ?_, ?_⟩
    · rcases hseats k o hseat with ⟨-, rfl⟩ | ⟨-, rfl⟩
      · rw [hb]
        exact Option.some_ne_none _
      · rw [ha]
        exact Option.some_ne_none _
    · have hreject : b.rejects 1 ⟨k, o⟩ = true := rejects_iff.mpr ⟨hne, v, hv, hstate⟩
      rw [hnobody k o hseat] at hreject
      cases hreject
    · rcases hseats k o hseat with ⟨rfl, -⟩ | ⟨rfl, -⟩
      · rw [hidleb]
        exact Option.some_ne_none _
      · rw [hidlea]
        exact Option.some_ne_none _
    · rw [hnumber, List.countP_eq_length.mpr, hentries]
      · rfl
      · rintro ⟨k, o⟩ he
        rw [hnobody k o (AList.mem_lookup_iff.mpr he)]
        rfl
  have hfd : ∀ k o v, (b.tables ⟨0, by decide⟩).hash.lookup k = some o → b.users o = some v →
      0 < v.conn.fd := by
    intro k o v hseat hv
    rcases hseats k o hseat with ⟨-, rfl⟩ | ⟨-, rfl⟩
    · rw [← Option.some.inj (hb.symm.trans hv)]
      decide
    · rw [← Option.some.inj (ha.symm.trans hv)]
      decide
  have hstarts : ∃ b', b.step (.process ⟨true, fun _ => none, .listed, []⟩) = .ok b' ∧
      b.BattleStarts 1 ⟨0, by decide⟩ b' :=
    (bang_battleStarts_iff hrun hrunning hqueue rfl hget hb rfl rfl (fun _ => rfl) hfd).mpr haccepts
  obtain ⟨b', hb', hstarts⟩ := hstarts
  exact ⟨b, b', hrun, hb', hstarts⟩

/-- Three clients join, the first looks for a battle and invites the others, and one of them
accepts: the third stays at the table. -/
theorem bang_not_battleStarts : ¬∀ (is : List BangStep) (b : Bang) (q : BangRequest)
    (rest : List BangRequest) (a : ℕ) (u : BangUser) (t : TableId) (env : BangEnv),
    is.foldl Bang.next (.ok .start) = .ok b → b.running = none → b.queue = q :: rest →
    q.cmd = .acceptBattle → b.baseGetUser q = .ok (.ok a) → b.users a = some u →
    u.state = .receiveBattle → u.table = some t → (∀ o, env.msgNew o = none) →
    (∀ k o v, (b.tables t).hash.lookup k = some o → b.users o = some v → 0 < v.conn.fd) →
      ∃ b', b.step (.process env) = .ok b' ∧ b.BattleStarts a t b' := by
  intro hall
  let is : List BangStep := [.accept 5, .accept 6, .accept 7,
    .request ⟨1, 5⟩ (.join (some (ascii "a"))) true,
    .process ⟨true, fun _ => none, .listed, []⟩, .free,
    .request ⟨2, 6⟩ (.join (some (ascii "b"))) true,
    .process ⟨true, fun _ => none, .listed, []⟩, .free,
    .request ⟨3, 7⟩ (.join (some (ascii "c"))) true,
    .process ⟨true, fun _ => none, .listed, []⟩, .free, .request ⟨1, 5⟩ .toBattle true,
    .process ⟨true, fun _ => none, .listed, []⟩, .free, .request ⟨2, 6⟩ .acceptBattle true]
  obtain ⟨b, b', hrun, hrunning, hqueue, hget, hentries, ha, hb, hc, hstep, hstay⟩ :
      ∃ b b', is.foldl Bang.next (.ok .start) = .ok b ∧ b.running = none ∧
        b.queue = [⟨⟨2, 6⟩, .acceptBattle, true⟩] ∧
        b.baseGetUser ⟨⟨2, 6⟩, .acceptBattle, true⟩ = .ok (.ok 1) ∧
        (b.tables ⟨0, by decide⟩).hash.entries.map Sigma.snd = [1, 2, 0] ∧
        b.users 0 = some ⟨some (ascii "a"), ⟨1, 5⟩, some ⟨0, by decide⟩, .toBattle⟩ ∧
        b.users 1 = some ⟨some (ascii "b"), ⟨2, 6⟩, some ⟨0, by decide⟩, .receiveBattle⟩ ∧
        b.users 2 = some ⟨some (ascii "c"), ⟨3, 7⟩, some ⟨0, by decide⟩, .receiveBattle⟩ ∧
        b.step (.process ⟨true, fun _ => none, .listed, []⟩) = .ok b' ∧
        (b'.tables ⟨0, by decide⟩).hash.lookup (ascii "c") = some 2 :=
    ⟨_, _, rfl, rfl, rfl, rfl, rfl, rfl, rfl, rfl, rfl, rfl⟩
  have hfd : ∀ k o v, (b.tables ⟨0, by decide⟩).hash.lookup k = some o → b.users o = some v →
      0 < v.conn.fd := by
    intro k o v hseat hv
    have hmem : o ∈ (b.tables ⟨0, by decide⟩).hash.entries.map Sigma.snd :=
      List.mem_map.mpr ⟨⟨k, o⟩, AList.mem_lookup_iff.mp hseat, rfl⟩
    rw [hentries] at hmem
    rcases List.mem_cons.mp hmem with rfl | hmem
    · rw [← Option.some.inj (hb.symm.trans hv)]
      decide
    rcases List.mem_pair.mp hmem with rfl | rfl
    · rw [← Option.some.inj (hc.symm.trans hv)]
      decide
    · rw [← Option.some.inj (ha.symm.trans hv)]
      decide
  obtain ⟨b'', hb'', hstarts⟩ := hall is b _ _ 1 _ _ ⟨true, fun _ => none, .listed, []⟩ hrun
    hrunning hqueue rfl hget hb rfl rfl (fun _ => rfl) hfd
  -- Who was invited too was neither the one who accepts nor looking for a battle.
  obtain rfl := Except.ok.inj (hstep.symm.trans hb'')
  rcases (hstarts.hash 2).mp ⟨_, hstay⟩ with heq | ⟨k, v, -, hv, hstate⟩
  · exact absurd heq (by decide)
  · rw [← Option.some.inj (hc.symm.trans hv)] at hstate
    cases hstate

end Bang

end Moc
