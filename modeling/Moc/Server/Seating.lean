import Moc.Server.BangNull

/-!
# Who sits where

`Bang.Seated` is what the tables of the bang plugin are meant to be: each counts its users, has no
more than four, and is the table of each of them. `bang_seated_iff` says in which runs this holds.
Two commands break it: a TO_BATTLE that seats a user who sits already, and an ACCEPT_BATTLE whose
unassigned `uid` names somebody at the table. -/

open Bytes Memory Runs

namespace Moc

namespace Bang

variable {b b' b₁ : Bang} {a : ℕ} {u : BangUser} {uid : Uid} {t : TableId} {env : BangEnv}
  {q : BangRequest}

/-! ## The number of entries of a hash -/

section Keys

variable {κ ν : Type} [DecidableEq κ] {hash : AList fun _ : κ => ν} {k : κ}

theorem length_keys_insert (v : ν) (h : hash.lookup k = none) :
    (hash.insert k v).keys.length = hash.keys.length + 1 := by
  have hmem : k ∉ hash.keys := AList.lookup_eq_none.mp h
  rw [AList.keys_insert, List.length_cons, List.erase_of_not_mem hmem]

theorem length_keys_erase (h : hash.lookup k ≠ none) :
    (hash.erase k).keys.length + 1 = hash.keys.length := by
  have hmem : k ∈ hash.keys := AList.lookup_isSome.mp (Option.isSome_iff_ne_none.mpr h)
  have hpos := List.length_pos_of_mem hmem
  rw [AList.keys_erase, List.length_erase_of_mem hmem]
  omega

theorem length_keys_insert_of_ne_none (v : ν) (h : hash.lookup k ≠ none) :
    (hash.insert k v).keys.length = hash.keys.length := by
  rw [AList.keys_insert, List.length_cons, ← AList.keys_erase]
  exact length_keys_erase h

theorem length_keys_insert_le (hash : AList fun _ : κ => ν) (k : κ) (v : ν) :
    (hash.insert k v).keys.length ≤ hash.keys.length + 1 := by
  by_cases h : hash.lookup k = none
  · exact (length_keys_insert v h).le
  · rw [length_keys_insert_of_ne_none v h]
    exact Nat.le_succ _

end Keys

/-! ## The invariant -/

/-- The tables count their users, have room for them, and each user of a table has no other. -/
structure Seated (b : Bang) : Prop where
  counted : ∀ t, (b.tables t).number = (b.tables t).hash.keys.length
  room : ∀ t, (b.tables t).number ≤ bangTableUserMaximum
  named : ∀ t uid a, (b.tables t).hash.lookup uid = some a →
    ∃ u, b.users a = some u ∧ u.table = some t

/-- The seating in a run that breaks nothing: a user with a table is in the hash of that table, too.
-/
structure Sits (b : Bang) : Prop where
  ok : b.Ok
  seated : b.Seated
  present : ∀ a u t uid, b.users a = some u → u.table = some t → u.uid = some uid →
    (b.tables t).hash.lookup uid = some a

theorem start_sits : Bang.start.Sits where
  ok := start_ok
  seated := ⟨fun _ => rfl, fun _ => (show (0 : ℤ) ≤ bangTableUserMaximum by decide), nofun⟩
  present := nofun

theorem Sits.keeps (h : b.Sits) (hk : b.Keeps b') : b'.Sits where
  ok := h.ok.keeps hk
  seated := by
    refine ⟨fun t => ?_, fun t => ?_, fun t uid a hseat => ?_⟩
    · rw [hk.tables]
      exact h.seated.counted t
    · rw [hk.tables]
      exact h.seated.room t
    · rw [hk.tables] at hseat
      obtain ⟨u, hu, ht⟩ := h.seated.named t uid a hseat
      obtain ⟨state, hu'⟩ := hk.user' hu
      exact ⟨_, hu', ht⟩
  present a u t uid hu ht huid := by
    obtain ⟨state, hu₀⟩ := hk.user hu
    rw [hk.tables]
    exact h.present a { u with state := state } t uid hu₀ ht huid

/-- The user goes that its table knows. -/
theorem Sits.leaves (h : b.Sits) (hu : b.users a = some u) (huid : u.uid = some uid)
    (ht : u.table = some t) (hl : b.Leaves a uid t b') : b'.Sits := by
  have hseat := h.present a u t uid hu ht huid
  have hlength := length_keys_erase (hseat.trans_ne (Option.some_ne_none a))
  have hself : b'.tables t = ⟨(b.tables t).number - 1, (b.tables t).hash.erase uid⟩ := by
    rw [hl.tables, Function.update_self]
  have hother : ∀ t', t' ≠ t → b'.tables t' = b.tables t' := by
    intro t' hne
    rw [hl.tables, Function.update_of_ne hne]
  -- The table loses the entry and counts one less, and the others are as before.
  refine ⟨h.ok.leaves hu huid hl, ⟨fun t' => ?_, fun t' => ?_, fun t' uid' a' hseat' => ?_⟩,
    fun a' u' t' uid' hu' ht' huid' => ?_⟩
  · have hcounted := h.seated.counted t'
    by_cases hne : t' = t
    · rw [hne] at hcounted ⊢
      rw [hself]
      dsimp only
      omega
    · rwa [hother t' hne]
  · have hroom := h.seated.room t'
    by_cases hne : t' = t
    · rw [hne] at hroom ⊢
      rw [hself]
      dsimp only
      omega
    · rwa [hother t' hne]
  -- An entry that stays is not that of the user who goes.
  · have hold : (b.tables t').hash.lookup uid' = some a' ∧ a' ≠ a := by
      by_cases hne : t' = t
      · rw [hne, hself, lookup_erase_eq] at hseat'
        split_ifs at hseat' with hkey
        rw [hne]
        refine ⟨hseat', fun heq => hkey ?_⟩
        rw [heq] at hseat'
        exact Option.some.inj ((h.ok.seated t uid' a u hseat' hu).1.symm.trans huid)
      · rw [hother t' hne] at hseat'
        refine ⟨hseat', fun heq => hne ?_⟩
        obtain ⟨v, hv, hvt⟩ := h.seated.named t' uid' a' hseat'
        rw [heq, hu, Option.some.injEq] at hv
        rw [← hv, ht] at hvt
        exact (Option.some.inj hvt).symm
    obtain ⟨v, hv, hvt⟩ := h.seated.named t' uid' a' hold.1
    rw [hl.users]
    exact ⟨v, update_eq_some.mpr (Or.inr ⟨hold.2, hv⟩), hvt⟩
  · rw [hl.users] at hu'
    rcases update_eq_some.mp hu' with ⟨-, hnone⟩ | ⟨hne, hold⟩
    · cases hnone
    have hseat' := h.present a' u' t' uid' hold ht' huid'
    by_cases htable : t' = t
    · rw [htable, hself, lookup_erase_eq, if_neg]
      · rw [← htable]
        exact hseat'
      · -- Another user has another id.
        rintro rfl
        have hfiled := (h.ok.filed a u uid' hu huid).symm.trans (h.ok.filed a' u' uid' hold huid')
        exact hne (Option.some.inj hfiled).symm
    · rwa [hother t' htable]

theorem Sits.alloc (h : b.Sits) : b.alloc.Sits := by
  have hold : ∀ a u, b.users a = some u → b.alloc.users a = some u := by
    intro a u hu
    exact update_eq_some.mpr (Or.inr ⟨(h.ok.user_lt a u hu).ne, hu⟩)
  refine ⟨h.ok.alloc, ⟨h.seated.counted, h.seated.room, fun t uid a hseat => ?_⟩,
    fun a u t uid hu ht huid => ?_⟩
  · obtain ⟨u, hu, ht⟩ := h.seated.named t uid a hseat
    exact ⟨u, hold a u hu, ht⟩
  · rcases update_eq_some.mp hu with ⟨-, hblank⟩ | ⟨-, hu⟩
    · rw [← Option.some.inj hblank] at ht
      cases ht
    · exact h.present a u t uid hu ht huid

/-- Who comes has no table yet. -/
theorem Sits.enters {s : BangConn} (h : b.Sits) (he : b.Enters a uid s b') : b'.Sits := by
  obtain ⟨unew, -, -, htable, husers⟩ := he.users
  refine ⟨h.ok.enters he, ⟨fun t => ?_, fun t => ?_, fun t k a' hseat => ?_⟩,
    fun a' u t k hu ht hk => ?_⟩
  · rw [he.tables]
    exact h.seated.counted t
  · rw [he.tables]
    exact h.seated.room t
  · rw [he.tables] at hseat
    obtain ⟨u, hu, ht⟩ := h.seated.named t k a' hseat
    -- Who sits has an id, and the new object had none.
    have hne : a' ≠ a := by
      refine he.ne hu ?_
      rw [(h.ok.seated t k a' u hseat hu).1]
      exact Option.some_ne_none k
    rw [husers]
    exact ⟨u, update_eq_some.mpr (Or.inr ⟨hne, hu⟩), ht⟩
  · rw [he.tables]
    rw [husers] at hu
    rcases update_eq_some.mp hu with ⟨-, hnew⟩ | ⟨-, hu⟩
    · rw [← Option.some.inj hnew, htable] at ht
      cases ht
    · exact h.present a' u t k hu ht hk

theorem Sits.drops {s : BangConn} (h : b.Sits) (hd : b.Drops s b') : b'.Sits := by
  rcases hd with ⟨hk, -⟩ | ⟨k, a, u, uid, t, -, -, -, hu, huid, ht, hl⟩
  · exact h.keeps hk
  · exact h.leaves hu huid ht hl

theorem Sits.joinEffect (h : b.Sits) (he : b.JoinEffect b') : b'.Sits := by
  rcases he with hk | ⟨b₁, uid, s, rfl | ⟨s', hd⟩, he⟩
  · exact h.keeps hk
  · exact h.alloc.enters he
  · exact (h.alloc.drops hd).enters he

/-! ## Sitting down -/

/-- A user without a table sits down at a table with room. -/
theorem Sits.seat (h : b.Sits) (hu : b.users a = some u) (huid : u.uid = some uid)
    (hfree : u.table = none) (hroom : (b.tables t).number < bangTableUserMaximum) :
    (b.seat t a uid).Sits := by
  have hnone : (b.tables t).hash.lookup uid = none := by
    by_contra hsome
    obtain ⟨o, ho⟩ := Option.ne_none_iff_exists'.mp hsome
    obtain ⟨v, hv, hvt⟩ := h.seated.named t uid o ho
    have hfiled := h.ok.filed o v uid hv (h.ok.seated t uid o v ho hv).1
    obtain rfl := Option.some.inj ((h.ok.filed a u uid hu huid).symm.trans hfiled)
    rw [hu, Option.some.injEq] at hv
    rw [← hv, hfree] at hvt
    cases hvt
  -- The id is not in the hash of the table, so both grow by one.
  refine ⟨h.ok.seat hu huid, ⟨fun t' => ?_, fun t' => ?_, fun t' k o hseat => ?_⟩,
    fun o v t' k hv hvt hk => ?_⟩
  · have hcounted := h.seated.counted t'
    by_cases ht : t' = t
    · rw [ht] at hcounted ⊢
      rw [seat_tables_self]
      dsimp only
      rw [length_keys_insert a hnone, hcounted]
      rfl
    · rwa [seat_tables_of_ne ht]
  · by_cases ht : t' = t
    · rw [ht, seat_tables_self]
      exact hroom
    · rw [seat_tables_of_ne ht]
      exact h.seated.room t'
  · rw [seat_lookup] at hseat
    split_ifs at hseat with hself
    · rw [← Option.some.inj hseat, hself.1]
      exact ⟨_, seat_users_self hu, rfl⟩
    · obtain ⟨v, hv, hvt⟩ := h.seated.named t' k o hseat
      have hne : o ≠ a := by
        rintro rfl
        rw [hu, Option.some.injEq] at hv
        rw [← hv, hfree] at hvt
        cases hvt
      exact ⟨v, (seat_users_of_ne hne).trans hv, hvt⟩
  -- A user with a table is the new one, at `t`, or was in its hash before.
  · obtain ⟨v₀, hv₀, huid₀, -, -, htable⟩ := seat_users hv
    rw [seat_lookup]
    rw [hvt] at htable
    by_cases ho : o = a
    · rw [if_pos ho] at htable
      rw [ho, hu, Option.some.injEq] at hv₀
      rw [← hv₀, huid, hk] at huid₀
      rw [if_pos ⟨Option.some.inj htable, Option.some.inj huid₀⟩, ho]
    · rw [if_neg ho] at htable
      have hseat := h.present o v₀ t' k hv₀ htable.symm (huid₀.symm.trans hk)
      rw [if_neg, hseat]
      rintro ⟨rfl, rfl⟩
      rw [hnone] at hseat
      cases hseat

/-- Users without a table sit down, one after the other, as far as there is room. -/
theorem Sits.seats {l : List (Σ _ : Uid, ℕ)} (h : b.Sits) (hs : Seats t b l b')
    (hnodup : (l.map Sigma.snd).Nodup)
    (hfree : ∀ e ∈ l, ∀ v, b.users e.2 = some v → v.table = none)
    (hroom : (b.tables t).number + l.length ≤ bangTableUserMaximum) : b'.Sits := by
  induction hs with
  | nil hk => exact h.keeps hk
  | @cons b b₁ b' u uid a l hu huid hk hs ih =>
    -- One sits down, and the others are fewer than the places left.
    rw [List.map_cons, List.nodup_cons] at hnodup
    rw [List.length_cons] at hroom
    have hseat : (b.seat t a uid).Sits :=
      h.seat hu huid (hfree ⟨uid, a⟩ List.mem_cons_self u hu) (by omega)
    refine ih (hseat.keeps hk) hnodup.2 (fun e he v hv => ?_) ?_
    · -- The others still have none.
      have hne : e.2 ≠ a := fun heq => hnodup.1 (List.mem_map.mpr ⟨e, he, heq⟩)
      obtain ⟨state, hv₁⟩ := hk.user hv
      rw [seat_users_of_ne hne] at hv₁
      exact hfree e (List.mem_cons_of_mem _ he) { v with state := state } hv₁
    · rw [hk.tables, seat_tables_self]
      dsimp only
      omega

/-! ## Sitting down twice -/

/-- The table `t` counts more users than its hash has, or has a user whom another table's hash has.
-/
def Misplaced (t : TableId) (b : Bang) : Prop :=
  ((b.tables t).hash.keys.length : ℤ) < (b.tables t).number ∨
    ∃ t' k o v, t' ≠ t ∧ (b.tables t').hash.lookup k = some o ∧ b.users o = some v ∧
      v.table = some t

theorem Misplaced.not_seated (h : Misplaced t b) : ¬b.Seated := by
  intro hseated
  rcases h with hless | ⟨t', k, o, v, hne, hseat, hv, ht⟩
  · have hcounted := hseated.counted t
    omega
  · obtain ⟨v', hv', ht'⟩ := hseated.named t' k o hseat
    obtain rfl := Option.some.inj (hv.symm.trans hv')
    exact hne (Option.some.inj (ht'.symm.trans ht))

theorem Misplaced.keeps (h : Misplaced t b) (hk : b.Keeps b') : Misplaced t b' := by
  unfold Misplaced
  rw [hk.tables]
  refine h.imp_right fun ⟨t', k, o, v, hne, hseat, hv, ht⟩ => ?_
  obtain ⟨state, hv'⟩ := hk.user' hv
  exact ⟨t', k, o, _, hne, hseat, hv', ht⟩

/-- Nobody who sits down at `t` puts it right. -/
theorem Misplaced.seat (h : Misplaced t b) (a : ℕ) (uid : Uid) : Misplaced t (b.seat t a uid) := by
  rcases h with hless | ⟨t', k, o, v, hne, hseat, hv, ht⟩
  · left
    have hle := length_keys_insert_le (b.tables t).hash uid a
    rw [seat_tables_self]
    dsimp only
    omega
  · right
    have hseat' : ((b.seat t a uid).tables t').hash.lookup k = some o := by
      rw [seat_tables_of_ne hne]
      exact hseat
    by_cases ho : o = a
    · rw [ho] at hv
      exact ⟨t', k, o, _, hne, hseat', by rw [ho]; exact seat_users_self hv, rfl⟩
    · exact ⟨t', k, o, v, hne, hseat', (seat_users_of_ne ho).trans hv, ht⟩

theorem Misplaced.seats {l : List (Σ _ : Uid, ℕ)} (h : Misplaced t b) (hs : Seats t b l b') :
    Misplaced t b' := by
  induction hs with
  | nil hk => exact h.keeps hk
  | cons hu huid hk _ ih => exact ih ((h.seat _ _).keeps hk)

/-- A table at which somebody sits down who sits somewhere already is not right afterwards. -/
theorem Seats.misplaced {l : List (Σ _ : Uid, ℕ)} {e : Σ _ : Uid, ℕ} {t' : TableId}
    (hs : Seats t b l b') (he : e ∈ l)
    (hfull : ((b.tables t).hash.keys.length : ℤ) ≤ (b.tables t).number)
    (hseat : (b.tables t').hash.lookup e.1 = some e.2) : Misplaced t b' := by
  induction hs with
  | nil => cases he
  | @cons b b₁ b' u uid a l hu huid hk hs ih =>
    -- Until the user's turn comes the others sit down, and the user stays where it sits.
    by_cases hsame : t' = t ∧ e.1 = uid
    · -- The entry is replaced, and the counter goes up all the same.
      obtain ⟨rfl, rfl⟩ := hsame
      have hlength := length_keys_insert_of_ne_none a (hseat.trans_ne (Option.some_ne_none e.2))
      refine Misplaced.seats (Misplaced.keeps (Or.inl ?_) hk) hs
      rw [seat_tables_self]
      dsimp only
      omega
    rcases List.mem_cons.mp he with rfl | he
    · -- The user has a place in two hashes.
      have hne : t' ≠ t := fun heq => hsame ⟨heq, rfl⟩
      refine Misplaced.seats (Misplaced.keeps (Or.inr ?_) hk) hs
      refine ⟨t', uid, a, _, hne, ?_, seat_users_self hu, rfl⟩
      rw [seat_tables_of_ne hne]
      exact hseat
    · refine ih he ?_ ?_
      · have hle := length_keys_insert_le (b.tables t).hash uid a
        rw [hk.tables, seat_tables_self]
        dsimp only
        omega
      · rw [hk.tables, seat_lookup, if_neg hsame]
        exact hseat

/-! ## The commands -/

/-- A command that leaves the seating in order: a TO_BATTLE seats nobody who sits already, and an
ACCEPT_BATTLE removes no entry. -/
def CommandInOrder (b : Bang) (env : BangEnv) (q : BangRequest) : Prop :=
  match q.cmd with
  | .toBattle => ∀ a u t, b.baseGetUser q = .ok (.ok a) → b.users a = some u → u.state = .idle →
      b.bangAutoselectTableInRoom = some t →
      u.table = none ∧ ∀ e ∈ b.invited env a t, ∀ v, b.users e.2 = some v → v.table = none
  | .acceptBattle => ∀ a u t, b.baseGetUser q = .ok (.ok a) → b.users a = some u →
      u.table = some t → (b.tables t).hash.entries.any (b.rejects a) = true →
      (b.tables t).hash.lookup env.uid = none
  | _ => True

/-- The user at the table and those that it invites fit in. -/
theorem invited_room (env : BangEnv) (a : ℕ) (h : b.bangAutoselectTableInRoom = some t) :
    (b.tables t).number + ((b.invited env a t).length + 1 : ℕ) ≤ bangTableUserMaximum := by
  have hmax : bangTableUserMaximum = 4 := rfl
  have hnumber := number_of_autoselect h
  unfold invited
  split_ifs with hnotice
  · have hlength := List.length_take_le b.noticenum.toNat
      (b.waiting a (env.order.visit b.idleHash.entries))
    have hfew : b.noticenum ≤ 3 := by
      unfold noticenum
      split_ifs <;> omega
    omega
  · rw [List.length_nil]
    omega

/-- Nothing is removed from the hash if `uid` names nobody at the table or nobody is rejected. -/
theorem accepted_eq (h : (b.tables t).hash.entries.any (b.rejects a) = true →
    (b.tables t).hash.lookup uid = none) : b.accepted a uid t = (b.tables t).hash := by
  unfold accepted
  split_ifs with hany
  · refine AList.ext (List.kerase_of_notMem_keys ?_)
    exact AList.lookup_eq_none.mp (h hany)
  · rfl

theorem withHash_self (b : Bang) (t : TableId) : b.withHash t (b.tables t).hash = b := by
  unfold withHash
  rw [Function.update_eq_self]

theorem Sits.command (h : b.Sits) (he : b.CommandEffect env q b')
    (hin : b.CommandInOrder env q) : b'.Sits := by
  unfold CommandEffect at he
  unfold CommandInOrder at hin
  cases hcmd : q.cmd with
  | join userid =>
    rw [hcmd] at he
    exact h.joinEffect he
  | quit =>
    rw [hcmd] at he
    rw [show b' = b from he]
    exact h
  | toBattle =>
    rw [hcmd] at he hin
    rcases he with ⟨rfl, -⟩ | ⟨a, u, uid, t, hget, hu, huid, hidle, hselect, hs⟩
    · exact h
    -- Who sits down has no table, and all of them find room.
    obtain ⟨hself, hothers⟩ := hin a u t hget hu hidle hselect
    refine h.seats hs ?_ ?_ (invited_room env a hselect)
    · rw [List.map_cons, List.nodup_cons]
      refine ⟨fun hmem => ?_, h.ok.invited_nodup env a t⟩
      obtain ⟨e, he, heq⟩ := List.mem_map.mp hmem
      exact (mem_invited he).2 heq
    · intro e he v hv
      rcases List.mem_cons.mp he with rfl | he
      · obtain rfl := Option.some.inj (hu.symm.trans hv)
        exact hself
      · exact hothers e he v hv
  | acceptBattle =>
    rw [hcmd] at he hin
    rcases he with ⟨rfl, -⟩ | ⟨a, u, t, hget, hu, ht, hk⟩
    · exact h
    · rw [accepted_eq (hin a u t hget hu ht), withHash_self] at hk
      exact h.keeps hk
  | turn redirection =>
    rw [hcmd] at he
    rw [show b' = b from he]
    exact h

/-- A command that is not in order ends well, with a seating that is wrong. -/
theorem Sits.command_break (h : b.Sits) (hin : ¬b.CommandInOrder env q) :
    ∃ b' err, b.processDriver env q = .ok (b', err) ∧ ¬b'.Seated := by
  unfold CommandInOrder at hin
  unfold processDriver
  split at hin
  case h_1 hcmd =>
    push Not at hin
    obtain ⟨a, u, t, hget, hu, hidle, hselect, hsits⟩ := hin
    obtain ⟨v, uid, hv, huid, -⟩ := h.ok.appUser hget
    obtain rfl := Option.some.inj (hu.symm.trans hv)
    -- Somebody who is to sit down has a table, and its hash knows.
    have hseated : ∃ e ∈ ⟨uid, a⟩ :: b.invited env a t, ∃ t',
        (b.tables t').hash.lookup e.1 = some e.2 := by
      by_cases hself : u.table = none
      · obtain ⟨e, he, v, hv, hvt⟩ := hsits hself
        obtain ⟨t', hvt⟩ := Option.ne_none_iff_exists'.mp hvt
        obtain ⟨v', hv', hvid⟩ := h.ok.idle e.1 e.2 (mem_invited he).1
        obtain rfl := Option.some.inj (hv.symm.trans hv')
        exact ⟨e, List.mem_cons_of_mem _ he, t', h.present e.2 v t' e.1 hv hvt hvid⟩
      · obtain ⟨t', ht⟩ := Option.ne_none_iff_exists'.mp hself
        exact ⟨_, List.mem_cons_self, t', h.present a u t' uid hu ht huid⟩
    obtain ⟨e, he, t', hseat⟩ := hseated
    rw [hcmd]
    dsimp only
    rw [cmdToBattle, hget, ok_bind]
    dsimp only
    rcases h.ok.broadcast env hu huid with ⟨-, -, hfull⟩ | ⟨b', err, hb', heffect⟩
    · rw [hselect] at hfull
      cases hfull
    refine ⟨b', err, hb', ?_⟩
    rcases heffect with ⟨hbusy, -⟩ | ⟨t₁, -, hselect', hs⟩
    · exact absurd hidle hbusy
    · obtain rfl := Option.some.inj (hselect.symm.trans hselect')
      exact (hs.misplaced he (h.seated.counted t).ge hseat).not_seated
  case h_2 hcmd =>
    push Not at hin
    obtain ⟨a, u, t, hget, hu, ht, hany, huid⟩ := hin
    rw [hcmd]
    dsimp only
    rcases h.ok.accept env hget hu with
      ⟨-, hnone⟩ | ⟨t₁, ht₁, ⟨-, k, o, hseat, hdead⟩ | ⟨b', err, hb', hk⟩⟩
    · rw [ht] at hnone
      cases hnone
    · -- Nobody at a table was freed.
      obtain ⟨v, hv, -⟩ := h.seated.named t₁ k o hseat
      rw [hdead] at hv
      cases hv
    · refine ⟨b', err, hb', fun hseated => ?_⟩
      obtain rfl := Option.some.inj (ht.symm.trans ht₁)
      have hold := h.seated.counted t
      have hnew := hseated.counted t
      have hlength := length_keys_erase huid
      have haccepted : b.accepted a env.uid t = (b.tables t).hash.erase env.uid := if_pos hany
      rw [hk.tables, withHash, haccepted] at hnew
      dsimp only at hnew
      rw [Function.update_self] at hnew
      dsimp only at hnew
      omega
  case h_3 => exact absurd trivial hin

/-! ## Every run -/

/-- A step that leaves the seating in order. -/
def InOrder (b : Bang) : BangStep → Prop
  | .process env =>
    ∀ q rest, b.running = none → b.queue = q :: rest → b.CommandInOrder env q
  | _ => True

theorem Sits.step {i : BangStep} (h : b.Sits) (hin : b.InOrder i) (hb : b.step i = .ok b') :
    b'.Sits := by
  rcases (h.ok.step i).2 b' hb with hk | ⟨b₁, c, hk, hd⟩ | ⟨env, q, rest, rfl, hrunning, hqueue, he⟩
  · exact h.keeps hk
  · exact (h.keeps hk).drops hd
  · exact (h.keeps (b.take_keeps q rest)).command he (hin q rest hrunning hqueue)

theorem Sits.step_break {i : BangStep} (h : b.Sits) (hin : ¬b.InOrder i) :
    ∃ b', b.step i = .ok b' ∧ ¬b'.Seated := by
  unfold InOrder at hin
  split at hin
  case h_1 env =>
    push Not at hin
    obtain ⟨q, rest, hrunning, hqueue, hcommand⟩ := hin
    obtain ⟨b', err, hb', hnot⟩ := (h.keeps (b.take_keeps q rest)).command_break hcommand
    exact ⟨b', (step_process_iff hrunning hqueue).mpr ⟨err, hb'⟩, hnot⟩
  case h_2 => exact absurd trivial hin

/-- The seating is right in every state of a run that did not crash if and only if every TO_BATTLE
seats only users that sit nowhere, and every ACCEPT_BATTLE that rejects somebody holds in `uid` the
name of nobody at its table. -/
theorem bang_seated_iff (is : List BangStep) :
    Always Bang.next (fun x => ∀ b, x = .ok b → b.Seated) (.ok .start) is ↔
      EachStep Bang.next (fun x i => ∀ b, x = .ok b → b.InOrder i) (.ok .start) is := by
  -- After a fault there is no state left to speak of.
  refine always_iff_eachStep (L := fun _ _ => True) (I := fun x => ∀ b, x = .ok b → b.Sits)
    ?_ ?_ ?_ ?_ (eachStep_of_forall (fun _ _ => trivial) _ _)
  · exact fun x hx b hb => (hx b hb).seated
  · rintro (e | b) i hx - hG
    · exact hx
    · exact fun b' hb => (hx b rfl).step (hG b rfl) hb
  · rintro (e | b) i hx - hG hseated
    · exact hG nofun
    · refine hG fun b₀ hb₀ => ?_
      rw [← Except.ok.inj hb₀]
      by_contra hin
      obtain ⟨b', hb', hnot⟩ := (hx b rfl).step_break hin
      exact hnot (hseated b' hb')
  · rintro b hb
    rw [← Except.ok.inj hb]
    exact start_sits

/-- Three clients join, the first is given a table and invites the others, and the second accepts
while `uid` happens to hold the name of the third. -/
theorem bang_not_seated : ¬∀ is : List BangStep,
    Always Bang.next (fun x => ∀ b, x = .ok b → b.Seated) (.ok .start) is := by
  intro hall
  have hrun := hall [.accept 5, .accept 6, .accept 7,
    .request ⟨1, 5⟩ (.join (some (ascii "a"))) true,
    .process ⟨true, fun _ => none, .listed, []⟩, .free,
    .request ⟨2, 6⟩ (.join (some (ascii "b"))) true,
    .process ⟨true, fun _ => none, .listed, []⟩, .free,
    .request ⟨3, 7⟩ (.join (some (ascii "c"))) true,
    .process ⟨true, fun _ => none, .listed, []⟩, .free,
    .request ⟨1, 5⟩ .toBattle true, .process ⟨true, fun _ => none, .listed, []⟩, .free,
    .request ⟨2, 6⟩ .acceptBattle true, .process ⟨true, fun _ => none, .listed, ascii "c"⟩]
  have hlast := hrun.2.2.2.2.2.2.2.2.2.2.2.2.2.2.2.2.2 _ rfl
  exact absurd (hlast.counted ⟨0, by decide⟩) (by decide)

end Bang

end Moc
