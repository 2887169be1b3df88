import Moc.Server.BangUsers

/-!
# The tables of the bang plugin

What TO_BATTLE, ACCEPT_BATTLE and TURN do. A TO_BATTLE seats its user and those of the idle users
that it invites (`Seats`), an ACCEPT_BATTLE may take one entry out of the hash of its table, and
states and the idle hash follow (`Keeps`). -/

open Bytes Memory Runs

namespace Moc

namespace Bang

variable {b b' b₁ b₂ : Bang} {a : ℕ} {u : BangUser} {uid : Uid} {t : TableId} {env : BangEnv}
  {q : BangRequest}

/-! ## Sitting down -/

theorem seat_users_self (hu : b.users a = some u) :
    (b.seat t a uid).users a = some { u with table := some t } := by
  unfold seat
  dsimp only
  rw [Function.update_self, hu, Option.map_some]

theorem seat_users_of_ne {a' : ℕ} (h : a' ≠ a) : (b.seat t a uid).users a' = b.users a' :=
  Function.update_of_ne h ..

theorem seat_users {a' : ℕ} {u' : BangUser} (h : (b.seat t a uid).users a' = some u') :
    ∃ u, b.users a' = some u ∧ u'.uid = u.uid ∧ u'.conn = u.conn ∧ u'.state = u.state ∧
      u'.table = if a' = a then some t else u.table := by
  by_cases ha : a' = a
  · subst ha
    have hmap : (b.users a').map (fun u => { u with table := some t }) = some u' := by
      rw [← h, seat]
      dsimp only
      rw [Function.update_self]
    obtain ⟨u, hu, rfl⟩ := Option.map_eq_some_iff.mp hmap
    exact ⟨u, hu, rfl, rfl, rfl, by rw [if_pos rfl]⟩
  · rw [seat_users_of_ne ha] at h
    exact ⟨u', h, rfl, rfl, rfl, by rw [if_neg ha]⟩

theorem seat_tables_self : (b.seat t a uid).tables t =
    ⟨(b.tables t).number + 1, (b.tables t).hash.insert uid a⟩ := Function.update_self ..

theorem seat_tables_of_ne {t' : TableId} (h : t' ≠ t) : (b.seat t a uid).tables t' = b.tables t' :=
  Function.update_of_ne h ..

/-- The entries of the hashes after a user sat down. -/
theorem seat_lookup (b : Bang) (t t' : TableId) (a : ℕ) (uid k : Uid) :
    ((b.seat t a uid).tables t').hash.lookup k =
      if t' = t ∧ k = uid then some a else (b.tables t').hash.lookup k := by
  by_cases ht : t' = t
  · rw [ht, seat_tables_self, lookup_insert_eq]
    simp only [true_and]
  · rw [seat_tables_of_ne ht, if_neg fun h => ht h.1]

theorem Ok.seat (h : b.Ok) (hu : b.users a = some u) (huid : u.uid = some uid) :
    (b.seat t a uid).Ok := by
  -- Only a table is written, so users keep their ids and connections.
  have hnew : ∀ a' u' k, b.users a' = some u' → u'.uid = some k →
      ∃ u'', (b.seat t a uid).users a' = some u'' ∧ u''.uid = some k ∧ u''.conn = u'.conn := by
    intro a' u' k hu' hk
    by_cases ha : a' = a
    · rw [ha] at hu' ⊢
      exact ⟨_, seat_users_self hu', hk, rfl⟩
    · exact ⟨u', (seat_users_of_ne ha).trans hu', hk, rfl⟩
  constructor
  case user_lt =>
    intro a' u' hu'
    obtain ⟨u₀, hu₀, -⟩ := seat_users hu'
    exact h.user_lt a' u₀ hu₀
  case filed =>
    intro a' u' k hu' hk
    obtain ⟨u₀, hu₀, heq, -⟩ := seat_users hu'
    exact h.filed a' u₀ k hu₀ (heq.symm.trans hk)
  case found =>
    intro k a' hfound
    obtain ⟨u', hu', hk⟩ := h.found k a' hfound
    obtain ⟨u'', hu'', hk', -⟩ := hnew a' u' k hu' hk
    exact ⟨u'', hu'', hk'⟩
  case idle =>
    intro k a' hidle
    obtain ⟨u', hu', hk⟩ := h.idle k a' hidle
    obtain ⟨u'', hu'', hk', -⟩ := hnew a' u' k hu' hk
    exact ⟨u'', hu'', hk'⟩
  case seat_lt =>
    intro t' k a' hseat
    rw [seat_lookup] at hseat
    split_ifs at hseat
    · rw [← Option.some.inj hseat]
      exact h.user_lt a u hu
    · exact h.seat_lt t' k a' hseat
  case seated =>
    intro t' k a' u' hseat hu'
    obtain ⟨u₀, hu₀, heq, -, -, htable⟩ := seat_users hu'
    rw [seat_lookup] at hseat
    split_ifs at hseat with hk
    · obtain rfl := Option.some.inj hseat
      obtain rfl := Option.some.inj (hu.symm.trans hu₀)
      rw [heq, huid, hk.2, htable, if_pos rfl]
      exact ⟨rfl, Option.some_ne_none t⟩
    · obtain ⟨hk', hsome⟩ := h.seated t' k a' u₀ hseat hu₀
      rw [heq, htable]
      refine ⟨hk', ?_⟩
      split_ifs
      · exact Option.some_ne_none t
      · exact hsome
  case appdata =>
    intro s k a' hs ha
    obtain ⟨u', k', hu', hk', hsock⟩ := h.appdata s k a' hs ha
    obtain ⟨u'', hu'', hk'', hsock'⟩ := hnew a' u' k' hu' hk'
    exact ⟨u'', k', hu'', hk'', hsock'.trans hsock⟩

/-- The users `l` sit down at the table `t`, one after the other, and between them nobody goes. -/
inductive Seats (t : TableId) : Bang → List (Σ _ : Uid, ℕ) → Bang → Prop where
  | nil {b b' : Bang} : b.Keeps b' → Seats t b [] b'
  | cons {b b₁ b' : Bang} {u : BangUser} {uid : Uid} {a : ℕ} {l : List (Σ _ : Uid, ℕ)} :
    b.users a = some u → u.uid = some uid → (b.seat t a uid).Keeps b₁ → Seats t b₁ l b' →
      Seats t b (⟨uid, a⟩ :: l) b'

theorem Ok.seats {l : List (Σ _ : Uid, ℕ)} (h : b.Ok) (hs : Seats t b l b') : b'.Ok := by
  induction hs with
  | nil hk => exact h.keeps hk
  | cons hu huid hk _ ih => exact ih ((h.seat hu huid).keeps hk)

theorem Seats.keeps {l : List (Σ _ : Uid, ℕ)} (hs : Seats t b l b₁) (hk : b₁.Keeps b') :
    Seats t b l b' := by
  induction hs with
  | nil hk' => exact .nil (hk'.trans hk)
  | cons hu huid hk' _ ih => exact .cons hu huid hk' (ih hk)

/-! ## TO_BATTLE -/

/-- A table with room is found, if there is one. -/
theorem bangAutoselectTableInRoom_eq_none_iff :
    b.bangAutoselectTableInRoom = none ↔
      ∀ t, ¬(0 ≤ (b.tables t).number ∧ (b.tables t).number < bangTableUserMaximum) := by
  have hmax : bangTableUserMaximum = 4 := rfl
  unfold bangAutoselectTableInRoom
  -- The two searches together look for a table with 0 to 3 users.
  constructor
  · intro hnone t
    cases hfirst : (List.finRange bangRoomTableMaximum).find? fun t =>
        1 ≤ (b.tables t).number ∧ (b.tables t).number ≤ bangTableUserMaximum - 1 with
    | some t' =>
      rw [hfirst] at hnone
      cases hnone
    | none =>
      rw [hfirst] at hnone
      have hsome := List.find?_eq_none.mp hfirst t (List.mem_finRange t)
      have hempty := List.find?_eq_none.mp hnone t (List.mem_finRange t)
      rw [decide_eq_true_eq] at hsome hempty
      omega
  · intro hfull
    have hfirst : (List.finRange bangRoomTableMaximum).find? (fun t =>
        1 ≤ (b.tables t).number ∧ (b.tables t).number ≤ bangTableUserMaximum - 1) = none := by
      refine List.find?_eq_none.mpr fun t _ => ?_
      have := hfull t
      rw [decide_eq_true_eq]
      omega
    rw [hfirst]
    refine List.find?_eq_none.mpr fun t _ => ?_
    have := hfull t
    rw [decide_eq_true_eq]
    omega

theorem number_of_autoselect (h : b.bangAutoselectTableInRoom = some t) :
    0 ≤ (b.tables t).number ∧ (b.tables t).number < bangTableUserMaximum := by
  have hmax : bangTableUserMaximum = 4 := rfl
  unfold bangAutoselectTableInRoom at h
  split at h
  case h_1 t' hfirst =>
    have hnumber := List.find?_some hfirst
    rw [← Option.some.inj h]
    rw [decide_eq_true_eq] at hnumber
    omega
  case h_2 =>
    have hnumber := List.find?_some h
    rw [decide_eq_true_eq] at hnumber
    omega

theorem bangStateTransitBattling_keeps (env : BangEnv) (hu : b.users a = some u)
    (huid : u.uid = some uid) (ht : u.table ≠ none) :
    ∃ b' err, b.bangStateTransitBattling env a = .ok (b', err) ∧ b.Keeps b' := by
  obtain ⟨t, ht⟩ := Option.ne_none_iff_exists'.mp ht
  unfold bangStateTransitBattling
  rw [derefUser_of_some hu, ok_bind, huid, readStr, ok_bind, ht]
  have hkeeps := (b.removeIdle_keeps uid).trans ((b.removeIdle uid).setState_keeps a .battling)
  split_ifs
  · exact ⟨_, _, rfl, b.setState_keeps a .unknown⟩
  · cases env.msgNew a with
    | some err => exact ⟨_, _, rfl, hkeeps⟩
    | none => exact ⟨_, _, rfl, hkeeps⟩

/-- The idle users of a list, without the user `a`. -/
def waiting (b : Bang) (a : ℕ) (l : List (Σ _ : Uid, ℕ)) : List (Σ _ : Uid, ℕ) :=
  l.filter fun e => e.2 ≠ a ∧ (b.users e.2).any fun u => u.state = .idle

/-- The loop over the idle users seats those that wait, while the number of the table is not above
`noticenum`. -/
theorem inviteIdle_seats (t : TableId) (a : ℕ) (n : ℤ) {l : List (Σ _ : Uid, ℕ)}
    (hnodup : (l.map Sigma.snd).Nodup)
    (hl : ∀ e ∈ l, ∃ u, b.users e.2 = some u ∧ u.uid = some e.1) :
    ∃ b', inviteIdle t a n b l = .ok b' ∧
      Seats t b ((b.waiting a l).take (n - (b.tables t).number + 1).toNat) b' := by
  induction l generalizing b with
  | nil => exact ⟨b, rfl, by simpa [waiting] using Seats.nil (.refl b)⟩
  | cons e l ih =>
    obtain ⟨k, o⟩ := e
    obtain ⟨u, hu, huid⟩ := hl ⟨k, o⟩ List.mem_cons_self
    rw [List.map_cons, List.nodup_cons] at hnodup
    obtain ⟨hout, hnodup⟩ := hnodup
    have hrest : ∀ e ∈ l, ∃ u, b.users e.2 = some u ∧ u.uid = some e.1 :=
      fun e he => hl e (List.mem_cons_of_mem _ he)
    rw [inviteIdle, derefUser_of_some hu, ok_bind]
    by_cases hskip : o = a ∨ u.state ≠ .idle
    · rw [if_pos hskip]
      -- The inviting user and those who are not idle are passed over.
      have hwaiting : b.waiting a (⟨k, o⟩ :: l) = b.waiting a l := by
        unfold waiting
        refine List.filter_cons_of_neg ?_
        rw [hu, Option.any_some, decide_eq_true_eq, decide_eq_true_eq]
        tauto
      rw [hwaiting]
      exact ih hnodup hrest
    rw [if_neg hskip]
    push Not at hskip
    by_cases hbreak : (b.tables t).number > n
    · rw [if_pos hbreak]
      have hzero : (n - (b.tables t).number + 1).toNat = 0 := by omega
      rw [hzero, List.take_zero]
      exact ⟨b, rfl, .nil (.refl b)⟩
    · rw [if_neg hbreak, huid, readStr, ok_bind]
      set b₁ := (b.seat t o k).setState o .receiveBattle with hb₁
      have hkeeps : (b.seat t o k).Keeps b₁ := (b.seat t o k).setState_keeps o .receiveBattle
      -- The user who sat down is not in the rest of the list, whose users are as before.
      have hsame : ∀ e ∈ l, b₁.users e.2 = b.users e.2 := by
        intro e he
        have hne : e.2 ≠ o := fun heq => hout (List.mem_map.mpr ⟨e, he, heq⟩)
        rw [hb₁, setState]
        exact (Function.update_of_ne hne ..).trans (seat_users_of_ne hne)
      have hwaiting : b.waiting a (⟨k, o⟩ :: l) = ⟨k, o⟩ :: b₁.waiting a l := by
        unfold waiting
        rw [List.filter_cons_of_pos]
        · congr 1
          exact List.filter_congr fun e he => by rw [hsame e he]
        · rw [hu, Option.any_some, decide_eq_true_eq, decide_eq_true_eq]
          exact hskip
      -- One place less is left.
      have hcount : (n - (b.tables t).number + 1).toNat =
          (n - (b₁.tables t).number + 1).toNat + 1 := by
        have hnumber : (b₁.tables t).number = (b.tables t).number + 1 := by
          rw [hkeeps.tables, seat_tables_self]
        omega
      obtain ⟨b', hb', hs⟩ := ih hnodup fun e he => by rw [hsame e he]; exact hrest e he
      refine ⟨b', hb', ?_⟩
      rw [hwaiting, hcount, List.take_succ_cons]
      exact .cons hu huid hkeeps hs

/-- What a walk through a hash comes to. -/
theorem mem_visit {order : HashOrder} {hash : UserHash} {e : Σ _ : Uid, ℕ} :
    e ∈ order.visit hash.entries ↔ hash.lookup e.1 = some e.2 :=
  (order.perm _).mem_iff.trans AList.mem_lookup_iff.symm

/-- Different entries of the idle hash are different users. -/
theorem Ok.idle_nodup (h : b.Ok) (order : HashOrder) :
    ((order.visit b.idleHash.entries).map Sigma.snd).Nodup := by
  refine List.Nodup.map_on ?_ ((order.perm _).nodup_iff.mpr b.idleHash.nodupKeys.nodup)
  rintro ⟨k, o⟩ he ⟨k', o'⟩ he' heq
  obtain ⟨v, hv, hk⟩ := h.idle k o (mem_visit.mp he)
  obtain ⟨v', hv', hk'⟩ := h.idle k' o' (mem_visit.mp he')
  have ho : o = o' := heq
  obtain rfl := ho
  obtain rfl := Option.some.inj (hv.symm.trans hv')
  obtain rfl := Option.some.inj (hk.symm.trans hk')
  rfl

/-- The idle users that a TO_BATTLE of `a` at the table `t` invites: as many as `noticenum` of those
that the walk comes to first. -/
def invited (b : Bang) (env : BangEnv) (a : ℕ) (t : TableId) : List (Σ _ : Uid, ℕ) :=
  if (b.tables t).number = 0 ∧ 1 < b.noticenum ∧ env.msgNew a = none then
    (b.waiting a (env.order.visit b.idleHash.entries)).take b.noticenum.toNat
  else []

theorem mem_invited {e : Σ _ : Uid, ℕ} (he : e ∈ b.invited env a t) :
    b.idleHash.lookup e.1 = some e.2 ∧ e.2 ≠ a := by
  unfold invited at he
  split_ifs at he
  · have hwaits := List.mem_of_mem_take he
    unfold waiting at hwaits
    rw [List.mem_filter, decide_eq_true_eq] at hwaits
    exact ⟨mem_visit.mp hwaits.1, hwaits.2.1⟩
  · cases he

theorem Ok.invited_nodup (h : b.Ok) (env : BangEnv) (a : ℕ) (t : TableId) :
    ((b.invited env a t).map Sigma.snd).Nodup := by
  unfold invited
  split_ifs
  · refine (h.idle_nodup env.order).sublist (List.Sublist.map _ ?_)
    exact (List.take_sublist _ _).trans List.filter_sublist
  · exact List.nodup_nil

theorem Ok.broadcast (h : b.Ok) (env : BangEnv) (hu : b.users a = some u)
    (huid : u.uid = some uid) :
    (b.bangBroadcastToBattleMessage env a = .error .nullPointer ∧ u.state = .idle ∧
      b.bangAutoselectTableInRoom = none) ∨
    ∃ b' err, b.bangBroadcastToBattleMessage env a = .ok (b', err) ∧
      (u.state ≠ .idle ∧ b' = b ∨ ∃ t, u.state = .idle ∧ b.bangAutoselectTableInRoom = some t ∧
        Seats t b (⟨uid, a⟩ :: b.invited env a t) b') := by
  unfold bangBroadcastToBattleMessage
  rw [derefUser_of_some hu, ok_bind]
  by_cases hstate : u.state ≠ .idle
  · rw [if_pos hstate]
    exact Or.inr ⟨b, _, rfl, Or.inl ⟨hstate, rfl⟩⟩
  rw [if_neg hstate]
  rw [not_not] at hstate
  cases hselect : b.bangAutoselectTableInRoom with
  | none => exact Or.inl ⟨rfl, hstate, rfl⟩
  | some t =>
    right
    dsimp only
    rw [huid, readStr, ok_bind]
    have hnumber := number_of_autoselect hselect
    have hmax : bangTableUserMaximum = 4 := rfl
    have hself : (b.seat t a uid).users a = _ := seat_users_self hu
    have hseats : ∀ {l b'}, b.invited env a t = l → Seats t (b.seat t a uid) l b' →
        Seats t b (⟨uid, a⟩ :: b.invited env a t) b' := by
      rintro l b' rfl hs
      exact .cons hu huid (.refl _) hs
    rw [seat_tables_self]
    dsimp only
    by_cases hzero : (b.tables t).number = 0
    swap
    · -- Others sit there already.
      have hinvited : b.invited env a t = [] := if_neg fun hall => hzero hall.1
      obtain ⟨b', err, hb', hk⟩ :=
        bangStateTransitBattling_keeps env hself huid (Option.some_ne_none t)
      rw [if_pos (by omega), hb']
      exact ⟨b', err, rfl, Or.inr ⟨t, hstate, rfl, hseats hinvited (.nil hk)⟩⟩
    rw [if_neg (by omega)]
    have hnotice : (b.seat t a uid).noticenum = b.noticenum := rfl
    rw [hnotice]
    by_cases hfew : b.noticenum ≤ 1
    · have hinvited : b.invited env a t = [] := if_neg fun hall => absurd hall.2.1 (by omega)
      rw [if_pos hfew]
      exact ⟨_, none, rfl, Or.inr ⟨t, hstate, rfl,
        hseats hinvited (.nil ((b.seat t a uid).setState_keeps a .singleBattle))⟩⟩
    rw [if_neg hfew]
    -- An empty table and more than one idle user: the invitation goes out, if it can be made.
    cases hmsg : env.msgNew a with
    | some err =>
      have hinvited : b.invited env a t = [] := by
        refine if_neg fun hall => ?_
        rw [hmsg] at hall
        cases hall.2.2
      exact ⟨_, some err, rfl, Or.inr ⟨t, hstate, rfl, hseats hinvited (.nil (.refl _))⟩⟩
    | none =>
      have hok := h.seat (t := t) hu huid
      obtain ⟨b', hb', hs⟩ := inviteIdle_seats t a b.noticenum (hok.idle_nodup env.order)
        fun e he => hok.idle e.1 e.2 (mem_visit.mp he)
      -- Who sat down first does not wait.
      have hwaiting : (b.seat t a uid).waiting a
          (env.order.visit (b.seat t a uid).idleHash.entries) =
          b.waiting a (env.order.visit b.idleHash.entries) := by
        refine List.filter_congr fun e _ => ?_
        by_cases hself : e.2 = a
        · simp only [hself, ne_eq, not_true_eq_false, false_and]
        · rw [seat_users_of_ne hself]
      have hinvited : b.invited env a t = (b.waiting a (env.order.visit b.idleHash.entries)).take
          b.noticenum.toNat := if_pos ⟨hzero, by omega, hmsg⟩
      rw [seat_tables_self, hzero, hwaiting] at hs
      have hcount : b.noticenum - (0 + 1) + 1 = b.noticenum := by omega
      dsimp only at hs
      rw [hcount] at hs
      refine ⟨b'.setState a .toBattle, none, ?_, Or.inr ⟨t, hstate, rfl, ?_⟩⟩
      · dsimp only
        rw [hb', ok_bind]
        rfl
      · exact hseats hinvited (hs.keeps (b'.setState_keeps a .toBattle))

/-! ## ACCEPT_BATTLE -/

/-- The hash of a table is exchanged. -/
def withHash (b : Bang) (t : TableId) (hash : UserHash) : Bang :=
  { b with tables := Function.update b.tables t { b.tables t with hash := hash } }

/-- An entry that makes `cmd_accept_battle` remove what its `uid` happens to name. -/
def rejects (b : Bang) (a : ℕ) (e : Σ _ : Uid, ℕ) : Bool :=
  e.2 ≠ a ∧ (b.users e.2).any fun u => u.state ≠ .toBattle

/-- The hash of the table after an ACCEPT_BATTLE of `a`, where `uid` is what the variable holds. -/
def accepted (b : Bang) (a : ℕ) (uid : Uid) (t : TableId) : UserHash :=
  if (b.tables t).hash.entries.any (b.rejects a) then (b.tables t).hash.erase uid
  else (b.tables t).hash

theorem erase_erase_self (hash : UserHash) (uid : Uid) :
    (hash.erase uid).erase uid = hash.erase uid := by
  refine AList.ext (List.kerase_of_notMem_keys ?_)
  rw [← AList.keys, ← AList.mem_keys, AList.mem_erase]
  exact fun hmem => hmem.1 rfl

theorem Ok.withHash (h : b.Ok) {hash : UserHash}
    (hsub : ∀ k a, hash.lookup k = some a → (b.tables t).hash.lookup k = some a) :
    (b.withHash t hash).Ok := by
  have hold : ∀ t' k a, ((b.withHash t hash).tables t').hash.lookup k = some a →
      (b.tables t').hash.lookup k = some a := by
    intro t' k a hlookup
    unfold Bang.withHash at hlookup
    dsimp only at hlookup
    by_cases ht : t' = t
    · rw [ht, Function.update_self] at hlookup
      rw [ht]
      exact hsub k a hlookup
    · rwa [Function.update_of_ne ht] at hlookup
  exact ⟨h.user_lt, h.filed, h.found, h.idle,
    fun t' k a hlookup => h.seat_lt t' k a (hold t' k a hlookup),
    fun t' k a u hlookup => h.seated t' k a u (hold t' k a hlookup), h.appdata⟩

theorem accepted_lookup {a' : ℕ} {k : Uid} (h : (b.accepted a uid t).lookup k = some a') :
    (b.tables t).hash.lookup k = some a' := by
  unfold accepted at h
  split_ifs at h
  · rw [lookup_erase_eq] at h
    split_ifs at h
    exact h
  · exact h

/-- The first loop meets a user that was freed, or removes the entry if some entry rejects. -/
theorem rejectOthers_eq (b : Bang) (a : ℕ) (uid : Uid) (hash : UserHash) (l : List (Σ _ : Uid, ℕ)) :
    (b.rejectOthers a uid hash l = .error .useAfterFree ∧ ∃ e ∈ l, b.users e.2 = none) ∨
    b.rejectOthers a uid hash l = .ok
      (if l.any (fun e => (hash.lookup e.1).isSome && b.rejects a e) then hash.erase uid
        else hash) := by
  -- The hash changes once at most, and erasing the same id again changes nothing.
  induction l generalizing hash with
  | nil => exact Or.inr rfl
  | cons e l ih =>
    obtain ⟨k, o⟩ := e
    rw [rejectOthers]
    by_cases hgone : (hash.lookup k).isNone
    · -- The entry was removed.
      rw [if_pos hgone, List.any_cons]
      rw [Option.isNone_iff_eq_none] at hgone
      simp only [hgone, Option.isSome_none, Bool.false_and, Bool.false_or]
      exact (ih hash).imp_left fun ⟨hfree, e, he, hnone⟩ =>
        ⟨hfree, e, List.mem_cons_of_mem _ he, hnone⟩
    rw [if_neg hgone]
    have hsome : (hash.lookup k).isSome = true := by
      rw [Option.isNone_iff_eq_none] at hgone
      exact Option.isSome_iff_ne_none.mpr hgone
    cases hu : b.users o with
    | none =>
      left
      rw [derefUser, hu, error_bind]
      exact ⟨rfl, ⟨k, o⟩, List.mem_cons_self, hu⟩
    | some u =>
      rw [derefUser_of_some hu, ok_bind, List.any_cons]
      -- The test of the loop, for a user that was not freed.
      have hrejects : b.rejects a ⟨k, o⟩ = decide (o ≠ a ∧ u.state ≠ .toBattle) := by
        unfold rejects
        simp only [hu, Option.any_some, ne_eq, decide_not, Bool.decide_and, Bool.not_eq_eq_eq_not,
          Bool.not_true, decide_eq_false_iff_not]
      by_cases hreject : o ≠ a ∧ u.state ≠ .toBattle
      · rw [if_pos hreject, hrejects, hsome, decide_eq_true hreject, Bool.and_self, Bool.true_or,
          if_pos rfl]
        rcases ih (hash.erase uid) with ⟨hfree, e, he, hnone⟩ | hok
        · exact Or.inl ⟨hfree, e, List.mem_cons_of_mem _ he, hnone⟩
        · rw [hok, erase_erase_self, ite_self]
          exact Or.inr rfl
      · rw [if_neg hreject, hrejects, decide_eq_false hreject, Bool.and_false, Bool.false_or]
        exact (ih hash).imp_left fun ⟨hfree, e, he, hnone⟩ =>
          ⟨hfree, e, List.mem_cons_of_mem _ he, hnone⟩

/-- The second loop changes states, as long as it meets no user that was freed. -/
theorem battleAll_keeps (env : BangEnv) {l : List (Σ _ : Uid, ℕ)}
    (hl : ∀ e ∈ l, ∀ u, b.users e.2 = some u → u.uid = some e.1 ∧ u.table ≠ none) :
    (battleAll env b l = .error .useAfterFree ∧ ∃ e ∈ l, b.users e.2 = none) ∨
      ∃ b' err, battleAll env b l = .ok (b', err) ∧ b.Keeps b' := by
  -- Each turn changes states only, so the users of the rest still have their tables.
  induction l generalizing b with
  | nil => exact Or.inr ⟨b, none, rfl, .refl b⟩
  | cons e l ih =>
    obtain ⟨k, o⟩ := e
    rw [battleAll]
    cases hu : b.users o with
    | none =>
      left
      rw [bangStateTransitBattling, derefUser, hu, error_bind, error_bind]
      exact ⟨rfl, ⟨k, o⟩, List.mem_cons_self, hu⟩
    | some u =>
      obtain ⟨huid, ht⟩ := hl ⟨k, o⟩ List.mem_cons_self u hu
      obtain ⟨b₁, err, hb₁, hk⟩ := bangStateTransitBattling_keeps env hu huid ht
      rw [hb₁, ok_bind]
      cases err with
      | some err => exact Or.inr ⟨b₁, some err, rfl, hk⟩
      | none =>
        have hrest : ∀ e ∈ l, ∀ u, b₁.users e.2 = some u → u.uid = some e.1 ∧ u.table ≠ none := by
          intro e he u hu
          obtain ⟨state, hu₀⟩ := hk.user hu
          exact hl e (List.mem_cons_of_mem _ he) { u with state := state } hu₀
        rcases ih hrest with ⟨hfree, e, he, hnone⟩ | ⟨b', err, hb', hk'⟩
        · exact Or.inl ⟨hfree, e, List.mem_cons_of_mem _ he, hk.users_eq_none hnone⟩
        · exact Or.inr ⟨b', err, hb', hk.trans hk'⟩

/-- The user of a request. -/
theorem Ok.appUser (h : b.Ok) (ha : b.baseGetUser q = .ok (.ok a)) :
    ∃ u uid, b.users a = some u ∧ u.uid = some uid ∧ u.conn = q.conn := by
  unfold baseGetUser at ha
  split at ha
  case h_1 => cases ha
  case h_2 sock hs =>
    split at ha
    case h_1 => cases ha
    case h_2 a' happ =>
      cases ha
      exact h.appdata q.conn sock a hs happ

theorem setState_users_of_ne (b : Bang) {a o : ℕ} (state : BattleState) (ho : o ≠ a) :
    (b.setState a state).users o = b.users o :=
  Function.update_of_ne ho ..

/-- The first loop of an ACCEPT_BATTLE comes to every entry of the table, and the acceptance does not
change what the others say. -/
theorem rejectOthers_accepted (b : Bang) (a : ℕ) (env : BangEnv) (t : TableId) :
    ((b.setState a .acceptBattle).rejectOthers a env.uid (b.tables t).hash
        (env.order.visit (b.tables t).hash.entries) = .error .useAfterFree ∧
      ∃ k o, (b.tables t).hash.lookup k = some o ∧ b.users o = none) ∨
    (b.setState a .acceptBattle).rejectOthers a env.uid (b.tables t).hash
        (env.order.visit (b.tables t).hash.entries) = .ok (b.accepted a env.uid t) := by
  have hany : (env.order.visit (b.tables t).hash.entries).any (fun e =>
      ((b.tables t).hash.lookup e.1).isSome && (b.setState a .acceptBattle).rejects a e) =
      (b.tables t).hash.entries.any (b.rejects a) := by
    rw [(env.order.perm _).any_eq, Bool.eq_iff_iff, List.any_eq_true, List.any_eq_true]
    refine exists_congr fun e => and_congr_right fun he => ?_
    have hlookup : (b.tables t).hash.lookup e.1 = some e.2 := AList.mem_lookup_iff.mpr he
    rw [hlookup, Option.isSome_some, Bool.true_and]
    unfold rejects
    by_cases hself : e.2 = a
    · simp only [hself, ne_eq, not_true_eq_false, false_and]
    · rw [b.setState_users_of_ne .acceptBattle hself]
  rcases (b.setState a .acceptBattle).rejectOthers_eq a env.uid (b.tables t).hash
      (env.order.visit (b.tables t).hash.entries) with ⟨hfree, e, he, hnone⟩ | hok
  · exact Or.inl ⟨hfree, e.1, e.2, mem_visit.mp he, (b.setState_keeps a _).users_eq_none hnone⟩
  · rw [hany] at hok
    exact Or.inr hok

theorem Ok.accept (h : b.Ok) (env : BangEnv) (ha : b.baseGetUser q = .ok (.ok a))
    (hu : b.users a = some u) :
    (b.cmdAcceptBattle env q = .error .nullPointer ∧ u.table = none) ∨ ∃ t, u.table = some t ∧
      ((b.cmdAcceptBattle env q = .error .useAfterFree ∧
          ∃ k o, (b.tables t).hash.lookup k = some o ∧ b.users o = none) ∨
        ∃ b' err, b.cmdAcceptBattle env q = .ok (b', err) ∧
          (b.withHash t (b.accepted a env.uid t)).Keeps b') := by
  unfold cmdAcceptBattle
  rw [ha, ok_bind]
  dsimp only
  rw [derefUser_of_some hu, ok_bind]
  cases ht : u.table with
  | none => exact Or.inl ⟨rfl, rfl⟩
  | some t =>
    refine Or.inr ⟨t, rfl, ?_⟩
    dsimp only
    have htables : (b.setState a .acceptBattle).tables t = b.tables t := rfl
    rw [htables]
    rcases b.rejectOthers_accepted a env t with ⟨hfree, hdead⟩ | hok
    · left
      rw [hfree, error_bind]
      exact ⟨rfl, hdead⟩
    rw [hok, ok_bind]
    show (battleAll env ((b.withHash t (b.accepted a env.uid t)).setState a .acceptBattle)
      (env.order.visit (b.accepted a env.uid t).entries) = _ ∧ _) ∨ ∃ b' err, battleAll env
        ((b.withHash t (b.accepted a env.uid t)).setState a .acceptBattle)
        (env.order.visit (b.accepted a env.uid t).entries) = _ ∧ _
    have hkeeps := (b.withHash t (b.accepted a env.uid t)).setState_keeps a .acceptBattle
    have hsub : ∀ k o, (b.accepted a env.uid t).lookup k = some o →
        (b.tables t).hash.lookup k = some o := fun k o => accepted_lookup
    have hok₂ := (h.withHash hsub).keeps hkeeps
    have hself : ((b.withHash t (b.accepted a env.uid t)).setState a .acceptBattle).tables t =
        { b.tables t with hash := b.accepted a env.uid t } := Function.update_self ..
    have hl : ∀ e ∈ env.order.visit (b.accepted a env.uid t).entries, ∀ v,
        ((b.withHash t (b.accepted a env.uid t)).setState a .acceptBattle).users e.2 = some v →
        v.uid = some e.1 ∧ v.table ≠ none := by
      intro e he v hv
      refine hok₂.seated t e.1 e.2 v ?_ hv
      rw [hself]
      exact mem_visit.mp he
    rcases battleAll_keeps env hl with ⟨hfree, e, he, hnone⟩ | ⟨b', err, hb', hk⟩
    · exact Or.inl ⟨hfree, e.1, e.2, accepted_lookup (mem_visit.mp he),
        (b.setState_keeps a .acceptBattle).users_eq_none hnone⟩
    · exact Or.inr ⟨b', err, hb', hkeeps.trans hk⟩

/-! ## TURN and QUIT -/

theorem tellTable_eq (b : Bang) (l : List (Σ _ : Uid, ℕ)) :
    b.tellTable l = .error .useAfterFree ∨ b.tellTable l = .ok () := by
  induction l with
  | nil => exact Or.inr rfl
  | cons e l ih =>
    obtain ⟨k, o⟩ := e
    rw [tellTable]
    cases hu : b.users o with
    | none =>
      left
      rw [derefUser, hu, error_bind]
    | some u => rwa [derefUser_of_some hu, ok_bind]

/-- A TURN reads the table of its user, if it has its parameter and its message. -/
theorem Ok.turn (h : b.Ok) (env : BangEnv) (ha : b.baseGetUser q = .ok (.ok a))
    (hu : b.users a = some u) (redirection : Option (List UInt8)) :
    (b.cmdTurn env q redirection = .error .nullPointer ↔ u.table = none ∧ env.msgNew a = none ∧
      ∃ val, getParamStr "redirection" redirection = .ok val) ∧
    ∀ b' err, b.cmdTurn env q redirection = .ok (b', err) → b' = b := by
  obtain ⟨u', uid, hu', huid, -⟩ := h.appUser ha
  obtain rfl := Option.some.inj (hu.symm.trans hu')
  unfold cmdTurn
  rw [ha, ok_bind]
  dsimp only
  rw [derefUser_of_some hu, ok_bind]
  cases hparam : getParamStr "redirection" redirection with
  | error err =>
    refine ⟨iff_of_false (by simp) ?_, fun b' err' hb => ?_⟩
    · rintro ⟨-, -, val, hval⟩
      cases hval
    · cases hb
      rfl
  | ok val =>
    dsimp only
    rw [huid, readStr, ok_bind, h.filed a u uid hu huid]
    cases hmsg : env.msgNew a with
    | some err =>
      refine ⟨iff_of_false (by simp) ?_, fun b' err' hb => ?_⟩
      · rintro ⟨-, hnone, -⟩
        cases hnone
      · cases hb
        rfl
    | none =>
      dsimp only
      rw [derefUser_of_some hu, ok_bind]
      -- `hash_lookup` finds the user itself, and its table is followed unchecked.
      cases ht : u.table with
      | none => exact ⟨iff_of_true rfl ⟨rfl, rfl, val, rfl⟩, fun b' err hb => by cases hb⟩
      | some t =>
        dsimp only
        -- The loop over the table changes nothing, but may meet a user that was freed.
        rcases b.tellTable_eq (env.order.visit (b.tables t).hash.entries) with hfree | hok
        · rw [hfree, error_bind]
          refine ⟨iff_of_false (by simp) ?_, fun b' err hb => by cases hb⟩
          rintro ⟨hnone, -⟩
          cases hnone
        · rw [hok, ok_bind]
          refine ⟨iff_of_false (by simp) ?_, fun b' err' hb => ?_⟩
          · rintro ⟨hnone, -⟩
            cases hnone
          · cases hb
            rfl

/-- The user of a QUIT is on the connection of the request, and nothing happens. -/
theorem Ok.quitCmd (h : b.Ok) (ha : b.baseGetUser q = .ok (.ok a)) :
    b.cmdQuit q = .ok (b, none) := by
  obtain ⟨u, uid, hu, huid, hconn⟩ := h.appUser ha
  unfold cmdQuit
  rw [ha, ok_bind]
  dsimp only
  rw [derefUser_of_some hu, ok_bind, huid]
  dsimp only
  rw [baseUserQuit, h.filed a u uid hu huid]
  dsimp only
  rw [derefUser_of_some hu, ok_bind, if_pos hconn.symm]
  rfl

end Bang

end Moc
