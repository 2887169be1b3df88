import Moc.Lib.Memory

/-!
# A stream socket read by a script

What the calls of `recv()` on one connection give is a list of events: bytes that have arrived, the
end of the stream, or an error. A call takes at most as many bytes as it asks for from the bytes at
the front; the rest of them stay for the next call. The end of the stream stays; behind the last
event every call times out. `pull` reads a number of bytes over as many calls as it takes.
-/

namespace Socket

/-- The values of `errno` that matter. -/
inductive Errno where
  | eagain
  | ebadf
  | other
  deriving DecidableEq

/-- What happens on a connection. -/
inductive Event where
  | data (bs : List UInt8)
  | eof
  | err (e : Errno)
  deriving DecidableEq

/-- A socket, with the `errno` that the last failed call left. -/
structure Sock where
  script : List Event
  errno : Errno
  isOpen : Bool
  deriving DecidableEq

/-- `recv()` for at most `n` bytes: none for `-1`, else the bytes received. -/
def Sock.recv (s : Sock) (n : ℕ) : Option (List UInt8) × Sock :=
  if s.isOpen then
    match s.script with
    | [] => (none, { s with errno := .eagain })
    | .data bs :: rest =>
      (some (bs.take n),
        { s with script := if bs.length ≤ n then rest else .data (bs.drop n) :: rest })
    | .eof :: _ => (some [], s)
    | .err e :: rest => (none, { s with script := rest, errno := e })
  else (none, { s with errno := .ebadf })

/-- `close()` -/
def Sock.close (s : Sock) : Sock := { s with isOpen := false }

/-- The bytes a script still has. -/
def weight : List Event → ℕ
  | [] => 0
  | .data bs :: s => bs.length + weight s
  | .eof :: s => weight s
  | .err _ :: s => weight s

/-- Receiving bytes uses up as many of the script. -/
theorem weight_recv {s s' : Sock} {n : ℕ} {bs : List UInt8} (h : s.recv n = (some bs, s')) :
    weight s'.script + bs.length = weight s.script := by
  unfold Sock.recv at h
  split_ifs at h
  · match hs : s.script with
    | [] => simp [hs] at h
    | .data ds :: rest =>
      simp only [hs, Prod.mk.injEq, Option.some.injEq] at h
      rw [← h.1, ← h.2]
      dsimp only
      split_ifs with hle
      · simp [weight, List.take_of_length_le hle, Nat.add_comm]
      · simp [weight]
        omega
    | .eof :: rest =>
      simp only [hs, Prod.mk.injEq, Option.some.injEq] at h
      simp [← h.1, ← h.2, hs]
    | .err e :: rest => simp [hs] at h
  · simp at h

/-- A failed call does not add to the script. -/
theorem weight_recv_none {s s' : Sock} {n : ℕ} (h : s.recv n = (none, s')) :
    weight s'.script = weight s.script := by
  unfold Sock.recv at h
  split_ifs at h
  · match hs : s.script with
    | [] =>
      simp only [hs, Prod.mk.injEq] at h
      simp [← h.2]
    | .data ds :: rest => simp [hs] at h
    | .eof :: rest => simp [hs] at h
    | .err e :: rest =>
      simp only [hs, Prod.mk.injEq] at h
      simp [← h.2, weight]
  · rw [← (Prod.mk.inj h).2]

/-- The next `n` bytes of a script and what is left behind them, when no other event is in
between. -/
def pull : ℕ → List Event → Option (List UInt8 × List Event)
  | 0, s => some ([], s)
  | n + 1, .data bs :: s =>
    if bs = [] then none
    else if bs.length ≤ n + 1 then (pull (n + 1 - bs.length) s).map fun r => (bs ++ r.1, r.2)
    else some (bs.take (n + 1), .data (bs.drop (n + 1)) :: s)
  | _ + 1, [] => none
  | _ + 1, .eof :: _ => none
  | _ + 1, .err _ :: _ => none

@[simp] theorem pull_zero (s : List Event) : pull 0 s = some ([], s) := by
  cases s <;> rfl

/-- Pulling gives as many bytes as asked for. -/
theorem length_pull {n : ℕ} {s s' : List Event} {bs : List UInt8}
    (h : pull n s = some (bs, s')) : bs.length = n := by
  induction s generalizing n bs s' with
  | nil =>
    cases n with
    | zero => simp_all
    | succ n => simp [pull] at h
  | cons e s ih =>
    cases n with
    | zero =>
      simp at h
      simp [← h.1]
    | succ n =>
      cases e with
      | data ds =>
        simp only [pull] at h
        split_ifs at h with h0 hle
        · obtain ⟨r, hr, heq⟩ := Option.map_eq_some_iff.mp h
          have := ih hr
          rw [← (Prod.mk.inj heq).1, List.length_append]
          omega
        · rw [← (Prod.mk.inj (Option.some.inj h)).1, List.length_take]
          omega
      | eof => simp [pull] at h
      | err e => simp [pull] at h

/-- Pulling the front of a chunk. -/
theorem pull_data_of_lt {n : ℕ} {ds : List UInt8} {s : List Event} (hn : 0 < n)
    (hlt : n < ds.length) : pull n (.data ds :: s) = some (ds.take n, .data (ds.drop n) :: s) := by
  obtain ⟨n, rfl⟩ := Nat.exists_eq_succ_of_ne_zero hn.ne'
  have hne : ds ≠ [] := List.ne_nil_of_length_pos (by omega)
  simp only [Nat.succ_eq_add_one] at hlt ⊢
  simp only [pull, hne, if_false, if_neg (show ¬ ds.length ≤ n + 1 by omega)]

/-- Pulling a chunk and what follows. -/
theorem pull_data_of_le {n : ℕ} {ds : List UInt8} {s : List Event} (hne : ds ≠ [])
    (hle : ds.length ≤ n) : pull n (.data ds :: s) =
      (pull (n - ds.length) s).map fun r => (ds ++ r.1, r.2) := by
  have hpos := List.length_pos_iff.mpr hne
  obtain ⟨n, rfl⟩ := Nat.exists_eq_succ_of_ne_zero (show n ≠ 0 by omega)
  simp only [Nat.succ_eq_add_one] at hle ⊢
  simp only [pull, hne, if_false, if_pos hle]

/-- A script that bytes can be pulled from starts with some. -/
theorem pull_eq_some {n : ℕ} {s s' : List Event} {bs : List UInt8} (hn : 0 < n)
    (h : pull n s = some (bs, s')) : ∃ ds rest, s = .data ds :: rest ∧ ds ≠ [] := by
  obtain ⟨n, rfl⟩ := Nat.exists_eq_succ_of_ne_zero hn.ne'
  match s with
  | [] => simp [pull] at h
  | .eof :: rest => simp [pull] at h
  | .err e :: rest => simp [pull] at h
  | .data ds :: rest =>
    refine ⟨ds, rest, rfl, fun h0 => ?_⟩
    simp [pull, h0] at h

/-- One call that asks for the bytes of a pull gives some of them, and the others can still be
pulled. -/
theorem recv_pull {s : Sock} {n : ℕ} {s' : List Event} {bs : List UInt8} (hopen : s.isOpen = true)
    (hn : 0 < n) (h : pull n s.script = some (bs, s')) :
    ∃ c bs' rest, s.recv n = (some c, { s with script := rest }) ∧ c ≠ [] ∧ bs = c ++ bs' ∧
      pull (n - c.length) rest = some (bs', s') := by
  obtain ⟨ds, rest, hs, hne⟩ := pull_eq_some hn h
  rw [hs] at h
  rcases Nat.lt_or_ge n ds.length with hlt | hle
  · rw [pull_data_of_lt hn hlt] at h
    obtain ⟨hbs, hs'⟩ := Prod.mk.inj (Option.some.inj h)
    refine ⟨ds.take n, [], .data (ds.drop n) :: rest, ?_, ?_, ?_, ?_⟩
    · simp [Sock.recv, hopen, hs, Nat.not_le.mpr hlt]
    · simp [hne]
      omega
    · simp [hbs]
    · rw [List.length_take, Nat.min_eq_left hlt.le, Nat.sub_self, pull_zero, hs']
  · rw [pull_data_of_le hne hle] at h
    obtain ⟨⟨bs', s''⟩, hpull, heq⟩ := Option.map_eq_some_iff.mp h
    obtain ⟨hbs, hs'⟩ := Prod.mk.inj heq
    refine ⟨ds, bs', rest, ?_, hne, hbs.symm, ?_⟩
    · simp [Sock.recv, hopen, hs, hle, List.take_of_length_le hle]
    · rw [hpull, ← hs']

/-- Bytes can be pulled in two parts. -/
theorem pull_add {a b : ℕ} {s s' : List Event} {bs : List UInt8}
    (h : pull (a + b) s = some (bs, s')) :
    ∃ s₁, pull a s = some (bs.take a, s₁) ∧ pull b s₁ = some (bs.drop a, s') := by
  induction s generalizing a bs with
  | nil =>
    rcases Nat.eq_zero_or_pos a with rfl | ha
    · exact ⟨[], by simp, by simpa using h⟩
    · obtain ⟨_, _, hs, -⟩ := pull_eq_some (by omega) h
      simp at hs
  | cons e s ih =>
    rcases Nat.eq_zero_or_pos a with rfl | ha
    · exact ⟨e :: s, by simp, by simpa using h⟩
    obtain ⟨ds, rest, hs, hne⟩ := pull_eq_some (by omega) h
    obtain ⟨rfl, rfl⟩ := List.cons.inj hs
    rcases Nat.lt_or_ge a ds.length with hlt | hle
    · -- The chunk reaches behind the first part.
      have hdrop : ds.drop a ≠ [] := by
        simp
        omega
      refine ⟨.data (ds.drop a) :: s, ?_, ?_⟩
      · rw [pull_data_of_lt ha hlt]
        rcases Nat.lt_or_ge (a + b) ds.length with hlt' | hle'
        · rw [pull_data_of_lt (by omega) hlt'] at h
          rw [← (Prod.mk.inj (Option.some.inj h)).1, List.take_take, Nat.min_eq_left (by omega)]
        · rw [pull_data_of_le hne hle'] at h
          obtain ⟨r, -, heq⟩ := Option.map_eq_some_iff.mp h
          rw [← (Prod.mk.inj heq).1, List.take_append_of_le_length hlt.le]
      · rcases Nat.lt_or_ge (a + b) ds.length with hlt' | hle'
        · rw [pull_data_of_lt (by omega) hlt'] at h
          obtain ⟨rfl, rfl⟩ := Prod.mk.inj (Option.some.inj h)
          rcases Nat.eq_zero_or_pos b with rfl | hb
          · simp
          · rw [pull_data_of_lt hb (by rw [List.length_drop]; omega), List.drop_drop,
              List.drop_take]
            simp
        · rw [pull_data_of_le hne hle'] at h
          obtain ⟨r, hr, heq⟩ := Option.map_eq_some_iff.mp h
          obtain ⟨rfl, rfl⟩ := Prod.mk.inj heq
          have hsub : b - (ds.drop a).length = a + b - ds.length := by
            rw [List.length_drop]
            omega
          rw [pull_data_of_le hdrop (by rw [List.length_drop]; omega), hsub, hr,
            List.drop_append_of_le_length hlt.le]
          rfl
    · -- The chunk lies in the first part.
      rw [pull_data_of_le hne (by omega), Nat.sub_add_comm hle] at h
      obtain ⟨r, hr, heq⟩ := Option.map_eq_some_iff.mp h
      obtain ⟨rfl, rfl⟩ := Prod.mk.inj heq
      obtain ⟨s₁, h₁, h₂⟩ := ih hr
      refine ⟨s₁, ?_, ?_⟩
      · rw [pull_data_of_le hne hle, h₁, List.take_append, List.take_of_length_le hle]
        rfl
      · rw [h₂, List.drop_append, List.drop_eq_nil_of_le hle, List.nil_append]

/-- The size of the chunk at the front of a script. -/
def firstChunk : List Event → ℕ
  | .data bs :: _ => bs.length
  | _ => 0

/-! ## Scripts without bytes -/

/-- No more bytes come. What follows an error other than `EAGAIN` does not count. -/
def Silent : List Event → Prop
  | [] => True
  | .data _ :: _ => False
  | .eof :: _ => True
  | .err e :: s => e = .eagain → Silent s

/-- A call on a silent script fails or gives no byte, whatever it asks for; and unless the error
is `EAGAIN` the script stays silent. -/
theorem recv_of_silent {s : Sock} (hopen : s.isOpen = true) (h : Silent s.script) :
    ∃ r s', (∀ n, s.recv n = (r, s')) ∧ (r = none ∨ r = some []) ∧
      (s'.errno = .eagain → Silent s'.script) ∧
      (r = some [] → Silent s'.script ∧ ∃ rest, s.script = .eof :: rest) := by
  match hs : s.script with
  | [] =>
    exact ⟨none, { s with errno := .eagain }, fun n => by simp [Sock.recv, hopen, hs], .inl rfl,
      fun _ => by simp [hs, Silent], by simp⟩
  | .data ds :: rest => simp [hs, Silent] at h
  | .eof :: rest =>
    exact ⟨some [], s, fun n => by simp [Sock.recv, hopen, hs], .inr rfl, fun _ => by
      simp [hs, Silent], fun _ => ⟨by simp [hs, Silent], rest, rfl⟩⟩
  | .err e :: rest =>
    rw [hs] at h
    exact ⟨none, { s with script := rest, errno := e }, fun n => by simp [Sock.recv, hopen, hs],
      .inl rfl, h, by simp⟩

end Socket
