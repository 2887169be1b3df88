import Moc.Client.Trigger
import Moc.Server.Sends

/-!
# The requests on a connection

The second half of `tcp_srv_send` in `client/tcp.c`: `ssend` of `client/internal.c` on the descriptor
of the server, after a reconnect when there is none. A trigger looks at the descriptor alone, and
only `EPIPE` makes it give the descriptor up. `requests_inOrder_iff` says when the connections of a
server carry whole requests all the same.
-/

open Bytes Memory Blocks Runs

namespace Moc

/-! ## `ssend` -/

def epipe : ℕ := 32

/-- What a `send()` does: it takes some of the bytes that it is offered, perhaps none, or it
fails. -/
inductive SendRv where
  | took (n : ℕ)
  | failed (errno : ℕ)

/-- What `ssend` returns, `errno`, and how many bytes the kernel has taken. -/
structure Ssent where
  rv : ℤ
  errno : ℕ
  taken : ℕ

/-- `ssend` at `buf + c`. A `send()` behind the listed ones takes all that is left. -/
def ssend (count c : ℕ) : List SendRv → Ssent
  | [] => ⟨count, 0, count⟩
  | r :: rs =>
    if c < count then
      match r with
      | .failed errno => ⟨-1, errno, c⟩
      | .took n =>
        let rv := min n (count - c)
        if rv = count then ⟨count, 0, c + rv⟩
        else if rv = 0 then ⟨c, 0, c⟩
        else ssend count (c + rv) rs
    else ⟨count, 0, c⟩

/-- The first `send()` takes nothing. -/
def refuses : List SendRv → Bool
  | .took 0 :: _ => true
  | .failed _ :: _ => true
  | _ => false

theorem ssend_taken (count c : ℕ) (rs : List SendRv) (hc : c ≤ count) :
    c ≤ (ssend count c rs).taken ∧ (ssend count c rs).taken ≤ count := by
  induction rs generalizing c with
  | nil => exact ⟨hc, le_refl _⟩
  | cons r rs ih =>
    cases r with
    | failed errno =>
      simp only [ssend]
      split_ifs <;> exact ⟨le_refl _, hc⟩
    | took n =>
      have hrest := ih (c + min n (count - c)) (by omega)
      simp only [ssend]
      split_ifs with hlt hall hnone
      · exact ⟨Nat.le_add_right _ _, by dsimp only; omega⟩
      · exact ⟨le_refl _, hc⟩
      · exact ⟨by omega, hrest.2⟩
      · exact ⟨le_refl _, hc⟩

/-- The kernel has nothing of a frame when its first `send()` took nothing. -/
theorem ssend_taken_eq_zero_iff {count : ℕ} (hpos : 0 < count) (rs : List SendRv) :
    (ssend count 0 rs).taken = 0 ↔ refuses rs = true := by
  match rs with
  | [] => simpa [ssend, refuses] using hpos.ne'
  | .failed errno :: rs => simp [ssend, refuses, hpos]
  | .took 0 :: rs => simp [ssend, refuses, hpos, hpos.ne]
  | .took (n + 1) :: rs =>
    have htook : min (n + 1) (count - 0) ≠ 0 := by omega
    have hrest := ssend_taken count (0 + min (n + 1) (count - 0)) rs (by omega)
    rw [ssend, if_pos hpos]
    dsimp only
    rw [if_neg htook]
    split_ifs with hall
    · simp [refuses, hpos.ne']
    · simp only [refuses, Bool.false_eq_true, iff_false]
      omega

/-! ## `tcp_srv_send` -/

/-- A server of a module. `stream` are the bytes on its connection, each as its request and its place
there, and `old` are those on the connections before. The connection of a closed descriptor stays the
last one until the next is made. -/
structure SrvConn where
  fd : Bool
  next : ℕ
  stream : List (Ticket × ℕ)
  old : List (List (Ticket × ℕ))

/-- `add_tcp_server_addr` has connected. -/
def SrvConn.start : SrvConn := ⟨true, 0, [], []⟩

/-- A trigger: its request, whether `tcp_server_reconnect` and `msqueue_entry_create` would succeed,
and what `send()` does. -/
structure Trigger where
  frame : OutFrame
  reconnect : Bool
  entry : Bool
  sends : List SendRv

/-- `tcp_server_reconnect` succeeds. -/
def SrvConn.reconnect (s : SrvConn) : SrvConn :=
  { s with fd := true, stream := [], old := s.old ++ [s.stream] }

/-- `ssend` on the descriptor: the connection has some more bytes. -/
def SrvConn.ssend (s : SrvConn) (k : Ticket) (rs : List SendRv) : SrvConn × Ssent :=
  let r := Moc.ssend k.size 0 rs
  ({ s with stream := s.stream ++ piece k 0 r.taken }, r)

/-- The last part of `tcp_srv_send`. -/
def SrvConn.sendOrClose (s : SrvConn) (k : Ticket) (rs : List SendRv) : SrvConn × Bool :=
  let (s, r) := s.ssend k rs
  if r.rv ≠ k.size then
    if r.rv < 0 ∧ r.errno = epipe then ({ s with fd := false }, false) else (s, false)
  else (s, true)

/-- `tcp_srv_send`, built with or without `EVENTLOOP`. -/
def SrvConn.tcpSrvSend (eventloop : Bool) (s : SrvConn) (x : Trigger) : SrvConn × Bool :=
  let k : Ticket := ⟨s.next, x.frame⟩
  let s := { s with next := s.next + 1 }
  if s.fd then s.sendOrClose k x.sends
  else
    let s := if x.reconnect then s.reconnect else s
    if eventloop then
      if !x.entry then (s, false)
      else if x.reconnect then
        -- Here no failure closes the descriptor.
        let (s, r) := s.ssend k x.sends
        (s, r.rv = k.size)
      else (s, false)
    else if x.reconnect then s.sendOrClose k x.sends
    else (s, false)

/-- A trigger, or a receiver that finds the connection closed: `tcp_get_rep`, or the event loop by
`mssrv_close`. -/
inductive SrvAct where
  | trigger (x : Trigger)
  | closed

def SrvConn.act (eventloop : Bool) (s : SrvConn) : SrvAct → SrvConn
  | .trigger x => (s.tcpSrvSend eventloop x).1
  | .closed => { s with fd := false }

/-- The last part of `tcp_srv_send` changes the stream and the descriptor. -/
theorem SrvConn.sendOrClose_keeps (s : SrvConn) (k : Ticket) (rs : List SendRv) :
    (s.sendOrClose k rs).1.next = s.next ∧ (s.sendOrClose k rs).1.old = s.old ∧
      (s.sendOrClose k rs).1.stream = s.stream ++ piece k 0 (Moc.ssend k.size 0 rs).taken := by
  unfold SrvConn.sendOrClose SrvConn.ssend
  dsimp only
  split_ifs <;> exact ⟨rfl, rfl, rfl⟩

/-- It gives the descriptor up on `EPIPE` alone. -/
theorem SrvConn.sendOrClose_fd_iff (s : SrvConn) (k : Ticket) (rs : List SendRv) :
    (s.sendOrClose k rs).1.fd = true ↔ s.fd = true ∧
      ¬((Moc.ssend k.size 0 rs).rv < 0 ∧ (Moc.ssend k.size 0 rs).errno = epipe) := by
  unfold SrvConn.sendOrClose SrvConn.ssend
  dsimp only
  by_cases hbroken : (Moc.ssend k.size 0 rs).rv < 0 ∧ (Moc.ssend k.size 0 rs).errno = epipe
  · have hshort : (Moc.ssend k.size 0 rs).rv ≠ k.size := by omega
    rw [if_pos hshort, if_pos hbroken]
    simp [hbroken]
  · rw [if_neg hbroken, and_iff_left hbroken]
    split_ifs <;> exact Iff.rfl

/-- What a trigger can do: it writes on the open connection, or finds none and writes nothing, or
writes on a new one. -/
theorem SrvConn.tcpSrvSend_cases (eventloop : Bool) (s : SrvConn) (x : Trigger) :
    (s.tcpSrvSend eventloop x).1.next = s.next + 1 ∧
    (s.fd = true ∧ (s.tcpSrvSend eventloop x).1.old = s.old ∧
        (s.tcpSrvSend eventloop x).1.stream =
          s.stream ++ piece ⟨s.next, x.frame⟩ 0 (Moc.ssend x.frame.bytes.length 0 x.sends).taken ∨
      s.fd = false ∧ (s.tcpSrvSend eventloop x).1.old = s.old ∧
        (s.tcpSrvSend eventloop x).1.stream = s.stream ∨
      s.fd = false ∧ (s.tcpSrvSend eventloop x).1.old = s.old ++ [s.stream] ∧
        ∃ n ≤ x.frame.bytes.length,
          (s.tcpSrvSend eventloop x).1.stream = piece ⟨s.next, x.frame⟩ 0 n) := by
  have hle := (ssend_taken x.frame.bytes.length 0 x.sends (Nat.zero_le _)).2
  obtain ⟨fd, next, stream, old⟩ := s
  obtain ⟨frame, reconnect, entry, sends⟩ := x
  match fd, reconnect, eventloop, entry with
  | true, _, _, _ =>
    obtain ⟨hnext, hold, hstream⟩ := SrvConn.sendOrClose_keeps ⟨true, next + 1, stream, old⟩
      ⟨next, frame⟩ sends
    exact ⟨hnext, Or.inl ⟨rfl, hold, hstream⟩⟩
  -- Without a connection both builds return 0.
  | false, false, false, _ => exact ⟨rfl, Or.inr (Or.inl ⟨rfl, rfl, rfl⟩)⟩
  | false, false, true, false => exact ⟨rfl, Or.inr (Or.inl ⟨rfl, rfl, rfl⟩)⟩
  | false, false, true, true => exact ⟨rfl, Or.inr (Or.inl ⟨rfl, rfl, rfl⟩)⟩
  | false, true, false, _ =>
    obtain ⟨hnext, hold, hstream⟩ := SrvConn.sendOrClose_keeps
      ⟨true, next + 1, [], old ++ [stream]⟩ ⟨next, frame⟩ sends
    exact ⟨hnext, Or.inr (Or.inr ⟨rfl, hold, _, hle, hstream⟩)⟩
  | false, true, true, false =>
    exact ⟨rfl, Or.inr (Or.inr ⟨rfl, rfl, 0, Nat.zero_le _, rfl⟩)⟩
  | false, true, true, true => exact ⟨rfl, Or.inr (Or.inr ⟨rfl, rfl, _, hle, rfl⟩)⟩

/-! ## The bytes of a connection -/

/-- Whole requests, none of them twice and in the order of the triggers, and then part of another one
or nothing. -/
def WholeRequests (l : List (Ticket × ℕ)) : Prop :=
  Untorn Ticket.size l ∧ l.Pairwise fun x y => x.1.num ≤ y.1.num

/-- Every connection that the server has had carries whole requests. -/
def SrvConn.Whole (s : SrvConn) : Prop := ∀ l ∈ s.old ++ [s.stream], WholeRequests l

/-- A trigger that finds the descriptor open behind part of a request gets no byte through. -/
def SrvConn.Clear (s : SrvConn) : SrvAct → Prop
  | .trigger x => s.fd = true → front Ticket.size s.stream ≠ .boundary → refuses x.sends = true
  | .closed => True

theorem wholeRequests_nil : WholeRequests [] := ⟨⟨[], List.nodup_nil, Or.inl rfl⟩, List.Pairwise.nil⟩

/-- A later request is whole behind whole ones only. -/
theorem wholeRequests_append_iff {l : List (Ticket × ℕ)} {k : Ticket} {n : ℕ}
    (h : WholeRequests l) (hnum : ∀ m i, (m, i) ∈ l → m.num < k.num) (hn : n ≤ k.size) :
    WholeRequests (l ++ piece k 0 n) ↔ n = 0 ∨ front Ticket.size l = .boundary := by
  obtain ⟨huntorn, hsorted⟩ := h
  obtain ⟨-, hnodup⟩ := (untorn_iff Ticket.size_pos).mp huntorn
  rcases Nat.eq_zero_or_pos n with rfl | hpos
  · simp only [piece_zero, List.append_nil, true_or, iff_true]
    exact ⟨huntorn, hsorted⟩
  constructor
  · rintro ⟨hall, -⟩
    right
    by_contra hboundary
    refine ((untorn_iff Ticket.size_pos).mp hall).1 (front_append_torn ?_ ?_ hpos)
    · -- An open block has an item, and those of `k` are still to come.
      intro hinside
      have hshape := front_shape Ticket.size_pos l
      rw [hinside] at hshape
      obtain ⟨-, hlt, -⟩ := hshape
      exact Nat.lt_irrefl 0 hlt
    · exact fun hfront => absurd hfront hboundary
  · rintro (hzero | hboundary)
    · omega
    refine ⟨(untorn_iff Ticket.size_pos).mpr ⟨?_, ?_⟩, ?_⟩
    · rw [front_append_boundary hboundary hpos hn, after]
      split_ifs <;> simp
    · refine List.nodup_append'.mpr ⟨hnodup, nodup_piece k 0 n, ?_⟩
      -- The number of `k` is new, so none of its bytes was sent before.
      rintro ⟨m, i⟩ hold hnew
      rw [(mem_piece.mp hnew).1] at hold
      exact Nat.lt_irrefl _ (hnum _ _ hold)
    · refine List.pairwise_append.mpr ⟨hsorted, ?_, ?_⟩
      · refine List.pairwise_of_forall_mem_list ?_
        rintro ⟨m, i⟩ hm ⟨m', i'⟩ hm'
        rw [(mem_piece.mp hm).1, (mem_piece.mp hm').1]
      · rintro ⟨m, i⟩ hm ⟨m', i'⟩ hm'
        rw [(mem_piece.mp hm').1]
        exact (hnum _ _ hm).le

/-- Part of a request is left on the connection, and the descriptor stays open. -/
def SrvConn.Stuck (s : SrvConn) : Prop := s.fd = true ∧ front Ticket.size s.stream ≠ .boundary

/-- `ssend` gets some bytes of the request through and not all. -/
def Trigger.cut (x : Trigger) : Prop :=
  0 < (ssend x.frame.bytes.length 0 x.sends).taken ∧
    (ssend x.frame.bytes.length 0 x.sends).taken < x.frame.bytes.length

/-- `ssend` has failed with `EPIPE`. -/
def Trigger.broken (x : Trigger) : Prop :=
  (ssend x.frame.bytes.length 0 x.sends).rv < 0 ∧
    (ssend x.frame.bytes.length 0 x.sends).errno = epipe

/-- Behind whole requests, part of one more. -/
theorem front_piece_ne_boundary_iff {l : List (Ticket × ℕ)} {k : Ticket} {n : ℕ}
    (h : front Ticket.size l = .boundary) (hn : n ≤ k.size) :
    front Ticket.size (l ++ piece k 0 n) ≠ .boundary ↔ 0 < n ∧ n < k.size := by
  rcases Nat.eq_zero_or_pos n with rfl | hpos
  · simpa using h
  · rw [front_append_boundary h hpos hn, after]
    split_ifs with hall
    · simp [hall]
    · simp only [ne_eq, reduceCtorEq, not_false_eq_true, true_iff]
      exact ⟨hpos, lt_of_le_of_ne hn hall⟩

theorem SrvConn.sendOrClose_stuck_iff {s : SrvConn} (hfd : s.fd = true)
    (h : front Ticket.size s.stream = .boundary) (x : Trigger) (num : ℕ) :
    (s.sendOrClose ⟨num, x.frame⟩ x.sends).1.Stuck ↔ x.cut ∧ ¬x.broken := by
  have hle := (ssend_taken x.frame.bytes.length 0 x.sends (Nat.zero_le _)).2
  have hpart : front Ticket.size (s.stream ++ piece ⟨num, x.frame⟩ 0
      (Moc.ssend (Ticket.size ⟨num, x.frame⟩) 0 x.sends).taken) ≠ .boundary ↔ x.cut :=
    front_piece_ne_boundary_iff h hle
  obtain ⟨-, -, hstream⟩ := s.sendOrClose_keeps ⟨num, x.frame⟩ x.sends
  have hclosed : (s.sendOrClose ⟨num, x.frame⟩ x.sends).1.fd = true ↔ _ ∧ ¬x.broken :=
    s.sendOrClose_fd_iff ⟨num, x.frame⟩ x.sends
  unfold SrvConn.Stuck
  rw [hclosed, hstream, hpart, and_iff_right hfd, and_comm]

/-- How a part of a request is left: on an open connection, or on a new one of the build without
`EVENTLOOP`, when it is cut and the error is not `EPIPE`; on a new one of the other build whenever it
is cut. -/
theorem SrvConn.stuck_trigger_iff (eventloop : Bool) {s : SrvConn} (h : ¬s.Stuck) (x : Trigger) :
    (s.act eventloop (.trigger x)).Stuck ↔ x.cut ∧
      if s.fd then ¬x.broken
      else x.reconnect = true ∧ if eventloop then x.entry = true else ¬x.broken := by
  have hle := (ssend_taken x.frame.bytes.length 0 x.sends (Nat.zero_le _)).2
  obtain ⟨fd, next, stream, old⟩ := s
  obtain ⟨frame, reconnect, entry, sends⟩ := x
  have hnew : front Ticket.size [] = .boundary := rfl
  match fd, reconnect, eventloop, entry with
  | true, reconnect, _, entry =>
    have hboundary : front Ticket.size stream = .boundary := by
      by_contra hstream
      exact h ⟨rfl, hstream⟩
    exact SrvConn.sendOrClose_stuck_iff (s := ⟨true, next + 1, stream, old⟩) rfl hboundary
      ⟨frame, reconnect, entry, sends⟩ next
  | false, false, false, _ => simp [SrvConn.act, SrvConn.tcpSrvSend, SrvConn.Stuck]
  | false, false, true, false => simp [SrvConn.act, SrvConn.tcpSrvSend, SrvConn.Stuck]
  | false, false, true, true => simp [SrvConn.act, SrvConn.tcpSrvSend, SrvConn.Stuck]
  | false, true, false, entry =>
    have hsend := SrvConn.sendOrClose_stuck_iff (s := ⟨true, next + 1, [], old ++ [stream]⟩) rfl
      hnew ⟨frame, true, entry, sends⟩ next
    rw [if_neg Bool.false_ne_true, and_iff_right rfl]
    exact hsend
  | false, true, true, false =>
    simp [SrvConn.act, SrvConn.tcpSrvSend, SrvConn.Stuck, SrvConn.reconnect, front]
  -- The build with `EVENTLOOP` leaves the new connection open whatever `ssend` returns.
  | false, true, true, true =>
    have hpart : front Ticket.size ([] ++ piece ⟨next, frame⟩ 0 _) ≠ .boundary ↔
        (⟨frame, true, true, sends⟩ : Trigger).cut := front_piece_ne_boundary_iff hnew hle
    have hstuck : (SrvConn.act true ⟨false, next, stream, old⟩ (.trigger ⟨frame, true, true, sends⟩)).Stuck ↔
        True ∧ _ := Iff.and (iff_of_true rfl trivial) hpart
    simpa using hstuck

/-- The bytes of a connection. -/
def streamBytes (l : List (Ticket × ℕ)) : List UInt8 :=
  l.map fun x => (x.1.frame.bytes[x.2]?).getD 0

/-- What whole requests are in bytes. -/
theorem WholeRequests.bytes {l : List (Ticket × ℕ)} (h : WholeRequests l) :
    ∃ ks : List Ticket, (ks.Pairwise fun k m => k.num ≤ m.num) ∧
      (streamBytes l = ks.flatMap (fun k => k.frame.bytes) ∨
        ∃ (k : Ticket) (j : ℕ), (∀ m ∈ ks, m.num ≤ k.num) ∧ 0 < j ∧ j < k.size ∧
          streamBytes l = ks.flatMap (fun k => k.frame.bytes) ++ k.frame.bytes.take j) := by
  -- Every request in the row has a first byte, and the first bytes are in order.
  have hfirst : ∀ {ks : List Ticket}, ∀ k ∈ ks, (k, 0) ∈ ks.flatMap (block Ticket.size) := by
    intro ks k hk
    exact List.mem_flatMap.mpr ⟨k, hk, mem_piece.mpr ⟨rfl, le_refl _, by simpa using k.size_pos⟩⟩
  have hrow : ∀ {ks : List Ticket},
      ((ks.flatMap (block Ticket.size)).Pairwise fun x y => x.1.num ≤ y.1.num) →
      ks.Pairwise fun k m => k.num ≤ m.num := by
    intro ks hsorted
    refine (List.pairwise_flatMap.mp hsorted).2.imp fun {k m} hkm => hkm (k, 0) ?_ (m, 0) ?_
    · exact mem_piece.mpr ⟨rfl, le_refl _, by simpa using k.size_pos⟩
    · exact mem_piece.mpr ⟨rfl, le_refl _, by simpa using m.size_pos⟩
  unfold streamBytes
  obtain ⟨⟨ks, -, rfl | ⟨k, j, -, hj, hlt, rfl⟩⟩, hsorted⟩ := h
  · exact ⟨ks, hrow hsorted, Or.inl (map_byte_blocks ks)⟩
  · obtain ⟨hblocks, -, hlast⟩ := List.pairwise_append.mp hsorted
    refine ⟨ks, hrow hblocks, Or.inr ⟨k, j, fun m hm => ?_, hj, hlt, ?_⟩⟩
    · exact hlast (m, 0) (hfirst m hm) (k, 0) (mem_piece.mpr ⟨rfl, le_refl _, by omega⟩)
    · rw [List.map_append, map_byte_blocks, map_byte_piece k hlt.le]

/-- The invariant of the runs whose triggers are `Clear`. -/
structure SrvConn.Ok (s : SrvConn) : Prop where
  num_lt : ∀ k i, (k, i) ∈ s.stream → k.num < s.next
  whole : s.Whole

theorem SrvConn.start_ok : SrvConn.start.Ok where
  num_lt := nofun
  whole l hl := by
    rw [List.mem_singleton.mp hl]
    exact wholeRequests_nil

section
variable {eventloop : Bool} {s : SrvConn} {i : SrvAct}

theorem SrvConn.whole_iff : s.Whole ↔ (∀ l ∈ s.old, WholeRequests l) ∧ WholeRequests s.stream := by
  unfold SrvConn.Whole
  rw [List.forall_mem_append, List.forall_mem_singleton]

/-- The request of a trigger has a number of its own. -/
theorem SrvConn.Ok.num_lt_act (h : s.Ok) :
    ∀ k i', (k, i') ∈ (s.act eventloop i).stream → k.num < (s.act eventloop i).next := by
  match i with
  | .closed => exact h.num_lt
  | .trigger x =>
    intro k j hmem
    unfold SrvConn.act at hmem ⊢
    obtain ⟨hnext, hcases⟩ := s.tcpSrvSend_cases eventloop x
    rw [hnext]
    rcases hcases with ⟨-, -, hstream⟩ | ⟨-, -, hstream⟩ | ⟨-, -, n, -, hstream⟩ <;>
      rw [hstream] at hmem
    · rcases List.mem_append.mp hmem with hold | hnew
      · exact Nat.lt_succ_of_lt (h.num_lt k j hold)
      · rw [(mem_piece.mp hnew).1]
        exact Nat.lt_succ_self _
    · exact Nat.lt_succ_of_lt (h.num_lt k j hmem)
    · rw [(mem_piece.mp hmem).1]
      exact Nat.lt_succ_self _

/-- A step leaves the connections with whole requests if and only if it is `Clear`. -/
theorem SrvConn.Ok.whole_act_iff (h : s.Ok) : (s.act eventloop i).Whole ↔ s.Clear i := by
  obtain ⟨hold, hstream⟩ := SrvConn.whole_iff.mp h.whole
  match i with
  | .closed => exact ⟨fun _ => trivial, fun _ => h.whole⟩
  | .trigger x =>
    unfold SrvConn.act SrvConn.Clear
    rw [SrvConn.whole_iff]
    obtain ⟨-, ⟨hfd, hold', hstream'⟩ | ⟨hfd, hold', hstream'⟩ | ⟨hfd, hold', n, hn, hstream'⟩⟩ :=
      s.tcpSrvSend_cases eventloop x <;> rw [hold', hstream', hfd]
    · -- On the open connection the request follows what is there.
      have htaken := ssend_taken x.frame.bytes.length 0 x.sends (Nat.zero_le _)
      have happend := wholeRequests_append_iff (k := ⟨s.next, x.frame⟩) hstream h.num_lt htaken.2
      rw [happend, ssend_taken_eq_zero_iff x.frame.pos]
      tauto
    · exact ⟨fun _ => nofun, fun _ => ⟨hold, hstream⟩⟩
    · -- A new connection starts with the request.
      have hnew := (wholeRequests_append_iff (k := ⟨s.next, x.frame⟩) wholeRequests_nil nofun hn).mpr
        (Or.inr rfl)
      rw [List.nil_append] at hnew
      refine ⟨fun _ => nofun, fun _ => ⟨?_, hnew⟩⟩
      rw [List.forall_mem_append, List.forall_mem_singleton]
      exact ⟨hold, hstream⟩

end

/-- In every run of triggers, in either build, the connections carry whole requests if and only if no
trigger gets a byte through behind part of a request. -/
theorem requests_inOrder_iff (eventloop : Bool) (is : List SrvAct) :
    Always (SrvConn.act eventloop) SrvConn.Whole SrvConn.start is ↔
      EachStep (SrvConn.act eventloop) SrvConn.Clear SrvConn.start is :=
  always_iff_eachStep (L := fun _ _ => True) (I := SrvConn.Ok) (fun _ h => h.whole)
    (fun _ _ h _ hclear => ⟨h.num_lt_act, h.whole_act_iff.mpr hclear⟩)
    (fun _ _ h _ hclear hwhole => hclear (h.whole_act_iff.mp hwhole))
    SrvConn.start_ok (eachStep_of_forall (fun _ _ => trivial) _ is)

/-- Two requests of a module `a` with an empty dataset. -/
def sampleRequest (id : ℕ) : OutFrame where
  bytes := requestFrame id 1000 0 [97] []
  pos := by simp [requestFrame]
  lt := by simp [requestFrame]

/-- The server's window is full behind 8 bytes of the first request, and `send()` gives up after its
timeout; for the second request there is room again. -/
def cutRequest : List SrvAct :=
  [.trigger ⟨sampleRequest 1, true, true, [.took 8, .failed eagain]⟩,
    .trigger ⟨sampleRequest 2, true, true, []⟩]

/-- The same on a connection that was just made, and that the server breaks. -/
def cutReconnect : List SrvAct :=
  [.closed, .trigger ⟨sampleRequest 1, true, true, [.took 8, .failed epipe]⟩,
    .trigger ⟨sampleRequest 2, true, true, []⟩]

/-- The second request is written behind the first 8 bytes of the first one. With `EVENTLOOP` not even
`EPIPE` prevents that when the connection is new. -/
theorem requests_not_inOrder :
    ¬Always (SrvConn.act false) SrvConn.Whole SrvConn.start cutRequest ∧
    ¬Always (SrvConn.act true) SrvConn.Whole SrvConn.start cutRequest ∧
    ¬Always (SrvConn.act true) SrvConn.Whole SrvConn.start cutReconnect ∧
    streamBytes (cutRequest.foldl (SrvConn.act false) SrvConn.start).stream =
      (sampleRequest 1).bytes.take 8 ++ (sampleRequest 2).bytes := by
  have htorn : ∀ {s : SrvConn}, front Ticket.size s.stream = .torn → ¬s.Whole := by
    intro s hfront hwhole
    have hstream := (SrvConn.whole_iff.mp hwhole).2
    exact ((untorn_iff Ticket.size_pos).mp hstream.1).1 hfront
  refine ⟨fun h => ?_, fun h => ?_, fun h => ?_, by decide⟩
  · exact htorn (by decide) h.2.2
  · exact htorn (by decide) h.2.2
  · exact htorn (by decide) h.2.2.2

end Moc
