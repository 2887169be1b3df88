import Moc.Lib.Framing
import Moc.Server.Parse

/-!
# Receiving on a connection

`tcp_recv` and `process_buf` of `server/tcp.c`. A buffer is the list of the bytes written to it so
far, and `SBSIZE` bounds both the static one and the one a connection allocates. What is done with a
message is a parameter, since the two functions look at nothing but its answer; it stands for the
message counter, `init_req` and `parse_message`.
-/

open Bytes Memory Framing

namespace Moc

variable {σ : Type}

/-- `SBSIZE` -/
def sbsize : ℕ := 68 * 1024

/-- The receive half of `struct tcp_socket`, with the state of whatever handles its messages.
`isOpen` says that the event registration exists. -/
structure Conn (σ : Type) where
  buf : Option (List UInt8)
  pktsize : ℕ
  len : ℕ
  excess : ℕ
  isOpen : Bool
  st : σ
  deriving DecidableEq

/-- A connection as `tcp_newconnection` leaves it. -/
def Conn.new (st : σ) : Conn σ := ⟨none, 0, 0, 0, true, st⟩

/-- The `error_exit` of `tcp_recv` and `process_buf`. -/
def Conn.errorExit (c : Conn σ) : Conn σ := { c with isOpen := false }

/-- The end of `process_buf` when no leftovers wait: the connection gives its own buffer back. -/
def Conn.release (c : Conn σ) : Conn σ :=
  if c.buf.isSome then { c with buf := none, len := 0, pktsize := 0, excess := 0 } else c

/-- What `recv()` gives: some bytes, the end of the stream, or an error. -/
inductive Recv where
  | data (bs : List UInt8)
  | eof
  | eagain
  | etimedout
  | err
  deriving DecidableEq

/-- What `parse_message` is to the receiver: the message is consumed, and the answer says whether
the connection stays. -/
abbrev Handler (σ : Type) := σ → List UInt8 → Except Fault (σ × Bool)

/-- The message counter. -/
def countMsg {ι HDF : Type} (w : World ι HDF) : World ι HDF :=
  { w with stat := { w.stat with msgTcp := w.stat.msgTcp + 1 } }

/-- The handler that `process_buf` has: count the message and parse it. -/
def parseHandler {ι HDF : Type} [DecidableEq ι] (H : HdfLib HDF) (m : Allocs) :
    Handler (World ι HDF × ReqInfo) := fun s msg => do
  let (w, req, keep) ← parseMessage H m (countMsg s.1) s.2 msg msg.length
  return ((w, req), keep)

/-- `totaltoget` of `process_buf`: the size of the message at the front of `buf`, or the four bytes
that hold it. -/
def totaltoget (buf : List UInt8) : ℕ := if 4 ≤ buf.length then word buf 0 else 4

/-- `process_buf` on the bytes `buf`, which are in the connection's own buffer when it has one and
in the static buffer otherwise. The copy into a new buffer is the only place where they change. -/
def processBuf (malloc : Bool) (handle : Handler σ) (c : Conn σ) (buf : List UInt8) :
    Except Fault (Conn σ) :=
  if 4 ≤ buf.length ∧ (word buf 0 > 64 * 1024 ∨ word buf 0 ≤ 8) then .ok c.errorExit
  else if totaltoget buf > buf.length then
    match c.buf with
    | none =>
      if ¬ malloc then .ok c.errorExit
      else if buf.length > sbsize then .error .outOfBounds
      else .ok { c with buf := some buf, len := buf.length, pktsize := totaltoget buf }
    | some _ => .ok { c with buf := some buf, len := buf.length, pktsize := totaltoget buf }
  else
    let c := if totaltoget buf < buf.length then { c with excess := buf.length - totaltoget buf }
      else c
    match handle c.st ((buf.take (totaltoget buf)).drop 4) with
    | .error e => .error e
    | .ok (st, false) => .ok { c with st := st }.errorExit
    | .ok (st, true) =>
      let c := { c with st := st }
      if c.excess ≠ 0 then
        match _hrest : load buf (totaltoget buf) c.excess with
        | .error e => .error e
        | .ok rest => processBuf malloc handle { c with len := c.excess, excess := 0 } rest
      else .ok c.release
termination_by buf.length
decreasing_by
  have hrest := ‹load buf _ _ = .ok rest›
  unfold load at hrest
  split_ifs at hrest with hle
  have hpos : 0 < totaltoget buf := by
    rw [totaltoget]
    split_ifs <;> grind
  rw [← Except.ok.inj hrest, List.length_take, List.length_drop]
  omega

/-- `tcp_recv` when `recv()` gives `r`. The static buffer takes `SBSIZE` bytes at most; the
connection's own buffer is filled behind its first `len` bytes. -/
def tcpRecv (malloc : Bool) (handle : Handler σ) (c : Conn σ) (r : Recv) :
    Except Fault (Conn σ) :=
  match c.buf with
  | none =>
    match r with
    | .data bs =>
      if bs.length > sbsize then .error .outOfBounds else processBuf malloc handle c bs
    | .eagain => .ok c
    | .etimedout => .ok c
    | .eof => .ok c.errorExit
    | .err => .ok c.errorExit
  | some buf =>
    match r with
    | .data bs =>
      if c.len > buf.length then .error .uninitialised
      else if c.len + bs.length > sbsize then .error .outOfBounds
      else
        let buf := buf.take c.len ++ bs
        processBuf malloc handle { c with buf := some buf, len := c.len + bs.length } buf
    | .eagain => .ok c
    | .etimedout => .ok c.errorExit
    | .eof => .ok c.errorExit
    | .err => .ok c.errorExit

/-- How many bytes `tcp_recv` asks `recv()` for. -/
def maxtoread (c : Conn σ) : ℕ :=
  match c.buf with
  | none => sbsize
  | some _ => sizeSub c.pktsize c.len

/-! ## The reference: splitting a stream -/

/-- The frames the server accepts: 9 to 65536 bytes with their length word. -/
def serverFramer : Framer UInt8 :=
  wordFramer (fun n => 8 < n ∧ n ≤ 64 * 1024) fun n h => by
    have := of_decide_eq_true h
    omega

/-- The messages of a stream under an answer for each, and the incomplete tail that is left, or
none when the connection ends. -/
def messages (accept : List UInt8 → Bool) (s : List UInt8) :
    List (List UInt8) × Option (List UInt8) :=
  ((split serverFramer (fun f => accept (f.drop 4)) s).1.map (·.drop 4),
    (split serverFramer (fun f => accept (f.drop 4)) s).2)

/-- The framer makes the tests of `process_buf`. -/
theorem serverFramer_next (s : List UInt8) :
    serverFramer.next s =
      if 4 ≤ s.length ∧ (word s 0 > 64 * 1024 ∨ word s 0 ≤ 8) then .illegal
      else if totaltoget s > s.length then .incomplete
      else .frame (totaltoget s) := by
  unfold serverFramer wordFramer totaltoget
  simp only [decide_eq_true_eq]
  split_ifs <;> first | rfl | omega

/-- An incomplete tail is shorter than what it waits for, and that is at most a whole frame. -/
theorem totaltoget_of_incomplete {s : List UInt8} (h : serverFramer.next s = .incomplete) :
    s.length < totaltoget s ∧ totaltoget s ≤ 64 * 1024 := by
  rw [serverFramer_next] at h
  split_ifs at h with hill hlen
  refine ⟨hlen, ?_⟩
  unfold totaltoget
  split_ifs with h4 <;> omega

theorem messages_append {accept : List UInt8 → Bool} {s rest : List UInt8} (t : List UInt8)
    (h : (messages accept s).2 = some rest) :
    messages accept (s ++ t) =
      ((messages accept s).1 ++ (messages accept (rest ++ t)).1,
        (messages accept (rest ++ t)).2) := by
  unfold messages
  rw [split_append_of_some t h, List.map_append]

theorem messages_append_of_none {accept : List UInt8 → Bool} {s : List UInt8} (t : List UInt8)
    (h : (messages accept s).2 = none) : messages accept (s ++ t) = messages accept s := by
  unfold messages
  rw [split_append_of_none t h]

/-! ## The three ways of `process_buf` -/

section
variable {malloc : Bool} {handle : Handler σ} {c : Conn σ} {buf : List UInt8}

theorem processBuf_illegal (h : serverFramer.next buf = .illegal) :
    processBuf malloc handle c buf = .ok c.errorExit := by
  rw [serverFramer_next] at h
  rw [processBuf]
  split_ifs at h with hill
  rw [if_pos hill]

/-- An incomplete message is kept, in a new buffer or in the one it is in. -/
theorem processBuf_kept (h : serverFramer.next buf = .incomplete) (hcap : buf.length ≤ sbsize)
    (hroom : malloc = true ∨ c.buf.isSome = true) :
    processBuf malloc handle c buf =
      .ok { c with buf := some buf, len := buf.length, pktsize := totaltoget buf } := by
  rw [serverFramer_next] at h
  rw [processBuf]
  split_ifs at h with hill hlen
  rw [if_neg hill, if_pos hlen]
  cases hbuf : c.buf with
  | none =>
    have hmalloc : malloc = true := hroom.resolve_right (by simp [hbuf])
    simp [hcap, hmalloc]
  | some b => rfl

/-- Without memory for a buffer the connection ends. -/
theorem processBuf_noBuffer (h : serverFramer.next buf = .incomplete) (hbuf : c.buf = none) :
    processBuf false handle c buf = .ok c.errorExit := by
  rw [serverFramer_next] at h
  rw [processBuf]
  split_ifs at h with hill hlen
  rw [if_neg hill, if_pos hlen, hbuf]
  rfl

/-- A whole message is handled, and then what came behind it. -/
theorem processBuf_frame {n : ℕ} (h : serverFramer.next buf = .frame n) (hexcess : c.excess = 0) :
    processBuf malloc handle c buf =
      match handle c.st ((buf.take n).drop 4) with
      | .error e => .error e
      | .ok (st, false) => .ok { c with excess := buf.length - n, st := st }.errorExit
      | .ok (st, true) =>
        if n < buf.length then
          processBuf malloc handle { c with len := buf.length - n, st := st } (buf.drop n)
        else .ok { c with st := st }.release := by
  rw [serverFramer_next] at h
  rw [processBuf]
  split_ifs at h with hill hlen
  cases h
  rw [if_neg hill, if_neg hlen]
  -- With leftovers they go into a block of their own; without, the buffer is released.
  by_cases hmore : totaltoget buf < buf.length
  · have hload : load buf (totaltoget buf) (buf.length - totaltoget buf) =
        .ok (buf.drop (totaltoget buf)) := by
      rw [load_of_le (by omega), List.take_of_length_le (by rw [List.length_drop])]
    have hne : buf.length - totaltoget buf ≠ 0 := by omega
    simp only [hmore, if_true, hne, ne_eq, not_false_eq_true]
    rcases handle c.st _ with e | ⟨st, _ | _⟩
    · rfl
    · rfl
    · dsimp only
      split
      · simp_all
      · rename_i rest hrest
        simp only [hmore, if_true, hload] at hrest
        rw [← Except.ok.inj hrest, hexcess]
  · have hsub : buf.length - totaltoget buf = c.excess := by omega
    simp only [hmore, if_false, hsub]
    rcases handle c.st _ with e | ⟨st, _ | _⟩
    · rfl
    · rfl
    · simp [hexcess]

/-- A fresh connection that gets exactly one message hands it over and is fresh again, or ends. -/
theorem processBuf_single {st : σ} {msg : List UInt8} (hmin : 4 < msg.length)
    (hmax : 4 + msg.length ≤ 64 * 1024) :
    processBuf malloc handle (.new st) (be32 (4 + msg.length) ++ msg) =
      match handle st msg with
      | .error e => .error e
      | .ok (st, false) => .ok (Conn.new st).errorExit
      | .ok (st, true) => .ok (.new st) := by
  have hword : word (be32 (4 + msg.length) ++ msg) 0 = 4 + msg.length := by
    have h : word ([] ++ (be32 (4 + msg.length) ++ msg)) 0 = (4 + msg.length) % 2^32 :=
      word_between rfl
    rwa [List.nil_append, Nat.mod_eq_of_lt (by omega)] at h
  have hnext : serverFramer.next (be32 (4 + msg.length) ++ msg) = .frame (4 + msg.length) := by
    rw [serverFramer_next, totaltoget, hword]
    simp
    omega
  have hmsg : ((be32 (4 + msg.length) ++ msg).take (4 + msg.length)).drop 4 = msg := by
    rw [List.take_of_length_le (by simp)]
    exact List.drop_left' (length_be32 _)
  have hlen : (be32 (4 + msg.length) ++ msg).length = 4 + msg.length := by simp
  have hst : (Conn.new st).st = st := rfl
  rw [processBuf_frame hnext rfl, hmsg, hlen, hst]
  simp only [Nat.sub_self, Nat.lt_irrefl, if_false]
  rcases handle st msg with e | ⟨st, _ | _⟩ <;> rfl

end

/-! ## The receiver against the reference -/

/-- The handler that records each message and answers by `accept`. -/
def deliver (accept : List UInt8 → Bool) : Handler (List (List UInt8)) :=
  fun ms m => .ok (ms ++ [m], accept m)

/-- An open connection that holds exactly the bytes `rest`. -/
def Conn.Keeps (c : Conn σ) (rest : List UInt8) : Prop :=
  c.isOpen = true ∧ c.excess = 0 ∧
    match c.buf with
    | none => rest = []
    | some buf => buf = rest ∧ c.len = rest.length ∧ c.pktsize = totaltoget rest

@[simp] theorem Conn.release_st (c : Conn σ) : c.release.st = c.st := by
  unfold Conn.release
  split_ifs <;> rfl

theorem Conn.release_keeps {c : Conn σ} (hopen : c.isOpen = true) (hexcess : c.excess = 0) :
    c.release.Keeps [] := by
  unfold Conn.release
  split_ifs with hbuf
  · exact ⟨hopen, rfl, rfl⟩
  · rw [Option.not_isSome_iff_eq_none] at hbuf
    refine ⟨hopen, hexcess, ?_⟩
    rw [hbuf]

/-- A connection is where the reference says: it has delivered the messages and holds the tail, or
it is closed. -/
def Conn.At (c : Conn (List (List UInt8))) (r : List (List UInt8) × Option (List UInt8)) : Prop :=
  c.st = r.1 ∧
    match r.2 with
    | some rest => c.Keeps rest
    | none => c.isOpen = false

/-- `process_buf` delivers the messages of the bytes it is given and keeps their tail. -/
theorem processBuf_at (accept : List UInt8 → Bool) (c : Conn (List (List UInt8)))
    (buf : List UInt8) (hopen : c.isOpen = true) (hexcess : c.excess = 0)
    (hcap : buf.length ≤ sbsize) :
    ∃ c', processBuf true (deliver accept) c buf = .ok c' ∧
      c'.At (c.st ++ (messages accept buf).1, (messages accept buf).2) := by
  induction hn : buf.length using Nat.strong_induction_on generalizing c buf with
  | _ len ih =>
    subst hn
    unfold messages
    cases hnext : serverFramer.next buf with
    | illegal =>
      rw [processBuf_illegal hnext, split_illegal hnext]
      exact ⟨_, rfl, by simp [Conn.errorExit], rfl⟩
    | incomplete =>
      rw [processBuf_kept hnext hcap (.inl rfl), split_incomplete hnext]
      exact ⟨_, rfl, by simp, hopen, hexcess, rfl, rfl, rfl⟩
    | frame n =>
      rw [processBuf_frame hnext hexcess, split_frame hnext]
      -- A message that the handler refuses ends the connection.
      cases hacc : accept ((buf.take n).drop 4) with
      | false =>
        simp only [deliver, hacc]
        exact ⟨_, rfl, by simp [Conn.errorExit], rfl⟩
      | true =>
        simp only [deliver, hacc, if_true]
        have hle := (serverFramer.frame_le buf n hnext).2
        split_ifs with hmore
        · -- The leftovers are handled like a fresh buffer.
          obtain ⟨c', hc', hst, hat⟩ := ih _ (length_drop_lt hnext)
            { c with len := buf.length - n, st := c.st ++ [(buf.take n).drop 4] } (buf.drop n)
            hopen hexcess (by rw [List.length_drop]; omega) rfl
          exact ⟨c', hc', by simpa [messages] using hst, hat⟩
        · have hnil : buf.drop n = [] := List.drop_eq_nil_of_le (by omega)
          rw [hnil, split_incomplete rfl]
          exact ⟨_, rfl, by simp, Conn.release_keeps hopen hexcess⟩

/-! ## Every segmentation -/

/-- `tcp_recv` run on the chunks that `recv()` gives. A closed connection reads no more. -/
def recvChunks (malloc : Bool) (handle : Handler σ) (c : Conn σ) :
    List (List UInt8) → Except Fault (Conn σ)
  | [] => .ok c
  | bs :: cs =>
    if c.isOpen then do
      let c ← tcpRecv malloc handle c (.data bs)
      recvChunks malloc handle c cs
    else .ok c

/-- The chunks are not empty and none is longer than `tcp_recv` asks for at that point. What is cut
off behind the close of the connection is never asked for. -/
def asked (malloc : Bool) (handle : Handler σ) (c : Conn σ) : List (List UInt8) → Bool
  | [] => true
  | bs :: cs =>
    !c.isOpen || (bs ≠ [] && bs.length ≤ maxtoread c &&
      match tcpRecv malloc handle c (.data bs) with
      | .ok c => asked malloc handle c cs
      | .error _ => true)

/-- One chunk, on a connection that keeps the incomplete tail `rest`. -/
theorem tcpRecv_at (accept : List UInt8 → Bool) {c : Conn (List (List UInt8))}
    {rest bs : List UInt8} (hkeep : c.Keeps rest) (hinc : serverFramer.next rest = .incomplete)
    (hask : bs.length ≤ maxtoread c) :
    ∃ c', tcpRecv true (deliver accept) c (.data bs) = .ok c' ∧
      c'.At (c.st ++ (messages accept (rest ++ bs)).1, (messages accept (rest ++ bs)).2) := by
  obtain ⟨hopen, hexcess, hbuf⟩ := hkeep
  obtain ⟨hlt, hle⟩ := totaltoget_of_incomplete hinc
  unfold tcpRecv
  unfold maxtoread at hask
  cases hc : c.buf with
  | none =>
    rw [hc] at hbuf hask
    subst hbuf
    dsimp only at hask ⊢
    rw [if_neg (by omega)]
    exact processBuf_at accept c bs hopen hexcess hask
  | some buf =>
    rw [hc] at hbuf hask
    obtain ⟨rfl, hlen, hsize⟩ := hbuf
    dsimp only at hask ⊢
    have hroom : buf.length + bs.length ≤ totaltoget buf := by
      have : sizeSub (totaltoget buf) buf.length = totaltoget buf - buf.length := by
        rw [sizeSub]
        omega
      rw [hsize, hlen, this] at hask
      omega
    have hcap : totaltoget buf ≤ sbsize := by
      rw [sbsize]
      omega
    rw [if_neg (by omega), if_neg (by omega), hlen, List.take_length]
    exact processBuf_at accept _ _ hopen hexcess (by rw [List.length_append]; omega)

/-- The run over the chunks, from a connection that keeps `rest`, continues the reference behind
`rest`. -/
theorem recvChunks_at (accept : List UInt8 → Bool) {c : Conn (List (List UInt8))}
    {rest : List UInt8} (cs : List (List UInt8)) (hkeep : c.Keeps rest)
    (hinc : serverFramer.next rest = .incomplete) (hask : asked true (deliver accept) c cs = true) :
    ∃ c', recvChunks true (deliver accept) c cs = .ok c' ∧
      c'.At (c.st ++ (messages accept (rest ++ cs.flatten)).1,
        (messages accept (rest ++ cs.flatten)).2) := by
  induction cs generalizing c rest with
  | nil =>
    rw [List.flatten_nil, List.append_nil, messages, split_incomplete hinc]
    exact ⟨c, rfl, by simp, hkeep⟩
  | cons bs cs ih =>
    have hopen := hkeep.1
    simp only [asked, hopen, Bool.not_true, Bool.false_or, Bool.and_eq_true,
      decide_eq_true_eq] at hask
    obtain ⟨⟨-, hle⟩, hrest⟩ := hask
    obtain ⟨c₁, hc₁, hst, hat⟩ := tcpRecv_at accept hkeep hinc hle
    simp only [hc₁] at hrest
    simp only [recvChunks, hopen, if_true, hc₁, ok_bind, List.flatten_cons]
    rw [← List.append_assoc]
    cases hm : (messages accept (rest ++ bs)).2 with
    | none =>
      -- The connection is closed, and the reference has ended too.
      simp only [hm] at hat
      rw [messages_append_of_none _ hm]
      refine ⟨c₁, ?_, hst, ?_⟩
      · cases cs <;> simp [recvChunks, hat]
      · simp only [hm, hat]
    | some rest' =>
      simp only [hm] at hat
      obtain ⟨c', hc', hst', hat'⟩ := ih hat (next_rest hm) hrest
      refine ⟨c', hc', ?_, ?_⟩
      · rw [hst', hst, messages_append _ hm]
        simp
      · rwa [messages_append _ hm]

/-- What a connection still holds of an unfinished message, or none once it is closed. -/
def Conn.tail (c : Conn σ) : Option (List UInt8) := if c.isOpen then some (c.buf.getD []) else none

theorem Conn.tail_of_at {c : Conn (List (List UInt8))}
    {r : List (List UInt8) × Option (List UInt8)} (h : c.At r) : c.tail = r.2 := by
  obtain ⟨-, hat⟩ := h
  unfold Conn.tail
  cases hr : r.2 with
  | none =>
    rw [hr] at hat
    simp [hat]
  | some rest =>
    rw [hr] at hat
    obtain ⟨hopen, -, hbuf⟩ := hat
    rw [if_pos hopen]
    cases hc : c.buf with
    | none =>
      rw [hc] at hbuf
      simp [hbuf]
    | some buf =>
      rw [hc] at hbuf
      simp [hbuf.1]

/-- The run over the chunks, stated for a fresh connection. -/
theorem recvChunks_eq (accept : List UInt8 → Bool) (cs : List (List UInt8))
    (hask : asked true (deliver accept) (.new []) cs = true) :
    ∃ c, recvChunks true (deliver accept) (.new []) cs = .ok c ∧
      (c.st, c.tail) = messages accept cs.flatten := by
  obtain ⟨c, hc, hat⟩ := recvChunks_at accept cs (c := .new []) ⟨rfl, rfl, rfl⟩ rfl hask
  refine ⟨c, hc, ?_⟩
  rw [Conn.tail_of_at hat, hat.1]
  rfl

/-- However `recv()` cuts the stream of a connection into the chunks that `tcp_recv` asks for, the
messages handed to `parse_message` are those of the stream, the tail of an unfinished one is kept,
and the connection is closed exactly when the reference ends; so two segmentations of one stream
agree. -/
theorem recvChunks_messages (accept : List UInt8 → Bool) (cs : List (List UInt8))
    (hask : asked true (deliver accept) (.new []) cs = true) :
    ∃ c, recvChunks true (deliver accept) (.new []) cs = .ok c ∧
      (c.st, c.tail) = messages accept cs.flatten ∧
      ∀ cs', asked true (deliver accept) (.new []) cs' = true → cs'.flatten = cs.flatten →
        ∃ c', recvChunks true (deliver accept) (.new []) cs' = .ok c' ∧
          c'.st = c.st ∧ c'.tail = c.tail := by
  obtain ⟨c, hc, heq⟩ := recvChunks_eq accept cs hask
  refine ⟨c, hc, heq, fun cs' hask' hsame => ?_⟩
  obtain ⟨c', hc', heq'⟩ := recvChunks_eq accept cs' hask'
  rw [hsame, ← heq] at heq'
  exact ⟨c', hc', congrArg Prod.fst heq', congrArg Prod.snd heq'⟩

/-- Two messages and a bit, cut inside the first length word and inside the second message. -/
def cutStream : List (List UInt8) :=
  [[0, 0], [0, 9], [1, 2, 3], [4, 5], [0, 0, 0, 10, 6, 7, 8], [9, 10, 11], [0, 0, 0]]

theorem recvChunks_cutStream :
    ∃ c, recvChunks true (deliver fun _ => true) (.new []) cutStream = .ok c ∧
      (c.st, c.tail) = ([[1, 2, 3, 4, 5], [6, 7, 8, 9, 10, 11]], some [0, 0, 0]) := by
  obtain ⟨c, hc, heq, -⟩ := recvChunks_messages (fun _ => true) cutStream (by decide +kernel)
  exact ⟨c, hc, heq.trans (by decide +kernel)⟩

end Moc
