import Moc.Server.Tcp

/-!
# A stream and what is done with its messages

`recvChunks_messages` of `Tcp.lean` speaks of a handler that notes the messages and answers each by its
bytes. Here the handler has a state of its own, fails, and answers as it likes, as `parse_message` does on
the server: whatever it is, `tcp_recv` does with the chunks of a stream what giving the handler the
messages of the stream in turn does (`recvChunks_handleAll`).
-/

open Bytes Memory Framing

namespace Moc

variable {σ : Type} {handle : Handler σ}

/-! ## The reference -/

/-- Messages given to the handler in turn, until it refuses one. -/
def handleAll (handle : Handler σ) (st : σ) : List (List UInt8) → Except Fault (σ × Bool)
  | [] => .ok (st, true)
  | msg :: msgs => do
    let (st, more) ← handle st msg
    if more then handleAll handle st msgs else return (st, false)

/-- The handler's state behind a stream, and the tail that is left, none once the connection has ended. -/
def handleStream (handle : Handler σ) (st : σ) (s : List UInt8) :
    Except Fault (σ × Option (List UInt8)) := do
  let (st, more) ← handleAll handle st (messages (fun _ => true) s).1
  return (st, if more then (messages (fun _ => true) s).2 else none)

/-- At an incomplete front nothing is handled. -/
theorem handleStream_incomplete {st : σ} {s : List UInt8} (h : serverFramer.next s = .incomplete) :
    handleStream handle st s = .ok (st, some s) := by
  rw [handleStream, messages, split_incomplete h]
  rfl

/-- An illegal front ends the stream. -/
theorem handleStream_illegal {st : σ} {s : List UInt8} (h : serverFramer.next s = .illegal) :
    handleStream handle st s = .ok (st, none) := by
  rw [handleStream, messages, split_illegal h]
  rfl

/-- A message at the front is handled, and then what is behind it. -/
theorem handleStream_frame {st : σ} {s : List UInt8} {n : ℕ} (h : serverFramer.next s = .frame n) :
    handleStream handle st s =
      handle st ((s.take n).drop 4) >>= fun r =>
        if r.2 then handleStream handle r.1 (s.drop n) else .ok (r.1, none) := by
  have hmessages : messages (fun _ => true) s =
      ((s.take n).drop 4 :: (messages (fun _ => true) (s.drop n)).1,
        (messages (fun _ => true) (s.drop n)).2) := by
    rw [messages, split_frame h, if_pos rfl]
    rfl
  rw [handleStream, hmessages, handleAll]
  cases handle st ((s.take n).drop 4) with
  | error e => rfl
  | ok r =>
    obtain ⟨st', more⟩ := r
    cases more <;> rfl

/-- What arrives later continues from the tail. -/
theorem handleStream_append (st : σ) (s t : List UInt8) :
    handleStream handle st (s ++ t) =
      handleStream handle st s >>= fun r =>
        match r.2 with
        | some rest => handleStream handle r.1 (rest ++ t)
        | none => .ok (r.1, none) := by
  induction hn : s.length using Nat.strong_induction_on generalizing st s with
  | _ len ih =>
    subst hn
    cases hnext : serverFramer.next s with
    | illegal =>
      rw [handleStream_illegal hnext, handleStream_illegal (serverFramer.illegal_append s t hnext)]
      rfl
    | incomplete =>
      rw [handleStream_incomplete hnext]
      rfl
    | frame n =>
      have hle := (serverFramer.frame_le s n hnext).2
      rw [handleStream_frame hnext, handleStream_frame (serverFramer.frame_append s t n hnext),
        List.take_append_of_le_length hle, List.drop_append_of_le_length hle]
      cases handle st ((s.take n).drop 4) with
      | error e => rfl
      | ok r =>
        obtain ⟨st', more⟩ := r
        cases more with
        | false => rfl
        | true => exact ih _ (length_drop_lt hnext) st' (s.drop n) rfl

/-! ## The receiver against the reference -/

/-- A connection is where the reference says: its handler has the same state, and it keeps the tail or is
closed; or both have failed alike. -/
def Reflects : Except Fault (Conn σ) → Except Fault (σ × Option (List UInt8)) → Prop
  | .error e, .error e' => e = e'
  | .ok c, .ok r => c.st = r.1 ∧
      match r.2 with
      | some rest => c.Keeps rest
      | none => c.isOpen = false
  | _, _ => False

/-- `process_buf` handles the messages of the bytes it is given and keeps their tail. -/
theorem processBuf_reflects (c : Conn σ) (buf : List UInt8) (hopen : c.isOpen = true)
    (hexcess : c.excess = 0) (hcap : buf.length ≤ sbsize) :
    Reflects (processBuf true handle c buf) (handleStream handle c.st buf) := by
  induction hn : buf.length using Nat.strong_induction_on generalizing c buf with
  | _ len ih =>
    subst hn
    cases hnext : serverFramer.next buf with
    | illegal =>
      rw [processBuf_illegal hnext, handleStream_illegal hnext]
      exact ⟨rfl, rfl⟩
    | incomplete =>
      rw [processBuf_kept hnext hcap (.inl rfl), handleStream_incomplete hnext]
      exact ⟨rfl, hopen, hexcess, rfl, rfl, rfl⟩
    | frame n =>
      rw [processBuf_frame hnext hexcess, handleStream_frame hnext]
      have hle := (serverFramer.frame_le buf n hnext).2
      cases handle c.st ((buf.take n).drop 4) with
      | error e => exact rfl
      | ok r =>
        obtain ⟨st, more⟩ := r
        cases more with
        | false => exact ⟨rfl, rfl⟩
        | true =>
          simp only [ok_bind, if_true]
          split_ifs with hmore
          · -- The leftovers are handled like a fresh buffer.
            exact ih _ (length_drop_lt hnext) { c with len := buf.length - n, st := st } (buf.drop n)
              hopen hexcess (by rw [List.length_drop]; omega) rfl
          · have hnil : buf.drop n = [] := List.drop_eq_nil_of_le (by omega)
            rw [hnil, handleStream_incomplete rfl]
            exact ⟨Conn.release_st _, Conn.release_keeps hopen hexcess⟩

/-- One chunk, on a connection that keeps the incomplete tail `rest`. -/
theorem tcpRecv_reflects {c : Conn σ} {rest bs : List UInt8} (hkeep : c.Keeps rest)
    (hinc : serverFramer.next rest = .incomplete) (hask : bs.length ≤ maxtoread c) :
    Reflects (tcpRecv true handle c (.data bs)) (handleStream handle c.st (rest ++ bs)) := by
  obtain ⟨hopen, hexcess, hbuf⟩ := hkeep
  obtain ⟨hlt, hle⟩ := totaltoget_of_incomplete hinc
  unfold tcpRecv
  unfold maxtoread at hask
  cases hc : c.buf with
  | none =>
    rw [hc] at hbuf hask
    subst hbuf
    dsimp only at hask ⊢
    rw [if_neg (by omega)]
    exact processBuf_reflects c bs hopen hexcess hask
  | some buf =>
    rw [hc] at hbuf hask
    obtain ⟨rfl, hlen, hsize⟩ := hbuf
    dsimp only at hask ⊢
    have hsub : sizeSub (totaltoget buf) buf.length = totaltoget buf - buf.length := by
      rw [sizeSub]
      omega
    have hroom : buf.length + bs.length ≤ sbsize := by
      rw [hsize, hlen, hsub] at hask
      rw [sbsize]
      omega
    rw [if_neg (by omega), if_neg (by omega), hlen, List.take_length]
    exact processBuf_reflects _ _ hopen hexcess (by rwa [List.length_append])

/-- The tail that the reference leaves is incomplete. -/
theorem handleStream_tail {st : σ} {s rest : List UInt8} {r : σ × Option (List UInt8)}
    (h : handleStream handle st s = .ok r) (hr : r.2 = some rest) :
    serverFramer.next rest = .incomplete := by
  obtain ⟨⟨st', more⟩, -, hret⟩ := bind_eq_ok.mp h
  rw [← Except.ok.inj hret] at hr
  dsimp only at hr
  split_ifs at hr
  exact next_rest hr

/-- The run over the chunks, from a connection that keeps `rest`. -/
theorem recvChunks_reflects {c : Conn σ} {rest : List UInt8} (cs : List (List UInt8))
    (hkeep : c.Keeps rest) (hinc : serverFramer.next rest = .incomplete)
    (hask : asked true handle c cs = true) :
    Reflects (recvChunks true handle c cs) (handleStream handle c.st (rest ++ cs.flatten)) := by
  induction cs generalizing c rest with
  | nil =>
    rw [List.flatten_nil, List.append_nil, handleStream_incomplete hinc]
    exact ⟨rfl, hkeep⟩
  | cons bs cs ih =>
    have hopen := hkeep.1
    simp only [asked, hopen, Bool.not_true, Bool.false_or, Bool.and_eq_true,
      decide_eq_true_eq] at hask
    obtain ⟨⟨-, hle⟩, hrest⟩ := hask
    have hone : Reflects (tcpRecv true handle c (.data bs)) (handleStream handle c.st (rest ++ bs)) :=
      tcpRecv_reflects hkeep hinc hle
    simp only [recvChunks, hopen, if_true, List.flatten_cons]
    rw [← List.append_assoc, handleStream_append]
    cases hrecv : tcpRecv true handle c (.data bs) with
    | error e =>
      rw [hrecv] at hone
      cases hstream : handleStream handle c.st (rest ++ bs) with
      | error e' =>
        rw [hstream] at hone
        exact hone
      | ok r =>
        rw [hstream] at hone
        exact hone.elim
    | ok c₁ =>
      rw [hrecv] at hone hrest
      cases hstream : handleStream handle c.st (rest ++ bs) with
      | error e' =>
        rw [hstream] at hone
        exact hone.elim
      | ok r =>
        rw [hstream] at hone
        obtain ⟨hst, hat⟩ := hone
        rw [ok_bind, ok_bind, ← hst]
        cases htail : r.2 with
        | none =>
          -- The connection is closed, and the reference has ended too.
          rw [htail] at hat
          have hclosed : recvChunks true handle c₁ cs = .ok c₁ := by
            cases cs with
            | nil => rfl
            | cons bs' cs =>
              rw [recvChunks, if_neg (by rw [hat]; exact Bool.false_ne_true)]
          rw [hclosed]
          exact ⟨rfl, hat⟩
        | some rest' =>
          rw [htail] at hat
          exact ih hat (handleStream_tail hstream htail) hrest

/-- Whatever is done with the messages, and however `recv()` cuts the stream of a connection into the
chunks that `tcp_recv` asks for: a fresh connection ends in the state, with the tail and the fault, that
giving the handler the messages of the stream in turn leads to. -/
theorem recvChunks_handleAll (handle : Handler σ) (st : σ) (cs : List (List UInt8))
    (hask : asked true handle (.new st) cs = true) :
    Reflects (recvChunks true handle (.new st) cs) (handleStream handle st cs.flatten) := by
  have hrun : Reflects (recvChunks true handle (.new st) cs) (handleStream handle st ([] ++ cs.flatten)) :=
    recvChunks_reflects cs ⟨rfl, rfl, rfl⟩ rfl hask
  exact hrun

/-- The handler of a server that counts the bytes of its messages and refuses the second one. -/
theorem recvChunks_handleAll_two :
    Reflects (recvChunks true (fun n m => .ok (n + m.length, decide (n = 0))) (.new 0) cutStream)
      (handleStream (fun n m => .ok (n + m.length, decide (n = 0))) 0 cutStream.flatten) :=
  recvChunks_handleAll _ 0 cutStream (by decide +kernel)

end Moc
