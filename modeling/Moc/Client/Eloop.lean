import Moc.Server.Tcp

/-!
# Reassembly in the client's event loop

`msparse_buf` of `client/mscli.c` and the receiving step of `el_routine` in `client/eloop.c`. What
is done with a message is a parameter again. Unlike `tcp_recv`, the loop always receives into its
static buffer, so a chunk may reach into later messages while the server's own buffer is in use, and
the leftovers are handled where they lie. A buffer handed to `msparse_buf` is a whole block of which
`len` bytes were received; what stands behind them is whatever was there before.
-/

open Bytes Memory Framing

namespace Moc

variable {σ : Type}

/-- The receive half of `moc_srv`, with the state of whatever handles its messages. `buf` has the
bytes written to the server's own buffer so far, and `isOpen` says that `fd` is not `-1`. -/
structure MocSrv (σ : Type) where
  buf : Option (List UInt8)
  len : ℕ
  pktsize : ℕ
  excess : ℕ
  isOpen : Bool
  st : σ
  deriving DecidableEq

/-- A server that was just connected. -/
def MocSrv.new (st : σ) : MocSrv σ := ⟨none, 0, 0, 0, true, st⟩

/-- The bytes kept in `srv->buf`. -/
def MocSrv.kept (v : MocSrv σ) : List UInt8 := (v.buf.getD []).take v.len

/-- The end of `msparse_buf` when no leftovers wait. -/
def MocSrv.release (v : MocSrv σ) : MocSrv σ :=
  if v.buf.isSome then { v with buf := none, len := 0, pktsize := 0, excess := 0 } else v

/-- A write of this many bytes leaves a buffer of `cap` bytes. Without a bound no write does. -/
def exceeds (cap : Option ℕ) (n : ℕ) : Bool := cap.any (· < n)

/-- What `msparse_msg` is to the reassembly: it is given a block and the length of the message at
its front. Its error is only logged. -/
abbrev MsgHandler (σ : Type) := σ → List UInt8 → ℕ → Except Fault σ

/-- `totaltoget` of `msparse_buf`. -/
def msTotaltoget (block : List UInt8) (len : ℕ) : ℕ := if 4 ≤ len then word block 0 else 4

/-- `msparse_buf` on the first `len` bytes of `block`, which is the server's own buffer when it has
one and the static buffer otherwise; `cap` bounds the own buffer. -/
def msparseBuf (cap : Option ℕ) (malloc : Bool) (handle : MsgHandler σ) (v : MocSrv σ)
    (block : List UInt8) (len : ℕ) : Except Fault (MocSrv σ) :=
  if 4 ≤ len ∧ (word block 0 > 64 * 1024 ∨ word block 0 ≤ 8) then
    .ok { v with buf := v.buf.map fun _ => block }
  else if msTotaltoget block len > len then
    match v.buf with
    | none =>
      if ¬ malloc then .ok v
      else if exceeds cap len then .error .outOfBounds
      else .ok { v with buf := some (block.take len), len := len, pktsize := msTotaltoget block len }
    | some _ =>
      .ok { v with buf := some block, len := len, pktsize := msTotaltoget block len }
  else
    let total := msTotaltoget block len
    let excess := if total < len then len - total else v.excess
    match handle v.st (block.drop 4) (total - 4) with
    | .error e => .error e
    | .ok st =>
      if excess ≠ 0 then
        match load block total excess with
        | .error e => .error e
        | .ok rest =>
          msparseBuf cap malloc handle { v with len := excess, excess := 0, st := st }
            (rest ++ block.drop excess) excess
      else .ok { v with excess := excess, st := st }.release
termination_by (v.excess, len)
decreasing_by
  -- An `excess` from before is used up, and one from here is shorter than `len`.
  rename_i hill _ hexcess
  have hpos : 0 < msTotaltoget block len := by
    rw [msTotaltoget]
    split_ifs <;> omega
  rcases Nat.eq_zero_or_pos v.excess with h0 | h0
  · rw [h0]
    refine Prod.Lex.right 0 ?_
    by_cases hlt : msTotaltoget block len < len
    · rw [dif_pos hlt]
      omega
    · exact absurd ((dif_neg hlt).trans h0) hexcess
  · exact Prod.Lex.left _ _ h0

/-- What `recv()` gives the event loop, with what stands behind the chunk in the static buffer. -/
structure Chunk where
  recv : Recv
  behind : List UInt8

/-- The receiving step of `el_routine` for one server. The chunk goes to the static buffer and, when
the server keeps a tail, is copied behind it. `lost` queues the `_connectlost` callback. -/
def elRoutine (cap : Option ℕ) (malloc : Bool) (handle : MsgHandler σ) (lost : σ → σ)
    (v : MocSrv σ) (r : Chunk) : Except Fault (MocSrv σ) :=
  match r.recv with
  | .eagain => .ok v
  | .etimedout => .ok { v with st := lost v.st }
  | .eof => .ok { v with isOpen := false }
  | .err => .ok { v with isOpen := false }
  | .data bs =>
    match v.buf with
    | none => msparseBuf cap malloc handle v (bs ++ r.behind) bs.length
    | some buf =>
      if v.len > buf.length then .error .uninitialised
      else if exceeds cap (v.len + bs.length) then .error .outOfBounds
      else
        let buf := buf.take v.len ++ bs ++ buf.drop (v.len + bs.length)
        msparseBuf cap malloc handle { v with buf := some buf, len := v.len + bs.length } buf
          (v.len + bs.length)

/-- The event loop run on what `recv()` gives. A closed server is not selected any more. -/
def elRoutines (cap : Option ℕ) (malloc : Bool) (handle : MsgHandler σ) (lost : σ → σ)
    (v : MocSrv σ) : List Chunk → Except Fault (MocSrv σ)
  | [] => .ok v
  | r :: rs =>
    if v.isOpen then do
      let v ← elRoutine cap malloc handle lost v r
      elRoutines cap malloc handle lost v rs
    else .ok v

/-! ## The ways of `msparse_buf` -/

section
variable {cap : Option ℕ} {malloc : Bool} {handle : MsgHandler σ} {v : MocSrv σ}
  {block : List UInt8} {len : ℕ}

/-- The tests of `msparse_buf` look at no byte behind the received ones. -/
theorem word_take (h4 : 4 ≤ len) : word (block.take len) 0 = word block 0 := by
  rw [word, word, List.drop_zero, List.drop_zero, List.take_take, Nat.min_eq_left h4]

theorem msTotaltoget_eq (hlen : len ≤ block.length) :
    msTotaltoget block len = totaltoget (block.take len) := by
  have htake : (block.take len).length = len := by simp [hlen]
  rw [msTotaltoget, totaltoget, htake]
  split_ifs with h4
  · exact (word_take h4).symm
  · rfl

/-- What the framer of the server says of the received bytes, in terms of the client's tests. -/
theorem serverFramer_next_take (hlen : len ≤ block.length) :
    serverFramer.next (block.take len) =
      if 4 ≤ len ∧ (word block 0 > 64 * 1024 ∨ word block 0 ≤ 8) then .illegal
      else if msTotaltoget block len > len then .incomplete
      else .frame (msTotaltoget block len) := by
  have htake : (block.take len).length = len := by simp [hlen]
  have hill : (4 ≤ len ∧ (word (block.take len) 0 > 64 * 1024 ∨ word (block.take len) 0 ≤ 8)) ↔
      (4 ≤ len ∧ (word block 0 > 64 * 1024 ∨ word block 0 ≤ 8)) :=
    and_congr_right fun h4 => by rw [word_take h4]
  rw [serverFramer_next, htake, msTotaltoget_eq hlen]
  simp only [hill]

/-- A server between two chunks: it is open and keeps exactly the bytes `rest`. -/
def MocSrv.Keeps (v : MocSrv σ) (rest : List UInt8) : Prop :=
  v.isOpen = true ∧ v.excess = 0 ∧
    match v.buf with
    | none => rest = []
    | some buf => v.len ≤ buf.length ∧ buf.take v.len = rest

theorem MocSrv.Keeps.kept_eq {rest : List UInt8} (h : v.Keeps rest) : v.kept = rest := by
  obtain ⟨-, -, hbuf⟩ := h
  unfold MocSrv.kept
  cases hb : v.buf with
  | none =>
    rw [hb] at hbuf
    simp [hbuf]
  | some buf =>
    rw [hb] at hbuf
    exact hbuf.2

theorem MocSrv.release_keeps (hopen : v.isOpen = true) (hexcess : v.excess = 0) :
    v.release.Keeps [] := by
  unfold MocSrv.release
  split_ifs with hbuf
  · exact ⟨hopen, rfl, rfl⟩
  · rw [Option.not_isSome_iff_eq_none] at hbuf
    refine ⟨hopen, hexcess, ?_⟩
    rw [hbuf]

@[simp] theorem MocSrv.release_st : v.release.st = v.st := by
  unfold MocSrv.release
  split_ifs <;> rfl

/-- An incomplete message is kept, in a new buffer or where it lies. -/
theorem msparseBuf_incomplete (hlen : len ≤ block.length)
    (h : serverFramer.next (block.take len) = .incomplete) (hopen : v.isOpen = true)
    (hexcess : v.excess = 0) :
    ∃ v', msparseBuf none true handle v block len = .ok v' ∧ v'.st = v.st ∧
      v'.Keeps (block.take len) := by
  rw [serverFramer_next_take hlen] at h
  rw [msparseBuf]
  split_ifs at h with hill hget
  rw [if_neg hill, if_pos hget]
  cases v.buf with
  | none => exact ⟨_, rfl, rfl, hopen, hexcess, by simp [hlen], by rw [List.take_take, Nat.min_self]⟩
  | some buf => exact ⟨_, rfl, rfl, hopen, hexcess, hlen, rfl⟩

/-- A whole message is handled, and then what came behind it, moved to the front. -/
theorem msparseBuf_frame {n : ℕ} (hlen : len ≤ block.length)
    (h : serverFramer.next (block.take len) = .frame n) (hexcess : v.excess = 0) :
    msparseBuf cap malloc handle v block len =
      match handle v.st (block.drop 4) (n - 4) with
      | .error e => .error e
      | .ok st =>
        if n < len then
          msparseBuf cap malloc handle { v with len := len - n, st := st }
            ((block.drop n).take (len - n) ++ block.drop (len - n)) (len - n)
        else .ok { v with st := st }.release := by
  rw [serverFramer_next_take hlen] at h
  rw [msparseBuf]
  split_ifs at h with hill hget
  cases h
  rw [if_neg hill, if_neg hget]
  dsimp only
  cases handle v.st (block.drop 4) (msTotaltoget block len - 4) with
  | error e => rfl
  | ok st =>
    -- What came behind the message is moved to the front, inside the block.
    by_cases hmore : msTotaltoget block len < len
    · have hne : len - msTotaltoget block len ≠ 0 := by omega
      have hload : load block (msTotaltoget block len) (len - msTotaltoget block len) =
          .ok ((block.drop (msTotaltoget block len)).take (len - msTotaltoget block len)) :=
        load_of_le (by omega)
      simp only [hmore, if_true, hne, ne_eq, not_false_eq_true, hload, hexcess]
    · simp [hmore, hexcess]

end

/-! ## The event loop against the server's reference -/

/-- The handler that records the bytes of each message. -/
def record : MsgHandler (List (List UInt8)) := fun ms block len => .ok (ms ++ [block.take len])

/-- The messages and the tail of a stream that no answer ends. -/
abbrev allMessages (s : List UInt8) : List (List UInt8) × Option (List UInt8) :=
  messages (fun _ => true) s

/-- `msparse_buf` hands over the messages of the bytes it is given and keeps their tail. -/
theorem msparseBuf_at (v : MocSrv (List (List UInt8))) (block : List UInt8) (len : ℕ)
    {rest : List UInt8} (hlen : len ≤ block.length) (hopen : v.isOpen = true)
    (hexcess : v.excess = 0) (hrest : (allMessages (block.take len)).2 = some rest) :
    ∃ v', msparseBuf none true record v block len = .ok v' ∧
      v'.st = v.st ++ (allMessages (block.take len)).1 ∧ v'.Keeps rest := by
  -- On the bytes that are left: every message that is handed over takes some.
  induction hn : len using Nat.strong_induction_on generalizing v block len with
  | _ k ih =>
    subst hn
    have htake : (block.take len).length = len := by simp [hlen]
    unfold allMessages messages at hrest ⊢
    cases hnext : serverFramer.next (block.take len) with
    | illegal => simp [split_illegal hnext] at hrest
    | incomplete =>
      obtain ⟨v', hv', hst, hkeep⟩ := msparseBuf_incomplete hlen hnext hopen hexcess
      rw [split_incomplete hnext] at hrest ⊢
      rw [← Option.some.inj hrest]
      exact ⟨v', hv', by simp [hst], hkeep⟩
    | frame n =>
      obtain ⟨hpos, hle⟩ := serverFramer.frame_le _ n hnext
      rw [htake] at hle
      -- The message is the same in the block and in the received bytes.
      have hmsg : (block.drop 4).take (n - 4) = ((block.take len).take n).drop 4 := by
        rw [List.take_take, Nat.min_eq_left hle, List.drop_take]
      rw [split_frame hnext] at hrest ⊢
      simp only [if_true] at hrest ⊢
      rw [msparseBuf_frame hlen hnext hexcess]
      simp only [record, hmsg]
      split_ifs with hmore
      · -- The leftovers, moved to the front, are the received bytes behind the message.
        have hmoved : ((block.drop n).take (len - n) ++ block.drop (len - n)).take (len - n) =
            (block.take len).drop n := by
          rw [List.take_left' (by simp; omega), List.drop_take]
        obtain ⟨v', hv', hst, hkeep⟩ := ih (len - n) (by omega)
          { v with len := len - n, st := v.st ++ [((block.take len).take n).drop 4] }
          ((block.drop n).take (len - n) ++ block.drop (len - n)) (len - n)
          (by simp; omega) hopen hexcess (by rw [hmoved]; exact hrest) rfl
        rw [hmoved] at hst
        exact ⟨v', hv', by simpa [allMessages, messages] using hst, hkeep⟩
      · have hnil : (block.take len).drop n = [] := List.drop_eq_nil_of_le (by omega)
        rw [hnil, split_incomplete rfl] at hrest ⊢
        rw [← Option.some.inj hrest]
        exact ⟨_, rfl, by simp, MocSrv.release_keeps hopen hexcess⟩

/-- One chunk, on a server that keeps `rest`. -/
theorem elRoutine_at (lost : List (List UInt8) → List (List UInt8))
    {v : MocSrv (List (List UInt8))} {rest rest' : List UInt8} (bs behind : List UInt8)
    (hkeep : v.Keeps rest) (hrest : (allMessages (rest ++ bs)).2 = some rest') :
    ∃ v', elRoutine none true record lost v ⟨.data bs, behind⟩ = .ok v' ∧
      v'.st = v.st ++ (allMessages (rest ++ bs)).1 ∧ v'.Keeps rest' := by
  obtain ⟨hopen, hexcess, hbuf⟩ := hkeep
  unfold elRoutine
  -- The chunk lies in the static buffer, or behind what the connection keeps.
  cases hb : v.buf with
  | none =>
    rw [hb] at hbuf
    subst hbuf
    have htake : (bs ++ behind).take bs.length = [] ++ bs := by simp
    rw [← htake] at hrest
    have hat := msparseBuf_at v (bs ++ behind) bs.length (by simp) hopen hexcess hrest
    rwa [htake] at hat
  | some buf =>
    rw [hb] at hbuf
    obtain ⟨hle, hbuf⟩ := hbuf
    have htake : (buf.take v.len ++ bs ++ buf.drop (v.len + bs.length)).take
        (v.len + bs.length) = rest ++ bs := by
      rw [List.take_left' (by simp; omega), hbuf]
    rw [← htake] at hrest
    have hat := msparseBuf_at { v with buf := some (buf.take v.len ++ bs ++
        buf.drop (v.len + bs.length)), len := v.len + bs.length }
      (buf.take v.len ++ bs ++ buf.drop (v.len + bs.length)) (v.len + bs.length) (by simp; omega)
      hopen hexcess hrest
    rw [htake] at hat
    dsimp only
    rw [if_neg (by omega), if_neg (by simp [exceeds])]
    exact hat

/-- A chunk of received bytes. -/
def dataChunk (c : List UInt8 × List UInt8) : Chunk := ⟨.data c.1, c.2⟩

/-- The run over the chunks, from a server that keeps `rest`, continues the reference behind
`rest`. -/
theorem elRoutines_at (lost : List (List UInt8) → List (List UInt8))
    {v : MocSrv (List (List UInt8))} {rest rest' : List UInt8} (cs : List (List UInt8 × List UInt8))
    (hkeep : v.Keeps rest) (hinc : serverFramer.next rest = .incomplete)
    (hrest : (allMessages (rest ++ (cs.map Prod.fst).flatten)).2 = some rest') :
    ∃ v', elRoutines none true record lost v (cs.map dataChunk) = .ok v' ∧
      v'.st = v.st ++ (allMessages (rest ++ (cs.map Prod.fst).flatten)).1 ∧ v'.Keeps rest' := by
  induction cs generalizing v rest with
  | nil =>
    simp only [List.map_nil, List.flatten_nil, List.append_nil] at hrest ⊢
    unfold allMessages messages at hrest ⊢
    rw [split_incomplete hinc] at hrest ⊢
    rw [← Option.some.inj hrest]
    exact ⟨v, rfl, by simp, hkeep⟩
  | cons c cs ih =>
    simp only [List.map_cons, List.flatten_cons, ← List.append_assoc] at hrest ⊢
    -- The stream never ends at an illegal front, so neither does what has come of it so far.
    obtain ⟨rest₁, hrest₁⟩ : ∃ rest₁, (allMessages (rest ++ c.1)).2 = some rest₁ := by
      cases hm : (allMessages (rest ++ c.1)).2 with
      | none =>
        unfold allMessages at hm hrest
        rw [messages_append_of_none _ hm, hm] at hrest
        cases hrest
      | some rest₁ => exact ⟨rest₁, rfl⟩
    obtain ⟨v₁, hv₁, hst₁, hkeep₁⟩ := elRoutine_at lost c.1 c.2 hkeep hrest₁
    unfold allMessages at hrest₁ hrest hst₁ ⊢
    rw [messages_append _ hrest₁] at hrest ⊢
    obtain ⟨v', hv', hst', hkeep'⟩ := ih hkeep₁ (next_rest hrest₁) hrest
    refine ⟨v', ?_, ?_, hkeep'⟩
    · rw [elRoutines, if_pos hkeep.1, dataChunk, hv₁, ok_bind, hv']
    · rw [hst', hst₁, List.append_assoc]

/-! ## Streams of whole frames -/

/-- A frame with a legal length word. -/
def LegalFrame (f : List UInt8) : Prop := 8 < f.length ∧ f.length ≤ 64 * 1024 ∧ word f 0 = f.length

instance (f : List UInt8) : Decidable (LegalFrame f) := inferInstanceAs (Decidable (_ ∧ _ ∧ _))

/-- The framer finds a legal frame, whatever comes behind it. -/
theorem LegalFrame.next_append {f : List UInt8} (h : LegalFrame f) (t : List UInt8) :
    serverFramer.next (f ++ t) = .frame f.length := by
  obtain ⟨hmin, hmax, hword⟩ := h
  have h4 : 4 ≤ (f ++ t).length := by
    rw [List.length_append]
    omega
  rw [serverFramer_next, totaltoget, if_pos h4, word_append (by omega), hword, List.length_append,
    if_neg (by omega), if_neg (by omega)]

/-- A part of a legal frame is incomplete. -/
theorem LegalFrame.next_take {f : List UInt8} (h : LegalFrame f) {n : ℕ} (hn : n < f.length) :
    serverFramer.next (f.take n) = .incomplete := by
  obtain ⟨hmin, hmax, hword⟩ := h
  have htake : (f.take n).length = n := by simp [hn.le]
  rw [serverFramer_next, totaltoget, htake]
  by_cases h4 : 4 ≤ n
  · rw [word_take h4, hword, if_neg (by omega), if_pos h4, if_pos hn]
  · rw [if_neg (by omega), if_neg h4, if_pos (by omega)]

/-- What has come of a stream of legal frames is some of the frames and a part of the next one. -/
theorem allMessages_prefix {frames : List (List UInt8)} (hlegal : ∀ f ∈ frames, LegalFrame f)
    {s t : List UInt8} (hs : s ++ t = frames.flatten) :
    ∃ n tail, allMessages s = ((frames.take n).map (·.drop 4), some tail) ∧
      s = (frames.take n).flatten ++ tail ∧ ∀ f, frames[n]? = some f → tail.length < f.length := by
  induction frames generalizing s with
  | nil =>
    obtain ⟨rfl, rfl⟩ := List.append_eq_nil_iff.mp hs
    exact ⟨0, [], by rw [allMessages, messages, split_incomplete rfl]; rfl, rfl, by simp⟩
  | cons f fs ih =>
    have hf := hlegal f (List.mem_cons_self ..)
    rw [List.flatten_cons] at hs
    rcases Nat.lt_or_ge s.length f.length with hlt | hge
    · -- The first frame is not whole yet.
      have hpart : s = f.take s.length := by
        have h := congrArg (List.take s.length) hs
        rwa [List.take_left, List.take_append_of_le_length hlt.le] at h
      have hinc : serverFramer.next s = .incomplete := by
        rw [hpart]
        exact hf.next_take hlt
      exact ⟨0, s, by rw [allMessages, messages, split_incomplete hinc]; rfl, rfl, by simpa⟩
    -- The first frame is whole, and the others are in what comes behind it.
    · obtain ⟨s', rfl⟩ : ∃ s', s = f ++ s' := by
        have hpre : f <+: s :=
          List.prefix_of_prefix_length_le ⟨_, rfl⟩ (hs ▸ List.prefix_append s t) hge
        exact hpre.imp fun _ h => h.symm
      rw [List.append_assoc, List.append_cancel_left_eq] at hs
      obtain ⟨n, tail, hms, hsplit, htail⟩ := ih (fun g hg => hlegal g (List.mem_cons_of_mem f hg)) hs
      refine ⟨n + 1, tail, ?_, ?_, by simpa using htail⟩
      · unfold allMessages messages at hms ⊢
        rw [split_frame (hf.next_append s'), List.drop_left, List.take_left]
        have hms₁ := congrArg Prod.fst hms
        have hms₂ := congrArg Prod.snd hms
        dsimp only at hms₁ hms₂
        simp [hms₁, hms₂]
      · rw [List.take_succ_cons, List.flatten_cons, List.append_assoc, ← hsplit]

/-- However the stream of legal frames is cut into chunks, and whatever stands in the static buffer
behind each, the event loop has handed over the bodies of the frames that are whole after each
chunk and keeps exactly the part of the next one; and in the end it has handed over the same
messages that the server hands to `parse_message` for any segmentation of the stream. -/
theorem elRoutines_eq_recvChunks (frames : List (List UInt8)) (hlegal : ∀ f ∈ frames, LegalFrame f)
    (lost : List (List UInt8) → List (List UInt8)) (cs : List (List UInt8 × List UInt8))
    (hcut : (cs.map Prod.fst).flatten = frames.flatten) :
    (∀ pre post, cs = pre ++ post → ∃ v n,
        elRoutines none true record lost (.new []) (pre.map dataChunk) = .ok v ∧
          v.st = (frames.take n).map (·.drop 4) ∧
          (pre.map Prod.fst).flatten = (frames.take n).flatten ++ v.kept ∧
          ∀ f, frames[n]? = some f → v.kept.length < f.length) ∧
      ∃ v, elRoutines none true record lost (.new []) (cs.map dataChunk) = .ok v ∧
        v.st = frames.map (·.drop 4) ∧ v.kept = [] ∧
        ∀ cs', asked true (deliver fun _ => true) (.new []) cs' = true →
          cs'.flatten = frames.flatten →
          ∃ c, recvChunks true (deliver fun _ => true) (.new []) cs' = .ok c ∧ c.st = v.st := by
  have hrun : ∀ pre post, cs = pre ++ post → ∃ v n,
      elRoutines none true record lost (.new []) (pre.map dataChunk) = .ok v ∧
        v.st = (frames.take n).map (·.drop 4) ∧
        (pre.map Prod.fst).flatten = (frames.take n).flatten ++ v.kept ∧
        (∀ f, frames[n]? = some f → v.kept.length < f.length) ∧
        (allMessages (pre.map Prod.fst).flatten).1 = v.st := by
    rintro pre post rfl
    rw [List.map_append, List.flatten_append] at hcut
    obtain ⟨n, tail, hms, hsplit, htail⟩ := allMessages_prefix hlegal hcut
    have hrest : (allMessages ([] ++ (pre.map Prod.fst).flatten)).2 = some tail := by
      rw [List.nil_append, hms]
    obtain ⟨v, hv, hst, hkeep⟩ := elRoutines_at lost (v := .new []) pre ⟨rfl, rfl, rfl⟩ rfl hrest
    rw [List.nil_append, hms] at hst
    have hkept := hkeep.kept_eq
    refine ⟨v, n, hv, hst, ?_, ?_, ?_⟩
    · rw [hkept]
      exact hsplit
    · rw [hkept]
      exact htail
    · rw [hms, hst]
      rfl
  refine ⟨fun pre post h => ?_, ?_⟩
  · obtain ⟨v, n, hv, hst, hsplit, htail, -⟩ := hrun pre post h
    exact ⟨v, n, hv, hst, hsplit, htail⟩
  · obtain ⟨v, n, hv, hst, hsplit, htail, hms⟩ := hrun cs [] (by simp)
    -- At the end of the stream nothing of a next frame is missing.
    have hkept : (frames.drop n).flatten = v.kept := by
      rw [hcut, ← List.take_append_drop n frames, List.flatten_append] at hsplit
      rw [List.take_append_drop] at hsplit
      exact List.append_cancel_left hsplit
    have hall : frames.length ≤ n := by
      by_contra hlt
      have hget := List.getElem?_eq_getElem (Nat.lt_of_not_le hlt)
      have hshort := htail _ hget
      rw [← hkept, List.drop_eq_getElem_cons (Nat.lt_of_not_le hlt), List.flatten_cons,
        List.length_append] at hshort
      omega
    rw [List.take_of_length_le hall] at hst
    rw [List.drop_eq_nil_of_le hall] at hkept
    refine ⟨v, hv, hst, hkept.symm, fun cs' hask hsame => ?_⟩
    obtain ⟨c, hc, heq⟩ := recvChunks_eq (fun _ => true) cs' hask
    refine ⟨c, hc, ?_⟩
    rw [hsame, ← hcut] at heq
    rw [← hms, ← congrArg Prod.fst heq]

/-- Two frames, the second chunk with the end of the first one and the start of the second. -/
def cutFrames : List (List UInt8) := [[0, 0, 0, 9, 1, 2, 3, 4, 5], [0, 0, 0, 10, 6, 7, 8, 9, 10, 11]]

/-- The chunks of `cutFrames`. -/
def cutChunks : List (List UInt8 × List UInt8) :=
  [([0, 0], [7]), ([0, 9, 1, 2, 3, 4, 5, 0, 0, 0], []), ([10, 6, 7, 8, 9, 10, 11], [1, 2])]

theorem elRoutines_cutChunks :
    ∃ v, elRoutines none true record id (.new []) (cutChunks.map dataChunk) = .ok v ∧
      v.st = [[1, 2, 3, 4, 5], [6, 7, 8, 9, 10, 11]] ∧ v.kept = [] := by
  obtain ⟨-, v, hv, hst, hkept, -⟩ :=
    elRoutines_eq_recvChunks cutFrames (by decide) id cutChunks (by decide)
  exact ⟨v, hv, hst, hkept⟩

end Moc
