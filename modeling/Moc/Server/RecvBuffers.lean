import Moc.Lib.Runs
import Moc.Server.Tcp

/-!
# The receive buffers

`tcp_recv` and `process_buf` of `server/tcp.c` on the blocks that they work on: the static buffer, and
the one that a connection allocates while a message is incomplete. Both have `SBSIZE` bytes, and what
lies behind the bytes received is whatever was there before. `Holds` is the invariant of a connection
between two events; `processBuf_spec` carries it through the recursion on the leftovers.
-/

open Bytes Memory Framing Runs

namespace Moc.RecvBuffers

variable {σ : Type}

/-- A block of `SBSIZE` bytes. -/
abbrev Area := {b : List UInt8 // b.length = sbsize}

/-- Bytes copied to a position of a block. -/
def Area.store (a : Area) (pos : ℕ) (bs : List UInt8) : Except Fault Area :=
  if h : pos + bs.length ≤ sbsize then
    .ok ⟨a.1.take pos ++ bs ++ a.1.drop (pos + bs.length), by
      have hlen := a.2
      simp only [List.length_append, List.length_take, List.length_drop]
      omega⟩
  else .error .outOfBounds

/-- The receive half of `struct tcp_socket`, with the state of whatever handles its messages. -/
structure TcpSocket (σ : Type) where
  buf : Option Area
  pktsize : ℕ
  len : ℕ
  excess : ℕ
  isOpen : Bool
  st : σ

/-- A connection as `tcp_newconnection` leaves it. -/
def TcpSocket.new (st : σ) : TcpSocket σ := ⟨none, 0, 0, 0, true, st⟩

/-- The `error_exit` of `tcp_recv` and `process_buf`. -/
def TcpSocket.errorExit (s : TcpSocket σ) : TcpSocket σ := { s with isOpen := false }

/-- The end of `process_buf` when no leftovers wait. -/
def TcpSocket.release (s : TcpSocket σ) : TcpSocket σ :=
  if s.buf.isSome then { s with buf := none, len := 0, pktsize := 0, excess := 0 } else s

/-- The buffer that `process_buf` is given: the static one, or the connection's own. -/
inductive BufPtr where
  | static
  | own

/-- What `process_buf` works on. -/
structure Mem (σ : Type) where
  static : Area
  sock : TcpSocket σ

/-- The block that a buffer is. -/
def Mem.area (m : Mem σ) : BufPtr → Except Fault Area
  | .static => .ok m.static
  | .own =>
    match m.sock.buf with
    | none => .error .nullPointer
    | some own => .ok own

def Mem.setArea (m : Mem σ) : BufPtr → Area → Mem σ
  | .static, a => { m with static := a }
  | .own, a => { m with sock := { m.sock with buf := some a } }

/-- What `parse_message` does with a message, and whether the connection stays. -/
abbrev Answer (σ : Type) := σ → List UInt8 → σ × Bool

/-- `totaltoget`: the size word at the start of the buffer, or the four bytes that it takes. -/
def readSize (area : Area) (len : ℕ) : Except Fault ℕ := if 4 ≤ len then load32 area.1 0 else .ok 4

/-- One call of `process_buf` on the first `len` bytes of `buf`, up to the call that it makes of itself:
with that, the `len` of this call. `malloc` gives a block or `NULL`. -/
def processOnce (malloc : Option Area) (answer : Answer σ) (m : Mem σ) (buf : BufPtr) (len : ℕ) :
    Except Fault (Mem σ × Option ℕ) := do
  let area ← m.area buf
  let totaltoget ← readSize area len
  if 4 ≤ len ∧ (totaltoget > 64 * 1024 ∨ totaltoget ≤ 8) then
    return ({ m with sock := m.sock.errorExit }, none)
  else if totaltoget > len then
    match m.sock.buf with
    | none =>
      match malloc with
      | none => return ({ m with sock := m.sock.errorExit }, none)
      | some fresh =>
        let bs ← load area.1 0 len
        let own ← fresh.store 0 bs
        return ({ m with sock := { m.sock with buf := some own, len, pktsize := totaltoget } }, none)
    | some _ => return ({ m with sock := { m.sock with len, pktsize := totaltoget } }, none)
  else
    let excess := if totaltoget < len then len - totaltoget else m.sock.excess
    let len := if totaltoget < len then totaltoget else len
    let msg ← load area.1 4 (sizeSub len 4)
    let (st, keep) := answer m.sock.st msg
    let m := { m with sock := { m.sock with excess, st } }
    if ¬ keep then return ({ m with sock := m.sock.errorExit }, none)
    else if excess ≠ 0 then
      let rest ← load area.1 len excess
      let area ← area.store 0 rest
      let m := m.setArea buf area
      return ({ m with sock := { m.sock with len := excess, excess := 0 } }, some excess)
    else return ({ m with sock := m.sock.release }, none)

/-- `process_buf`, with the `len` of each call. -/
def processBuf (malloc : Option Area) (answer : Answer σ) :
    ℕ → Mem σ → BufPtr → ℕ → Except Fault (Mem σ × List ℕ)
  | 0, _, _, _ => .error .diverges
  | fuel + 1, m, buf, len => do
    let (m, next) ← processOnce malloc answer m buf len
    match next with
    | none => return (m, [len])
    | some len' =>
      let (m, lens) ← processBuf malloc answer fuel m buf len'
      return (m, len :: lens)

/-- A receive event: what the static buffer holds, what `malloc` gives, and what `recv()` does. -/
structure Event where
  static : Area
  malloc : Option Area
  recv : Recv

/-- The bytes received at an event, and the `len` of each call of `process_buf`. -/
structure Output where
  bytes : List UInt8
  lens : List ℕ

/-- How many bytes `tcp_recv` asks `recv()` for. -/
def TcpSocket.maxtoread (s : TcpSocket σ) : ℕ :=
  match s.buf with
  | none => sbsize
  | some _ => sizeSub s.pktsize s.len

/-- `tcp_recv`. The event of a closed connection is deleted. -/
def tcpRecv (answer : Answer σ) (s : TcpSocket σ) (e : Event) :
    Except Fault (Output × TcpSocket σ) :=
  if ¬ s.isOpen then .ok (⟨[], []⟩, s)
  else
    match s.buf with
    | none =>
      match e.recv with
      | .data bs => do
        let bs := bs.take s.maxtoread
        let static ← e.static.store 0 bs
        if bs = [] then return (⟨[], []⟩, s.errorExit)
        else
          let (m, lens) ← processBuf e.malloc answer (bs.length + 1) ⟨static, s⟩ .static bs.length
          return (⟨bs, lens⟩, m.sock)
      | .eagain => .ok (⟨[], []⟩, s)
      | .etimedout => .ok (⟨[], []⟩, s)
      | .eof => .ok (⟨[], []⟩, s.errorExit)
      | .err => .ok (⟨[], []⟩, s.errorExit)
    | some own =>
      -- The range given to `recv()` must lie in the block, whatever is received.
      if sbsize < s.len + s.maxtoread then .error .outOfBounds
      else
        match e.recv with
        | .data bs => do
          let bs := bs.take s.maxtoread
          let own ← own.store s.len bs
          if bs = [] then return (⟨[], []⟩, s.errorExit)
          else
            let s := { s with buf := some own, len := s.len + bs.length }
            let (m, lens) ← processBuf e.malloc answer (s.len + 1) ⟨e.static, s⟩ .own s.len
            return (⟨bs, lens⟩, m.sock)
        | .eagain => .ok (⟨[], []⟩, s)
        | .etimedout => .ok (⟨[], []⟩, s.errorExit)
        | .eof => .ok (⟨[], []⟩, s.errorExit)
        | .err => .ok (⟨[], []⟩, s.errorExit)

/-! ## One call -/

theorem Area.store_of_le (a : Area) {pos : ℕ} {bs : List UInt8} (h : pos + bs.length ≤ sbsize) :
    ∃ b : Area, a.store pos bs = .ok b ∧
      b.1.take (pos + bs.length) = a.1.take pos ++ bs := by
  have hfront : (a.1.take pos ++ bs).length = pos + bs.length := by
    rw [List.length_append, List.length_take, a.2]
    omega
  rw [store, dif_pos h]
  exact ⟨_, rfl, List.take_left' hfront⟩

/-- The first bytes of the buffer are `bs`. The buffer is the connection's own when it has one. -/
structure Mem.At (m : Mem σ) (buf : BufPtr) (bs : List UInt8) (area : Area) : Prop where
  isOpen : m.sock.isOpen = true
  excess : m.sock.excess = 0
  area_eq : m.area buf = .ok area
  bytes : area.1.take bs.length = bs
  own : m.sock.buf.isSome = true ↔ buf = .own

section

variable {malloc : Option Area} {answer : Answer σ} {m : Mem σ} {buf : BufPtr} {bs : List UInt8}
  {area : Area}

theorem Mem.At.length_le (h : m.At buf bs area) : bs.length ≤ sbsize := by
  have hlen := congrArg List.length h.bytes
  rw [List.length_take, area.2] at hlen
  omega

theorem Mem.At.load (h : m.At buf bs area) {pos n : ℕ} (hn : pos + n ≤ bs.length) :
    Memory.load area.1 pos n = .ok ((bs.drop pos).take n) := by
  have hlen := h.length_le
  have harea := area.2
  rw [load_of_le (by omega), ← h.bytes, List.drop_take, List.take_take]
  congr 2
  omega

/-- The size at the front of the buffer. -/
theorem Mem.At.readSize (h : m.At buf bs area) :
    RecvBuffers.readSize area bs.length = .ok (totaltoget bs) := by
  unfold RecvBuffers.readSize totaltoget
  split_ifs with h4
  · rw [load32, h.load (by omega), ok_bind, word]
    rfl
  · rfl

theorem Mem.At.static_of_none (h : m.At buf bs area) (hbuf : m.sock.buf = none) : buf = .static := by
  cases buf with
  | static => rfl
  | own =>
    have hsome := h.own.mpr rfl
    rw [hbuf] at hsome
    cases hsome

theorem Mem.At.own_of_some {own : Area} (h : m.At buf bs area) (hbuf : m.sock.buf = some own) :
    buf = .own :=
  h.own.mp (by rw [hbuf]; rfl)

/-- The code compares the size that it reads of four bytes or more. -/
theorem not_illegal (h : ¬(4 ≤ bs.length ∧ (word bs 0 > 64 * 1024 ∨ word bs 0 ≤ 8))) :
    ¬(4 ≤ bs.length ∧ (totaltoget bs > 64 * 1024 ∨ totaltoget bs ≤ 8)) := by
  rintro ⟨h4, hill⟩
  rw [totaltoget, if_pos h4] at hill
  exact h ⟨h4, hill⟩

theorem processOnce_illegal (h : m.At buf bs area) (hnext : serverFramer.next bs = .illegal) :
    processOnce malloc answer m buf bs.length = .ok ({ m with sock := m.sock.errorExit }, none) := by
  rw [serverFramer_next] at hnext
  rw [processOnce, h.area_eq, ok_bind, h.readSize, ok_bind]
  split_ifs at hnext with hill
  have hill' : 4 ≤ bs.length ∧ (totaltoget bs > 64 * 1024 ∨ totaltoget bs ≤ 8) := by
    rwa [totaltoget, if_pos hill.1]
  rw [if_pos hill']
  rfl

/-- What keeps an incomplete message: the connection's own buffer, or a block that `malloc` gives. -/
theorem processOnce_incomplete (malloc : Option Area) (answer : Answer σ) (h : m.At buf bs area)
    (hnext : serverFramer.next bs = .incomplete) :
    (buf = .static ∧ malloc = none ∧ processOnce malloc answer m buf bs.length =
      .ok ({ m with sock := m.sock.errorExit }, none)) ∨
    ∃ own : Area, (malloc.isSome = true ∨ m.sock.buf.isSome = true) ∧
      own.1.take bs.length = bs ∧ processOnce malloc answer m buf bs.length = .ok ({ m with sock := { m.sock with
        buf := some own, len := bs.length, pktsize := totaltoget bs } }, none) := by
  rw [serverFramer_next] at hnext
  rw [processOnce, h.area_eq, ok_bind, h.readSize, ok_bind]
  split_ifs at hnext with hill hlt
  rw [if_neg (not_illegal hill), if_pos hlt]
  cases hbuf : m.sock.buf with
  | none =>
    cases malloc with
    | none => exact .inl ⟨h.static_of_none hbuf, rfl, rfl⟩
    | some fresh =>
      have hload : load area.1 0 bs.length = .ok bs := by
        rw [h.load (by omega), List.drop_zero, List.take_length]
      have hroom : 0 + bs.length ≤ sbsize := by
        have hle := h.length_le
        omega
      obtain ⟨own, hown, hbytes⟩ := fresh.store_of_le hroom
      dsimp only
      rw [hload, ok_bind, hown]
      rw [Nat.zero_add, List.take_zero, List.nil_append] at hbytes
      exact .inr ⟨own, .inl rfl, hbytes, rfl⟩
  | some own =>
    obtain rfl := h.own_of_some hbuf
    obtain rfl : own = area := by simpa [Mem.area, hbuf] using h.area_eq
    refine .inr ⟨own, .inr rfl, h.bytes, ?_⟩
    dsimp only
    rw [← hbuf]
    rfl

/-- The leftovers at the start of the block. -/
theorem Mem.At.leftovers {n : ℕ} {st : σ} {area' : Area} (h : m.At buf bs area)
    (harea' : area'.1.take (bs.drop n).length = bs.drop n) {excess : ℕ} :
    let m₁ : Mem σ := { m with sock := { m.sock with excess, st } }
    let m₂ := m₁.setArea buf area'
    Mem.At { m₂ with sock := { m₂.sock with len := excess, excess := 0 } } buf (bs.drop n) area' := by
  intro m₁ m₂
  cases buf with
  | static => exact ⟨h.isOpen, rfl, rfl, harea', h.own⟩
  | own => exact ⟨h.isOpen, rfl, rfl, harea', iff_of_true rfl rfl⟩

/-- A whole message: the connection ends, or what is behind the message is moved to the front, or nothing
is behind it. -/
theorem processOnce_frame (malloc : Option Area) {n : ℕ} {st : σ} {keep : Bool}
    (h : m.At buf bs area) (hnext : serverFramer.next bs = .frame n)
    (hr : answer m.sock.st ((bs.take n).drop 4) = (st, keep)) :
    (keep = false ∧ ∃ excess, processOnce malloc answer m buf bs.length =
      .ok ({ m with sock := { m.sock with excess, st }.errorExit }, none)) ∨
    (keep = true ∧ n < bs.length ∧ ∃ m' area', processOnce malloc answer m buf bs.length =
        .ok (m', some (bs.length - n)) ∧ m'.At buf (bs.drop n) area' ∧ m'.sock.st = st) ∨
    (keep = true ∧ n = bs.length ∧ processOnce malloc answer m buf bs.length =
      .ok ({ m with sock := { m.sock with st }.release }, none)) := by
  rw [serverFramer_next] at hnext
  split_ifs at hnext with hill hlt
  obtain rfl : totaltoget bs = n := Front.frame.inj hnext
  have hsize := not_illegal hill
  have h4 : 4 ≤ bs.length := by
    by_contra h4
    rw [totaltoget, if_neg h4] at hlt
    omega
  have hsub : sizeSub (totaltoget bs) 4 = totaltoget bs - 4 := by
    unfold sizeSub
    omega
  have hlen : (if totaltoget bs < bs.length then totaltoget bs else bs.length) = totaltoget bs := by
    split_ifs <;> omega
  have hmsg : load area.1 4 (totaltoget bs - 4) = .ok ((bs.take (totaltoget bs)).drop 4) := by
    rw [h.load (by omega), List.drop_take]
  rw [processOnce, h.area_eq, ok_bind, h.readSize, ok_bind, if_neg hsize, if_neg hlt]
  dsimp only
  rw [hlen, hsub, hmsg, ok_bind, hr]
  dsimp only
  cases keep with
  | false => exact .inl ⟨rfl, _, rfl⟩
  | true =>
    rw [if_neg (not_not.mpr rfl)]
    by_cases hmore : totaltoget bs < bs.length
    · have hload : load area.1 (totaltoget bs) (bs.length - totaltoget bs) =
          .ok (bs.drop (totaltoget bs)) := by
        rw [h.load (by omega), List.take_of_length_le (by rw [List.length_drop])]
      have hroom : 0 + (bs.drop (totaltoget bs)).length ≤ sbsize := by
        have hle := h.length_le
        rw [List.length_drop]
        omega
      obtain ⟨area', hstore, hbytes⟩ := area.store_of_le hroom
      rw [Nat.zero_add, List.take_zero, List.nil_append] at hbytes
      rw [if_pos hmore, if_pos (by omega), hload, ok_bind, hstore, ok_bind]
      refine .inr (.inl ⟨rfl, hmore, _, area', rfl, h.leftovers hbytes, ?_⟩)
      cases buf <;> rfl
    · rw [if_neg hmore, if_neg (not_not.mpr h.excess)]
      exact .inr (.inr ⟨rfl, by omega, rfl⟩)

end

/-! ## All calls -/

/-- What a connection holds between two events when `rest` is the incomplete tail of its stream. -/
structure TcpSocket.Holds (s : TcpSocket σ) (rest : List UInt8) : Prop where
  excess : s.excess = 0
  buf : match s.buf with
    | none => rest = []
    | some own => own.1.take s.len = rest ∧ 0 < s.len ∧ s.len < s.pktsize ∧
        s.pktsize ≤ 64 * 1024 ∧ s.pktsize = totaltoget rest

/-- The incomplete tail of a stream whose messages all leave the connection open. -/
def tailOf (stream : List UInt8) : Option (List UInt8) :=
  (split serverFramer (fun _ => true) stream).2

theorem TcpSocket.holds_release {s : TcpSocket σ} (hexcess : s.excess = 0) : s.release.Holds [] := by
  unfold release
  split_ifs with hbuf
  · exact ⟨rfl, rfl⟩
  · rw [Option.not_isSome_iff_eq_none] at hbuf
    exact ⟨hexcess, by rw [hbuf]⟩

/-- `process_buf` and the calls that it makes of itself end, with ever smaller lengths and within the
blocks, and keep the tail of the bytes that they are given. -/
theorem processBuf_spec (malloc : Option Area) (answer : Answer σ) {fuel : ℕ} {m : Mem σ}
    {buf : BufPtr} {bs : List UInt8} {area : Area} (h : m.At buf bs area) (hpos : bs ≠ [])
    (hfuel : bs.length < fuel) :
    ∃ m' lens, processBuf malloc answer fuel m buf bs.length = .ok (m', lens) ∧
      lens.Pairwise (· > ·) ∧ (∀ n ∈ lens, n ≤ bs.length) ∧
      (m'.sock.isOpen = true → ∃ rest, tailOf bs = some rest ∧ m'.sock.Holds rest) := by
  induction fuel generalizing m bs area with
  | zero => omega
  | succ fuel ih =>
    rw [processBuf]
    cases hnext : serverFramer.next bs with
    | illegal =>
      rw [processOnce_illegal h hnext, ok_bind]
      exact ⟨_, _, rfl, by simp, by simp, fun hopen => nomatch hopen⟩
    | incomplete =>
      rcases processOnce_incomplete malloc answer h hnext with
        ⟨-, -, honce⟩ | ⟨own, -, hown, honce⟩
      · rw [honce, ok_bind]
        exact ⟨_, _, rfl, by simp, by simp, fun hopen => nomatch hopen⟩
      · rw [honce, ok_bind]
        have htotal := totaltoget_of_incomplete hnext
        refine ⟨_, _, rfl, by simp, by simp, fun _ => ⟨bs, ?_, h.excess, ?_⟩⟩
        · rw [tailOf, split_incomplete hnext]
        · exact ⟨hown, List.length_pos_iff.mpr hpos, htotal.1, htotal.2, rfl⟩
    | frame n =>
      have htail : tailOf bs = tailOf (bs.drop n) := by
        rw [tailOf, split_frame hnext, if_pos rfl]
        rfl
      rcases hr : answer m.sock.st ((bs.take n).drop 4) with ⟨st, keep⟩
      rcases processOnce_frame malloc h hnext hr with
        ⟨-, excess, honce⟩ | ⟨-, hlt, m', area', honce, h', -⟩ | ⟨-, hn, honce⟩
      · rw [honce, ok_bind]
        exact ⟨_, _, rfl, by simp, by simp, fun hopen => nomatch hopen⟩
      · have hdrop : (bs.drop n).length = bs.length - n := List.length_drop
        have hshort := length_drop_lt hnext
        obtain ⟨m'', lens, hrest, hpair, hle, hopen⟩ := ih h'
          (by rw [← List.length_pos_iff, hdrop]; omega) (by omega)
        rw [honce, ok_bind]
        dsimp only
        rw [← hdrop, hrest, ok_bind]
        refine ⟨m'', _, rfl, List.pairwise_cons.mpr ⟨fun k hk => ?_, hpair⟩, fun k hk => ?_, ?_⟩
        · exact lt_of_le_of_lt (hle k hk) hshort
        · rcases List.mem_cons.mp hk with rfl | hk
          · exact le_refl _
          · exact (hle k hk).trans hshort.le
        · rwa [htail]
      · rw [honce, ok_bind]
        refine ⟨_, _, rfl, by simp, by simp, fun _ => ⟨[], ?_, TcpSocket.holds_release h.excess⟩⟩
        rw [htail, List.drop_eq_nil_of_le hn.ge, tailOf, split_incomplete rfl]

/-! ## Runs -/

theorem tailOf_append {stream rest : List UInt8} (bs : List UInt8) (h : tailOf stream = some rest) :
    tailOf (stream ++ bs) = tailOf (rest ++ bs) := by
  rw [tailOf, split_append_of_some bs h]
  rfl

section

variable {answer : Answer σ} {s : TcpSocket σ} {stream rest : List UInt8} {own : Area}

/-- With a buffer of its own, a connection asks for at least one byte, and the buffer has room for all
that it asks for. -/
theorem TcpSocket.Holds.maxtoread (h : s.Holds rest) (hbuf : s.buf = some own) :
    1 ≤ s.maxtoread ∧ s.len + s.maxtoread ≤ sbsize := by
  have hown := h.buf
  rw [hbuf] at hown
  obtain ⟨-, -, hlt, hmax, -⟩ := hown
  have hsub : s.maxtoread = s.pktsize - s.len := by
    rw [TcpSocket.maxtoread, hbuf]
    dsimp only
    unfold sizeSub
    omega
  rw [hsub, sbsize]
  omega

theorem TcpSocket.Holds.length (h : s.Holds rest) (hbuf : s.buf = some own) : rest.length = s.len := by
  have hroom := (h.maxtoread hbuf).2
  have hown := h.buf
  rw [hbuf] at hown
  rw [← hown.1, List.length_take, own.2]
  omega

/-- Bytes that arrive are put behind those that the connection holds, and `process_buf` gets all of
them. -/
theorem tcpRecv_data (answer : Answer σ) {e : Event} {bs : List UInt8} (he : e.recv = .data bs)
    (hopen : s.isOpen = true) (hholds : s.Holds rest) :
    let got := bs.take s.maxtoread
    ∃ m buf area, m.At buf (rest ++ got) area ∧ m.sock.st = s.st ∧
      m.sock.buf.isSome = s.buf.isSome ∧
      tcpRecv answer s e =
        if got = [] then .ok (⟨[], []⟩, s.errorExit)
        else do
          let (m, lens) ←
            processBuf e.malloc answer ((rest ++ got).length + 1) m buf (rest ++ got).length
          return (⟨got, lens⟩, m.sock) := by
  intro got
  have hown := hholds.buf
  rw [tcpRecv, if_neg (not_not.mpr hopen), he]
  cases hbuf : s.buf with
  | none =>
    obtain rfl : rest = [] := by rwa [hbuf] at hown
    have hroom : 0 + got.length ≤ sbsize := by
      rw [List.length_take, TcpSocket.maxtoread, hbuf]
      dsimp only
      omega
    obtain ⟨static, hstore, hbytes⟩ := e.static.store_of_le hroom
    rw [Nat.zero_add, List.take_zero, List.nil_append] at hbytes
    refine ⟨⟨static, s⟩, .static, static, ⟨hopen, hholds.excess, rfl, hbytes, ?_⟩, rfl, ?_, ?_⟩
    · rw [hbuf]
      exact iff_of_false (by simp) (by simp)
    · rw [hbuf]
    · dsimp only
      rw [hstore, ok_bind]
      rfl
  | some own =>
    have hfits := (hholds.maxtoread hbuf).2
    have hlen := hholds.length hbuf
    have hroom : s.len + got.length ≤ sbsize := by
      rw [List.length_take]
      omega
    rw [hbuf] at hown
    obtain ⟨own', hstore, hbytes⟩ := own.store_of_le hroom
    rw [hown.1, ← hlen, ← List.length_append] at hbytes
    refine ⟨⟨e.static, { s with buf := some own', len := s.len + got.length }⟩, .own, own',
      ⟨hopen, hholds.excess, rfl, hbytes, iff_of_true rfl rfl⟩, rfl, rfl, ?_⟩
    dsimp only
    rw [if_neg (by omega), hstore, ok_bind, List.length_append, hlen]
    rfl

/-- Without bytes a connection stays as it is or ends. -/
theorem tcpRecv_other (answer : Answer σ) {e : Event} (he : ∀ bs, e.recv ≠ .data bs)
    (hopen : s.isOpen = true) (hholds : s.Holds rest) :
    tcpRecv answer s e = .ok (⟨[], []⟩, s) ∨ tcpRecv answer s e = .ok (⟨[], []⟩, s.errorExit) := by
  rw [tcpRecv, if_neg (not_not.mpr hopen)]
  cases hbuf : s.buf with
  | none =>
    cases hrecv : e.recv with
    | data bs => exact absurd hrecv (he bs)
    | eagain => exact .inl rfl
    | etimedout => exact .inl rfl
    | eof => exact .inr rfl
    | err => exact .inr rfl
  | some own =>
    have hfits := (hholds.maxtoread hbuf).2
    dsimp only
    rw [if_neg (by omega)]
    cases hrecv : e.recv with
    | data bs => exact absurd hrecv (he bs)
    | eagain => exact .inl rfl
    | etimedout => exact .inr rfl
    | eof => exact .inr rfl
    | err => exact .inr rfl

/-- One event keeps the tail of the stream. -/
theorem tcpRecv_spec (answer : Answer σ) (e : Event) (hopen : s.isOpen = true)
    (htail : tailOf stream = some rest) (hholds : s.Holds rest) :
    ∃ out s', tcpRecv answer s e = .ok (out, s') ∧ out.lens.Pairwise (· > ·) ∧
      (s'.isOpen = true →
        ∃ rest', tailOf (stream ++ out.bytes) = some rest' ∧ s'.Holds rest') := by
  have hsame : ∃ rest', tailOf (stream ++ []) = some rest' ∧ s.Holds rest' :=
    ⟨rest, by rw [List.append_nil, htail], hholds⟩
  have hexit : s.errorExit.isOpen = true →
      ∃ rest', tailOf (stream ++ []) = some rest' ∧ s.errorExit.Holds rest' := fun h => nomatch h
  by_cases he : ∃ bs, e.recv = .data bs
  · obtain ⟨bs, he⟩ := he
    obtain ⟨m, buf, area, hat, -, -, hrecv⟩ := tcpRecv_data answer he hopen hholds
    rw [hrecv]
    split_ifs with hgot
    · exact ⟨_, _, rfl, .nil, hexit⟩
    · obtain ⟨m', lens, hproc, hpair, -, hkeep⟩ := processBuf_spec e.malloc answer hat
        (fun hnil => hgot (List.append_eq_nil_iff.mp hnil).2) (Nat.lt_succ_self _)
      rw [hproc, ok_bind]
      exact ⟨_, _, rfl, hpair, by rwa [tailOf_append _ htail]⟩
  · rcases tcpRecv_other answer (not_exists.mp he) hopen hholds with hrecv | hrecv
    · exact ⟨_, _, hrecv, .nil, fun _ => hsame⟩
    · exact ⟨_, _, hrecv, .nil, hexit⟩

/-- Every run of events keeps the tail of the stream. -/
theorem run_spec (answer : Answer σ) (es : List Event)
    (h : s.isOpen = true → ∃ rest, tailOf stream = some rest ∧ s.Holds rest) :
    ∃ outs s', run (tcpRecv answer) s es = .ok (outs, s') ∧
      (∀ out ∈ outs, out.lens.Pairwise (· > ·)) ∧
      (s'.isOpen = true →
        ∃ rest, tailOf (stream ++ outs.flatMap Output.bytes) = some rest ∧ s'.Holds rest) := by
  induction es generalizing s stream with
  | nil => exact ⟨[], s, rfl, by simp, by simpa using h⟩
  | cons e es ih =>
    obtain ⟨out, s₁, hstep, hpair, h₁⟩ : ∃ out s₁, tcpRecv answer s e = .ok (out, s₁) ∧
        out.lens.Pairwise (· > ·) ∧ (s₁.isOpen = true →
          ∃ rest, tailOf (stream ++ out.bytes) = some rest ∧ s₁.Holds rest) := by
      by_cases hopen : s.isOpen = true
      · obtain ⟨rest, htail, hholds⟩ := h hopen
        exact tcpRecv_spec answer e hopen htail hholds
      · exact ⟨⟨[], []⟩, s, if_pos hopen, .nil, fun hopen' => absurd hopen' hopen⟩
    obtain ⟨outs, s₂, hrun, hpairs, h₂⟩ := ih h₁
    refine ⟨out :: outs, s₂, ?_, ?_, ?_⟩
    · rw [run, hstep, ok_bind]
      dsimp only
      rw [hrun, ok_bind]
      rfl
    · exact List.forall_mem_cons.mpr ⟨hpair, hpairs⟩
    · rwa [List.flatMap_cons, ← List.append_assoc]

end

/-! ## The lists of bytes -/

/-- The connection `c`, whose buffer is the list of the bytes written to it, is `s`. Of a closed
connection only the handler's state counts, and without a buffer its sizes are not read. -/
structure Reflects (c : Conn σ) (s : TcpSocket σ) : Prop where
  isOpen : c.isOpen = s.isOpen
  st : c.st = s.st
  excess : s.isOpen = true → c.excess = s.excess
  buf : s.isOpen = true → c.buf = s.buf.map fun own => own.1.take s.len
  sizes : s.isOpen = true → s.buf.isSome = true → c.len = s.len ∧ c.pktsize = s.pktsize

/-- An answer as a handler that does not fault. -/
def Answer.handler (answer : Answer σ) : Handler σ := fun st msg => .ok (answer st msg)

theorem Reflects.errorExit {c : Conn σ} {s : TcpSocket σ} (h : c.st = s.st) :
    Reflects c.errorExit s.errorExit :=
  ⟨rfl, h, nofun, nofun, nofun⟩

/-- The connection of the lists before `process_buf` has looked at the bytes. -/
structure Before (c : Conn σ) (s : TcpSocket σ) : Prop where
  isOpen : c.isOpen = true
  st : c.st = s.st
  excess : c.excess = 0
  buf : c.buf.isSome = s.buf.isSome

theorem Before.release {c : Conn σ} {s : TcpSocket σ} (h : Before c s) (hopen : s.isOpen = true)
    (hexcess : s.excess = 0) : Reflects c.release s.release := by
  have hbuf := h.buf
  unfold Conn.release TcpSocket.release
  rw [hbuf]
  split_ifs with hsome
  · exact ⟨h.isOpen.trans hopen.symm, h.st, fun _ => rfl, fun _ => rfl, nofun⟩
  · have hnone : s.buf = none := Option.not_isSome_iff_eq_none.mp hsome
    have hnone' : c.buf = none := Option.not_isSome_iff_eq_none.mp (hbuf ▸ hsome)
    refine ⟨h.isOpen.trans hopen.symm, h.st, fun _ => h.excess.trans hexcess.symm, fun _ => ?_,
      fun _ hsome' => absurd hsome' hsome⟩
    rw [hnone, hnone']
    rfl

theorem processBuf_reflects (malloc : Option Area) (answer : Answer σ) {fuel : ℕ} {m : Mem σ}
    {buf : BufPtr} {bs : List UInt8} {area : Area} {c : Conn σ} (h : m.At buf bs area)
    (hfuel : bs.length < fuel) (hc : Before c m.sock) :
    ∃ m' lens c', processBuf malloc answer fuel m buf bs.length = .ok (m', lens) ∧
      Moc.processBuf malloc.isSome answer.handler c bs = .ok c' ∧ Reflects c' m'.sock := by
  induction fuel generalizing m bs area c with
  | zero => omega
  | succ fuel ih =>
    rw [processBuf]
    cases hnext : serverFramer.next bs with
    | illegal =>
      rw [processOnce_illegal h hnext, processBuf_illegal hnext, ok_bind]
      exact ⟨_, _, _, rfl, rfl, .errorExit hc.st⟩
    | incomplete =>
      rcases processOnce_incomplete malloc answer h hnext with
        ⟨rfl, rfl, honce⟩ | ⟨own, hroom, hown, honce⟩
      · have hnone : c.buf = none := by
          have hbuf := h.own
          rw [← hc.buf] at hbuf
          simpa using hbuf
        rw [honce, ok_bind, Option.isSome_none, processBuf_noBuffer hnext hnone]
        exact ⟨_, _, _, rfl, rfl, .errorExit hc.st⟩
      · rw [← hc.buf] at hroom
        rw [honce, ok_bind, processBuf_kept hnext h.length_le hroom]
        refine ⟨_, _, _, rfl, rfl, hc.isOpen.trans h.isOpen.symm, hc.st,
          fun _ => hc.excess.trans h.excess.symm, fun _ => ?_, fun _ _ => ⟨rfl, rfl⟩⟩
        exact congrArg some hown.symm
    | frame n =>
      rcases hr : answer m.sock.st ((bs.take n).drop 4) with ⟨st, keep⟩
      have hr' : answer.handler c.st ((bs.take n).drop 4) = .ok (st, keep) := by
        rw [Answer.handler, hc.st, hr]
      rw [processBuf_frame hnext hc.excess, hr']
      rcases processOnce_frame malloc h hnext hr with
        ⟨rfl, excess, honce⟩ | ⟨rfl, hlt, m', area', honce, h', hst⟩ | ⟨rfl, hn, honce⟩
      · rw [honce, ok_bind]
        exact ⟨_, _, _, rfl, rfl, .errorExit rfl⟩
      · have hdrop : (bs.drop n).length = bs.length - n := List.length_drop
        rw [honce, ok_bind]
        dsimp only
        have hbefore : Before { c with len := bs.length - n, st } m'.sock := by
          refine ⟨hc.isOpen, hst.symm, hc.excess, hc.buf.trans (Bool.eq_iff_iff.mpr ?_)⟩
          rw [h.own, h'.own]
        have hshort := length_drop_lt hnext
        obtain ⟨m'', lens, c', hrest, hrest', hreflects⟩ := ih h' (by omega) hbefore
        rw [if_pos hlt, ← hdrop, hrest, ok_bind, hdrop, hrest']
        exact ⟨_, _, _, rfl, rfl, hreflects⟩
      · rw [honce, ok_bind]
        dsimp only
        rw [if_neg (by omega)]
        have hbefore : Before { c with st } { m.sock with st } :=
          ⟨hc.isOpen, rfl, hc.excess, hc.buf⟩
        exact ⟨_, _, _, rfl, rfl, hbefore.release h.isOpen h.excess⟩

/-- What `recv()` gives of an event. -/
def Event.received (e : Event) (s : TcpSocket σ) : Recv :=
  match e.recv with
  | .data bs => if bs.take s.maxtoread = [] then .eof else .data (bs.take s.maxtoread)
  | r => r

/-- The lists take the bytes behind those that they keep. -/
theorem Reflects.received {c : Conn σ} {s : TcpSocket σ} {rest got : List UInt8} (hc : Reflects c s)
    (hopen : s.isOpen = true) (hholds : s.Holds rest) (hroom : (rest ++ got).length ≤ sbsize)
    (malloc : Bool) (handle : Handler σ) :
    ∃ c₁, Moc.tcpRecv malloc handle c (.data got) = Moc.processBuf malloc handle c₁ (rest ++ got) ∧
      c₁.isOpen = true ∧ c₁.st = s.st ∧ c₁.excess = 0 ∧ c₁.buf.isSome = s.buf.isSome := by
  have hlists := hc.buf hopen
  have hisOpen : c.isOpen = true := hc.isOpen.trans hopen
  have hexcess : c.excess = 0 := (hc.excess hopen).trans hholds.excess
  rw [List.length_append] at hroom
  cases hbuf : s.buf with
  | none =>
    have hnone : c.buf = none := by rw [hlists, hbuf]; rfl
    have hrest : rest = [] := by simpa [hbuf] using hholds.buf
    refine ⟨c, ?_, hisOpen, hc.st, hexcess, by rw [hnone]; rfl⟩
    rw [Moc.tcpRecv, hnone]
    dsimp only
    rw [if_neg (by omega), hrest, List.nil_append]
  | some own =>
    have hrest : own.1.take s.len = rest := by
      have hown := hholds.buf
      rw [hbuf] at hown
      exact hown.1
    have hsome : c.buf = some rest := by rw [hlists, hbuf, ← hrest]; rfl
    have hsize : c.len = rest.length :=
      (hc.sizes hopen (by rw [hbuf]; rfl)).1.trans (hholds.length hbuf).symm
    refine ⟨{ c with buf := some (rest ++ got), len := c.len + got.length }, ?_, hisOpen, hc.st,
      hexcess, rfl⟩
    rw [Moc.tcpRecv, hsome]
    dsimp only
    rw [if_neg (by omega), if_neg (by omega), hsize, List.take_length]

/-- An event without bytes does the same to the lists. -/
theorem tcpRecv_reflects_other (answer : Answer σ) {e : Event} {c : Conn σ} {s : TcpSocket σ}
    {rest : List UInt8} (he : ∀ bs, e.recv ≠ .data bs) (hopen : s.isOpen = true)
    (hholds : s.Holds rest) (hc : Reflects c s) :
    ∃ out s' c', tcpRecv answer s e = .ok (out, s') ∧
      Moc.tcpRecv e.malloc.isSome answer.handler c (e.received s) = .ok c' ∧ Reflects c' s' := by
  unfold Moc.tcpRecv
  rw [tcpRecv, if_neg (not_not.mpr hopen), hc.buf hopen, Event.received]
  cases hbuf : s.buf with
  | none =>
    cases hrecv : e.recv with
    | data bs => exact absurd hrecv (he bs)
    | eagain => exact ⟨_, _, _, rfl, rfl, hc⟩
    | etimedout => exact ⟨_, _, _, rfl, rfl, hc⟩
    | eof => exact ⟨_, _, _, rfl, rfl, .errorExit hc.st⟩
    | err => exact ⟨_, _, _, rfl, rfl, .errorExit hc.st⟩
  | some own =>
    have hfits := (hholds.maxtoread hbuf).2
    dsimp only
    rw [if_neg (by omega)]
    cases hrecv : e.recv with
    | data bs => exact absurd hrecv (he bs)
    | eagain => exact ⟨_, _, _, rfl, rfl, hc⟩
    | etimedout => exact ⟨_, _, _, rfl, rfl, .errorExit hc.st⟩
    | eof => exact ⟨_, _, _, rfl, rfl, .errorExit hc.st⟩
    | err => exact ⟨_, _, _, rfl, rfl, .errorExit hc.st⟩

/-- An event does the same to the lists of bytes. -/
theorem tcpRecv_reflects (answer : Answer σ) {e : Event} {c : Conn σ} {s : TcpSocket σ}
    {rest : List UInt8} (hopen : s.isOpen = true) (hholds : s.Holds rest) (hc : Reflects c s) :
    ∃ out s' c', tcpRecv answer s e = .ok (out, s') ∧
      Moc.tcpRecv e.malloc.isSome answer.handler c (e.received s) = .ok c' ∧ Reflects c' s' := by
  by_cases he : ∃ bs, e.recv = .data bs
  · obtain ⟨bs, he⟩ := he
    obtain ⟨m, buf, area, hat, hst, hsome, hrecv⟩ := tcpRecv_data answer he hopen hholds
    rw [hrecv, Event.received, he]
    dsimp only
    by_cases hgot : bs.take s.maxtoread = []
    · rw [if_pos hgot, if_pos hgot]
      have hend : Moc.tcpRecv e.malloc.isSome answer.handler c .eof = .ok c.errorExit := by
        rw [Moc.tcpRecv]
        cases c.buf <;> rfl
      exact ⟨_, _, _, rfl, hend, .errorExit hc.st⟩
    · rw [if_neg hgot, if_neg hgot]
      obtain ⟨c₁, hrun, hisOpen, hst₁, hexcess, hsome₁⟩ :=
        hc.received hopen hholds hat.length_le e.malloc.isSome answer.handler
      have hbefore : Before c₁ m.sock :=
        ⟨hisOpen, hst₁.trans hst.symm, hexcess, hsome₁.trans hsome.symm⟩
      obtain ⟨m', lens, c', hproc, hproc', hreflects⟩ :=
        processBuf_reflects e.malloc answer hat (Nat.lt_succ_self _) hbefore
      rw [hproc, ok_bind, hrun]
      exact ⟨_, _, _, rfl, hproc', hreflects⟩
  · exact tcpRecv_reflects_other answer (not_exists.mp he) hopen hholds hc

/-- On every connection, for every stream, every cut of it and every answer to its messages: nothing is
read or written outside the blocks, each call that `process_buf` makes of itself has a smaller `len`, and
a buffer that an open connection has allocated holds the incomplete tail of the stream, which is shorter
than the message or the size word that it waits for. -/
theorem recv_invariant (answer : Answer σ) (st : σ) (es : List Event) :
    ∃ outs s, run (tcpRecv answer) (.new st) es = .ok (outs, s) ∧
      (∀ out ∈ outs, out.lens.Pairwise (· > ·)) ∧
      (s.isOpen = true → ∀ own, s.buf = some own →
        0 < s.len ∧ s.len < s.pktsize ∧ s.pktsize ≤ 65536 ∧ s.excess = 0 ∧
        1 ≤ s.maxtoread ∧ s.len + s.maxtoread ≤ sbsize ∧
        tailOf (outs.flatMap Output.bytes) = some (own.1.take s.len) ∧
        s.pktsize = if s.len < 4 then 4 else word (own.1.take s.len) 0) := by
  have hnew : tailOf [] = some [] := by rw [tailOf, split_incomplete rfl]
  obtain ⟨outs, s, hrun, hpair, hkeep⟩ := run_spec answer es fun _ =>
    ⟨[], hnew, show (TcpSocket.new st).Holds [] from ⟨rfl, rfl⟩⟩
  refine ⟨outs, s, hrun, hpair, fun hopen own hbuf => ?_⟩
  obtain ⟨rest, htail, hholds⟩ := hkeep hopen
  have hlen := hholds.length hbuf
  have hown := hholds.buf
  rw [hbuf] at hown
  obtain ⟨hbytes, hpos, hlt, hmax, hsize⟩ := hown
  refine ⟨hpos, hlt, hmax, hholds.excess, (hholds.maxtoread hbuf).1, (hholds.maxtoread hbuf).2,
    by rw [hbytes]; exact htail, ?_⟩
  rw [hsize, totaltoget, hbytes, hlen]
  split_ifs <;> omega

end Moc.RecvBuffers
