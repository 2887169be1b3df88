import Moc.Client.Receive
import Moc.Client.Sending
import Mathlib.Data.Stream.Init

/-!
# Reading and writing a number of bytes

`srecv` and `ssend` of `client/internal.c` are one loop around `recv()` and `send()`, with a signed
offset, an unsigned count, and early returns that look at the result of the last call alone. `Calls`
says what calls the loop makes and `Outcome` how it may end; `loop_spec` is the rule for both
functions, whose calls move bytes into a block or out of one.
-/

open Memory Socket

namespace Moc.Transfer

/-- An object of C, which has less than `2^63` bytes. -/
structure Object where
  bytes : List UInt8
  length_lt : bytes.length < 2^63

/-- A pointer to `n` bytes of an object: the position it points to. -/
def Object.range (b : Object) (pos : ℤ) (n : ℕ) : Except Fault ℕ :=
  if 0 ≤ pos ∧ pos + n ≤ b.bytes.length then .ok pos.toNat else .error .outOfBounds

/-- Bytes written at a position of an object. -/
def Object.write (b : Object) (pos : ℕ) (bs : List UInt8) : Except Fault Object :=
  if h : pos + bs.length ≤ b.bytes.length then
    .ok ⟨b.bytes.take pos ++ bs ++ b.bytes.drop (pos + bs.length), by
      have hlt := b.length_lt
      simp only [List.length_append, List.length_take, List.length_drop]
      omega⟩
  else .error .outOfBounds

/-- What the calls of `recv()`, or those of `send()`, on a descriptor return: the number of bytes moved,
which is at most the number asked for, or `-1`. -/
structure Kernel (σ : Type) where
  call : σ → ℕ → ℤ × σ
  ge : ∀ s n, -1 ≤ (call s n).1
  le : ∀ s n, (call s n).1 ≤ n

/-- `(ssize_t)n` -/
def ssizeT (n : ℕ) : ℤ := (n : ℤ).bmod (2^64)

theorem Object.range_of_le {b : Object} {pos n : ℕ} (h : pos + n ≤ b.bytes.length) :
    b.range pos n = .ok pos := by
  rw [range, if_pos ⟨by omega, by omega⟩, Int.toNat_natCast]

/-- Writing behind `front` replaces the first bytes of `rest`. -/
theorem Object.write_append {b : Object} {front rest bs : List UInt8} (hb : b.bytes = front ++ rest)
    (hbs : bs.length ≤ rest.length) :
    ∃ b', b.write front.length bs = .ok b' ∧ b'.bytes = front ++ bs ++ rest.drop bs.length := by
  have hfits : front.length + bs.length ≤ b.bytes.length := by
    rw [hb, List.length_append]
    omega
  rw [write, dif_pos hfits]
  refine ⟨_, rfl, ?_⟩
  dsimp only
  rw [hb, List.take_left, List.drop_append, List.drop_eq_nil_of_le (by omega), List.nil_append,
    Nat.add_sub_cancel_left]

variable {σ ρ : Type}

/-- The loop of `srecv` and `ssend`. A call for `n` bytes at `buf + c` that returns `rv` does
`move c n rv` to what the bytes come from and go to. -/
def loop (K : Kernel σ) (move : ℤ → ℕ → ℤ → ρ → Except Fault ρ) (count : ℕ) :
    ℕ → ℤ → σ → ρ → Except Fault (ℤ × σ × ρ)
  | 0, _, _, _ => .error .diverges
  | fuel + 1, c, s, r =>
    if sizeT c < count then do
      let n := sizeSub count (sizeT c)
      let (rv, s) := K.call s n
      let r ← move c n rv r
      if sizeT rv = count then return (ssizeT count, s, r)
      else if rv < 0 then return (rv, s, r)
      else if rv = 0 then return (c, s, r)
      else if 2^63 ≤ c + rv then .error .overflow
      else loop K move count fuel (c + rv) s r
    else return (ssizeT count, s, r)

/-- `recv()` of at most `n` bytes at `buf + c`: the first `rv` bytes of the stream go there. -/
def received (off : ℕ) (c : ℤ) (n : ℕ) (rv : ℤ) (r : Stream' UInt8 × Object) :
    Except Fault (Stream' UInt8 × Object) := do
  let pos ← r.2.range (off + c) n
  let buf ← r.2.write pos (r.1.take rv.toNat)
  return (r.1.drop rv.toNat, buf)

/-- `srecv` of `count` bytes into `buf`, at `off` of its object, from a connection on which `stream` is
to come. -/
def srecv (K : Kernel σ) (s : σ) (stream : Stream' UInt8) (buf : Object) (off count : ℕ) :
    Except Fault (ℤ × σ × Stream' UInt8 × Object) :=
  loop K (received off) count (count + 1) 0 s (stream, buf)

/-- `send()` of `n` bytes at `buf + c`: the first `rv` of them are accepted. -/
def accepted (buf : Object) (off : ℕ) (c : ℤ) (n : ℕ) (rv : ℤ) (sent : List UInt8) :
    Except Fault (List UInt8) := do
  let pos ← buf.range (off + c) n
  return sent ++ (buf.bytes.drop pos).take rv.toNat

/-- `ssend` of `count` bytes of `buf`, at `off` of its object, on a connection that has accepted
`sent`. -/
def ssend (K : Kernel σ) (s : σ) (sent : List UInt8) (buf : Object) (off count : ℕ) :
    Except Fault (ℤ × σ × List UInt8) :=
  loop K (accepted buf off) count (count + 1) 0 s sent

/-! ## The calls -/

/-- Calls that move bytes, `c` of them in all, each for what is left of `count`. -/
inductive Calls (K : Kernel σ) (count : ℕ) (s : σ) : ℕ → σ → Prop where
  | none : Calls K count s 0 s
  | more {c : ℕ} {s₁ s₂ : σ} {rv : ℕ} (calls : Calls K count s c s₁)
    (call : K.call s₁ (count - c) = ((rv : ℤ), s₂)) (pos : 0 < rv) : Calls K count s (c + rv) s₂

/-- How `count` bytes may be moved: all of them, or `c` of them when the next call returned zero or
failed. The return value is `rv`. -/
inductive Outcome (K : Kernel σ) (count : ℕ) (s : σ) : ℕ → ℤ → σ → Prop where
  | all {s' : σ} (calls : Calls K count s count s') : Outcome K count s count count s'
  | ended {c : ℕ} {s₁ s' : σ} (lt : c < count) (calls : Calls K count s c s₁)
    (call : K.call s₁ (count - c) = (0, s')) : Outcome K count s c c s'
  | failed {c : ℕ} {s₁ s' : σ} (lt : c < count) (calls : Calls K count s c s₁)
    (call : K.call s₁ (count - c) = (-1, s')) : Outcome K count s c (-1) s'

section
variable {K : Kernel σ} {count c fuel : ℕ} {s s' s₁ : σ} {rv : ℤ} {r : ρ}
  {move : ℤ → ℕ → ℤ → ρ → Except Fault ρ} {J : ℕ → ρ → Prop}

/-- No more is moved than was asked for. -/
theorem Calls.le (h : Calls K count s c s') : c ≤ count := by
  induction h with
  | none => exact Nat.zero_le count
  | @more c s₁ _ _ _ call _ ih =>
    have hle := K.le s₁ (count - c)
    rw [call] at hle
    dsimp only at hle
    omega

theorem Outcome.le (h : Outcome K count s c rv s') : c ≤ count := by
  cases h with
  | all calls => exact calls.le
  | ended lt _ _ => exact lt.le
  | failed lt _ _ => exact lt.le

theorem ssizeT_natCast {n : ℕ} (hn : n < 2^63) : ssizeT n = n := by
  have hlt : (n : ℤ) < 2^63 := by exact_mod_cast hn
  exact Int.bmod_eq_of_le (by norm_num) (by norm_num; omega)

/-- The loop after `c` bytes, when moving the bytes of a call keeps what `J` says of all bytes so far:
it ends in one of the ways it may. -/
theorem loop_spec (hcount : count < 2^63)
    (hmove : ∀ c rv r, c < count → rv ≤ ((count - c : ℕ) : ℤ) → J c r →
      ∃ r', move c (count - c) rv r = .ok r' ∧ J (c + rv.toNat) r')
    (hcalls : Calls K count s c s₁) (hJ : J c r) (hfuel : count - c < fuel) :
    ∃ c' rv s' r', loop K move count fuel c s₁ r = .ok (rv, s', r') ∧ Outcome K count s c' rv s' ∧
      J c' r' := by
  induction fuel generalizing c s₁ r with
  | zero => omega
  | succ fuel ih =>
    have hle := hcalls.le
    have hsize : sizeT c = c := sizeT_natCast (by omega)
    rw [loop, hsize]
    by_cases hlt : c < count
    · have hsub : sizeSub count c = count - c := by
        unfold sizeSub
        omega
      rcases hcall : K.call s₁ (count - c) with ⟨rv, s₂⟩
      have hge := K.ge s₁ (count - c)
      have hrv := K.le s₁ (count - c)
      rw [hcall] at hge hrv
      obtain ⟨r', hr', hJ'⟩ := hmove c rv r hlt hrv hJ
      rw [if_pos hlt]
      simp only [hsub, hcall, hr', ok_bind]
      rcases lt_trichotomy rv 0 with hneg | rfl | hpos
      · obtain rfl : rv = -1 := by dsimp only at hge; omega
        have hall : sizeT (-1) ≠ count := by rw [show sizeT (-1) = 2^64 - 1 from rfl]; omega
        rw [if_neg hall, if_pos hneg]
        exact ⟨c, -1, s₂, r', rfl, .failed hlt hcalls hcall, hJ'⟩
      · have hall : sizeT 0 ≠ count := by rw [show sizeT 0 = 0 from rfl]; omega
        rw [if_neg hall, if_neg (lt_irrefl 0), if_pos rfl]
        exact ⟨c, c, s₂, r', rfl, .ended hlt hcalls hcall, hJ'⟩
      · obtain ⟨n, rfl⟩ := Int.eq_ofNat_of_zero_le hpos.le
        have hn : n ≤ count - c := Int.ofNat_le.mp hrv
        have hmore : Calls K count s (c + n) s₂ := hcalls.more hcall (by omega)
        rw [sizeT_natCast (by omega)]
        rw [Int.toNat_natCast] at hJ'
        by_cases hall : n = count
        · -- The first call has moved all of them.
          obtain rfl : c = 0 := by omega
          rw [zero_add, hall] at hmore hJ'
          rw [if_pos hall, ssizeT_natCast hcount]
          exact ⟨count, count, s₂, r', rfl, .all hmore, hJ'⟩
        · rw [if_neg hall, if_neg (by omega), if_neg hpos.ne', if_neg (by omega)]
          exact ih hmore hJ' (by omega)
    · obtain rfl : c = count := by omega
      rw [if_neg hlt, ssizeT_natCast hcount]
      exact ⟨c, c, s₁, r, rfl, .all hcalls, hJ⟩

/-- What the return value says of the bytes moved. -/
theorem Outcome.eq_count_iff (h : Outcome K count s c rv s') : rv = count ↔ c = count := by
  cases h with
  | all _ => simp
  | ended lt _ _ => exact Int.ofNat_inj
  | failed lt _ _ => exact iff_of_false (by omega) lt.ne

end

/-! ## `srecv` -/

section Srecv

variable {K : Kernel σ} {s : σ} {stream : Stream' UInt8} {buf : Object} {off count : ℕ}

/-- The bytes of a buffer up to those received so far, and those behind them. -/
theorem length_received {buf : List UInt8} {c : ℕ} (stream : Stream' UInt8)
    (hfits : off + count ≤ buf.length) (hc : c ≤ count) :
    (buf.take off ++ stream.take c).length = off + c ∧ count - c ≤ (buf.drop (off + c)).length := by
  rw [List.length_append, List.length_take, Stream'.length_take, List.length_drop]
  omega

/-- What `srecv` has done to the connection and to its buffer after `c` bytes. -/
structure Receiving (stream : Stream' UInt8) (buf : Object) (off c : ℕ)
    (r : Stream' UInt8 × Object) : Prop where
  stream_eq : r.1 = stream.drop c
  bytes_eq : r.2.bytes = buf.bytes.take off ++ stream.take c ++ buf.bytes.drop (off + c)

/-- Moving the bytes of one `recv()`. -/
theorem Receiving.received {c : ℕ} {rv : ℤ} {r : Stream' UInt8 × Object}
    (h : Receiving stream buf off c r) (hfits : off + count ≤ buf.bytes.length) (hlt : c < count)
    (hrv : rv ≤ ((count - c : ℕ) : ℤ)) :
    ∃ r', Transfer.received off c (count - c) rv r = .ok r' ∧
      Receiving stream buf off (c + rv.toNat) r' := by
  have hbytes := h.bytes_eq
  obtain ⟨hfront, hrest⟩ := length_received stream hfits hlt.le
  have hrange : r.2.range ((off + c : ℕ) : ℤ) (count - c) = .ok (off + c) := by
    refine Object.range_of_le ?_
    rw [hbytes, List.length_append]
    omega
  have hroom : (r.1.take rv.toNat).length ≤ (buf.bytes.drop (off + c)).length := by
    rw [Stream'.length_take]
    omega
  obtain ⟨b, hb, hbytes'⟩ := Object.write_append hbytes hroom
  rw [hfront] at hb
  rw [Nat.cast_add] at hrange
  rw [Transfer.received, hrange, ok_bind, hb]
  refine ⟨_, rfl, ?_, ?_⟩
  · rw [h.stream_eq, Stream'.drop_drop]
  · dsimp only
    rw [hbytes', h.stream_eq, Stream'.length_take, List.drop_drop, Stream'.take_add, Nat.add_assoc,
      List.append_assoc (buf.bytes.take off)]

/-- `srecv` puts what it receives at `buf` and changes nothing else. -/
theorem srecv_spec (K : Kernel σ) (s : σ) (stream : Stream' UInt8)
    (hfits : off + count ≤ buf.bytes.length) :
    ∃ c rv s' r, srecv K s stream buf off count = .ok (rv, s', r) ∧ Outcome K count s c rv s' ∧
      Receiving stream buf off c r := by
  have hlt := buf.length_lt
  refine loop_spec (by omega) (fun c rv r hc hrv h => h.received hfits hc hrv) .none ⟨rfl, ?_⟩
    (by omega)
  rw [Stream'.take_zero, List.append_nil, Nat.add_zero, List.take_append_drop]

end Srecv

/-! ## `ssend` -/

section Ssend

variable {K : Kernel σ} {s : σ} {sent : List UInt8} {buf : Object} {off count : ℕ}

/-- Moving the bytes of one `send()`. -/
theorem accepted_eq {c : ℕ} {rv : ℤ} (hfits : off + count ≤ buf.bytes.length) (hlt : c < count) :
    accepted buf off c (count - c) rv (sent ++ (buf.bytes.drop off).take c) =
      .ok (sent ++ (buf.bytes.drop off).take (c + rv.toNat)) := by
  have hrange : buf.range ((off + c : ℕ) : ℤ) (count - c) = .ok (off + c) :=
    Object.range_of_le (by omega)
  rw [Nat.cast_add] at hrange
  rw [accepted, hrange, ok_bind, List.append_assoc, List.take_add, List.drop_drop]
  rfl

/-- `ssend` sends what lies at `buf`. -/
theorem ssend_spec (K : Kernel σ) (s : σ) (sent : List UInt8)
    (hfits : off + count ≤ buf.bytes.length) :
    ∃ c rv s', ssend K s sent buf off count =
        .ok (rv, s', sent ++ (buf.bytes.drop off).take c) ∧ Outcome K count s c rv s' := by
  have hlt := buf.length_lt
  have hmove : ∀ (c : ℕ) rv r, c < count → rv ≤ ((count - c : ℕ) : ℤ) →
      r = sent ++ (buf.bytes.drop off).take c → ∃ r', accepted buf off c (count - c) rv r = .ok r' ∧
        r' = sent ++ (buf.bytes.drop off).take (c + rv.toNat) := by
    rintro c rv r hc - rfl
    exact ⟨_, accepted_eq hfits hc, rfl⟩
  obtain ⟨c, rv, s', r, hloop, hout, rfl⟩ := loop_spec (K := K) (s := s) (by omega) hmove .none
    (List.append_nil sent).symm (Nat.lt_succ_self count)
  exact ⟨c, rv, s', hloop, hout⟩

end Ssend

/-! ## The calls by a script -/

section Script

/-- The bytes that a script still has, and zeros behind them. -/
def scriptBytes : List Event → List UInt8
  | [] => []
  | .data bs :: s => bs ++ scriptBytes s
  | .eof :: s => scriptBytes s
  | .err _ :: s => scriptBytes s

def streamOf (s : Sock) : Stream' UInt8 := scriptBytes s.script ++ₛ Stream'.const 0

/-- The bytes received are the first of those that a script still has. -/
theorem scriptBytes_recv {s s' : Sock} {n : ℕ} {r : Option (List UInt8)} (h : s.recv n = (r, s')) :
    (r.getD []).length ≤ n ∧ scriptBytes s.script = r.getD [] ++ scriptBytes s'.script := by
  unfold Sock.recv at h
  split_ifs at h
  · match hs : s.script with
    | [] =>
      simp only [hs, Prod.mk.injEq] at h
      simp [← h.1, ← h.2, scriptBytes]
    | .data bs :: rest =>
      simp only [hs, Prod.mk.injEq] at h
      rw [← h.1, ← h.2]
      refine ⟨List.length_take_le n bs, ?_⟩
      dsimp only [Option.getD_some]
      split_ifs with hle
      · rw [scriptBytes, List.take_of_length_le hle]
      · rw [scriptBytes, scriptBytes, ← List.append_assoc, List.take_append_drop]
    | .eof :: rest =>
      simp only [hs, Prod.mk.injEq] at h
      simp [← h.1, ← h.2, hs]
    | .err e :: rest =>
      simp only [hs, Prod.mk.injEq] at h
      simp [← h.1, ← h.2, scriptBytes]
  · obtain ⟨rfl, rfl⟩ := Prod.mk.inj h
    exact ⟨Nat.zero_le n, rfl⟩

theorem streamOf_recv {s s' : Sock} {n : ℕ} {bs : List UInt8} (h : s.recv n = (some bs, s')) :
    (streamOf s).take bs.length = bs ∧ streamOf s' = (streamOf s).drop bs.length := by
  have hbytes : streamOf s = bs ++ₛ streamOf s' := by
    rw [streamOf, (scriptBytes_recv h).2, Stream'.append_append_stream]
    rfl
  rw [hbytes, Stream'.drop_append_stream]
  refine ⟨?_, rfl⟩
  rw [Stream'.take_append_of_le_length (h := le_refl bs.length), List.take_length]

/-- `recv()` on a socket. -/
def sockKernel : Kernel Sock where
  call s n := ((s.recv n).1.elim (-1) fun bs => bs.length, (s.recv n).2)
  ge s n := by
    cases (s.recv n).1 with
    | none => exact le_refl _
    | some bs =>
      dsimp only [Option.elim_some]
      omega
  le s n := by
    rcases h : s.recv n with ⟨_ | bs, s'⟩
    · dsimp only [Option.elim_none]
      omega
    · exact Int.ofNat_le.mpr (scriptBytes_recv h).1

/-- `send()` by a list of results. -/
def sendKernel : Kernel (List SendRv) where
  call
    | [], n => (n, [])
    | .failed _ :: rs, _ => (-1, rs)
    | .took k :: rs, n => ((min k n : ℕ), rs)
  ge rs n := by
    match rs with
    | [] => dsimp only; omega
    | .failed _ :: rs => exact le_refl _
    | .took k :: rs => dsimp only; omega
  le rs n := by
    match rs with
    | [] => exact le_refl _
    | .failed _ :: rs => dsimp only; omega
    | .took k :: rs => dsimp only; omega

variable {count c : ℕ}

theorem ssend_done (count : ℕ) (rs : List SendRv) : Moc.ssend count count rs = ⟨count, 0, count⟩ := by
  cases rs with
  | nil => rfl
  | cons r rs => cases r <;> rw [Moc.ssend, if_neg (lt_irrefl count)]

/-- A `send()` that takes some bytes. -/
theorem ssend_took {rs rs' : List SendRv} {n : ℕ} (hlt : c < count)
    (hcall : sendKernel.call rs (count - c) = ((n : ℤ), rs')) (hpos : 0 < n) :
    Moc.ssend count c rs = Moc.ssend count (c + n) rs' := by
  match rs with
  | [] =>
    obtain ⟨-, rfl⟩ := Prod.mk.inj hcall
    rfl
  | .failed errno :: rs =>
    have hn : (-1 : ℤ) = n := (Prod.mk.inj hcall).1
    omega
  | .took k :: rs =>
    obtain ⟨hn, rfl⟩ := Prod.mk.inj hcall
    obtain rfl : min k (count - c) = n := Int.ofNat_inj.mp hn
    rw [Moc.ssend, if_pos hlt]
    dsimp only
    by_cases hall : min k (count - c) = count
    · rw [if_pos hall, show c + min k (count - c) = count by omega, ssend_done]
    · rw [if_neg hall, if_neg hpos.ne']

/-- A `send()` that takes none. -/
theorem ssend_took_zero {rs rs' : List SendRv} (hlt : c < count)
    (hcall : sendKernel.call rs (count - c) = (0, rs')) : Moc.ssend count c rs = ⟨c, 0, c⟩ := by
  match rs with
  | [] =>
    have hn : ((count - c : ℕ) : ℤ) = 0 := (Prod.mk.inj hcall).1
    omega
  | .failed errno :: rs =>
    have hn : (-1 : ℤ) = 0 := (Prod.mk.inj hcall).1
    omega
  | .took k :: rs =>
    have hn : ((min k (count - c) : ℕ) : ℤ) = 0 := (Prod.mk.inj hcall).1
    have hn' : min k (count - c) = 0 := by omega
    rw [Moc.ssend, if_pos hlt]
    dsimp only
    rw [hn', if_neg (by omega), if_pos rfl]

/-- A `send()` that fails. -/
theorem ssend_failed {rs rs' : List SendRv} (hlt : c < count)
    (hcall : sendKernel.call rs (count - c) = (-1, rs')) :
    ∃ errno, Moc.ssend count c rs = ⟨-1, errno, c⟩ := by
  match rs with
  | [] =>
    have hn : ((count - c : ℕ) : ℤ) = -1 := (Prod.mk.inj hcall).1
    omega
  | .failed errno :: rs => exact ⟨errno, by rw [Moc.ssend, if_pos hlt]⟩
  | .took k :: rs =>
    have hn : ((min k (count - c) : ℕ) : ℤ) = -1 := (Prod.mk.inj hcall).1
    omega

/-- After the calls that move bytes, the loop of `Moc.ssend` goes on with the rest of the list. -/
theorem Calls.ssend_eq {rs rs' : List SendRv} (h : Calls sendKernel count rs c rs') :
    Moc.ssend count 0 rs = Moc.ssend count c rs' := by
  induction h with
  | none => rfl
  | @more c rs₁ rs₂ n _ call pos ih =>
    have hle := sendKernel.le rs₁ (count - c)
    rw [call] at hle
    exact ih.trans (ssend_took (by dsimp only at hle; omega) call pos)

/-- `Moc.ssend` is `ssend` on a list of results. -/
theorem ssend_eq {buf : Object} {off : ℕ} (hfits : off + count ≤ buf.bytes.length)
    (rs : List SendRv) (sent : List UInt8) :
    ∃ rs', ssend sendKernel rs sent buf off count = .ok ((Moc.ssend count 0 rs).rv, rs',
      sent ++ (buf.bytes.drop off).take (Moc.ssend count 0 rs).taken) := by
  obtain ⟨c, rv, rs', hssend, hout⟩ := ssend_spec sendKernel rs sent hfits
  refine ⟨rs', ?_⟩
  rw [hssend]
  cases hout with
  | all calls => rw [calls.ssend_eq, ssend_done]
  | ended lt calls call => rw [calls.ssend_eq, ssend_took_zero lt call]
  | failed lt calls call =>
    obtain ⟨errno, heq⟩ := ssend_failed lt call
    rw [calls.ssend_eq, heq]

/-- A `recv()` that returns some bytes. -/
theorem srecv_some {s s' : Sock} {front rest : List UInt8} {off n : ℕ} (hlt : c < count)
    (hfront : front.length = off + c) (hrest : count - c ≤ rest.length)
    (hcall : sockKernel.call s (count - c) = ((n : ℤ), s')) :
    streamOf s' = (streamOf s).drop n ∧
      Moc.srecv s (front ++ rest) off count c = if n = 0 then .ok (some c, s', front ++ rest)
        else Moc.srecv s' (front ++ (streamOf s).take n ++ rest.drop n) off count (c + n) := by
  rcases hrecv : s.recv (count - c) with ⟨_ | bs, s₁⟩
  · have hn : (-1 : ℤ) = n := by simpa [sockKernel, hrecv] using congrArg Prod.fst hcall
    omega
  · obtain ⟨hn, rfl⟩ : bs.length = n ∧ s₁ = s' := by simpa [sockKernel, hrecv] using hcall
    have hle := (scriptBytes_recv hrecv).1
    obtain ⟨htake, hdrop⟩ := streamOf_recv hrecv
    dsimp only [Option.getD_some] at hle
    subst hn
    refine ⟨hdrop, ?_⟩
    rw [Moc.srecv, if_pos hlt, hrecv]
    dsimp only
    rw [store_append hfront.symm (by omega), htake]
    dsimp only
    by_cases hbs : bs.length = 0
    · obtain rfl := List.eq_nil_of_length_eq_zero hbs
      simp
    · rw [if_neg hbs, if_neg hbs]

/-- A `recv()` that fails. -/
theorem srecv_none {s s' : Sock} (buf : List UInt8) (off : ℕ) (hlt : c < count)
    (hcall : sockKernel.call s (count - c) = (-1, s')) :
    Moc.srecv s buf off count c = .ok (none, s', buf) := by
  rcases hrecv : s.recv (count - c) with ⟨_ | bs, s₁⟩
  · obtain rfl : s₁ = s' := by simpa [sockKernel, hrecv] using hcall
    rw [Moc.srecv, if_pos hlt, hrecv]
  · have hn : (bs.length : ℤ) = -1 := by simpa [sockKernel, hrecv] using congrArg Prod.fst hcall
    omega

/-- After the calls that move bytes, the loop of `Moc.srecv` goes on with the bytes in its buffer. -/
theorem Calls.srecv_eq {s s' : Sock} {buf : List UInt8} {off : ℕ} (h : Calls sockKernel count s c s')
    (hfits : off + count ≤ buf.length) :
    streamOf s' = (streamOf s).drop c ∧ Moc.srecv s buf off count 0 =
      Moc.srecv s' (buf.take off ++ (streamOf s).take c ++ buf.drop (off + c)) off count c := by
  induction h with
  | none => simp
  | @more c s₁ s₂ n calls call pos ih =>
    obtain ⟨hstream, heq⟩ := ih
    have hle := (calls.more call pos).le
    obtain ⟨hfront, hrest⟩ := length_received (c := c) (streamOf s) hfits (by omega)
    obtain ⟨hstream', heq'⟩ := srecv_some (by omega) hfront hrest call
    rw [hstream, Stream'.drop_drop] at hstream'
    refine ⟨hstream', ?_⟩
    calc Moc.srecv s buf off count 0
      _ = Moc.srecv s₁ (buf.take off ++ (streamOf s).take c ++ buf.drop (off + c)) off count c := heq
      _ = Moc.srecv s₂ (buf.take off ++ (streamOf s).take c ++ ((streamOf s).drop c).take n ++
            (buf.drop (off + c)).drop n) off count (c + n) := by rw [heq', if_neg pos.ne', hstream]
      _ = Moc.srecv s₂ (buf.take off ++ (streamOf s).take (c + n) ++ buf.drop (off + (c + n))) off
            count (c + n) := by
        rw [List.drop_drop, Stream'.take_add, Nat.add_assoc, List.append_assoc (buf.take off)]

/-- `Moc.srecv` is `srecv` on a socket. -/
theorem srecv_eq {buf : Object} {off : ℕ} (hfits : off + count ≤ buf.bytes.length) (s : Sock) :
    ∃ t s' stream' buf', Moc.srecv s buf.bytes off count 0 = .ok (t, s', buf'.bytes) ∧
      srecv sockKernel s (streamOf s) buf off count =
        .ok (t.elim (-1) fun n => n, s', stream', buf') := by
  obtain ⟨c, rv, s', r, hsrecv, hout, hr⟩ := srecv_spec sockKernel s (streamOf s) hfits
  rw [hsrecv]
  cases hout with
  | all calls =>
    refine ⟨some count, s', r.1, r.2, ?_, rfl⟩
    rw [(calls.srecv_eq hfits).2, Moc.srecv, if_neg (lt_irrefl count), hr.bytes_eq]
  | @ended c s₁ s' lt calls call =>
    refine ⟨some c, s', r.1, r.2, ?_, rfl⟩
    obtain ⟨hfront, hrest⟩ := length_received (streamOf s) hfits lt.le
    rw [(calls.srecv_eq hfits).2, (srecv_some (n := 0) lt hfront hrest call).2, if_pos rfl, hr.bytes_eq]
  | failed lt calls call =>
    refine ⟨none, s', r.1, r.2, ?_, rfl⟩
    rw [(calls.srecv_eq hfits).2, srecv_none _ _ lt call, hr.bytes_eq]

end Script

/-! ## Both functions -/

/-- `srecv` and `ssend` move the bytes of the stream and of the buffer in order, and return `count` only
when they have moved all of them, a smaller number only at a call that returned zero after so many
bytes, and `-1` otherwise. -/
theorem transfer_exact {σ : Type} (recv send : Kernel σ) (s : σ) (stream : Stream' UInt8)
    (sent : List UInt8) {buf : Object} {off count : ℕ} (hfits : off + count ≤ buf.bytes.length) :
    (∃ c rv s' stream' buf',
      srecv recv s stream buf off count = .ok (rv, s', stream', buf') ∧
      Outcome recv count s c rv s' ∧ stream' = stream.drop c ∧
      buf'.bytes = buf.bytes.take off ++ stream.take c ++ buf.bytes.drop (off + c) ∧
      (rv = count → (buf'.bytes.drop off).take count = stream.take count)) ∧
    ∃ c rv s' sent', ssend send s sent buf off count = .ok (rv, s', sent') ∧
      Outcome send count s c rv s' ∧ sent' = sent ++ (buf.bytes.drop off).take c ∧
      (rv = count → sent' = sent ++ (buf.bytes.drop off).take count) := by
  constructor
  · obtain ⟨c, rv, s', r, hrecv, hout, hr⟩ := srecv_spec recv s stream hfits
    refine ⟨c, rv, s', r.1, r.2, hrecv, hout, hr.stream_eq, hr.bytes_eq, fun hall => ?_⟩
    obtain rfl := hout.eq_count_iff.mp hall
    have hfront : (buf.bytes.take off).length = off := List.length_take_of_le (by omega)
    rw [hr.bytes_eq, List.append_assoc, List.drop_left' hfront,
      List.take_left' (Stream'.length_take _ _)]
  · obtain ⟨c, rv, s', hsend, hout⟩ := ssend_spec send s sent hfits
    refine ⟨c, rv, s', _, hsend, hout, rfl, fun hall => ?_⟩
    rw [hout.eq_count_iff.mp hall]

/-- An object of four bytes. -/
def fourBytes : Object := ⟨[1, 2, 3, 4], by decide⟩

/-- The two bytes in the middle, received and sent with two calls each. -/
theorem transfer_fourBytes :
    (∃ s' stream' buf', srecv sendKernel [.took 1] (Stream'.const 7) fourBytes 1 2 =
        .ok (2, s', stream', buf') ∧ (buf'.bytes.drop 1).take 2 = [7, 7]) ∧
      ∃ s', ssend sendKernel [.took 1] [] fourBytes 1 2 = .ok (2, s', [2, 3]) := by
  obtain ⟨⟨_, rv, s', stream', buf', hrecv, -, -, -, hall⟩, _, rv', s'', _, hsend, -, -, hall'⟩ :=
    transfer_exact sendKernel sendKernel [.took 1] (Stream'.const 7) []
      (show 1 + 2 ≤ fourBytes.bytes.length by decide)
  have hrv : (srecv sendKernel [.took 1] (Stream'.const 7) fourBytes 1 2).map Prod.fst = .ok 2 := rfl
  have hrv' : (ssend sendKernel [.took 1] [] fourBytes 1 2).map Prod.fst = .ok 2 := rfl
  rw [hrecv] at hrv
  rw [hsend] at hrv'
  obtain rfl : rv = 2 := Except.ok.inj hrv
  obtain rfl : rv' = 2 := Except.ok.inj hrv'
  exact ⟨⟨s', stream', buf', hrecv, hall rfl⟩, s'', by rw [hsend, hall' rfl]; rfl⟩

end Moc.Transfer
