import Moc.Hdf
import Moc.Lib.Socket
import Moc.Packet

/-!
# Waiting for a reply

`srecv`, `recv_msg` and `tcp_get_rep` of `client/internal.c` and `client/tcp.c`. They fill the
receive buffer of the module's `moc_t`, which keeps the bytes of the frames before. The reference
reads whole frames in the order in which they arrive; `Carries` says on which scripts of `recv()`
calls the code can follow it.
-/

open Bytes Memory Socket

namespace Moc

/-- `srecv` of `count` bytes into `buf` at `off`, when `c` of them are there: none for a failure,
else how many were received. A short count is the end of the stream. -/
def srecv (s : Sock) (buf : List UInt8) (off count c : ℕ) :
    Except Fault (Option ℕ × Sock × List UInt8) :=
  if c < count then
    match s.recv (count - c) with
    | (none, s) => .ok (none, s, buf)
    | (some bs, s) =>
      match store buf (off + c) bs with
      | .error e => .error e
      | .ok buf =>
        if bs.length = 0 then .ok (some c, s, buf) else srecv s buf off count (c + bs.length)
  else .ok (some count, s, buf)
termination_by count - c

/-- `recv_msg` from the length word on, when `rv` bytes of the frame are in the block. -/
def recvMsgBody (s : Sock) (buf : List UInt8) (bsize rv : ℕ) :
    Except Fault (Option ℕ × Sock × List UInt8) := do
  let msgsize ← load32 buf 0
  if msgsize > bsize then return (none, s, buf)
  if rv < msgsize then
    let (t, s, buf) ← srecv s buf rv (msgsize - rv) 0
    match t with
    | none => return (none, s, buf)
    | some 0 => return (some 0, s, buf)
    | some t => return (some (rv + t), s, buf)
  else return (some rv, s, buf)

/-- `recv_msg` into the block `buf`, of which `bsize` bytes are offered. None is `-1`. -/
def recvMsg (s : Sock) (buf : List UInt8) (bsize : ℕ) :
    Except Fault (Option ℕ × Sock × List UInt8) :=
  match s.recv bsize with
  | (none, s) => .ok (none, s, buf)
  | (some bs, s) => do
    let buf ← store buf 0 bs
    if bs.length = 0 then return (some 0, s, buf)
    if bs.length < 4 then
      let (t, s, buf) ← srecv s buf bs.length (4 - bs.length) 0
      match t with
      | none => return (none, s, buf)
      | some 0 => return (some 0, s, buf)
      | some t => recvMsgBody s buf bsize (bs.length + t)
    else recvMsgBody s buf bsize bs.length

/-! ## The script shrinks -/

/-- `srecv` does not add to the script. -/
theorem weight_srecv {s s' : Sock} {buf buf' : List UInt8} {off count c : ℕ} {t : Option ℕ}
    (h : srecv s buf off count c = .ok (t, s', buf')) : weight s'.script ≤ weight s.script := by
  induction hn : count - c using Nat.strong_induction_on generalizing s buf c with
  | _ n ih =>
    subst hn
    rw [srecv] at h
    split_ifs at h with hc
    · match hr : s.recv (count - c) with
      | (none, s₁) =>
        rw [hr] at h
        simp only [Except.ok.injEq, Prod.mk.injEq] at h
        rw [← h.2.1, weight_recv_none hr]
      | (some bs, s₁) =>
        have hw := weight_recv hr
        simp only [hr] at h
        match hst : store buf (off + c) bs with
        | .error e => simp [hst] at h
        | .ok buf₁ =>
          simp only [hst] at h
          split_ifs at h with h0
          · simp only [Except.ok.injEq, Prod.mk.injEq] at h
            rw [← h.2.1]
            omega
          -- Each pass of the loop leaves fewer bytes to ask for, and the script no heavier.
          · have := ih (count - (c + bs.length)) (by omega) h rfl
            omega
    · simp only [Except.ok.injEq, Prod.mk.injEq] at h
      rw [← h.2.1]

theorem weight_recvMsgBody {s s' : Sock} {buf buf' : List UInt8} {bsize rv : ℕ} {t : Option ℕ}
    (h : recvMsgBody s buf bsize rv = .ok (t, s', buf')) : weight s'.script ≤ weight s.script := by
  obtain ⟨msgsize, -, h⟩ := bind_eq_ok.mp h
  split_ifs at h
  · simp only [pure_eq_ok, Except.ok.injEq, Prod.mk.injEq] at h
    rw [← h.2.1]
  · obtain ⟨⟨t₁, s₁, buf₁⟩, hs, h⟩ := bind_eq_ok.mp h
    have hw := weight_srecv hs
    match t₁ with
    | none | some 0 | some (n + 1) =>
      simp only [pure_eq_ok, Except.ok.injEq, Prod.mk.injEq] at h
      rw [← h.2.1]
      exact hw
  · simp only [pure_eq_ok, Except.ok.injEq, Prod.mk.injEq] at h
    rw [← h.2.1]

/-- A message that `recv_msg` returns has used up some of it. -/
theorem weight_recvMsg {s s' : Sock} {buf buf' : List UInt8} {bsize rv : ℕ}
    (h : recvMsg s buf bsize = .ok (some rv, s', buf')) (hrv : rv ≠ 0) :
    weight s'.script < weight s.script := by
  unfold recvMsg at h
  match hr : s.recv bsize with
  | (none, s₁) => simp [hr] at h
  | (some bs, s₁) =>
    have hw := weight_recv hr
    simp only [hr] at h
    obtain ⟨buf₁, -, h⟩ := bind_eq_ok.mp h
    split_ifs at h with h0 h4
    · simp at h
      omega
    · obtain ⟨⟨t, s₂, buf₂⟩, hs, h⟩ := bind_eq_ok.mp h
      have hw₂ := weight_srecv hs
      match t with
      | none => simp at h
      | some 0 =>
        simp at h
        omega
      | some (t + 1) =>
        have : weight s'.script ≤ weight s₂.script := weight_recvMsgBody h
        omega
    · have := weight_recvMsgBody h
      omega

/-- The failure branch of `tcp_get_rep`. -/
def closeUnlessEagain (s : Sock) : Sock := if s.errno ≠ .eagain then s.close else s

/-- `tcp_get_rep` with the request counter at `gReqid`: none for `-1`, else the reply code and
`*psize`, with the payload at position 12 of the block. -/
def tcpGetRep (gReqid : ℕ) (s : Sock) (buf : List UInt8) (bsize : ℕ) :
    Except Fault (Option (ℕ × ℕ) × Sock × List UInt8) :=
  match _h : recvMsg s buf bsize with
  | .error e => .error e
  | .ok (none, s, buf) => .ok (none, closeUnlessEagain s, buf)
  | .ok (some rv, s', buf) =>
    if _hrv : rv = 0 then .ok (none, closeUnlessEagain s', buf)
    else
      match load32 buf 4, load32 buf 8 with
      | .ok id, .ok reply =>
        if id < gReqid then tcpGetRep gReqid s' buf bsize
        else .ok (some (reply, sizeSub rv 12), s', buf)
      | _, _ => .error .outOfBounds
termination_by weight s.script
decreasing_by exact weight_recvMsg ‹recvMsg s _ bsize = _› ‹¬ rv = 0›

section
variable {s s' : Sock} {buf buf' : List UInt8} {bsize : ℕ} (gReqid : ℕ)

/-- `tcp_get_rep` when `recv_msg` fails. -/
theorem tcpGetRep_of_failed {r : Option ℕ} (h : recvMsg s buf bsize = .ok (r, s', buf'))
    (hr : r = none ∨ r = some 0) :
    tcpGetRep gReqid s buf bsize = .ok (none, closeUnlessEagain s', buf') := by
  rw [tcpGetRep]
  rcases hr with rfl | rfl <;> split <;> simp_all

/-- `tcp_get_rep` when `recv_msg` returns a message. -/
theorem tcpGetRep_of_msg {rv id reply : ℕ} (h : recvMsg s buf bsize = .ok (some rv, s', buf'))
    (hrv : rv ≠ 0) (hid : load32 buf' 4 = .ok id) (hreply : load32 buf' 8 = .ok reply) :
    tcpGetRep gReqid s buf bsize =
      if id < gReqid then tcpGetRep gReqid s' buf' bsize
      else .ok (some (reply, sizeSub rv 12), s', buf') := by
  rw [tcpGetRep]
  split
  · simp_all
  · simp_all
  · rename_i rv₁ s₁ buf₁ heq
    rw [h] at heq
    cases heq
    rw [dif_neg hrv, hid, hreply]

end

/-! ## Reading a whole frame -/

/-- `srecv` of bytes that the script has. -/
theorem srecv_pull {s : Sock} {pre rest bs : List UInt8} {off count c : ℕ} {s' : List Event}
    (hopen : s.isOpen = true) (hoff : off + c = pre.length) (hc : c ≤ count)
    (hpull : pull (count - c) s.script = some (bs, s')) (hroom : count - c ≤ rest.length) :
    srecv s (pre ++ rest) off count c =
      .ok (some count, { s with script := s' }, pre ++ bs ++ rest.drop bs.length) := by
  induction hn : count - c using Nat.strong_induction_on generalizing s pre rest bs c with
  | _ n ih =>
    subst hn
    rw [srecv]
    rcases Nat.eq_or_lt_of_le hc with rfl | hlt
    · rw [Nat.sub_self, pull_zero] at hpull
      obtain ⟨rfl, rfl⟩ := Prod.mk.inj (Option.some.inj hpull)
      simp
    · obtain ⟨d, bs', script, hrecv, hne, rfl, hpull'⟩ := recv_pull hopen (by omega) hpull
      have hpos := List.length_pos_iff.mpr hne
      have hlen := length_pull hpull
      rw [List.length_append] at hlen
      have hstore : store (pre ++ rest) (off + c) d = .ok (pre ++ d ++ rest.drop d.length) :=
        store_append hoff (by omega)
      simp only [hlt, if_true, hrecv, hstore, if_neg (show ¬ d.length = 0 by omega)]
      -- What the first call gave comes off the count.
      have hsub : count - c - d.length = count - (c + d.length) := by omega
      rw [hsub] at hpull'
      have ih' : srecv { s with script := script } (pre ++ d ++ rest.drop d.length) off count
          (c + d.length) = _ :=
        ih (count - (c + d.length)) (by omega) hopen (by simp; omega) (by omega) hpull'
          (by simp; omega) rfl
      rw [ih']
      simp [List.drop_drop]

/-- `recv_msg` from the length word on, when the script has the rest of the frame. -/
theorem recvMsgBody_pull {s : Sock} {got more rest : List UInt8} {s' : List Event} {bsize : ℕ}
    (hopen : s.isOpen = true) (hgot : 4 ≤ got.length)
    (hsize : word (got ++ more) 0 = (got ++ more).length) (hmax : (got ++ more).length ≤ bsize)
    (hpull : pull more.length s.script = some (more, s')) (hroom : more.length ≤ rest.length) :
    recvMsgBody s (got ++ rest) bsize got.length =
      .ok (some (got ++ more).length, { s with script := s' },
        got ++ more ++ rest.drop more.length) := by
  have hword : word (got ++ rest) 0 = (got ++ more).length := by
    rw [word_append (by omega)] at hsize ⊢
    exact hsize
  rw [recvMsgBody, load32_of_le (by rw [List.length_append]; omega), ok_bind, hword,
    if_neg (by omega)]
  rw [List.length_append]
  -- The frame may be whole already.
  rcases Nat.eq_zero_or_pos more.length with h0 | hpos
  · obtain rfl := List.length_eq_zero_iff.mp h0
    rw [List.length_nil, pull_zero] at hpull
    obtain ⟨-, rfl⟩ := Prod.mk.inj (Option.some.inj hpull)
    simp
  · have hsub : got.length + more.length - got.length - 0 = more.length := by omega
    rw [if_pos (by omega), srecv_pull hopen rfl (by omega) (by rw [hsub]; exact hpull) (by omega),
      ok_bind]
    obtain ⟨k, hk⟩ := Nat.exists_eq_succ_of_ne_zero hpos.ne'
    have hcount : got.length + more.length - got.length = k + 1 := by omega
    simp only [hcount, pure_eq_ok]
    congr 3
    omega

/-- A frame that a script gives without the start of the next one in the same chunk, and with no
other event before its last byte. -/
def Whole (fb : List UInt8) (s s' : List Event) : Prop :=
  firstChunk s ≤ fb.length ∧ pull fb.length s = some (fb, s')

/-- The first call of `recv_msg`, for a frame or a part of one that the script has. -/
theorem recv_first {s : Sock} {fb : List UInt8} {s' : List Event} (bsize : ℕ)
    (hopen : s.isOpen = true) (hne : fb ≠ []) (hfirst : firstChunk s.script ≤ fb.length)
    (hmax : fb.length ≤ bsize) (hpull : pull fb.length s.script = some (fb, s')) :
    ∃ ds more rest, s.recv bsize = (some ds, { s with script := rest }) ∧ fb = ds ++ more ∧
      ds ≠ [] ∧ firstChunk s.script = ds.length ∧ pull more.length rest = some (more, s') := by
  obtain ⟨ds, rest, hs, hds⟩ := pull_eq_some (List.length_pos_iff.mpr hne) hpull
  rw [hs] at hpull hfirst
  rw [firstChunk] at hfirst
  rw [pull_data_of_le hds hfirst] at hpull
  obtain ⟨⟨more, s''⟩, hmore, heq⟩ := Option.map_eq_some_iff.mp hpull
  obtain ⟨hfb, rfl⟩ := Prod.mk.inj heq
  have hlen : fb.length - ds.length = more.length := (length_pull hmore).symm
  rw [hlen] at hmore
  refine ⟨ds, more, rest, ?_, hfb.symm, hds, by rw [hs, firstChunk], hmore⟩
  simp [Sock.recv, hopen, hs, List.take_of_length_le (hfirst.trans hmax), hfirst.trans hmax]

/-- The bytes of the first call lie at the front of the block, and the length word is completed when
they are fewer than four. -/
theorem recvMsg_of_recv {s s₁ : Sock} {ds buf : List UInt8} {bsize : ℕ}
    (hrecv : s.recv bsize = (some ds, s₁)) (hpos : 0 < ds.length) (hle : ds.length ≤ buf.length) :
    recvMsg s buf bsize =
      if ds.length < 4 then do
        let (t, s, buf) ← srecv s₁ (ds ++ buf.drop ds.length) ds.length (4 - ds.length) 0
        match t with
        | none => return (none, s, buf)
        | some 0 => return (some 0, s, buf)
        | some t => recvMsgBody s buf bsize (ds.length + t)
      else recvMsgBody s₁ (ds ++ buf.drop ds.length) bsize ds.length := by
  have hstore : store buf 0 ds = .ok (ds ++ buf.drop ds.length) := by
    rw [store, if_pos (by omega), List.take_zero, Nat.zero_add, List.nil_append]
  rw [recvMsg, hrecv]
  dsimp only
  rw [hstore, ok_bind, if_neg (by omega)]

/-- Once the length word of a frame or of a part of one has arrived, `recv_msg` has the first chunk,
or the four bytes of the word when the chunk is shorter. -/
theorem recvMsg_headed {s : Sock} {p buf : List UInt8} {rest : List Event} {bsize : ℕ}
    (hopen : s.isOpen = true) (h4 : 4 ≤ p.length) (hfirst : firstChunk s.script ≤ p.length)
    (hmax : p.length ≤ bsize) (hbuf : bsize ≤ buf.length)
    (hpull : pull p.length s.script = some (p, rest)) :
    ∃ got more script, p = got ++ more ∧ 4 ≤ got.length ∧
      (got.length = firstChunk s.script ∨ firstChunk s.script < 4 ∧ got.length = 4) ∧
      pull more.length script = some (more, rest) ∧
      recvMsg s buf bsize = recvMsgBody { s with script := script } (got ++ buf.drop got.length)
        bsize got.length := by
  obtain ⟨ds, more, rest₀, hrecv, rfl, hds, hchunk, hmore⟩ :=
    recv_first bsize hopen (List.ne_nil_of_length_pos (by omega)) hfirst hmax hpull
  have hpos := List.length_pos_iff.mpr hds
  rw [List.length_append] at h4 hmax
  have hmsg : recvMsg s buf bsize = _ := recvMsg_of_recv hrecv hpos (by omega)
  by_cases hword : ds.length < 4
  · -- A second read gives what the length word lacks.
    have hsplit : more.length = (4 - ds.length) + (more.length - (4 - ds.length)) := by omega
    rw [hsplit] at hmore
    obtain ⟨script, hhead, htail⟩ := pull_add hmore
    have hlen : (more.take (4 - ds.length)).length = 4 - ds.length := length_pull hhead
    have hlen' : (more.drop (4 - ds.length)).length = more.length - (4 - ds.length) :=
      length_pull htail
    have hgot : (ds ++ more.take (4 - ds.length)).length = 4 := by
      rw [List.length_append, hlen]
      omega
    refine ⟨ds ++ more.take (4 - ds.length), more.drop (4 - ds.length), script, ?_, hgot.ge,
      .inr ⟨by omega, hgot⟩, by rw [hlen']; exact htail, ?_⟩
    · rw [List.append_assoc, List.take_append_drop]
    · have hread : srecv { s with script := rest₀ } (ds ++ buf.drop ds.length) ds.length
          (4 - ds.length) 0 = _ :=
        srecv_pull hopen rfl (by omega) hhead (by rw [List.length_drop]; omega)
      obtain ⟨k, hk⟩ := Nat.exists_eq_succ_of_ne_zero (show 4 - ds.length ≠ 0 by omega)
      have hcount : ds.length + (k + 1) = 4 := by omega
      rw [hmsg, if_pos hword, hread, ok_bind, hlen, List.drop_drop, hgot]
      simp only [hk, hcount]
  · exact ⟨ds, more, rest₀, rfl, by omega, .inl hchunk.symm, hmore, by rw [hmsg, if_neg hword]⟩

/-- `recv_msg` of a whole frame. -/
theorem recvMsg_whole {s : Sock} {fb buf : List UInt8} {s' : List Event} {bsize : ℕ}
    (hopen : s.isOpen = true) (hmin : 4 ≤ fb.length) (hsize : word fb 0 = fb.length)
    (hmax : fb.length ≤ bsize) (hbuf : bsize ≤ buf.length) (hwhole : Whole fb s.script s') :
    recvMsg s buf bsize =
      .ok (some fb.length, { s with script := s' }, fb ++ buf.drop fb.length) := by
  obtain ⟨hfirst, hpull⟩ := hwhole
  obtain ⟨got, more, script, rfl, hgot, -, hmore, hmsg⟩ :=
    recvMsg_headed hopen hmin hfirst hmax hbuf hpull
  rw [hmsg, recvMsgBody_pull (s := { s with script := script }) hopen hgot hsize hmax hmore ?_,
    List.drop_drop, List.length_append]
  rw [List.length_append] at hmax
  rw [List.length_drop]
  omega

/-! ## When no frame completes -/

/-- `srecv` when the script has only `k` of the bytes and then stops. -/
theorem srecv_stopped {s s₂ : Sock} {pre room p : List UInt8} {off count c k : ℕ}
    {rest : List Event} {r : Option (List UInt8)} (hopen : s.isOpen = true)
    (hoff : off + c = pre.length) (hk : c + k < count)
    (hpull : pull k s.script = some (p, rest)) (hroom : count - c ≤ room.length)
    (hrecv : ∀ n, Sock.recv { s with script := rest } n = (r, s₂)) (hr : r = none ∨ r = some []) :
    srecv s (pre ++ room) off count c =
      .ok (r.map fun _ => c + k, s₂, pre ++ p ++ room.drop p.length) := by
  induction hn : k using Nat.strong_induction_on generalizing s pre room p c k with
  | _ n ih =>
    subst hn
    rw [srecv, if_pos (by omega)]
    rcases Nat.eq_zero_or_pos k with rfl | hpos
    · rw [pull_zero] at hpull
      obtain ⟨rfl, rfl⟩ := Prod.mk.inj (Option.some.inj hpull)
      -- The loop is at the end of the script.
      rw [show s.recv (count - c) = _ from hrecv (count - c)]
      have hnil : store (pre ++ room) (off + c) [] = .ok (pre ++ [] ++ room.drop 0) :=
        store_append hoff (by simp)
      rcases hr with rfl | rfl
      · simp
      · simp [hnil]
    · obtain ⟨ds, rest₀, hs, hds⟩ := pull_eq_some hpos hpull
      have hdpos := List.length_pos_iff.mpr hds
      rw [hs] at hpull
      rcases Nat.lt_or_ge k ds.length with hlt | hle
      · -- The chunk does not end in the middle, since what follows it has no byte.
        rw [pull_data_of_lt hpos hlt] at hpull
        obtain ⟨-, rfl⟩ := Prod.mk.inj (Option.some.inj hpull)
        have h1 := hrecv 1
        rw [Sock.recv, if_pos hopen] at h1
        have hr' := (Prod.mk.inj h1).1
        rcases hr with rfl | rfl
        · simp at hr'
        · simp at hr'
          omega
      · rw [pull_data_of_le hds hle] at hpull
        obtain ⟨⟨p', rest'⟩, hp', heq⟩ := Option.map_eq_some_iff.mp hpull
        obtain ⟨rfl, rfl⟩ := Prod.mk.inj heq
        have hfirst : s.recv (count - c) = (some ds, { s with script := rest₀ }) := by
          have hle' : ds.length ≤ count - c := by omega
          simp [Sock.recv, hopen, hs, hle', List.take_of_length_le hle']
        have hstore : store (pre ++ room) (off + c) ds = .ok (pre ++ ds ++ room.drop ds.length) :=
          store_append hoff (by omega)
        have ih' : srecv { s with script := rest₀ } (pre ++ ds ++ room.drop ds.length) off count
            (c + ds.length) = _ :=
          ih (k - ds.length) (by omega) hopen (by simp; omega) (by omega) hp' (by simp; omega)
            hrecv rfl
        have hc : c + ds.length + (k - ds.length) = c + k := by omega
        rw [hfirst]
        dsimp only
        rw [hstore]
        dsimp only
        rw [if_neg (by omega), ih', hc]
        simp [List.drop_drop]

/-- `recv_msg` fails: what it leaves of the script is silent, or the error closes the socket. -/
def Fails (s : Sock) (buf : List UInt8) (bsize : ℕ) : Prop :=
  ∃ r s₂ buf', recvMsg s buf bsize = .ok (r, s₂, buf') ∧ (r = none ∨ r = some 0) ∧
    (s₂.errno = .eagain → Silent s₂.script) ∧ buf'.length = buf.length

theorem recvMsg_silent {s : Sock} {buf : List UInt8} {bsize : ℕ} (hopen : s.isOpen = true)
    (hsilent : Silent s.script) : Fails s buf bsize := by
  obtain ⟨r, s₂, hrecv, hr, hs₂, -⟩ := recv_of_silent hopen hsilent
  unfold Fails recvMsg
  rw [hrecv]
  rcases hr with rfl | rfl
  · exact ⟨none, s₂, buf, rfl, .inl rfl, hs₂, rfl⟩
  · exact ⟨some 0, s₂, buf, by simp [store], .inr rfl, hs₂, rfl⟩

/-- A part of a frame behind which the script stops: with an error, or with the end of the stream
where `recv_msg` has just begun one of its reads. -/
def Cut (fb : List UInt8) (s : List Event) : Prop :=
  ∃ p rest, p ≠ [] ∧ p <+: fb ∧ p.length < fb.length ∧ firstChunk s ≤ p.length ∧
    pull p.length s = some (p, rest) ∧ Silent rest ∧
    ((∃ rest', rest = .eof :: rest') →
      p.length = firstChunk s ∨ (firstChunk s < 4 ∧ p.length = 4))

theorem recvMsgBody_stopped {s s₂ : Sock} {got p : List UInt8} (room : List UInt8) {n bsize : ℕ}
    {rest : List Event} {r : Option (List UInt8)} (hopen : s.isOpen = true) (hgot : 4 ≤ got.length)
    (hsize : word got 0 = n) (hcut : got.length + p.length < n) (hmax : n ≤ bsize)
    (hpull : pull p.length s.script = some (p, rest)) (hroom : n - got.length ≤ room.length)
    (hrecv : ∀ k, Sock.recv { s with script := rest } k = (r, s₂))
    (hr : r = none ∨ r = some [] ∧ p = []) :
    ∃ t buf', recvMsgBody s (got ++ room) bsize got.length = .ok (t, s₂, buf') ∧
      (t = none ∨ t = some 0) ∧ buf'.length = (got ++ room).length := by
  have hstop : srecv s (got ++ room) got.length (n - got.length) 0 = _ :=
    srecv_stopped hopen rfl (by omega) hpull (by omega) hrecv (hr.imp_right And.left)
  rw [recvMsgBody, load32_of_le (by rw [List.length_append]; omega), ok_bind,
    word_append (by omega), hsize, if_neg (by omega), if_pos (by omega), hstop, ok_bind]
  have hlen : (got ++ p ++ room.drop p.length).length = (got ++ room).length := by
    simp
    omega
  rcases hr with rfl | ⟨rfl, rfl⟩
  · exact ⟨none, _, rfl, .inl rfl, hlen⟩
  · exact ⟨some 0, _, rfl, .inr rfl, hlen⟩

theorem recvMsg_cut {s : Sock} {fb buf : List UInt8} {bsize : ℕ} (hopen : s.isOpen = true)
    (hmin : 4 ≤ fb.length) (hsize : word fb 0 = fb.length) (hmax : fb.length ≤ bsize)
    (hbuf : bsize ≤ buf.length)
    (hcut : Cut fb s.script) : Fails s buf bsize := by
  obtain ⟨p, rest, hne, ⟨q, rfl⟩, hlt, hfirst, hpull, hsilent, heof⟩ := hcut
  obtain ⟨r, s₂, hstop, hr, hs₂, hend⟩ :=
    recv_of_silent (s := { s with script := rest }) hopen hsilent
  by_cases hp4 : p.length < 4
  · -- The script stops in the length word.
    obtain ⟨ds, more, rest₀, hrecv, rfl, hds, hchunk, hmore⟩ :=
      recv_first bsize hopen hne hfirst (by omega) hpull
    have hpos := List.length_pos_iff.mpr hds
    rw [List.length_append] at hp4
    have hhead : srecv { s with script := rest₀ } (ds ++ buf.drop ds.length) ds.length
        (4 - ds.length) 0 = _ :=
      srecv_stopped hopen rfl (by omega) hmore (by rw [List.length_drop]; omega) hstop hr
    have hlen : (ds ++ more ++ (buf.drop ds.length).drop more.length).length = buf.length := by
      simp
      omega
    unfold Fails
    rw [recvMsg_of_recv hrecv hpos (by omega), if_pos (by omega), hhead, ok_bind]
    rcases hr with rfl | rfl
    · exact ⟨none, s₂, _, rfl, .inl rfl, hs₂, hlen⟩
    · obtain ⟨-, hrest⟩ := hend rfl
      have hnil : more = [] := by
        have := heof hrest
        rw [hchunk, List.length_append] at this
        exact List.length_eq_zero_iff.mp (by omega)
      subst hnil
      exact ⟨some 0, s₂, _, rfl, .inr rfl, hs₂, hlen⟩
  · -- The length word is whole, and the script stops behind it.
    obtain ⟨got, more, script, rfl, hgot, hchunk, hmore, hmsg⟩ :=
      recvMsg_headed hopen (by omega) hfirst (by omega) hbuf hpull
    have hword : word got 0 = (got ++ more ++ q).length := by
      rw [List.append_assoc, word_append (by omega), ← List.append_assoc] at hsize
      exact hsize
    rw [List.length_append] at hlt heof
    have hr' : r = none ∨ r = some [] ∧ more = [] := by
      refine hr.imp_right fun h => ⟨h, ?_⟩
      obtain ⟨-, hrest⟩ := hend h
      have := heof hrest
      exact List.length_eq_zero_iff.mp (by omega)
    obtain ⟨t, buf', hbody, ht, hlen⟩ := recvMsgBody_stopped (s := { s with script := script })
      (buf.drop got.length) hopen hgot hword hlt hmax hmore
      (by simp only [List.length_append, List.length_drop] at hmax ⊢; omega) hstop hr'
    refine ⟨t, s₂, buf', hmsg.trans hbody, ht, hs₂, hlen.trans ?_⟩
    simp only [List.length_append, List.length_drop] at hmax ⊢
    omega

/-! ## The reference -/

/-- A frame of the server, one that the receive buffer can hold. -/
structure RepFrame where
  id : ℕ
  reply : ℕ
  payload : List UInt8
  id_lt : id < 2^32
  reply_lt : reply < 2^32
  payload_le : 12 + payload.length ≤ maxPacketLen

/-- The bytes of a frame. -/
def RepFrame.bytes (f : RepFrame) : List UInt8 :=
  be32 (12 + f.payload.length) ++ (be32 f.id ++ (be32 f.reply ++ f.payload))

@[simp] theorem RepFrame.length_bytes (f : RepFrame) : f.bytes.length = 12 + f.payload.length := by
  simp [RepFrame.bytes]
  omega

theorem RepFrame.word_size (f : RepFrame) : word f.bytes 0 = f.bytes.length := by
  have h : word ([] ++ (be32 (12 + f.payload.length) ++ (be32 f.id ++ (be32 f.reply ++ f.payload))))
      0 = (12 + f.payload.length) % 2^32 := word_between rfl
  have hle := f.payload_le
  rw [maxPacketLen] at hle
  rw [List.nil_append, Nat.mod_eq_of_lt (by omega)] at h
  rw [f.length_bytes]
  exact h

/-- What arrives on a connection, in terms of frames: a frame, or a receive timeout between two.
Behind the last one no frame completes any more. -/
inductive Arrival where
  | frame (f : RepFrame)
  | timeout

/-- The reference of `tcp_get_rep`: frames with an older id are skipped, and the first other one is
the answer, unless a timeout or the end comes before it. -/
def nextRep (gReqid : ℕ) : List Arrival → Option (ℕ × List UInt8) × List Arrival
  | [] => (none, [])
  | .timeout :: as => (none, as)
  | .frame f :: as => if f.id < gReqid then nextRep gReqid as else (some (f.reply, f.payload), as)

/-- The results of the reference over a run of calls, each with its request counter. -/
def nextReps : List ℕ → List Arrival → List (Option (ℕ × List UInt8)) × List Arrival
  | [], as => ([], as)
  | g :: gs, as =>
    let r := nextRep g as
    let rs := nextReps gs r.2
    (r.1 :: rs.1, rs.2)

/-- A script that brings the arrivals in a way the code can follow: no chunk that a frame starts
with reaches into the next frame, no error comes inside a frame that goes on, and the end of the
stream inside a frame comes where a read has just begun. -/
inductive Carries : List Event → List Arrival → Prop
  | silent {s} : Silent s → Carries s []
  | cut {s} (f : RepFrame) : Cut f.bytes s → Carries s []
  | timeout {s as} : Carries s as → Carries (.err .eagain :: s) (.timeout :: as)
  | frame {s s' as} (f : RepFrame) : Whole f.bytes s s' → Carries s' as →
      Carries s (.frame f :: as)

/-! ## The code against the reference -/

/-- A client's connection to a server, with the receive buffer of its `moc_t`. -/
structure Srv where
  sock : Sock
  rcvbuf : List UInt8

/-- One wait for a reply: the reply code and the payload bytes that the caller finds. -/
def Srv.getRep (v : Srv) (gReqid : ℕ) : Except Fault (Option (ℕ × List UInt8) × Srv) := do
  let (r, sock, rcvbuf) ← tcpGetRep gReqid v.sock v.rcvbuf maxPacketLen
  match r with
  | none => return (none, ⟨sock, rcvbuf⟩)
  | some (reply, psize) =>
    let payload ← load rcvbuf 12 psize
    return (some (reply, payload), ⟨sock, rcvbuf⟩)

/-- A run of waits. -/
def Srv.getReps (v : Srv) : List ℕ → Except Fault (List (Option (ℕ × List UInt8)) × Srv)
  | [] => .ok ([], v)
  | g :: gs => do
    let (r, v) ← v.getRep g
    let (rs, v) ← v.getReps gs
    return (r :: rs, v)

/-- A connection that stands at the arrivals `as`, between two frames, or is closed with nothing
left to come. -/
def Srv.At (v : Srv) (as : List Arrival) : Prop :=
  v.rcvbuf.length = maxPacketLen ∧
    (v.sock.isOpen = true ∧ Carries v.sock.script as ∨ v.sock.isOpen = false ∧ as = [])

/-- A failed `recv_msg` fails the wait, and nothing more is received. -/
theorem getRep_of_fails {v : Srv} (g : ℕ) (hlen : v.rcvbuf.length = maxPacketLen)
    (hfails : Fails v.sock v.rcvbuf maxPacketLen) :
    ∃ v', v.getRep g = .ok (none, v') ∧ v'.At [] := by
  obtain ⟨r, s₂, buf', hmsg, hr, hs₂, hbuf⟩ := hfails
  have hrep := tcpGetRep_of_failed g hmsg hr
  refine ⟨⟨closeUnlessEagain s₂, buf'⟩, by rw [Srv.getRep, hrep]; rfl, hbuf.trans hlen, ?_⟩
  unfold closeUnlessEagain
  by_cases he : s₂.errno = .eagain
  · rw [if_neg (not_not.mpr he)]
    rcases Bool.eq_false_or_eq_true s₂.isOpen with ho | ho
    · exact .inl ⟨ho, .silent (hs₂ he)⟩
    · exact .inr ⟨ho, rfl⟩
  · rw [if_pos he]
    exact .inr ⟨rfl, rfl⟩

/-- A closed connection fails the wait. -/
theorem getRep_of_closed {v : Srv} (g : ℕ) (hlen : v.rcvbuf.length = maxPacketLen)
    (hclosed : v.sock.isOpen = false) : ∃ v', v.getRep g = .ok (none, v') ∧ v'.At [] := by
  refine getRep_of_fails g hlen ⟨none, { v.sock with errno := .ebadf }, v.rcvbuf, ?_, .inl rfl,
    by simp, rfl⟩
  simp [recvMsg, Sock.recv, hclosed]

section
variable (f : RepFrame) (rest : List UInt8)

theorem RepFrame.load_id : load32 (f.bytes ++ rest) 4 = .ok f.id := by
  have hsplit : f.bytes ++ rest =
      be32 (12 + f.payload.length) ++ (be32 f.id ++ (be32 f.reply ++ f.payload ++ rest)) := by
    simp [RepFrame.bytes]
  rw [hsplit, load32_between (by simp), Nat.mod_eq_of_lt f.id_lt]

theorem RepFrame.load_reply : load32 (f.bytes ++ rest) 8 = .ok f.reply := by
  have hsplit : f.bytes ++ rest =
      (be32 (12 + f.payload.length) ++ be32 f.id) ++ (be32 f.reply ++ (f.payload ++ rest)) := by
    simp [RepFrame.bytes]
  rw [hsplit, load32_between (by simp), Nat.mod_eq_of_lt f.reply_lt]

theorem RepFrame.load_payload :
    load (f.bytes ++ rest) 12 f.payload.length = .ok f.payload := by
  have hsplit : f.bytes ++ rest =
      (be32 (12 + f.payload.length) ++ be32 f.id ++ be32 f.reply) ++ (f.payload ++ rest) := by
    simp [RepFrame.bytes]
  rw [hsplit, load_between (by simp) rfl]

end

/-- `tcp_get_rep` when a whole frame comes next: it is skipped or returned. -/
theorem tcpGetRep_frame {s : Sock} {buf : List UInt8} (g : ℕ) (f : RepFrame) {s' : List Event}
    (hlen : buf.length = maxPacketLen) (hopen : s.isOpen = true)
    (hwhole : Whole f.bytes s.script s') :
    tcpGetRep g s buf maxPacketLen =
      if f.id < g then
        tcpGetRep g { s with script := s' } (f.bytes ++ buf.drop f.bytes.length) maxPacketLen
      else .ok (some (f.reply, f.payload.length), { s with script := s' },
        f.bytes ++ buf.drop f.bytes.length) := by
  have hle := f.payload_le
  have hmsg := recvMsg_whole (s := s) hopen (by simp; omega) f.word_size
    (by rw [f.length_bytes]; exact hle) hlen.ge hwhole
  have hsub : sizeSub f.bytes.length 12 = f.payload.length := by
    rw [maxPacketLen] at hle
    rw [f.length_bytes, sizeSub]
    omega
  rw [tcpGetRep_of_msg g hmsg (by rw [f.length_bytes]; omega) (f.load_id _) (f.load_reply _), hsub]

/-- A whole frame is skipped or returned. -/
theorem getRep_frame {v : Srv} (g : ℕ) (f : RepFrame) {s' : List Event}
    (hlen : v.rcvbuf.length = maxPacketLen) (hopen : v.sock.isOpen = true)
    (hwhole : Whole f.bytes v.sock.script s') :
    ∃ v', v'.rcvbuf.length = maxPacketLen ∧ v'.sock.isOpen = true ∧ v'.sock.script = s' ∧
      v.getRep g = if f.id < g then v'.getRep g else .ok (some (f.reply, f.payload), v') := by
  have hle := f.payload_le
  have hrep := tcpGetRep_frame g f hlen hopen hwhole
  refine ⟨⟨{ v.sock with script := s' }, f.bytes ++ v.rcvbuf.drop f.bytes.length⟩, ?_, hopen, rfl,
    ?_⟩
  · rw [List.length_append, List.length_drop, hlen, f.length_bytes]
    omega
  · rw [Srv.getRep, hrep]
    split_ifs
    · rfl
    · simp only [ok_bind, f.load_payload, pure_eq_ok]

/-- A timeout between two frames takes no byte and leaves the socket open. -/
theorem getRep_timeout {v : Srv} (g : ℕ) {s : List Event} {as : List Arrival}
    (hlen : v.rcvbuf.length = maxPacketLen) (hopen : v.sock.isOpen = true)
    (hs : v.sock.script = .err .eagain :: s) (hcarries : Carries s as) :
    ∃ v', v.getRep g = .ok (none, v') ∧ v'.At as := by
  have hmsg : recvMsg v.sock v.rcvbuf maxPacketLen =
      .ok (none, { v.sock with script := s, errno := .eagain }, v.rcvbuf) := by
    simp [recvMsg, Sock.recv, hopen, hs]
  have hrep := tcpGetRep_of_failed g hmsg (.inl rfl)
  exact ⟨⟨{ v.sock with script := s, errno := .eagain }, v.rcvbuf⟩,
    by rw [Srv.getRep, hrep]; rfl, hlen, .inl ⟨hopen, hcarries⟩⟩

/-- One wait returns what the reference does and leaves the connection where it does. -/
theorem getRep_at {v : Srv} (g : ℕ) {as : List Arrival} (h : v.At as) :
    ∃ v', v.getRep g = .ok ((nextRep g as).1, v') ∧ v'.At (nextRep g as).2 := by
  obtain ⟨hlen, ⟨hopen, hcarries⟩ | ⟨hclosed, rfl⟩⟩ := h
  · generalize hs : v.sock.script = s at hcarries
    induction hcarries generalizing v with
    | silent hsilent =>
      exact getRep_of_fails g hlen (recvMsg_silent hopen (hs ▸ hsilent))
    | cut f hcut =>
      refine getRep_of_fails g hlen (recvMsg_cut hopen (by simp; omega) f.word_size
        (by rw [f.length_bytes]; exact f.payload_le) hlen.ge (hs ▸ hcut))
    | timeout hcarries _ =>
      exact getRep_timeout g hlen hopen hs hcarries
    | frame f hwhole hcarries ih =>
      obtain ⟨v', hlen', hopen', hs', hget⟩ := getRep_frame g f hlen hopen (hs ▸ hwhole)
      rw [hget, nextRep]
      split_ifs with hid
      · exact ih hlen' hopen' hs'
      · exact ⟨v', rfl, hlen', .inl ⟨hopen', hs' ▸ hcarries⟩⟩
  · exact getRep_of_closed g hlen hclosed

/-- Over any run of waits, on a script that brings the frames one by one, each wait returns the code
and exactly the payload of the first frame that is new enough, or fails when none completes, and the
next one goes on right behind that frame. -/
theorem getReps_eq_nextReps (v : Srv) (as : List Arrival) (gs : List ℕ)
    (hlen : v.rcvbuf.length = maxPacketLen) (hopen : v.sock.isOpen = true)
    (hcarries : Carries v.sock.script as) :
    ∃ v', v.getReps gs = .ok ((nextReps gs as).1, v') ∧ v'.At (nextReps gs as).2 := by
  have hat : v.At as := ⟨hlen, .inl ⟨hopen, hcarries⟩⟩
  clear hlen hopen hcarries
  induction gs generalizing v as with
  | nil => exact ⟨v, rfl, hat⟩
  | cons g gs ih =>
    obtain ⟨v₁, hget, hat₁⟩ := getRep_at g hat
    obtain ⟨v₂, hgets, hat₂⟩ := ih v₁ (nextRep g as).2 hat₁
    exact ⟨v₂, by simp only [Srv.getReps, nextReps, hget, hgets, ok_bind, pure_eq_ok], hat₂⟩

/-- An answer without a payload. -/
def sampleAnswer : RepFrame := ⟨1, 1000, [], by decide, by decide, by decide⟩

/-- A push. -/
def samplePush : RepFrame := ⟨0, 10000, [0, 0, 0, 1, 9], by decide, by decide, by decide⟩

/-- The answer cut in its length word, its last chunk with the push behind it, a timeout, and the
answer to the next request in one chunk. -/
def sampleSrv : Srv :=
  ⟨⟨[.data [0, 0, 0], .data (sampleAnswer.bytes.drop 3 ++ samplePush.bytes), .err .eagain,
    .data sampleAnswer.bytes, .eof], .other, true⟩, List.replicate maxPacketLen 0⟩

theorem getReps_sampleSrv : ∃ v', sampleSrv.getReps [1, 1, 1, 1] =
    .ok ([some (1000, []), none, some (1000, []), none], v') := by
  have hcarries : Carries sampleSrv.sock.script
      [.frame sampleAnswer, .frame samplePush, .timeout, .frame sampleAnswer] :=
    .frame _ ⟨by decide, rfl⟩ (.frame _ ⟨by decide, rfl⟩ (.timeout
      (.frame _ ⟨by decide, rfl⟩ (.silent trivial))))
  obtain ⟨v', h, -⟩ := getReps_eq_nextReps sampleSrv _ [1, 1, 1, 1] List.length_replicate rfl
    hcarries
  exact ⟨v', h⟩

/-! ## When frames share the first chunk -/

/-- What comes in one chunk with a frame, behind it, is returned as the end of its payload and is
lost to the next wait. -/
theorem getRep_coalesced (v : Srv) (g : ℕ) (f : RepFrame) (x : List UInt8) {s : List Event}
    (hlen : v.rcvbuf.length = maxPacketLen) (hopen : v.sock.isOpen = true)
    (hs : v.sock.script = .data (f.bytes ++ x) :: s)
    (hfit : (f.bytes ++ x).length ≤ maxPacketLen) (hid : ¬ f.id < g) :
    ∃ v', v.getRep g = .ok (some (f.reply, f.payload ++ x), v') ∧ v'.sock.script = s := by
  have hpos : 12 ≤ (f.bytes ++ x).length := by
    simp
    omega
  have hfx : f.bytes.length ≤ (f.bytes ++ x).length := by simp
  have hmsg : recvMsg v.sock v.rcvbuf maxPacketLen =
      .ok (some (f.bytes ++ x).length, { v.sock with script := s },
        f.bytes ++ (x ++ v.rcvbuf.drop (f.bytes ++ x).length)) := by
    have hrecv : v.sock.recv maxPacketLen = (some (f.bytes ++ x), { v.sock with script := s }) := by
      rw [Sock.recv, if_pos hopen, hs]
      dsimp only
      rw [List.take_of_length_le hfit, if_pos hfit]
    have hword : word (f.bytes ++ (x ++ v.rcvbuf.drop (f.bytes ++ x).length)) 0 =
        f.bytes.length := by
      rw [word_append (by simp; omega), f.word_size]
    rw [recvMsg_of_recv hrecv (by omega) (by omega), if_neg (by omega), List.append_assoc,
      recvMsgBody, load32_of_le (by simp; omega), ok_bind, hword, if_neg (by omega),
      if_neg (by omega), pure_eq_ok]
  have hsub : sizeSub (f.bytes ++ x).length 12 = (f.payload ++ x).length := by
    rw [maxPacketLen] at hfit
    rw [sizeSub]
    simp only [List.length_append, f.length_bytes] at hfit hpos ⊢
    omega
  have hrep := tcpGetRep_of_msg g hmsg (by omega) (f.load_id _) (f.load_reply _)
  rw [if_neg hid, hsub] at hrep
  have hload : load (f.bytes ++ (x ++ v.rcvbuf.drop (f.bytes ++ x).length)) 12
      (f.payload ++ x).length = .ok (f.payload ++ x) := by
    have hsplit : f.bytes ++ (x ++ v.rcvbuf.drop (f.bytes ++ x).length) =
        (be32 (12 + f.payload.length) ++ be32 f.id ++ be32 f.reply) ++
          ((f.payload ++ x) ++ v.rcvbuf.drop (f.bytes ++ x).length) := by
      simp [RepFrame.bytes]
    rw [hsplit, load_between (by simp) rfl]
  refine ⟨⟨{ v.sock with script := s },
    f.bytes ++ (x ++ v.rcvbuf.drop (f.bytes ++ x).length)⟩, ?_, rfl⟩
  rw [Srv.getRep, hrep, ok_bind]
  dsimp only
  rw [hload, ok_bind, pure_eq_ok]

/-- Two answers that arrive in one chunk. -/
def coalescedSrv : Srv :=
  ⟨⟨[.data (sampleAnswer.bytes ++ sampleAnswer.bytes)], .other, true⟩,
    List.replicate maxPacketLen 0⟩

/-- The first wait on two answers in one chunk does not return the empty payload of the first
answer. -/
theorem getRep_coalescedSrv :
    ¬ ∃ v', coalescedSrv.getRep 1 =
      .ok ((nextRep 1 [.frame sampleAnswer, .frame sampleAnswer]).1, v') := by
  obtain ⟨v', hget, -⟩ := getRep_coalesced coalescedSrv 1 sampleAnswer sampleAnswer.bytes
    List.length_replicate rfl rfl (by decide) (by decide)
  rintro ⟨v'', h⟩
  rw [hget] at h
  have hpayload : sampleAnswer.payload ++ sampleAnswer.bytes = [] :=
    congrArg (fun r => (r.1.getD (0, [])).2) (Except.ok.inj h)
  exact absurd hpayload (by decide)

end Moc
