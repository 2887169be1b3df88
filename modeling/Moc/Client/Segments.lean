import Moc.Client.Eloop
import Moc.Lib.Runs

/-!
# What the event loop keeps of any stream

The receiving step of `el_routine` asks `recv()` for `SBSIZE` bytes whatever the connection keeps,
and `msparse_buf` returns from an illegal length word without closing. `keptAfter` says what the
connection keeps of the bytes alone: the part of the next frame, or, when the illegal word was found
in its own buffer, everything from that word on. From it come the exact condition for the copy of
`el_routine` to stay inside the buffer, and the one for an illegal word to end the messages.
-/

open Bytes Memory Framing

namespace Moc

variable {σ : Type}

/-- The event loop on what `recv()` gives, with the answer that `malloc()` has for each chunk. -/
def elRun (cap : Option ℕ) (handle : MsgHandler σ) (lost : σ → σ) (v : MocSrv σ) :
    List (Bool × Chunk) → Except Fault (MocSrv σ)
  | [] => .ok v
  | (malloc, r) :: rs =>
    if v.isOpen then do
      let v ← elRoutine cap malloc handle lost v r
      elRun cap handle lost v rs
    else .ok v

theorem elRoutines_eq_elRun (cap : Option ℕ) (malloc : Bool) (handle : MsgHandler σ)
    (lost : σ → σ) (v : MocSrv σ) (rs : List Chunk) :
    elRoutines cap malloc handle lost v rs = elRun cap handle lost v (rs.map (malloc, ·)) := by
  induction rs generalizing v with
  | nil => rfl
  | cons r rs ih =>
    rw [elRoutines, List.map_cons, elRun]
    simp only [ih]

/-- What a connection that keeps `kept` keeps after a chunk. Without a buffer of its own an illegal
front is dropped with the static buffer, and so is a part of a frame when `malloc()` fails. -/
def keptAfter (malloc : Bool) (kept bs : List UInt8) : List UInt8 :=
  if kept = [] ∧ (serverFramer.next (remain serverFramer (kept ++ bs)) = .illegal ∨ malloc = false)
  then [] else remain serverFramer (kept ++ bs)

/-- A server that keeps exactly the bytes `kept`, and has a buffer only for them. -/
structure MocSrv.Holds (v : MocSrv σ) (kept : List UInt8) : Prop where
  keeps : v.Keeps kept
  isSome_iff : v.buf.isSome ↔ kept ≠ []

theorem MocSrv.holds_none {v : MocSrv σ} (hopen : v.isOpen = true) (hexcess : v.excess = 0)
    (hbuf : v.buf = none) : v.Holds [] where
  keeps := ⟨hopen, hexcess, by rw [hbuf]⟩
  isSome_iff := by simp [hbuf]

theorem MocSrv.holds_some {v : MocSrv σ} {buf kept : List UInt8} (hopen : v.isOpen = true)
    (hexcess : v.excess = 0) (hbuf : v.buf = some buf) (hle : v.len ≤ buf.length)
    (htake : buf.take v.len = kept) (hne : kept ≠ []) : v.Holds kept where
  keeps := ⟨hopen, hexcess, by rw [hbuf]; exact ⟨hle, htake⟩⟩
  isSome_iff := by simp [hbuf, hne]

theorem MocSrv.new_holds (st : σ) : (MocSrv.new st).Holds [] := MocSrv.holds_none rfl rfl rfl

/-- A server with a buffer of its own keeps the first `len` bytes of it. -/
theorem MocSrv.Holds.buf_eq {v : MocSrv σ} {kept buf : List UInt8} (h : v.Holds kept)
    (hbuf : v.buf = some buf) : v.len = kept.length ∧ v.len ≤ buf.length ∧ buf.take v.len = kept := by
  obtain ⟨-, -, hkept⟩ := h.keeps
  rw [hbuf] at hkept
  obtain ⟨hle, htake⟩ := hkept
  exact ⟨by rw [← htake, List.length_take_of_le hle], hle, htake⟩

theorem MocSrv.release_holds {v : MocSrv σ} (hopen : v.isOpen = true) (hexcess : v.excess = 0) :
    v.release.Holds [] := by
  unfold MocSrv.release
  split_ifs with hbuf
  · exact MocSrv.holds_none hopen rfl rfl
  · exact MocSrv.holds_none hopen hexcess (Option.not_isSome_iff_eq_none.mp hbuf)

/-- A write that is shorter than one that fits. -/
theorem exceeds_of_le {cap : Option ℕ} {m n : ℕ} (h : m ≤ n) (hcap : exceeds cap n = false) :
    exceeds cap m = false := by
  cases cap with
  | none => rfl
  | some c =>
    simp only [exceeds, Option.any_some, decide_eq_false_iff_not] at hcap ⊢
    omega

/-- A handler that only returns. -/
abbrev returning (f : σ → List UInt8 → ℕ → σ) : MsgHandler σ := fun st b n => .ok (f st b n)

/-- `msparse_buf` hands over the frames of the bytes it is given, and keeps what remains if it has
or gets a buffer for that. -/
theorem msparseBuf_holds (cap : Option ℕ) (malloc : Bool) (f : σ → List UInt8 → ℕ → σ)
    (v : MocSrv σ) (block : List UInt8) (len : ℕ) (hpos : 0 < len) (hlen : len ≤ block.length)
    (hopen : v.isOpen = true) (hexcess : v.excess = 0) (hown : v.buf.isSome → v.len = len)
    (hcap : exceeds cap len = false) :
    ∃ v', msparseBuf cap malloc (returning f) v block len = .ok v' ∧
      v'.Holds (if v.buf = none ∧
        (serverFramer.next (remain serverFramer (block.take len)) = .illegal ∨ malloc = false)
        then [] else remain serverFramer (block.take len)) ∧
      ∀ g : σ → List UInt8 → σ, (∀ st b n, f st b n = g st (b.take n)) →
        v'.st = (allMessages (block.take len)).1.foldl g v.st := by
  induction hn : len using Nat.strong_induction_on generalizing v block len with
  | _ k ih =>
    subst hn
    have htake : (block.take len).length = len := List.length_take_of_le hlen
    have hne : block.take len ≠ [] := List.ne_nil_of_length_pos (by omega)
    unfold allMessages messages
    cases hnext : serverFramer.next (block.take len) with
    | illegal =>
      rw [remain_illegal hnext, split_illegal hnext, hnext]
      rw [serverFramer_next_take hlen] at hnext
      split_ifs at hnext with hill
      rw [msparseBuf, if_pos hill]
      refine ⟨_, rfl, ?_, fun g hg => rfl⟩
      cases hbuf : v.buf with
      | none =>
        rw [if_pos ⟨rfl, Or.inl rfl⟩]
        exact MocSrv.holds_none hopen hexcess rfl
      | some buf =>
        rw [if_neg (by simp)]
        have hvlen : v.len = len := hown (by simp [hbuf])
        refine MocSrv.holds_some hopen hexcess rfl ?_ ?_ hne
        · dsimp only
          omega
        · rw [hvlen]
    | incomplete =>
      rw [remain_incomplete hnext, split_incomplete hnext, hnext]
      rw [serverFramer_next_take hlen] at hnext
      split_ifs at hnext with hill hget
      rw [msparseBuf, if_neg hill, if_pos hget]
      cases hbuf : v.buf with
      | none =>
        cases malloc with
        | false =>
          refine ⟨v, by simp, ?_, fun g hg => rfl⟩
          rw [if_pos ⟨rfl, Or.inr rfl⟩]
          exact MocSrv.holds_none hopen hexcess hbuf
        | true =>
          refine ⟨{ v with
            buf := some (block.take len), len := len, pktsize := msTotaltoget block len },
            by simp [hcap], ?_, fun g hg => rfl⟩
          rw [if_neg (by simp)]
          refine MocSrv.holds_some hopen hexcess rfl ?_ ?_ hne
          · exact htake.ge
          · rw [List.take_take, Nat.min_self]
      | some buf =>
        refine ⟨{ v with buf := some block, len := len, pktsize := msTotaltoget block len }, rfl,
          ?_, fun g hg => rfl⟩
        rw [if_neg (by simp)]
        exact MocSrv.holds_some hopen hexcess rfl hlen rfl hne
    | frame n =>
      obtain ⟨hn, hle⟩ := serverFramer.frame_le _ n hnext
      rw [htake] at hle
      rw [msparseBuf_frame hlen hnext hexcess, remain_frame hnext, split_frame hnext, if_pos rfl]
      dsimp only
      -- The message is the same in the block and in the received bytes.
      have hmsg : (block.drop 4).take (n - 4) = ((block.take len).take n).drop 4 := by
        rw [List.take_take, Nat.min_eq_left hle, List.drop_take]
      by_cases hmore : n < len
      · -- The leftovers, moved to the front, are the received bytes behind the message.
        have hmoved : ((block.drop n).take (len - n) ++ block.drop (len - n)).take (len - n) =
            (block.take len).drop n := by
          rw [List.take_left' (by simp; omega), List.drop_take]
        obtain ⟨v', hv', hholds, hst⟩ := ih (len - n) (by omega)
          { v with len := len - n, st := f v.st (block.drop 4) (n - 4) }
          ((block.drop n).take (len - n) ++ block.drop (len - n)) (len - n) (by omega)
          (by simp; omega) hopen hexcess (fun _ => rfl) (exceeds_of_le (by omega) hcap) rfl
        rw [hmoved] at hholds hst
        rw [if_pos hmore]
        refine ⟨v', hv', hholds, fun g hg => ?_⟩
        rw [hst g hg, hg, hmsg]
        rfl
      · have hnil : (block.take len).drop n = [] := List.drop_eq_nil_of_le (by omega)
        rw [if_neg hmore, hnil, remain_incomplete rfl, split_incomplete rfl, ite_self]
        refine ⟨_, rfl, MocSrv.release_holds hopen hexcess, fun g hg => ?_⟩
        rw [MocSrv.release_st, hg, hmsg]
        rfl

/-! ## One chunk -/

section
variable (malloc : Bool) (f : σ → List UInt8 → ℕ → σ) (lost : σ → σ) {v : MocSrv σ}
  {kept : List UInt8} (bs behind : List UInt8)

/-- A chunk that fits behind what the connection keeps. -/
theorem elRoutine_data (cap : Option ℕ) (hv : v.Holds kept) (hbs : 0 < bs.length)
    (hcap : exceeds cap bs.length = false)
    (hroom : kept ≠ [] → exceeds cap (kept.length + bs.length) = false) :
    ∃ v', elRoutine cap malloc (returning f) lost v ⟨.data bs, behind⟩ = .ok v' ∧
      v'.Holds (keptAfter malloc kept bs) ∧
      ∀ g : σ → List UInt8 → σ, (∀ st b n, f st b n = g st (b.take n)) →
        v'.st = (allMessages (kept ++ bs)).1.foldl g v.st := by
  obtain ⟨hopen, hexcess, -⟩ := hv.keeps
  unfold elRoutine
  cases hb : v.buf with
  | none =>
    obtain rfl : kept = [] := by
      by_contra hne
      simpa [hb] using hv.isSome_iff.mpr hne
    have htake : (bs ++ behind).take bs.length = [] ++ bs := by simp
    obtain ⟨v', hv', hholds, hst⟩ := msparseBuf_holds cap malloc f v (bs ++ behind) bs.length hbs
      (by simp) hopen hexcess (fun h => by simp [hb] at h) hcap
    rw [htake] at hholds hst
    refine ⟨v', hv', ?_, hst⟩
    simpa only [keptAfter, hb, true_and] using hholds
  | some buf =>
    have hne : kept ≠ [] := hv.isSome_iff.mp (by simp [hb])
    obtain ⟨hlen, hle, hkept⟩ := hv.buf_eq hb
    have htake : (buf.take v.len ++ bs ++ buf.drop (v.len + bs.length)).take
        (v.len + bs.length) = kept ++ bs := by
      rw [List.take_left' (by simp; omega), hkept]
    obtain ⟨v', hv', hholds, hst⟩ := msparseBuf_holds cap malloc f
      { v with
        buf := some (buf.take v.len ++ bs ++ buf.drop (v.len + bs.length))
        len := v.len + bs.length }
      (buf.take v.len ++ bs ++ buf.drop (v.len + bs.length)) (v.len + bs.length) (by omega)
      (by simp; omega) hopen hexcess (fun _ => rfl) (by rw [hlen]; exact hroom hne)
    rw [htake] at hholds hst
    dsimp only
    rw [if_neg (by omega), if_neg (by rw [hlen, hroom hne]; simp)]
    refine ⟨v', hv', ?_, hst⟩
    simpa only [keptAfter, hne, reduceCtorEq, false_and, if_false] using hholds

/-- A chunk that does not fit is copied over the end of the buffer. -/
theorem elRoutine_overflow {cap : Option ℕ} (hv : v.Holds kept) (hne : kept ≠ [])
    (hcap : exceeds cap (kept.length + bs.length) = true) :
    elRoutine cap malloc (returning f) lost v ⟨.data bs, behind⟩ = .error .outOfBounds := by
  obtain ⟨buf, hb⟩ := Option.isSome_iff_exists.mp (hv.isSome_iff.mpr hne)
  obtain ⟨hlen, hle, -⟩ := hv.buf_eq hb
  simp only [elRoutine, hb]
  rw [if_neg (by omega), hlen, if_pos hcap]

end

/-! ## Chunks that fit -/

/-- Each chunk that arrives while the connection keeps some bytes fits behind them. -/
def Fits : List UInt8 → List (Bool × Chunk) → Prop
  | _, [] => True
  | kept, (malloc, r) :: rs =>
    match r.recv with
    | .data bs => (kept = [] ∨ kept.length + bs.length ≤ sbsize) ∧ Fits (keptAfter malloc kept bs) rs
    | .eagain => Fits kept rs
    | .etimedout => Fits kept rs
    | .eof => True
    | .err => True

theorem exceeds_sbsize {n : ℕ} : exceeds (some sbsize) n = false ↔ n ≤ sbsize := by
  simp [exceeds]

theorem length_keptAfter_le (malloc : Bool) (kept bs : List UInt8) :
    (keptAfter malloc kept bs).length ≤ kept.length + bs.length := by
  have hle : (remain serverFramer (kept ++ bs)).length ≤ (kept ++ bs).length := length_remain_le _
  rw [List.length_append] at hle
  unfold keptAfter
  split_ifs
  · simp
  · exact hle

/-- A stream of at most `SBSIZE` bytes fits however it is cut. -/
theorem fits_of_length_le {kept : List UInt8} {cs : List (List UInt8 × List UInt8)}
    (h : kept.length + (cs.map Prod.fst).flatten.length ≤ sbsize) :
    Fits kept (cs.map fun c => (true, dataChunk c)) := by
  induction cs generalizing kept with
  | nil => trivial
  | cons c cs ih =>
    rw [List.map_cons, List.flatten_cons, List.length_append] at h
    have hle := length_keptAfter_le true kept c.1
    exact ⟨Or.inr (by omega), ih (by omega)⟩

/-- What `recv()` can give when it is asked for `SBSIZE` bytes. -/
def RecvBounded (rs : List (Bool × Chunk)) : Prop :=
  ∀ r ∈ rs, ∀ bs, r.2.recv = .data bs → 1 ≤ bs.length ∧ bs.length ≤ sbsize

/-- From a connection that keeps `kept`, the copies stay inside the buffer exactly when the chunks
fit. -/
theorem MocSrv.Holds.inBounds_iff {f : σ → List UInt8 → ℕ → σ} {lost : σ → σ} {v : MocSrv σ}
    {kept : List UInt8} {rs : List (Bool × Chunk)} (hv : v.Holds kept) (hrs : RecvBounded rs) :
    InBounds (elRun (some sbsize) (returning f) lost v rs) ↔ Fits kept rs := by
  induction rs generalizing v kept with
  | nil => simp [elRun, Fits]
  | cons r rs ih =>
    obtain ⟨malloc, ⟨recv, behind⟩⟩ := r
    have hrest : RecvBounded rs := fun r hr => hrs r (List.mem_cons_of_mem _ hr)
    have hclosed : ∀ v : MocSrv σ, v.isOpen = false →
        elRun (some sbsize) (returning f) lost v rs = .ok v := by
      intro v hv
      cases rs <;> simp [elRun, hv]
    rw [elRun, if_pos hv.keeps.1]
    cases recv with
    | data bs =>
      obtain ⟨hpos, hmax⟩ := hrs _ (List.mem_cons_self ..) bs rfl
      rw [Fits]
      by_cases hroom : kept = [] ∨ kept.length + bs.length ≤ sbsize
      · obtain ⟨v', hv', hholds, -⟩ := elRoutine_data malloc f lost bs behind (some sbsize) hv hpos
          (exceeds_sbsize.mpr hmax) fun hne => exceeds_sbsize.mpr (hroom.resolve_left hne)
        rw [hv', ok_bind, ih hholds hrest]
        exact (and_iff_right hroom).symm
      · rw [not_or] at hroom
        have hover : exceeds (some sbsize) (kept.length + bs.length) = true := by
          rw [← Bool.not_eq_false, exceeds_sbsize]
          exact hroom.2
        rw [elRoutine_overflow malloc f lost bs behind hv hroom.1 hover, error_bind]
        simp [hroom.1, hroom.2]
    | eagain => exact ih hv hrest
    | etimedout => exact ih (v := { v with st := lost v.st }) ⟨hv.keeps, hv.isSome_iff⟩ hrest
    | eof =>
      have hend := hclosed { v with isOpen := false } rfl
      rw [elRoutine, ok_bind, hend]
      simp [Fits]
    | err =>
      have hend := hclosed { v with isOpen := false } rfl
      rw [elRoutine, ok_bind, hend]
      simp [Fits]

section
variable (f : σ → List UInt8 → ℕ → σ) (lost : σ → σ)

/-- In every state that the run reaches with a buffer allocated, the next chunk fits behind the
bytes in it. -/
def Inside (v : MocSrv σ) (rs : List (Bool × Chunk)) : Prop :=
  ∀ pre malloc bs behind post v', rs = pre ++ (malloc, ⟨.data bs, behind⟩) :: post →
    elRun (some sbsize) (returning f) lost v pre = .ok v' → v'.isOpen = true → v'.buf.isSome →
      v'.len + bs.length ≤ sbsize

variable {f lost} {v : MocSrv σ} {rs : List (Bool × Chunk)}

/-- A closed connection copies nothing any more. -/
theorem inside_of_closed (hv : v.isOpen = false) : Inside f lost v rs := by
  intro pre malloc bs behind post v' _ hrun hopen
  have hstop : elRun (some sbsize) (returning f) lost v pre = .ok v := by
    cases pre <;> simp [elRun, hv]
  rw [hstop] at hrun
  rw [← Except.ok.inj hrun, hv] at hopen
  cases hopen

/-- What a chunk that is received means for the copies. -/
theorem inside_cons {malloc : Bool} {r : Chunk} {v' : MocSrv σ} (hopen : v.isOpen = true)
    (hstep : elRoutine (some sbsize) malloc (returning f) lost v r = .ok v') :
    Inside f lost v ((malloc, r) :: rs) ↔
      (∀ bs, r.recv = .data bs → v.buf.isSome → v.len + bs.length ≤ sbsize) ∧
        Inside f lost v' rs := by
  constructor
  · intro h
    refine ⟨fun bs hr hbuf => ?_, fun pre m bs behind post w hrs hrun => ?_⟩
    · refine h [] malloc bs r.behind rs v ?_ rfl hopen hbuf
      rw [← hr]
      rfl
    · refine h ((malloc, r) :: pre) m bs behind post w (by rw [hrs]; rfl) ?_
      rwa [elRun, if_pos hopen, hstep, ok_bind]
  · rintro ⟨hhead, hrest⟩ pre m bs behind post w hrs hrun
    cases pre with
    | nil =>
      obtain ⟨hr, -⟩ := List.cons.inj hrs
      obtain ⟨-, rfl⟩ := Prod.mk.inj hr
      rw [← Except.ok.inj hrun]
      exact fun _ => hhead bs rfl
    | cons p pre =>
      obtain ⟨rfl, htail⟩ := List.cons.inj hrs
      rw [elRun, if_pos hopen, hstep, ok_bind] at hrun
      exact hrest pre m bs behind post w htail hrun

/-- From a connection that keeps `kept`, every copy is inside the buffer exactly when the chunks
fit. -/
theorem MocSrv.Holds.inside_iff {kept : List UInt8} (hv : v.Holds kept) (hrs : RecvBounded rs) :
    Inside f lost v rs ↔ Fits kept rs := by
  induction rs generalizing v kept with
  | nil => simp [Inside, Fits]
  | cons r rs ih =>
    obtain ⟨malloc, ⟨recv, behind⟩⟩ := r
    have hrest : RecvBounded rs := fun r hr => hrs r (List.mem_cons_of_mem _ hr)
    have hopen := hv.keeps.1
    cases recv with
    | data bs =>
      obtain ⟨hpos, hmax⟩ := hrs _ (List.mem_cons_self ..) bs rfl
      -- A chunk goes behind the kept bytes only when there are some; else it fills a new buffer.
      have hhead : (∀ ds, Recv.data bs = .data ds → v.buf.isSome → v.len + ds.length ≤ sbsize) ↔
          (kept = [] ∨ kept.length + bs.length ≤ sbsize) := by
        rw [or_iff_not_imp_left, ← ne_eq, ← hv.isSome_iff]
        constructor
        · intro h hbuf
          obtain ⟨buf, hb⟩ := Option.isSome_iff_exists.mp hbuf
          rw [← (hv.buf_eq hb).1]
          exact h bs rfl hbuf
        · rintro h ds hds hbuf
          cases hds
          obtain ⟨buf, hb⟩ := Option.isSome_iff_exists.mp hbuf
          rw [(hv.buf_eq hb).1]
          exact h hbuf
      rw [Fits]
      by_cases hroom : kept = [] ∨ kept.length + bs.length ≤ sbsize
      · obtain ⟨v', hv', hholds, -⟩ := elRoutine_data malloc f lost bs behind (some sbsize) hv hpos
          (exceeds_sbsize.mpr hmax) fun hne => exceeds_sbsize.mpr (hroom.resolve_left hne)
        rw [inside_cons hopen hv', hhead, ih hholds hrest]
      · -- The run stops here, but the state before the chunk was reached.
        simp only [hroom, false_and, iff_false]
        intro h
        refine hroom (hhead.mp fun ds hds hbuf => ?_)
        exact h [] malloc ds behind rs v (by rw [← hds]; rfl) rfl hopen hbuf
    | eagain =>
      rw [inside_cons hopen rfl, ih hv hrest]
      exact and_iff_right nofun
    | etimedout =>
      rw [inside_cons hopen rfl, ih (v := { v with st := lost v.st }) ⟨hv.keeps, hv.isSome_iff⟩ hrest]
      exact and_iff_right nofun
    | eof =>
      rw [inside_cons hopen rfl, Fits]
      exact iff_of_true ⟨nofun, inside_of_closed rfl⟩ trivial
    | err =>
      rw [inside_cons hopen rfl, Fits]
      exact iff_of_true ⟨nofun, inside_of_closed rfl⟩ trivial

end

/-- Over every stream, however `recv()` cuts it, the bytes in an allocated buffer leave room for the
next chunk, and so no copy leaves the buffer, exactly when each chunk that arrives behind the start
of a frame, or behind an illegal length word in the buffer, ends at most `SBSIZE` bytes from
there. -/
theorem elRun_inside_iff (f : σ → List UInt8 → ℕ → σ) (lost : σ → σ) (st : σ)
    (rs : List (Bool × Chunk)) (hrs : RecvBounded rs) :
    (Inside f lost (.new st) rs ↔ Fits [] rs) ∧
      (InBounds (elRun (some sbsize) (returning f) lost (.new st) rs) ↔ Fits [] rs) :=
  ⟨(MocSrv.new_holds st).inside_iff hrs, (MocSrv.new_holds st).inBounds_iff hrs⟩

/-- A part of a length word is kept. -/
theorem keptAfter_start {bs : List UInt8} (h : serverFramer.next bs = .incomplete) :
    keptAfter true [] bs = bs := by
  rw [keptAfter, List.nil_append, remain_incomplete h, h, if_neg (by simp)]

/-- The two parts of a frame of nine bytes. -/
def cutFrame : List (Bool × Chunk) :=
  [(true, ⟨.data [0, 0], [7]⟩), (true, ⟨.data [0, 9, 1, 2, 3, 4, 5], []⟩)]

theorem elRun_inside_cutFrame :
    Inside (fun st _ _ => st) id (.new ()) cutFrame ∧
      InBounds (elRun (some sbsize) (returning fun st _ _ => st) id (.new ()) cutFrame) := by
  have hrs : RecvBounded cutFrame := by
    intro r hr bs hbs
    simp only [cutFrame, List.mem_cons, List.not_mem_nil, or_false] at hr
    rcases hr with rfl | rfl <;> cases hbs <;> decide
  have hfits : Fits [] cutFrame := by
    refine ⟨Or.inl rfl, ?_, trivial⟩
    rw [keptAfter_start (by decide)]
    exact Or.inr (by decide)
  obtain ⟨hinside, hbounds⟩ := elRun_inside_iff (fun st _ _ => st) id () cutFrame hrs
  exact ⟨hinside.mpr hfits, hbounds.mpr hfits⟩

/-- One byte of a frame, and then as many as `recv()` was asked for. -/
theorem elRun_not_inside :
    ¬∀ rs, RecvBounded rs → Inside (fun st _ _ => st) id (.new ()) rs := by
  intro h
  obtain ⟨bs, hlen⟩ : ∃ bs : List UInt8, bs.length = sbsize :=
    ⟨List.replicate sbsize 0, List.length_replicate⟩
  have hrs : RecvBounded [(true, ⟨.data [0], []⟩), (true, ⟨.data bs, []⟩)] := by
    intro r hr ds hds
    simp only [List.mem_cons, List.not_mem_nil, or_false] at hr
    rcases hr with rfl | rfl <;> cases hds
    · decide
    · rw [hlen]
      decide
  obtain ⟨-, hroom, -⟩ := ((MocSrv.new_holds ()).inside_iff hrs).mp (h _ hrs)
  rw [keptAfter_start (by decide)] at hroom
  simp [hlen] at hroom

/-! ## Behind an illegal length word -/

/-- The messages that the event loop hands over of the chunks, when it keeps `kept`. -/
def handed : List UInt8 → List (List UInt8) → List (List UInt8)
  | _, [] => []
  | kept, bs :: cs => (allMessages (kept ++ bs)).1 ++ handed (keptAfter true kept bs) cs

/-- The chunks, each read on from `kept` or as the start of a new stream, bring no whole frame. An
illegal word in the server's own buffer hides all that comes behind it. -/
def Quiet : List UInt8 → List (List UInt8) → Prop
  | _, [] => True
  | kept, bs :: cs =>
    match serverFramer.next (kept ++ bs) with
    | .frame _ => False
    | .incomplete => Quiet (kept ++ bs) cs
    | .illegal => kept ≠ [] ∨ Quiet [] cs

/-- The chunk that completes the first illegal length word arrives while the connection keeps some
bytes, or no chunk behind it brings a whole frame. -/
def Ends : List UInt8 → List (List UInt8) → Prop
  | _, [] => True
  | kept, bs :: cs =>
    if serverFramer.next (remain serverFramer (kept ++ bs)) = .illegal then kept ≠ [] ∨ Quiet [] cs
    else Ends (remain serverFramer (kept ++ bs)) cs

theorem keptAfter_legal {kept bs : List UInt8}
    (h : serverFramer.next (remain serverFramer (kept ++ bs)) ≠ .illegal) :
    keptAfter true kept bs = remain serverFramer (kept ++ bs) := by
  rw [keptAfter, if_neg (by simp [h])]

theorem keptAfter_own {kept bs : List UInt8} (h : kept ≠ []) :
    keptAfter true kept bs = remain serverFramer (kept ++ bs) := by
  rw [keptAfter, if_neg (by simp [h])]

/-- An illegal front in the server's own buffer stays there. -/
theorem handed_illegal {kept : List UInt8} (h : serverFramer.next kept = .illegal)
    (cs : List (List UInt8)) : handed kept cs = [] := by
  have hne : kept ≠ [] := by
    rintro rfl
    cases h
  induction cs generalizing kept with
  | nil => rfl
  | cons bs cs ih =>
    have hmore := serverFramer.illegal_append kept bs h
    rw [handed, keptAfter_own hne, remain_illegal hmore, ih hmore (by simp [hne]), allMessages,
      messages, split_illegal hmore]
    rfl

theorem handed_eq_nil_iff {kept : List UInt8} (h : serverFramer.next kept = .incomplete)
    (cs : List (List UInt8)) : handed kept cs = [] ↔ Quiet kept cs := by
  induction cs generalizing kept with
  | nil => exact iff_of_true rfl trivial
  | cons bs cs ih =>
    rw [handed, Quiet, allMessages, messages]
    cases hnext : serverFramer.next (kept ++ bs) with
    | frame n =>
      rw [split_frame hnext]
      simp
    | incomplete =>
      have hkept : keptAfter true kept bs = kept ++ bs := by
        rw [keptAfter_legal] <;> rw [remain_incomplete hnext]
        rw [hnext]
        simp
      rw [split_incomplete hnext, hkept]
      exact ih hnext
    | illegal =>
      rw [split_illegal hnext]
      dsimp only [List.map_nil, List.nil_append]
      by_cases hne : kept = []
      · subst hne
        rw [keptAfter, remain_illegal hnext, if_pos ⟨rfl, Or.inl hnext⟩]
        simpa using ih h
      · rw [keptAfter_own hne, remain_illegal hnext]
        exact iff_of_true (handed_illegal hnext cs) (Or.inl hne)

/-- What is handed over of a stream with an illegal word is what stands before the word exactly when
the word ends it. -/
theorem handed_eq_iff {kept : List UInt8} (h : serverFramer.next kept = .incomplete)
    {cs : List (List UInt8)} (hill : (allMessages (kept ++ cs.flatten)).2 = none) :
    handed kept cs = (allMessages (kept ++ cs.flatten)).1 ↔ Ends kept cs := by
  induction cs generalizing kept with
  | nil =>
    rw [List.flatten_nil, List.append_nil, allMessages, messages, split_incomplete h] at hill
    cases hill
  | cons bs cs ih =>
    have hsplit : (allMessages (kept ++ bs)).2 =
        if serverFramer.next (remain serverFramer (kept ++ bs)) = .illegal then none
        else some (remain serverFramer (kept ++ bs)) := split_all (kept ++ bs)
    rw [List.flatten_cons, ← List.append_assoc] at hill ⊢
    rw [handed, Ends]
    split_ifs at hsplit ⊢ with hfront
    · have hsame : allMessages (kept ++ bs ++ cs.flatten) = allMessages (kept ++ bs) :=
        messages_append_of_none _ hsplit
      rw [hsame, List.append_right_eq_self]
      by_cases hne : kept = []
      · subst hne
        rw [keptAfter, if_pos ⟨rfl, Or.inl hfront⟩]
        simpa using handed_eq_nil_iff h cs
      · rw [keptAfter_own hne]
        exact iff_of_true (handed_illegal hfront cs) (Or.inl hne)
    · unfold allMessages at hill hsplit ⊢
      rw [messages_append _ hsplit] at hill ⊢
      rw [keptAfter_legal hfront, List.append_cancel_left_eq]
      exact ih (next_rest hsplit) hill

/-- The run of the event loop on segments of a stream. -/
theorem MocSrv.Holds.elRoutines_segments (lost : List (List UInt8) → List (List UInt8))
    {v : MocSrv (List (List UInt8))} {kept : List UInt8} {cs : List (List UInt8 × List UInt8)}
    (hv : v.Holds kept) (hcs : ∀ c ∈ cs, 1 ≤ c.1.length ∧ c.1.length ≤ sbsize)
    (hfits : Fits kept (cs.map fun c => (true, dataChunk c))) :
    ∃ v', elRoutines (some sbsize) true record lost v (cs.map dataChunk) = .ok v' ∧
      v'.st = v.st ++ handed kept (cs.map Prod.fst) := by
  induction cs generalizing v kept with
  | nil => exact ⟨v, rfl, (List.append_nil _).symm⟩
  | cons c cs ih =>
    obtain ⟨bs, behind⟩ := c
    obtain ⟨hpos, hmax⟩ := hcs _ (List.mem_cons_self ..)
    obtain ⟨hroom, hfits⟩ := hfits
    have hstep := elRoutine_data true (fun ms b n => ms ++ [b.take n]) lost bs behind (some sbsize) hv
      hpos (exceeds_sbsize.mpr hmax) fun hne => exceeds_sbsize.mpr (hroom.resolve_left hne)
    obtain ⟨v₁, hv₁, hholds, hst⟩ := hstep
    obtain ⟨v', hv', hst'⟩ := ih hholds (fun c hc => hcs c (List.mem_cons_of_mem _ hc)) hfits
    refine ⟨v', ?_, ?_⟩
    · rw [List.map_cons, elRoutines, if_pos hv.keeps.1]
      exact (congrArg (· >>= _) hv₁).trans hv'
    · have hmsgs : ∀ ms : List (List UInt8), ms.foldl (fun ms m => ms ++ [m]) v.st = v.st ++ ms := by
        simp [← List.flatMap_def]
      rw [hst', hst (fun ms m => ms ++ [m]) fun _ _ _ => rfl, hmsgs, List.append_assoc]
      rfl

/-- A stream reaches an illegal length word. However it is cut, the event loop stays inside its
buffer and hands over exactly the messages before that word, exactly when the chunks fit and the
word ends the stream: it was found in the server's own buffer, or the chunks behind it bring no whole
frame. -/
theorem elRoutines_ends_iff (lost : List (List UInt8) → List (List UInt8))
    (cs : List (List UInt8 × List UInt8)) (hcs : ∀ c ∈ cs, 1 ≤ c.1.length ∧ c.1.length ≤ sbsize)
    (hill : (allMessages (cs.map Prod.fst).flatten).2 = none) :
    (∃ v, elRoutines (some sbsize) true record lost (.new []) (cs.map dataChunk) = .ok v ∧
        v.st = (allMessages (cs.map Prod.fst).flatten).1) ↔
      Fits [] (cs.map fun c => (true, dataChunk c)) ∧ Ends [] (cs.map Prod.fst) := by
  have hnew : (MocSrv.new ([] : List (List UInt8))).Holds [] := MocSrv.new_holds []
  have hends : handed [] (cs.map Prod.fst) = (allMessages (cs.map Prod.fst).flatten).1 ↔
      Ends [] (cs.map Prod.fst) := handed_eq_iff rfl hill
  constructor
  · rintro ⟨v, hrun, hst⟩
    have hrs : RecvBounded (cs.map fun c => (true, dataChunk c)) := by
      intro r hr bs hbs
      obtain ⟨c, hc, rfl⟩ := List.mem_map.mp hr
      cases hbs
      exact hcs c hc
    have hfits : Fits [] (cs.map fun c => (true, dataChunk c)) := by
      have hbounds : InBounds (elRun (some sbsize) (returning fun ms b n => ms ++ [b.take n]) lost
          (.new []) (cs.map fun c => (true, dataChunk c))) := by
        rw [elRoutines_eq_elRun, List.map_map] at hrun
        exact (congrArg InBounds hrun).mpr (inBounds_ok v)
      exact (hnew.inBounds_iff hrs).mp hbounds
    obtain ⟨v', hrun', hst'⟩ := hnew.elRoutines_segments lost hcs hfits
    rw [hrun'] at hrun
    rw [← Except.ok.inj hrun, hst'] at hst
    exact ⟨hfits, hends.mp hst⟩
  · rintro ⟨hfits, hend⟩
    obtain ⟨v, hrun, hst⟩ := hnew.elRoutines_segments lost hcs hfits
    exact ⟨v, hrun, hst.trans (hends.mpr hend)⟩

/-- A frame whose length word is cut, and behind it an illegal word and one more frame. -/
def endedChunks : List (List UInt8 × List UInt8) :=
  [([0, 0], []), ([0, 9, 1, 2, 3, 4, 5, 0, 0, 0, 0], []), ([0, 0, 0, 9, 6, 7, 8, 9, 10], [])]

theorem allMessages_endedChunks :
    allMessages (endedChunks.map Prod.fst).flatten = ([[1, 2, 3, 4, 5]], none) := by
  have hframe : serverFramer.next (endedChunks.map Prod.fst).flatten = .frame 9 := by decide
  have hill : serverFramer.next ((endedChunks.map Prod.fst).flatten.drop 9) = .illegal := by decide
  rw [allMessages, messages, split_frame hframe, if_pos rfl, split_illegal hill]
  rfl

theorem elRoutines_endedChunks :
    ∃ v, elRoutines (some sbsize) true record id (.new []) (endedChunks.map dataChunk) = .ok v ∧
      v.st = [[1, 2, 3, 4, 5]] := by
  have hmsgs := allMessages_endedChunks
  have hpart : remain serverFramer ([] ++ [0, 0]) = [0, 0] := remain_incomplete (by decide)
  have hfront : remain serverFramer ([0, 0] ++ [0, 9, 1, 2, 3, 4, 5, 0, 0, 0, 0]) = [0, 0, 0, 0] := by
    have hframe : serverFramer.next ([0, 0] ++ [0, 9, 1, 2, 3, 4, 5, 0, 0, 0, 0]) = .frame 9 := by
      decide
    rw [remain_frame hframe]
    exact remain_illegal (by decide)
  -- The word is found in the server's own buffer, which has the start of the frame before it.
  have hends : Ends [] (endedChunks.map Prod.fst) := by
    rw [endedChunks, List.map_cons, Ends, hpart, if_neg (by decide), List.map_cons, Ends, hfront,
      if_pos (by decide)]
    exact Or.inl (by simp)
  obtain ⟨v, hrun, hst⟩ := (elRoutines_ends_iff id endedChunks (by decide) (by rw [hmsgs])).mpr
    ⟨fits_of_length_le (by decide), hends⟩
  exact ⟨v, hrun, by rw [hst, hmsgs]⟩

/-- An illegal word that is a chunk of its own, and a frame in the next one. -/
def notEndedChunks : List (List UInt8 × List UInt8) :=
  [([0, 0, 0, 0], []), ([0, 0, 0, 9, 1, 2, 3, 4, 5], [])]

theorem elRoutines_not_ended :
    ¬∀ cs : List (List UInt8 × List UInt8), (∀ c ∈ cs, 1 ≤ c.1.length ∧ c.1.length ≤ sbsize) →
      (allMessages (cs.map Prod.fst).flatten).2 = none →
      ∃ v, elRoutines (some sbsize) true record id (.new []) (cs.map dataChunk) = .ok v ∧
        v.st = (allMessages (cs.map Prod.fst).flatten).1 := by
  intro h
  have hill : serverFramer.next (notEndedChunks.map Prod.fst).flatten = .illegal := by decide
  have hmsgs : allMessages (notEndedChunks.map Prod.fst).flatten = ([], none) := by
    rw [allMessages, messages, split_illegal hill]
    rfl
  obtain ⟨v, hrun, hst⟩ := h notEndedChunks (by decide) (by rw [hmsgs])
  obtain ⟨v', hrun', hst'⟩ := (MocSrv.new_holds []).elRoutines_segments id
    (show ∀ c ∈ notEndedChunks, 1 ≤ c.1.length ∧ c.1.length ≤ sbsize by decide)
    (fits_of_length_le (by decide))
  rw [hrun'] at hrun
  -- The second chunk is read as the start of a new stream.
  have hframe : serverFramer.next ([] ++ [0, 0, 0, 9, 1, 2, 3, 4, 5]) = .frame 9 := by decide
  have hquiet : ¬Quiet [] (notEndedChunks.map Prod.fst) := by
    have hfirst : serverFramer.next ([] ++ [0, 0, 0, 0]) = .illegal := by decide
    simp only [notEndedChunks, List.map_cons, List.map_nil, Quiet, hfirst, hframe, ne_eq,
      not_true_eq_false, or_self, not_false_eq_true]
  rw [← Except.ok.inj hrun, hst', hmsgs] at hst
  exact hquiet ((handed_eq_nil_iff rfl _).mp (List.append_eq_nil_iff.mp hst).2)

end Moc
