import Moc.Client.CallbackThread
import Moc.Client.Decode
import Moc.Client.Segments
import Moc.Client.Session

/-!
# Pushes from the server to their callbacks

What `base_msg_new` of `plugin/private/base_internal.c` packs comes to a client with an event loop among
the answers to its requests, cut by `recv()` at any place. `pushes_called` follows the pushes through
`msparse_buf`, `msparse_msg`, the queue and the callback thread: the callbacks registered for their
commands are called with their datasets, in the order in which the server sent them.
-/

open Bytes Memory Framing Runs Handoff

namespace Moc

variable {σ HDF : Type}

/-! ## A handler along a stream -/

/-- The handler takes the messages in turn and goes from `st` to `st'`, whatever stands behind each
message in its block. -/
def Serves (handle : MsgHandler σ) : σ → List (List UInt8) → σ → Prop
  | st, [], st' => st = st'
  | st, msg :: msgs, st' => ∃ st₁, (∀ block n, block.take n = msg → n ≤ block.length →
      handle st block n = .ok st₁) ∧ Serves handle st₁ msgs st'

theorem serves_append {handle : MsgHandler σ} {st st' : σ} {msgs msgs' : List (List UInt8)} :
    Serves handle st (msgs ++ msgs') st' ↔
      ∃ st₁, Serves handle st msgs st₁ ∧ Serves handle st₁ msgs' st' := by
  induction msgs generalizing st with
  | nil => simp [Serves]
  | cons msg msgs ih =>
    simp only [List.cons_append, Serves, ih]
    constructor
    · rintro ⟨st₁, hone, st₂, hmsgs, hrest⟩
      exact ⟨st₂, ⟨st₁, hone, hmsgs⟩, hrest⟩
    · rintro ⟨st₂, ⟨st₁, hone, hmsgs⟩, hrest⟩
      exact ⟨st₁, hone, st₂, hmsgs, hrest⟩

/-- `msparse_buf` gives the handler the messages of the bytes it is given, and keeps what remains. -/
theorem msparseBuf_serves {cap : Option ℕ} {handle : MsgHandler σ} (v : MocSrv σ)
    (block : List UInt8) (len : ℕ) (hpos : 0 < len) (hlen : len ≤ block.length)
    (hopen : v.isOpen = true) (hexcess : v.excess = 0) (hcap : exceeds cap len = false)
    {rest : List UInt8} (hrest : (allMessages (block.take len)).2 = some rest) {st' : σ}
    (hserves : Serves handle v.st (allMessages (block.take len)).1 st') :
    ∃ v', msparseBuf cap true handle v block len = .ok v' ∧ v'.st = st' ∧ v'.Holds rest := by
  induction hn : len using Nat.strong_induction_on generalizing v block len with
  | _ k ih =>
    subst hn
    have htake : (block.take len).length = len := List.length_take_of_le hlen
    have hne : block.take len ≠ [] := List.ne_nil_of_length_pos (by omega)
    unfold allMessages messages at hrest hserves
    cases hnext : serverFramer.next (block.take len) with
    | illegal =>
      rw [split_illegal hnext] at hrest
      simp at hrest
    | incomplete =>
      rw [split_incomplete hnext] at hrest hserves
      obtain rfl : block.take len = rest := Option.some.inj hrest
      obtain rfl : v.st = st' := hserves
      rw [serverFramer_next_take hlen] at hnext
      split_ifs at hnext with hill hget
      rw [msparseBuf, if_neg hill, if_pos hget]
      cases hbuf : v.buf with
      | none =>
        refine ⟨{ v with
          buf := some (block.take len), len := len, pktsize := msTotaltoget block len },
          by simp [hcap], rfl, ?_⟩
        refine MocSrv.holds_some hopen hexcess rfl htake.ge ?_ hne
        rw [List.take_take, Nat.min_self]
      | some buf =>
        exact ⟨{ v with buf := some block, len := len, pktsize := msTotaltoget block len }, rfl, rfl,
          MocSrv.holds_some hopen hexcess rfl hlen rfl hne⟩
    | frame n =>
      obtain ⟨hn, hle⟩ := serverFramer.frame_le _ n hnext
      rw [htake] at hle
      rw [split_frame hnext, if_pos rfl] at hrest hserves
      obtain ⟨st₁, hone, hserves⟩ := hserves
      -- The message is the same in the block and in the received bytes.
      have hmsg : (block.drop 4).take (n - 4) = ((block.take len).take n).drop 4 := by
        rw [List.take_take, Nat.min_eq_left hle, List.drop_take]
      have hhandle : handle v.st (block.drop 4) (n - 4) = .ok st₁ :=
        hone (block.drop 4) (n - 4) hmsg (by rw [List.length_drop]; omega)
      rw [msparseBuf_frame hlen hnext hexcess, hhandle]
      dsimp only
      by_cases hmore : n < len
      · -- The leftovers, moved to the front, are the received bytes behind the message.
        have hmoved : ((block.drop n).take (len - n) ++ block.drop (len - n)).take (len - n) =
            (block.take len).drop n := by
          rw [List.take_left' (by simp; omega), List.drop_take]
        rw [if_pos hmore]
        exact ih (len - n) (by omega) { v with len := len - n, st := st₁ }
          ((block.drop n).take (len - n) ++ block.drop (len - n)) (len - n) (by omega)
          (by simp; omega) hopen hexcess (exceeds_of_le (by omega) hcap)
          (by rw [hmoved]; exact hrest) (by rw [hmoved]; exact hserves) rfl
      · have hnil : (block.take len).drop n = [] := List.drop_eq_nil_of_le (by omega)
        rw [hnil, split_incomplete rfl] at hrest hserves
        obtain rfl : [] = rest := Option.some.inj hrest
        rw [if_neg hmore]
        exact ⟨_, rfl, MocSrv.release_st.trans hserves, MocSrv.release_holds hopen hexcess⟩

/-- One chunk that fits behind what the connection keeps. -/
theorem elRoutine_serves {handle : MsgHandler σ} (lost : σ → σ) {v : MocSrv σ} {kept : List UInt8}
    {c : List UInt8 × List UInt8} (hv : v.Holds kept) (hc : 1 ≤ c.1.length ∧ c.1.length ≤ sbsize)
    (hroom : kept = [] ∨ kept.length + c.1.length ≤ sbsize) {rest : List UInt8}
    (hrest : (allMessages (kept ++ c.1)).2 = some rest) {st' : σ}
    (hserves : Serves handle v.st (allMessages (kept ++ c.1)).1 st') :
    ∃ v', elRoutine (some sbsize) true handle lost v (dataChunk c) = .ok v' ∧ v'.st = st' ∧
      v'.Holds rest := by
  obtain ⟨bs, behind⟩ := c
  obtain ⟨hopen, hexcess, -⟩ := hv.keeps
  simp only [elRoutine, dataChunk]
  dsimp only at hc hroom hrest hserves
  cases hb : v.buf with
  | none =>
    obtain rfl : kept = [] := by
      by_contra hne
      simpa [hb] using hv.isSome_iff.mpr hne
    have htake : (bs ++ behind).take bs.length = [] ++ bs := by simp
    rw [← htake] at hrest hserves
    exact msparseBuf_serves v (bs ++ behind) bs.length hc.1 (by simp) hopen hexcess
      (exceeds_sbsize.mpr hc.2) hrest hserves
  | some buf =>
    have hne : kept ≠ [] := hv.isSome_iff.mp (by simp [hb])
    obtain ⟨hlen, hle, hkept⟩ := hv.buf_eq hb
    have hfits : exceeds (some sbsize) (v.len + bs.length) = false := by
      rw [hlen]
      exact exceeds_sbsize.mpr (hroom.resolve_left hne)
    have htake : (buf.take v.len ++ bs ++ buf.drop (v.len + bs.length)).take
        (v.len + bs.length) = kept ++ bs := by
      rw [List.take_left' (by simp; omega), hkept]
    rw [← htake] at hrest hserves
    dsimp only
    rw [if_neg (by omega), if_neg (by rw [hfits]; simp)]
    exact msparseBuf_serves
      { v with
        buf := some (buf.take v.len ++ bs ++ buf.drop (v.len + bs.length))
        len := v.len + bs.length }
      (buf.take v.len ++ bs ++ buf.drop (v.len + bs.length)) (v.len + bs.length) (by omega)
      (by simp; omega) hopen hexcess hfits hrest hserves

/-- The event loop, on chunks that fit, gives the handler the messages of a stream without an illegal
length word. -/
theorem elRoutines_serves {handle : MsgHandler σ} (lost : σ → σ) {v : MocSrv σ} {kept : List UInt8}
    {cs : List (List UInt8 × List UInt8)} (hv : v.Holds kept)
    (hinc : serverFramer.next kept = .incomplete)
    (hcs : ∀ c ∈ cs, 1 ≤ c.1.length ∧ c.1.length ≤ sbsize)
    (hfits : Fits kept (cs.map fun c => (true, dataChunk c))) {rest : List UInt8}
    (hrest : (allMessages (kept ++ (cs.map Prod.fst).flatten)).2 = some rest) {st' : σ}
    (hserves : Serves handle v.st (allMessages (kept ++ (cs.map Prod.fst).flatten)).1 st') :
    ∃ v', elRoutines (some sbsize) true handle lost v (cs.map dataChunk) = .ok v' ∧ v'.st = st' ∧
      v'.Holds rest := by
  induction cs generalizing v kept with
  | nil =>
    simp only [List.map_nil, List.flatten_nil, List.append_nil] at hrest hserves
    unfold allMessages messages at hrest hserves
    rw [split_incomplete hinc] at hrest hserves
    obtain rfl : kept = rest := Option.some.inj hrest
    exact ⟨v, rfl, hserves, hv⟩
  | cons c cs ih =>
    simp only [List.map_cons, List.flatten_cons, ← List.append_assoc] at hrest hserves
    obtain ⟨hroom, hfits⟩ := hfits
    -- The stream never ends at an illegal front, so neither does what has come of it so far.
    obtain ⟨rest₁, hrest₁⟩ : ∃ rest₁, (allMessages (kept ++ c.1)).2 = some rest₁ := by
      cases hm : (allMessages (kept ++ c.1)).2 with
      | none =>
        unfold allMessages at hm hrest
        rw [messages_append_of_none _ hm, hm] at hrest
        cases hrest
      | some rest₁ => exact ⟨rest₁, rfl⟩
    have hkept : keptAfter true kept c.1 = rest₁ := by
      have hsplit : (allMessages (kept ++ c.1)).2 =
          if serverFramer.next (remain serverFramer (kept ++ c.1)) = .illegal then none
          else some (remain serverFramer (kept ++ c.1)) := split_all (kept ++ c.1)
      rw [hrest₁] at hsplit
      split_ifs at hsplit with hfront
      rw [keptAfter_legal hfront]
      exact (Option.some.inj hsplit).symm
    have hmore : allMessages (kept ++ c.1 ++ (cs.map Prod.fst).flatten) =
        ((allMessages (kept ++ c.1)).1 ++ (allMessages (rest₁ ++ (cs.map Prod.fst).flatten)).1,
          (allMessages (rest₁ ++ (cs.map Prod.fst).flatten)).2) := messages_append _ hrest₁
    rw [hmore] at hrest hserves
    obtain ⟨st₁, hone, hserves⟩ := serves_append.mp hserves
    obtain ⟨v₁, hv₁, rfl, hholds⟩ :=
      elRoutine_serves lost hv (hcs c List.mem_cons_self) hroom hrest₁ hone
    rw [hkept] at hfits
    obtain ⟨v', hv', hst', hholds'⟩ := ih hholds (next_rest hrest₁)
      (fun c hc => hcs c (List.mem_cons_of_mem _ hc)) hfits hrest hserves
    refine ⟨v', ?_, hst', hholds'⟩
    rw [List.map_cons, elRoutines, if_pos hv.keeps.1, hv₁, ok_bind, hv']

/-! ## What the server sends -/

/-- What a server sends to a client with an event loop: the push of a command with a dataset, or the
answer to the request `id`. `node` is the dataset with the command in it, and `text` its text. -/
inductive Downstream (HDF : Type) where
  | push (cmd : List UInt8) (datanode node : HDF) (text : List UInt8)
  | answer (id : ℕ) (f : ReplyFrame)

namespace Downstream

/-- The bytes on the wire. -/
def bytes : Downstream HDF → List UInt8
  | push _ _ _ text => (ReplyFrame.long 10000 text).bytes 0
  | answer id f => f.bytes id

/-- The library makes the node and its text, and the text is not cut; an answer has the id of a
request and is no error, in which the client looks for a dataset. -/
def Sound (H : PushLib HDF) : Downstream HDF → Prop
  | push cmd datanode node text =>
    H.setAttr (H.setValue datanode "_Reserve" (ascii "moc")) "_Reserve" (ascii "cmd") cmd =
      some node ∧ H.toHdfLib.Whole node text
  | answer id f => 1 ≤ id ∧ id < 2^32 ∧ f.code < 2^32 ∧ (∀ c, f ≠ .error c) ∧
      ∀ reply text, f = .long reply text → 0 ∉ text

/-- What a push of the module is to the callback thread. -/
def entry (H : PushLib HDF) (ename : List UInt8) : Downstream HDF → Option (MsqueueEntry HDF)
  | push cmd datanode _ _ => some ⟨ename, cmd, H.removeTree datanode "_Reserve"⟩
  | answer _ _ => none

/-- The frame has a legal length word. -/
theorem legal {H : PushLib HDF} {d : Downstream HDF} (h : d.Sound H) : LegalFrame d.bytes := by
  cases d with
  | push cmd datanode node text =>
    have hzero : 0 < 2^32 := by norm_num
    have hcode : (ReplyFrame.long 10000 text).code < 2^32 := show 10000 < 2^32 by norm_num
    obtain ⟨hword, hmin, hmax⟩ := ReplyFrame.word_length hzero hcode
    rw [hword] at hmin hmax
    exact ⟨hmin, hmax, hword⟩
  | answer id f =>
    obtain ⟨-, hid, hcode, -⟩ := h
    obtain ⟨hword, hmin, hmax⟩ := ReplyFrame.word_length hid hcode
    rw [hword] at hmin hmax
    exact ⟨hmin, hmax, hword⟩

end Downstream

/-- `msparse_msg` with the request counter as the main thread has it when the message is handled: `gs`
gives it for every message. -/
def countedMsg (H : PushLib HDF) (gs : ℕ → ℕ) : MsgHandler (ℕ × MsState HDF) := fun s buf len => do
  let (st, _) ← msparseMsg H (gs s.1) true s.2 buf len
  return (s.1 + 1, st)

section
variable {H : PushLib HDF} {g : ℕ} {st : MsState HDF}

/-- `msparse_msg` queues a push, whatever the request counter is. -/
theorem msparseMsg_push {cmd : List UInt8} {node : HDF} {text : List UInt8}
    (htext : H.toHdfLib.Whole node text) (behind : List UInt8)
    (hcmd : pushCmd (H.getAttr node "_Reserve") = some cmd) :
    msparseMsg H g true st (((ReplyFrame.long 10000 text).bytes 0).drop 4 ++ behind)
        (((ReplyFrame.long 10000 text).bytes 0).length - 4) =
      .ok ({ st with
        callbackqueue := st.callbackqueue ++ [⟨st.evt.ename, cmd, H.removeTree node "_Reserve"⟩]
        callbacksync := st.callbacksync + 1 }, none) := by
  let f := (ReplyFrame.long 10000 text).toRepFrame 0 (by norm_num) (show 10000 < 2^32 by norm_num)
  have hbytes : (ReplyFrame.long 10000 text).bytes 0 = f.bytes := ReplyFrame.bytes_eq _ _ _ _
  -- The words at the front are those of a push: no id, and the code 10000.
  have hloadid : load32 (((ReplyFrame.long 10000 text).bytes 0).drop 4 ++ behind) 0 = .ok 0 := by
    rw [hbytes]
    exact RepFrame.load_msg_id _ _
  have hloadreply :
      load32 (((ReplyFrame.long 10000 text).bytes 0).drop 4 ++ behind) 4 = .ok 10000 := by
    rw [hbytes]
    exact RepFrame.load_msg_reply _ _
  have hsize : ((ReplyFrame.long 10000 text).bytes 0).length =
      16 + (20 + min 65024 (text.length + 1)) := by
    rw [ReplyFrame.bytes, longFrame]
    simp [length_packedVal]
    omega
  have hlen := htext.length_le
  -- Behind them stands the packed node, which has not been cut.
  have hunpack (len : ℕ) :
      unpackHdf H.toHdfLib (((ReplyFrame.long 10000 text).bytes 0).drop 4 ++ behind) 12 len =
        .ok (20 + min 65024 (text.length + 1), node) := by
    rw [ReplyFrame.long_msg_append, unpackHdf_packedVal H.toHdfLib (by simp)
      (H.writeString_nul _ _ htext.write), List.take_of_length_le (by omega), htext.read]
  unfold msparseMsg
  rw [if_neg (by omega), hloadid, ok_bind, hloadreply, ok_bind]
  dsimp only
  rw [if_pos ⟨rfl, rfl⟩, if_neg (by omega), if_neg (by decide), hunpack, ok_bind]
  dsimp only
  rw [if_neg (by omega), hcmd]
  rfl

/-- `msparse_msg` on an answer, old or not, queues nothing, and leaves the module its name. -/
theorem msparseMsg_answer_sound (g : ℕ) (st : MsState HDF) {id : ℕ} {f : ReplyFrame}
    (h : (Downstream.answer id f : Downstream HDF).Sound H) :
    ∃ st' err, st'.callbackqueue = st.callbackqueue ∧ st'.evt.ename = st.evt.ename ∧
      ∀ behind, msparseMsg H g true st ((f.bytes id).drop 4 ++ behind) ((f.bytes id).length - 4) =
        .ok (st', err) := by
  obtain ⟨hpos, hid, hcode, herror, hnul⟩ := h
  by_cases hg : g ≤ id
  · cases f with
    | mini reply =>
      exact ⟨{ st with mainsync := st.mainsync + 1 }, none, rfl, rfl, fun behind =>
        msparseMsg_mini H true st behind hid hcode hg hpos⟩
    | error c => exact absurd rfl (herror c)
    | long reply text =>
      exact ⟨{ st with
        evt := { st.evt with hdfrcv := H.readString H.init (text.take 65024) }
        mainsync := st.mainsync + 1 }, none, rfl, rfl, fun behind =>
        msparseMsg_long H true st behind hid hcode hg hpos (hnul reply text rfl)⟩
  · -- The answer is to a request that the main thread has given up.
    refine ⟨st, some ⟨nerrAssert,
      ascii "id not match " ++ Decimal.print g ++ ascii " " ++ Decimal.print id⟩, rfl, rfl,
      fun behind => ?_⟩
    have hlen : (f.bytes id).length - 4 = 8 + f.payload.length := by
      rw [f.bytes_eq id hid hcode, RepFrame.length_bytes]
      show 12 + f.payload.length - 4 = 8 + f.payload.length
      omega
    have hloadid : load32 ((f.bytes id).drop 4 ++ behind) 0 = .ok id := by
      rw [f.bytes_eq id hid hcode]
      exact RepFrame.load_msg_id _ _
    have hloadreply : load32 ((f.bytes id).drop 4 ++ behind) 4 = .ok f.code := by
      rw [f.bytes_eq id hid hcode]
      exact RepFrame.load_msg_reply _ _
    unfold msparseMsg
    rw [hlen, if_neg (by omega), hloadid, ok_bind, hloadreply, ok_bind]
    dsimp only
    rw [if_neg (by omega), if_pos (by omega)]
    rfl

end

/-! ## The stream -/

/-- The messages of a stream of legal frames. -/
theorem allMessages_flatten {frames : List (List UInt8)} (hlegal : ∀ f ∈ frames, LegalFrame f) :
    allMessages frames.flatten = (frames.map (·.drop 4), some []) := by
  induction frames with
  | nil =>
    unfold allMessages messages
    rw [List.flatten_nil, split_incomplete rfl, List.map_nil]
  | cons f frames ih =>
    have hf := hlegal f List.mem_cons_self
    have hrest := ih fun g hg => hlegal g (List.mem_cons_of_mem f hg)
    unfold allMessages messages at hrest ⊢
    have hmsgs := congrArg Prod.fst hrest
    have htail := congrArg Prod.snd hrest
    dsimp only at hmsgs htail
    rw [List.flatten_cons, split_frame (hf.next_append frames.flatten), if_pos rfl, List.drop_left,
      List.take_left]
    simp only [List.map_cons, hmsgs, htail]

/-- A block that starts with a message. -/
theorem eq_append_of_take {block msg : List UInt8} {n : ℕ} (h : block.take n = msg)
    (hn : n ≤ block.length) : ∃ behind, block = msg ++ behind ∧ n = msg.length := by
  rw [← h]
  exact ⟨block.drop n, (List.take_append_drop n block).symm, (List.length_take_of_le hn).symm⟩

section
variable {H : PushLib HDF} (gs : ℕ → ℕ)

/-- The handler on one frame. -/
theorem countedMsg_sound (hres : H.Reserves) (n : ℕ) (st : MsState HDF) {d : Downstream HDF}
    (hd : d.Sound H) :
    ∃ st', st'.callbackqueue = st.callbackqueue ++ (d.entry H st.evt.ename).toList ∧
      st'.evt.ename = st.evt.ename ∧
      ∀ block len, block.take len = d.bytes.drop 4 → len ≤ block.length →
        countedMsg H gs (n, st) block len = .ok (n + 1, st') := by
  cases d with
  | push cmd datanode node text =>
    obtain ⟨hnode, htext⟩ := hd
    obtain ⟨hcmd, htree⟩ := hres.push hnode
    refine ⟨{ st with
      callbackqueue := st.callbackqueue ++ [⟨st.evt.ename, cmd, H.removeTree datanode "_Reserve"⟩]
      callbacksync := st.callbacksync + 1 }, rfl, rfl, fun block len htake hlen => ?_⟩
    obtain ⟨behind, rfl, rfl⟩ := eq_append_of_take htake hlen
    rw [countedMsg, Downstream.bytes, List.length_drop,
      msparseMsg_push htext behind hcmd, htree]
    rfl
  | answer id f =>
    obtain ⟨st', err, hqueue, hname, hmsg⟩ := msparseMsg_answer_sound (gs n) st hd
    refine ⟨st', ?_, hname, fun block len htake hlen => ?_⟩
    · rw [hqueue]
      exact (List.append_nil _).symm
    · obtain ⟨behind, rfl, rfl⟩ := eq_append_of_take htake hlen
      rw [countedMsg, Downstream.bytes, List.length_drop, hmsg]
      rfl

/-- The handler on the frames of a stream. -/
theorem serves_downstream (hres : H.Reserves) {ds : List (Downstream HDF)}
    (hds : ∀ d ∈ ds, d.Sound H) (n : ℕ) (st : MsState HDF) :
    ∃ st', Serves (countedMsg H gs) (n, st) (ds.map fun d => d.bytes.drop 4) (n + ds.length, st') ∧
      st'.callbackqueue = st.callbackqueue ++ ds.filterMap (Downstream.entry H st.evt.ename) := by
  induction ds generalizing n st with
  | nil => exact ⟨st, rfl, (List.append_nil _).symm⟩
  | cons d ds ih =>
    obtain ⟨st₁, hqueue₁, hname₁, hone⟩ := countedMsg_sound gs hres n st
      (hds d List.mem_cons_self)
    obtain ⟨st', hserves, hqueue⟩ := ih (fun d hd => hds d (List.mem_cons_of_mem _ hd)) (n + 1) st₁
    refine ⟨st', ⟨(n + 1, st₁), hone, ?_⟩, ?_⟩
    · rw [List.length_cons, Nat.add_comm ds.length 1, ← Nat.add_assoc]
      exact hserves
    · rw [hqueue, hqueue₁, hname₁, List.append_assoc]
      cases hentry : d.entry H st.evt.ename <;> simp [hentry]

end

/-! ## To the callbacks -/

/-- The call that a push of the module brings, when a callback is registered for it. -/
def Downstream.call (H : PushLib HDF) (cbkh : Cbkh) (ename : List UInt8) :
    Downstream HDF → Option (ℕ × HDF)
  | push cmd datanode _ _ => (mcbkFind cbkh (cString ename) (cString cmd)).map fun c =>
      (c.callback, H.removeTree datanode "_Reserve")
  | answer _ _ => none

theorem callsOf_entries (H : PushLib HDF) (cbkh : Cbkh) (ename : List UInt8)
    (ds : List (Downstream HDF)) :
    callsOf cbkh (ds.filterMap (Downstream.entry H ename)) =
      ds.filterMap (Downstream.call H cbkh ename) := by
  rw [callsOf, List.filterMap_filterMap]
  refine congrArg (List.filterMap · ds) (funext fun d => ?_)
  cases d <;> rfl

/-- Two pushes of the command `c`, and an answer between them. -/
def sampleDownstream : List (Downstream (Option (List UInt8) × List UInt8)) :=
  [.push [99] (none, [100]) (some [99], [100]) [2, 99, 1, 100], .answer 1 (.mini repOk),
    .push [99] (none, [101]) (some [99], [101]) [2, 99, 1, 101]]

/-- Their bytes in two chunks, cut inside the first push. -/
def sampleDownChunks : List (List UInt8 × List UInt8) :=
  [((sampleDownstream.map Downstream.bytes).flatten.take 30, [7]),
    ((sampleDownstream.map Downstream.bytes).flatten.drop 30, [])]

theorem sampleDownstream_sound : ∀ d ∈ sampleDownstream, d.Sound reserveHdf := by
  intro d hd
  rcases List.mem_cons.mp hd with rfl | hd
  · exact ⟨by decide, by decide, by decide, by decide⟩
  rcases List.mem_cons.mp hd with rfl | hd
  · exact ⟨by decide, by decide, by decide, by simp, by simp⟩
  obtain rfl := List.mem_singleton.mp hd
  exact ⟨by decide, by decide, by decide, by decide⟩

/-- The pushes are queued, the callbacks called, and the threads ended. -/
def pushActs : List (ClientAct (Option (List UInt8) × List UInt8)) :=
  [.select [⟨[97], [99], (none, [100])⟩, ⟨[97], [99], (none, [101])⟩]] ++
    List.replicate 8 .eventLoop ++ List.replicate 14 (.callback someTime) ++
    [.main, .eventLoop, .main, .main, .wake .timedOut] ++ List.replicate 4 (.callback someTime) ++
    [.main]

end Moc
