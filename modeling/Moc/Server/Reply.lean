import Moc.Server.State

/-!
# Replies

The reply half of `server/tcp.c`, and `reply_trigger` of `server/syscmd.c`. A frame is its length,
the request id as the request record holds it, the reply code, and for a long reply the size of the
value and the value.
-/

open Bytes Memory

namespace Moc

variable {ι HDF : Type}

/-- The 12 bytes of `tcp_reply_mini`. -/
def miniFrame (id reply : ℕ) : List UInt8 := be32 12 ++ le32 id ++ be32 reply

/-- The 16 bytes of `rep_send_error`. -/
def errorFrame (id code : ℕ) : List UInt8 := be32 16 ++ le32 id ++ be32 repErr ++ be32 code

/-- The frame of `tcp_reply_long` around a value that is not `NULL`. -/
def longFrame (id reply : ℕ) (val : List UInt8) : List UInt8 :=
  be32 (16 + val.length) ++ le32 id ++ be32 reply ++ be32 val.length ++ val

@[simp] theorem length_miniFrame (id reply : ℕ) : (miniFrame id reply).length = 12 := by
  simp [miniFrame]

@[simp] theorem length_longFrame (id reply : ℕ) (val : List UInt8) :
    (longFrame id reply val).length = 16 + val.length := by
  simp [longFrame]
  omega

/-- A frame that answers the request `id` with `code`. -/
def AnswerFrame (id code : ℕ) (frame : List UInt8) : Prop :=
  frame = miniFrame id code ∨ ∃ val, frame = longFrame id code val

/-- A frame given whole to `send()` on the descriptor `fd`, for the connection `meant`. -/
def sendFrame (w : World ι HDF) (fd : ℤ) (meant : ℕ) (frame : List UInt8) : World ι HDF :=
  { w with sent := w.sent ++ [⟨fd, meant, w.files fd, frame⟩] }

/-- `rep_send`, when the kernel takes the whole frame. -/
def repSend (w : World ι HDF) (req : ReqInfo) (frame : List UInt8) : World ι HDF :=
  sendFrame w req.fd req.tcpsock frame

/-- `tcp_reply_mini` -/
def tcpReplyMini (w : World ι HDF) (req : ReqInfo) (reply : ℕ) : World ι HDF :=
  repSend w req (miniFrame req.id reply)

/-- `tcp_reply_err` -/
def tcpReplyErr (w : World ι HDF) (req : ReqInfo) (code : ℕ) : World ι HDF :=
  repSend w req (errorFrame req.id code)

/-- `tcp_reply_long` -/
def tcpReplyLong (w : World ι HDF) (req : ReqInfo) (reply : ℕ) (val : Option (List UInt8)) :
    World ι HDF :=
  match val with
  | none => tcpReplyMini w req reply
  | some val => repSend w req (longFrame req.id reply val)

/-- `reply_trigger`; `calloc` says whether the packing buffer is granted. Besides the server it
returns the function's result. -/
def replyTrigger (H : HdfLib HDF) (calloc : Bool) (w : World ι HDF) (q : QueueEntry HDF)
    (reply : ℕ) : Except Fault (World ι HDF × Bool) := do
  if ¬ H.objChild q.hdfsnd then return (tcpReplyMini w q.req reply, true)
  if ¬ calloc then return (tcpReplyMini w q.req repErrMem, false)
  let (buf, vsize) ← packHdf H q.hdfsnd (List.replicate maxPacketLen 0) 0 maxPacketLen
  if vsize = 0 then return (tcpReplyMini w q.req repErrPack, false)
  return (tcpReplyLong w q.req reply (some (buf.take vsize)), true)

/-! ## What a reply keeps of a dataset -/

/-- Without a text form the dataset is not packed, and the client is told so. -/
theorem replyTrigger_unwritten {H : HdfLib HDF} (w : World ι HDF) {q : QueueEntry HDF} (reply : ℕ)
    (hchild : H.objChild q.hdfsnd = true) (hnone : H.writeString q.hdfsnd = none) :
    replyTrigger H true w q reply = .ok (tcpReplyMini w q.req repErrPack, false) := by
  simp [replyTrigger, hchild, packHdf, hnone]

/-- `pack_hdf` fails exactly on a dataset without a text form, which `reply_trigger` answers with
`REP_ERR_PACK`. Of any other it packs the text to its 65024th byte, so the text comes back exactly
when it is no longer than that. -/
theorem packHdf_recovers (H : HdfLib HDF) (hdf : HDF) (buf : List UInt8)
    (hbuf : buf.length = maxPacketLen) :
    match H.writeString hdf with
    | none => packHdf H hdf buf 0 maxPacketLen = .ok (buf, 0) ∧
      ∀ {ι : Type} (w : World ι HDF) (q : QueueEntry HDF) (reply : ℕ), q.hdfsnd = hdf →
        H.objChild hdf = true →
        replyTrigger H true w q reply = .ok (tcpReplyMini w q.req repErrPack, false)
    | some s => ∃ buf' n, packHdf H hdf buf 0 maxPacketLen = .ok (buf', n) ∧ 0 < n ∧
      Recovers buf' 0 n (s.take 65024) ∧ (Recovers buf' 0 n s ↔ s.length ≤ 65024) := by
  cases hs : H.writeString hdf with
  | none =>
    refine ⟨by simp [packHdf, hs], fun w q reply hq hchild => ?_⟩
    subst hq
    exact replyTrigger_unwritten w reply hchild hs
  | some s =>
    have hnul := H.writeString_nul hdf s hs
    obtain ⟨rest, hpack⟩ := packHdf_block hs hbuf
    have hcut : Recovers ([] ++ (packedVal s ++ rest)) 0 (packedVal s).length (s.take 65024) :=
      recovers_packedVal rfl hnul
    have hiff : Recovers ([] ++ (packedVal s ++ rest)) 0 (packedVal s).length s ↔
        s.length ≤ 65024 := recovers_packedVal_iff rfl hnul
    refine ⟨_, _, hpack, ?_, hcut, hiff⟩
    rw [length_packedVal]
    omega

/-- A short text comes back. -/
theorem packHdf_recovers_short : ∃ buf' n,
    packHdf textHdf (ascii "k=1") (List.replicate maxPacketLen 0) 0 maxPacketLen = .ok (buf', n) ∧
      Recovers buf' 0 n (ascii "k=1") := by
  obtain ⟨buf', n, hpack, -, -, hiff⟩ := packHdf_recovers textHdf (ascii "k=1")
    (List.replicate maxPacketLen 0) List.length_replicate
  exact ⟨buf', n, hpack, hiff.mpr (by decide)⟩

/-- A text of 65025 bytes is packed, and does not come back. -/
theorem packHdf_truncates :
    ¬∀ s : List UInt8, 0 ∉ s → ∃ buf' n,
      packHdf textHdf s (List.replicate maxPacketLen 0) 0 maxPacketLen = .ok (buf', n) ∧
        (n = 0 ∨ Recovers buf' 0 n s) := by
  intro h
  have hones : ∀ n, (0 : UInt8) ∉ List.replicate n 1 := by simp
  obtain ⟨s, hnul, hlen⟩ : ∃ s : List UInt8, 0 ∉ s ∧ s.length = 65025 :=
    ⟨List.replicate 65025 1, hones _, List.length_replicate⟩
  obtain ⟨buf', n, hpack, hcase⟩ := h s hnul
  obtain ⟨rest, hpacked⟩ := packHdf_block (textHdf_writeString hnul)
    (List.length_replicate (n := maxPacketLen) (a := 0))
  rw [hpacked] at hpack
  obtain ⟨rfl, rfl⟩ := Prod.mk.inj (Except.ok.inj hpack)
  rcases hcase with h0 | hrec
  · rw [length_packedVal] at h0
    omega
  · have hiff : Recovers ([] ++ (packedVal s ++ rest)) 0 (packedVal s).length s ↔
        s.length ≤ 65024 := recovers_packedVal_iff rfl hnul
    have hle := hiff.mp hrec
    omega

end Moc
