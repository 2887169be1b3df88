import Moc.Client.Trigger
import Moc.Server.Stream

/-!
# A session of requests

A client sends one request after another, for several modules, without waiting for anything. The server
receives the frames as one stream, cut anywhere, between the frames and inside them. `session_received`
says that all of it comes to the server as if each dataset had been put into the queues by hand
(`receiveAll`).
-/

open Bytes Memory Framing

namespace Moc

variable {κ ι HDF : Type} [DecidableEq κ] [DecidableEq ι]

/-- A run of calls, and the frames that they send. -/
def Client.session (H : HdfLib HDF) (c : Client κ HDF) : List (Call κ HDF) →
    Except Fault (Client κ HDF × List (List UInt8))
  | [] => .ok (c, [])
  | x :: xs => do
    let (c, frame) ← c.call H x
    let (c, frames) ← c.session H xs
    return (c, frame :: frames)

/-- A dataset whose text the library reads back as the dataset, and which `pack_hdf` does not cut. -/
structure HdfLib.Whole (H : HdfLib HDF) (hdf : HDF) (text : List UInt8) : Prop where
  write : H.writeString hdf = some text
  read : H.readString H.init text = hdf
  length_le : text.length ≤ 65023

/-- A request that goes through whole. -/
def Sendable (H : HdfLib HDF) (names : κ → List UInt8) (x : Call κ HDF) : Prop :=
  ∃ text, H.Whole x.hdfsnd text ∧ 37 + (names x.module).length + text.length ≤ maxPacketLen

/-- The size of a dataset's text. -/
def textSize (H : HdfLib HDF) (hdf : HDF) : ℕ := ((H.writeString hdf).getD []).length

/-- What the server does about one request of a session: the message is counted, and the dataset goes where
`put_in_queue` puts it. -/
def receiveOne (H : HdfLib HDF) (m : Allocs) (names : κ → List UInt8) (s : World ι HDF × ReqInfo)
    (id : ℕ) (x : Call κ HDF) : Except Fault (World ι HDF × ReqInfo) := do
  let req := parsedReq s.2 id x.cmd.toNat x.flags.toNat
    (33 + (names x.module).length + textSize H x.hdfsnd)
  let w ← queueReq H m (countMsg s.1) req (names x.module) x.hdfsnd
  return (w, req)

/-- What the server does about a session of a client whose counter was at `g`. -/
def receiveAll (H : HdfLib HDF) (m : Allocs) (names : κ → List UInt8) (g : ℕ)
    (s : World ι HDF × ReqInfo) : List (Call κ HDF) → Except Fault (World ι HDF × ReqInfo)
  | [] => .ok s
  | x :: xs => do
    let s ← receiveOne H m names s (nextReqid g) x
    receiveAll H m names (nextReqid g) s xs

/-! ## The frames -/

/-- The message of a frame that the client sends. -/
def requestOfCall (H : HdfLib HDF) (names : κ → List UInt8) (id : ℕ) (x : Call κ HDF) : List UInt8 :=
  requestMsg id x.cmd.toNat x.flags.toNat (names x.module) ((H.writeString x.hdfsnd).getD [])

/-- The messages of a session. -/
def sessionMsgs (H : HdfLib HDF) (names : κ → List UInt8) : ℕ → List (Call κ HDF) → List (List UInt8)
  | _, [] => []
  | g, x :: xs => requestOfCall H names (nextReqid g) x :: sessionMsgs H names (nextReqid g) xs

/-- A frame of this message. -/
def framed (msg : List UInt8) : List UInt8 := be32 (4 + msg.length) ++ msg

omit [DecidableEq κ] in
/-- The server takes the frame of a sendable request for one. -/
theorem serverFramer_request {H : HdfLib HDF} {names : κ → List UInt8} {x : Call κ HDF} (id : ℕ)
    (hx : Sendable H names x) (rest : List UInt8) :
    serverFramer.next (framed (requestOfCall H names id x) ++ rest) =
      .frame (framed (requestOfCall H names id x)).length := by
  obtain ⟨text, ⟨htext, -, -⟩, hsize⟩ := hx
  rw [maxPacketLen] at hsize
  have hlen : (requestOfCall H names id x).length = 33 + (names x.module).length + text.length := by
    rw [requestOfCall, htext, Option.getD_some, length_requestMsg]
  refine serverFramer.frame_append _ rest _ ?_
  have hword : word (framed (requestOfCall H names id x)) 0 = 4 + (requestOfCall H names id x).length := by
    have h : word ([] ++ framed (requestOfCall H names id x)) 0 =
        (4 + (requestOfCall H names id x).length) % 2^32 := word_between rfl
    rwa [List.nil_append, Nat.mod_eq_of_lt (by omega)] at h
  have hframed : (framed (requestOfCall H names id x)).length = 4 + (requestOfCall H names id x).length := by
    rw [framed, List.length_append, length_be32]
  rw [serverFramer_next, totaltoget, hword, hframed, hlen]
  simp only [show 4 ≤ 4 + (33 + (names x.module).length + text.length) by omega, if_true, true_and]
  rw [if_neg (by omega), if_neg (by omega)]

/-- The frames of a session of sendable requests. -/
theorem Client.Ok.session_eq {H : HdfLib HDF} {names : κ → List UInt8} {c : Client κ HDF}
    (hok : c.Ok names) {xs : List (Call κ HDF)} (hxs : ∀ x ∈ xs, Sendable H names x) :
    ∃ c', c.session H xs = .ok (c', (sessionMsgs H names c.gReqid xs).map framed) := by
  induction xs generalizing c with
  | nil => exact ⟨c, rfl⟩
  | cons x xs ih =>
    obtain ⟨text, ⟨htext, -, hlen⟩, hsize⟩ := hxs x List.mem_cons_self
    obtain ⟨c₁, hcall, hreqid⟩ := hok.call_eq htext hlen hsize
    obtain ⟨c', hsession⟩ := ih (hok.call hcall) fun y hy => hxs y (List.mem_cons_of_mem x hy)
    refine ⟨c', ?_⟩
    rw [Client.session, hcall, ok_bind]
    dsimp only
    rw [hsession, ok_bind, hreqid, sessionMsgs, requestOfCall, htext]
    rfl

omit [DecidableEq κ] in
/-- What the handler of the server does with the stream of a session. -/
theorem handleStream_session (H : HdfLib HDF) (m : Allocs) (names : κ → List UInt8)
    (xs : List (Call κ HDF)) (hxs : ∀ x ∈ xs, Sendable H names x) {g : ℕ} (hg : g ≤ 0x0FFFFFFD)
    (s : World ι HDF × ReqInfo) :
    handleStream (parseHandler H m) s ((sessionMsgs H names g xs).map framed).flatten =
      (receiveAll H m names g s xs).map fun s => (s, some []) := by
  induction xs generalizing g s with
  | nil => exact handleStream_incomplete rfl
  | cons x xs ih =>
    have hx := hxs x List.mem_cons_self
    obtain ⟨text, ⟨htext, hread, -⟩, hsize⟩ := id hx
    obtain ⟨-, hle⟩ := nextReqid_mem hg
    have hid : nextReqid g < 2^28 := by omega
    have hframe := serverFramer_request (nextReqid g) hx
      ((sessionMsgs H names (nextReqid g) xs).map framed).flatten
    -- The handler queues the dataset that the client has sent.
    have hone : parseHandler H m s (requestOfCall H names (nextReqid g) x) =
        (receiveOne H m names s (nextReqid g) x).map fun s => (s, true) := by
      rw [parseHandler, receiveOne, requestOfCall, textSize, htext, Option.getD_some,
        parseMessage_requestMsg H m _ _ hid x.cmd.toNat_lt x.flags.toNat_lt
          (H.writeString_nul _ _ htext) hsize, hread]
      dsimp only
      cases queueReq H m (countMsg s.1) (parsedReq s.2 (nextReqid g) x.cmd.toNat x.flags.toNat
        (33 + (names x.module).length + text.length)) (names x.module) x.hdfsnd <;> rfl
    have hmsg : ((framed (requestOfCall H names (nextReqid g) x) ++
        ((sessionMsgs H names (nextReqid g) xs).map framed).flatten).take
          (framed (requestOfCall H names (nextReqid g) x)).length).drop 4 =
        requestOfCall H names (nextReqid g) x := by
      rw [List.take_left, framed]
      exact List.drop_left' (length_be32 _)
    rw [sessionMsgs, List.map_cons, List.flatten_cons, handleStream_frame hframe, hmsg, hone, receiveAll,
      List.drop_left]
    cases receiveOne H m names s (nextReqid g) x with
    | error e => rfl
    | ok s' => exact ih (fun y hy => hxs y (List.mem_cons_of_mem x hy)) hle s'

/-- However the stream of a session is cut on its way, the server ends with what the session's own
datasets, put into the queues in turn, lead to, and keeps no byte. -/
theorem session_received (H : HdfLib HDF) (names : κ → List UInt8) (xs : List (Call κ HDF))
    (hxs : ∀ x ∈ xs, Sendable H names x) :
    ∃ c frames, (Client.new H names).session H xs = .ok (c, frames) ∧
      ∀ (m : Allocs) (w : World ι HDF) (req : ReqInfo) (cs : List (List UInt8)),
        asked true (parseHandler H m) (.new (w, req)) cs = true → cs.flatten = frames.flatten →
        Reflects (recvChunks true (parseHandler H m) (.new (w, req)) cs)
          ((receiveAll H m names 0 (w, req) xs).map fun s => (s, some [])) := by
  obtain ⟨c, hsession⟩ := (Client.new_ok H names).session_eq hxs
  refine ⟨c, _, hsession, fun m w req cs hask hcs => ?_⟩
  have hstream := recvChunks_handleAll (parseHandler H m) (w, req) cs hask
  rw [hcs] at hstream
  have hall := handleStream_session H m names xs hxs (g := 0) (Nat.zero_le _) (w, req)
  have hg : (Client.new H names).gReqid = 0 := rfl
  rw [hg, hall] at hstream
  exact hstream

/-- A command 7 to the module `a` with the text `k=1` and one without a dataset. -/
def sampleSession : List (Call Unit (Option (List UInt8) × List UInt8)) :=
  [⟨(), (none, ascii "k=1"), 7, 0, true⟩, ⟨(), (none, []), 8, 0, true⟩]

theorem session_received_sample :
    ∃ c frames, (Client.new reserveHdf.toHdfLib fun _ => [97]).session reserveHdf.toHdfLib sampleSession =
        .ok (c, frames) ∧
      ∀ (m : Allocs) (w : World ℕ (Option (List UInt8) × List UInt8)) (req : ReqInfo)
        (cs : List (List UInt8)),
        asked true (parseHandler reserveHdf.toHdfLib m) (.new (w, req)) cs = true →
        cs.flatten = frames.flatten →
        Reflects (recvChunks true (parseHandler reserveHdf.toHdfLib m) (.new (w, req)) cs)
          ((receiveAll reserveHdf.toHdfLib m (fun _ => [97]) 0 (w, req) sampleSession).map
            fun s => (s, some [])) := by
  refine session_received _ _ _ fun x hx => ?_
  obtain rfl | hx := List.mem_cons.mp hx
  · exact ⟨[1, 107, 61, 49], ⟨by decide, by decide, by decide⟩, by decide⟩
  · obtain rfl := List.mem_singleton.mp hx
    exact ⟨[], ⟨by decide, by decide, by decide⟩, by decide⟩

end Moc
