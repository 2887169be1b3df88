import Moc.Server.Accept

/-!
# Making a queue entry

`make_queue_long_entry` with the fields of the entry as `malloc()` leaves them, one written after
the other, and `queue_entry_free` as it reads them. The function calls it from three places: before
`e->req` is set, after it is set to NULL, and after the socket pointer was copied into it but before
the reference was taken. Only the second is right (`leavesNoTrace_iff`).
-/

open Bytes Memory

namespace Moc

variable {ι HDF : Type} [DecidableEq ι]

/-! ## The entry under construction -/

/-- A field of a record from `malloc()`: `none` until something is written to it. -/
abbrev RawField (α : Type) := Option α

/-- Reading a field. -/
def RawField.read {α : Type} : RawField α → Except Fault α
  | none => .error .uninitialised
  | some a => .ok a

/-- A `struct queue_entry`; the pointers `req`, `ename` and `hdfrcv` can be NULL. -/
structure RawEntry (HDF : Type) where
  operation : RawField ℕ
  req : RawField (Option ReqInfo)
  ename : RawField (Option (List UInt8))
  hdfrcv : RawField (Option HDF)
  hdfsnd : RawField HDF

/-- `queue_entry_create`, which sets every field but `req`. -/
def queueEntryCreate (H : HdfLib HDF) (granted : Bool) : Option (RawEntry HDF) :=
  if granted then
    some { operation := some 0, req := none, ename := some none, hdfrcv := some none,
           hdfsnd := some H.init }
  else none

/-- `queue_entry_free` of an entry in any state. -/
def queueEntryFreeRaw (w : World ι HDF) (e : RawEntry HDF) : Except Fault (World ι HDF) := do
  let req ← e.req.read
  let w ← match req with
    | none => pure w
    | some req => tcpSocketRemoveRef w req.tcpsock
  let _ ← e.ename.read
  let _ ← e.hdfrcv.read
  let _ ← e.hdfsnd.read
  return w

/-- `make_queue_long_entry`. -/
def makeQueueLongEntryRaw (H : HdfLib HDF) (m : Allocs) (w : World ι HDF) (req : ReqInfo)
    (ename : List UInt8) (hdfrcv : HDF) :
    Except Fault (World ι HDF × Option (RawEntry HDF)) :=
  match queueEntryCreate H m.entry with
  | none => return (w, none)
  | some e =>
    if ¬ m.ecopy then do
      let w ← queueEntryFreeRaw w e
      return (w, none)
    else
      let e := { e with
        operation := some req.cmd, ename := some (some ename), hdfrcv := some (some hdfrcv) }
      if ¬ m.req then do
        let w ← queueEntryFreeRaw w { e with req := some none }
        return (w, none)
      else if ¬ m.clisa then do
        -- The copy of the record has the socket's pointer already.
        let w ← queueEntryFreeRaw w { e with req := some (some req) }
        return (w, none)
      else do
        let w ← tcpSocketAddRef w req.tcpsock
        return (w, some { e with req := some (some { req with payload := none, psize := 0 }) })

/-- An entry with all its fields. -/
def RawEntry.finished : RawEntry HDF → Option (QueueEntry HDF)
  | ⟨some operation, some (some req), some (some ename), some (some hdfrcv), some hdfsnd⟩ =>
    some ⟨operation, req, ename, hdfrcv, hdfsnd⟩
  | _ => none

/-- The entry that is queued is the one under construction, finished. -/
theorem makeQueueLongEntry_eq_raw (H : HdfLib HDF) (m : Allocs) (w : World ι HDF) (req : ReqInfo)
    (ename : List UInt8) (hdfrcv : HDF) :
    makeQueueLongEntry H m w req ename hdfrcv =
      (makeQueueLongEntryRaw H m w req ename hdfrcv).map
        fun r => (r.1, r.2.bind RawEntry.finished) := by
  obtain ⟨entry, ecopy, reqGranted, clisa, reply⟩ := m
  cases entry with
  | false => rfl
  | true =>
    cases ecopy with
    | false => rfl
    | true =>
      cases reqGranted with
      | false => rfl
      | true =>
        cases clisa with
        | false =>
          unfold makeQueueLongEntry makeQueueLongEntryRaw queueEntryCreate queueEntryFreeRaw
          cases h : tcpSocketRemoveRef w req.tcpsock <;> simp [h, RawField.read, Except.map]
        | true =>
          unfold makeQueueLongEntry makeQueueLongEntryRaw queueEntryCreate
          cases h : tcpSocketAddRef w req.tcpsock <;> simp [RawEntry.finished, Except.map]

/-! ## When a failure leaves no trace -/

/-- The call returns NULL, has read no field that was never written, and leaves the socket's count
of references as it was. -/
def LeavesNoTrace (H : HdfLib HDF) (m : Allocs) (w : World ι HDF) (req : ReqInfo)
    (ename : List UInt8) (hdfrcv : HDF) : Prop :=
  ∃ w', makeQueueLongEntryRaw H m w req ename hdfrcv = .ok (w', none) ∧
    (w'.socks req.tcpsock).map TcpSocket.refcount = (w.socks req.tcpsock).map TcpSocket.refcount

/-- Dropping a reference changes the count, unless it is not positive. -/
theorem tcpSocketRemoveRef_refcount_iff (w : World ι HDF) (s : ℕ) :
    (∃ w', tcpSocketRemoveRef w s = .ok w' ∧
        (w'.socks s).map TcpSocket.refcount = (w.socks s).map TcpSocket.refcount) ↔
      ∃ sock, w.socks s = some sock ∧ sock.refcount ≤ 0 := by
  cases hs : w.socks s with
  | none => simp [tcpSocketRemoveRef_of_none hs]
  | some sock =>
    simp only [Option.some.injEq, exists_eq_left']
    rcases lt_trichotomy sock.refcount 1 with hlt | hone | hgt
    · have hle : sock.refcount ≤ 0 := by omega
      exact iff_of_true ⟨w, tcpSocketRemoveRef_of_le hs hle, by rw [hs]⟩ hle
    · refine iff_of_false ?_ (by omega)
      rintro ⟨w', hw', hcount⟩
      rw [tcpSocketRemoveRef_of_one hs hone] at hw'
      rw [← Except.ok.inj hw', tcpSocketFree_socks, Function.update_self] at hcount
      cases hcount
    · refine iff_of_false ?_ (by omega)
      rintro ⟨w', hw', hcount⟩
      rw [tcpSocketRemoveRef_of_gt hs hgt] at hw'
      rw [← Except.ok.inj hw'] at hcount
      simp only [Function.update_self, Option.map_some, Option.some.injEq] at hcount
      omega

/-- When an allocation fails, there is no trace exactly when it is that of the entry or, after the
name was copied, that of the request record; or when the copy of the address fails for a socket
without references. -/
theorem leavesNoTrace_iff (H : HdfLib HDF) {m : Allocs} (w : World ι HDF) (req : ReqInfo)
    (ename : List UInt8) (hdfrcv : HDF)
    (hfail : (m.entry && m.ecopy && m.req && m.clisa) = false) :
    LeavesNoTrace H m w req ename hdfrcv ↔
      m.entry = false ∨ m.ecopy = true ∧ m.req = false ∨
        m.ecopy = true ∧ m.clisa = false ∧
          ∃ sock, w.socks req.tcpsock = some sock ∧ sock.refcount ≤ 0 := by
  obtain ⟨entry, ecopy, reqGranted, clisa, reply⟩ := m
  cases entry with
  | false => exact iff_of_true ⟨w, rfl, rfl⟩ (.inl rfl)
  | true =>
    cases ecopy with
    | false =>
      -- `queue_entry_free` reads `e->req`, which nothing was written to.
      refine iff_of_false ?_ (by simp)
      rintro ⟨w', hw', -⟩
      cases hw'
    | true =>
      cases reqGranted with
      | false => exact iff_of_true ⟨w, rfl, rfl⟩ (.inr (.inl ⟨rfl, rfl⟩))
      | true =>
        obtain rfl : clisa = false := by simpa using hfail
        -- `queue_entry_free` drops a reference that was not taken.
        have hcall : makeQueueLongEntryRaw H ⟨true, true, true, false, reply⟩ w req ename hdfrcv =
            (tcpSocketRemoveRef w req.tcpsock).map fun w => (w, none) := by
          unfold makeQueueLongEntryRaw queueEntryCreate queueEntryFreeRaw
          cases h : tcpSocketRemoveRef w req.tcpsock <;> simp [h, RawField.read, Except.map]
        have hiff := tcpSocketRemoveRef_refcount_iff w req.tcpsock
        unfold LeavesNoTrace
        rw [hcall]
        simp only [Bool.true_eq_false, false_or, true_and, and_false]
        rw [← hiff]
        cases h : tcpSocketRemoveRef w req.tcpsock <;> simp [Except.map]

/-- A server with a connection that has two references. -/
def sharedWorld : World Unit (List UInt8) :=
  { World.start [] (.empty Unit) with
    socks := Function.update (fun _ => none) 0 (some ⟨2, 5, true, none⟩) }

/-- The record of the request is not granted. -/
theorem leavesNoTrace_sharedWorld :
    LeavesNoTrace textHdf ⟨true, true, false, true, true⟩ sharedWorld (.fresh 5 0) [97] [] :=
  (leavesNoTrace_iff textHdf sharedWorld (.fresh 5 0) [97] [] rfl).mpr (.inr (.inl ⟨rfl, rfl⟩))

/-- Without memory for the name an unwritten pointer is read, and without memory for the address
the connection loses a reference. -/
theorem not_leavesNoTrace_sharedWorld :
    ¬ LeavesNoTrace textHdf ⟨true, false, true, true, true⟩ sharedWorld (.fresh 5 0) [97] [] ∧
      ¬ LeavesNoTrace textHdf ⟨true, true, true, false, true⟩ sharedWorld (.fresh 5 0) [97] [] := by
  constructor
  · rintro ⟨w', hw', -⟩
    cases hw'
  · rintro ⟨w', hw', hcount⟩
    rw [← (Prod.mk.inj (Except.ok.inj hw')).1] at hcount
    revert hcount
    decide

end Moc
