import Moc.Server.Accept

/-!
# Which handler a name leads to

`moc_start_driver` puts the plugins into the table that `put_in_queue_long` looks a request's name
up in. The lookup compares sizes and bytes, so it finds the plugin of exactly that name. The two
reserved names that come after it are compared with `strncmp` over as many bytes as the request
says, which also matches a name that ends too early and one that goes on behind a NUL
(`putInQueueLong_eq_handOn_iff`).
-/

open Bytes Memory

namespace Moc

variable {ι HDF : Type} [DecidableEq ι]

/-! ## The table of plugins -/

/-- `chainlen` of the table that `moc_start` makes. -/
def mocChainlen : ℕ := 1000000

/-- `moc_start_driver` for a plugin whose entry is made: the table, and whether the plugin is in
it. -/
def mocStartDriver (evt : MocTable ι) (e : EventEntry ι) : MocTable ι × Bool :=
  let h := mocdHash e.name % evt.hashlen
  let c := evt.table h
  if c.length = 0 then ({ evt with table := Function.update evt.table h [e] }, true)
  else if c.length ≤ mocChainlen then
    ({ evt with table := Function.update evt.table h (e :: c) }, true)
  else (evt, false)

/-- One more plugin of `moc_start`. Besides the table there are the plugins started so far. -/
def mocStartNext (s : MocTable ι × List (EventEntry ι)) (e : EventEntry ι) :
    MocTable ι × List (EventEntry ι) :=
  let (evt, started) := mocStartDriver s.1 e
  (evt, if started then s.2 ++ [e] else s.2)

/-- The loop of `moc_start`. -/
def mocStart (drivers : List (EventEntry ι)) : MocTable ι × List (EventEntry ι) :=
  drivers.foldl mocStartNext (.empty ι, [])

omit [DecidableEq ι] in
/-- Starting a plugin puts it into its chain and leaves every other entry where it is. -/
theorem mocStartDriver_mem (evt : MocTable ι) (e x : EventEntry ι) :
    (mocStartDriver evt e).1.hashlen = evt.hashlen ∧
      (x ∈ (mocStartDriver evt e).1.table (mocdHash x.name % evt.hashlen) ↔
        x ∈ evt.table (mocdHash x.name % evt.hashlen) ∨ (mocStartDriver evt e).2 = true ∧ x = e) := by
  -- The two ways in make the chain `e :: c`.
  have hin : ∀ c, c = evt.table (mocdHash e.name % evt.hashlen) →
      (x ∈ Function.update evt.table (mocdHash e.name % evt.hashlen) (e :: c)
          (mocdHash x.name % evt.hashlen) ↔
        x ∈ evt.table (mocdHash x.name % evt.hashlen) ∨ x = e) := by
    rintro c rfl
    by_cases hx : mocdHash x.name % evt.hashlen = mocdHash e.name % evt.hashlen
    · rw [hx, Function.update_self, List.mem_cons, or_comm]
    · rw [Function.update_of_ne hx]
      have hne : x ≠ e := by
        rintro rfl
        exact hx rfl
      simp [hne]
  unfold mocStartDriver
  dsimp only
  split_ifs with hempty hfull
  · refine ⟨rfl, ?_⟩
    have hnil := List.length_eq_zero_iff.mp hempty
    simpa using hin [] hnil.symm
  · refine ⟨rfl, ?_⟩
    simpa using hin _ rfl
  · exact ⟨rfl, by simp⟩

omit [DecidableEq ι] in
/-- The table holds the plugins that were started, each in the chain of its name. -/
theorem mocStart_mem (drivers : List (EventEntry ι)) (x : EventEntry ι) :
    x ∈ (mocStart drivers).1.table (mocdHash x.name % (mocStart drivers).1.hashlen) ↔
      x ∈ (mocStart drivers).2 := by
  -- The induction is on the plugins started; the table and the list agree from the start.
  have hrun : ∀ (ds : List (EventEntry ι)) (s : MocTable ι × List (EventEntry ι)),
      (x ∈ s.1.table (mocdHash x.name % s.1.hashlen) ↔ x ∈ s.2) →
      (x ∈ (ds.foldl mocStartNext s).1.table (mocdHash x.name % (ds.foldl mocStartNext s).1.hashlen) ↔
        x ∈ (ds.foldl mocStartNext s).2) := by
    intro ds
    induction ds with
    | nil => exact fun _ h => h
    | cons e ds ih =>
      intro s hs
      refine ih _ ?_
      obtain ⟨hlen, hmem⟩ := mocStartDriver_mem s.1 e x
      unfold mocStartNext
      dsimp only
      rw [hlen, hmem, hs]
      split_ifs with hin
      · simp [hin]
      · simp [hin]
  exact hrun drivers _ (by simp [MocTable.empty])

omit [DecidableEq ι] in
/-- The lookup finds the plugin of exactly that name, when the names are distinct. -/
theorem findEntryInTable_mocStart {drivers : List (EventEntry ι)}
    (hnames : ((mocStart drivers).2.map EventEntry.name).Nodup) (ename : List UInt8) :
    findEntryInTable (mocStart drivers).1 ename =
      (mocStart drivers).2.find? fun e => ename = e.name := by
  have hfound : ∀ {e : EventEntry ι}, findEntryInTable (mocStart drivers).1 ename = some e →
      e ∈ (mocStart drivers).2 ∧ ename = e.name := by
    intro e he
    have hname : ename = e.name := by simpa using List.find?_some he
    subst hname
    exact ⟨(mocStart_mem drivers e).mp (List.mem_of_find?_eq_some he), rfl⟩
  cases hlist : (mocStart drivers).2.find? fun e => ename = e.name with
  | none =>
    cases htable : findEntryInTable (mocStart drivers).1 ename with
    | none => rfl
    | some e =>
      obtain ⟨hmem, hname⟩ := hfound htable
      exact absurd hname (by simpa using List.find?_eq_none.mp hlist e hmem)
  | some e =>
    have hmem := List.mem_of_find?_eq_some hlist
    have hname : ename = e.name := by simpa using List.find?_some hlist
    cases htable : findEntryInTable (mocStart drivers).1 ename with
    | none =>
      have hchain := (mocStart_mem drivers e).mpr hmem
      rw [← hname] at hchain
      exact absurd hname (by simpa using List.find?_eq_none.mp htable e hchain)
    | some e' =>
      obtain ⟨hmem', hname'⟩ := hfound htable
      exact congrArg some (List.inj_on_of_nodup_map hnames hmem' hmem (hname'.symm.trans hname))

/-! ## The reserved names -/

/-- The name of the status handler. -/
def statusName : List UInt8 := ascii "_Reserve.Status"

/-- The name of the client-config handler. -/
def clientmodName : List UInt8 := ascii "_Reserve.Clientmod"

/-- What `strncmp` with the request's length matches of a name without a NUL: its beginnings, and
whatever goes on behind its NUL. -/
theorem strncmpEq_iff {lit : List UInt8} (hnul : 0 ∉ lit) (name : List UInt8) :
    strncmpEq name (lit ++ [0]) = true ↔ name <+: lit ∨ lit ++ [0] <+: name := by
  induction lit generalizing name with
  | nil =>
    cases name with
    | nil => simp [strncmpEq]
    | cons x name =>
      have hend : strncmpEq name [] = true ↔ name = [] := by cases name <;> simp [strncmpEq]
      simp only [List.nil_append, strncmpEq, List.cons_prefix_cons, List.nil_prefix,
        List.prefix_nil, reduceCtorEq, false_or, and_true, Bool.and_eq_true, Bool.or_eq_true,
        decide_eq_true_eq]
      exact ⟨fun h => h.1.symm, fun h => ⟨h.symm, .inl h.symm⟩⟩
  | cons y lit ih =>
    obtain ⟨hy, hlit⟩ : (0 ≠ y) ∧ 0 ∉ lit := by simpa using hnul
    cases name with
    | nil => simp [strncmpEq]
    | cons x name =>
      simp only [List.cons_append, strncmpEq, List.cons_prefix_cons, Bool.and_eq_true,
        Bool.or_eq_true, decide_eq_true_eq, ih hlit name]
      constructor
      · rintro ⟨rfl, rfl | h | h⟩
        · exact absurd rfl hy
        · exact .inl ⟨rfl, h⟩
        · exact .inr ⟨rfl, h⟩
      · rintro (⟨rfl, h⟩ | ⟨rfl, h⟩)
        · exact ⟨rfl, .inr (.inl h)⟩
        · exact ⟨rfl, .inr (.inr h)⟩

/-! ## The destinations -/

/-- Where `put_in_queue_long` can take a request. -/
inductive Dest (ι : Type) where
  /-- To the queue of a plugin. -/
  | plugin (entry : EventEntry ι)
  | status
  | clientmod
  | unknown

/-- What `put_in_queue_long` does for each destination. -/
def handOn (H : HdfLib HDF) (m : Allocs) (w : World ι HDF) (req : ReqInfo) (sync : Bool)
    (ename : List UInt8) (hdfrcv : HDF) : Dest ι → Except Fault (World ι HDF × Bool)
  | .plugin entry =>
    let size := (w.queues entry.opQueue).length
    if size > maxQueueEntry ∧ size % 100 = 0 then
      let w := { w with stat := { w.stat with proBusy := w.stat.proBusy + 1 } }
      .ok (if sync then tcpReplyMini w req repErrBusy else w, true)
    else do
      let (w, e) ← makeQueueLongEntry H m w req ename hdfrcv
      match e with
      | none => return (w, false)
      | some e => return (enqueue w entry.opQueue sync e, true)
  | .status => do
    let (w, e) ← makeQueueLongEntry H m w req ename hdfrcv
    match e with
    | none => return (w, false)
    | some e =>
      let w ← parseStats H m w e
      let w ← queueEntryFree w e
      return (w, true)
  | .clientmod => do
    let (w, e) ← makeQueueLongEntry H m w req ename hdfrcv
    match e with
    | none => return (w, false)
    | some e =>
      let w ← parseClientmod H m w e
      let w ← queueEntryFree w e
      return (w, true)
  | .unknown =>
    let w := { w with stat := { w.stat with netUnkReq := w.stat.netUnkReq + 1 } }
    .ok (if sync then tcpReplyMini w req repErrUnkreq else w, true)

/-- The destination that the code computes. -/
def codeDest (evt : MocTable ι) (ename : List UInt8) : Dest ι :=
  match findEntryInTable evt ename with
  | some entry => .plugin entry
  | none =>
    if strncmpEq ename (statusName ++ [0]) then .status
    else if strncmpEq ename (clientmodName ++ [0]) then .clientmod
    else .unknown

/-- The destination by exact name. -/
def exactDest (started : List (EventEntry ι)) (ename : List UInt8) : Dest ι :=
  match started.find? fun e => ename = e.name with
  | some entry => .plugin entry
  | none =>
    if ename = statusName then .status
    else if ename = clientmodName then .clientmod
    else .unknown

theorem putInQueueLong_eq_codeDest (H : HdfLib HDF) (m : Allocs) (w : World ι HDF) (req : ReqInfo)
    (sync : Bool) (ename : List UInt8) (hdfrcv : HDF) :
    putInQueueLong H m w req sync ename hdfrcv =
      handOn H m w req sync ename hdfrcv (codeDest w.gMoc ename) := by
  unfold putInQueueLong codeDest
  cases findEntryInTable w.gMoc ename with
  | some entry => rfl
  | none =>
    dsimp only
    by_cases hstatus : strncmpEq ename (statusName ++ [0]) = true
    · rw [if_pos hstatus]
      exact if_pos hstatus
    · rw [if_neg hstatus]
      refine (if_neg hstatus).trans ?_
      by_cases hclient : strncmpEq ename (clientmodName ++ [0]) = true
      · rw [if_pos hclient]
        exact if_pos hclient
      · rw [if_neg hclient]
        exact if_neg hclient

omit [DecidableEq ι] in
theorem codeDest_eq_plugin {evt : MocTable ι} {ename : List UInt8} {entry : EventEntry ι} :
    codeDest evt ename = .plugin entry ↔ findEntryInTable evt ename = some entry := by
  unfold codeDest
  cases findEntryInTable evt ename with
  | some entry' => simp
  | none =>
    dsimp only
    split_ifs <;> simp

/-- A name of no plugin that is taken for a reserved one: a proper beginning of it, or a name that
has it up to its NUL and goes on. -/
def Misread (started : List (EventEntry ι)) (ename : List UInt8) : Prop :=
  (∀ e ∈ started, e.name ≠ ename) ∧ ∃ lit ∈ [statusName, clientmodName],
    (ename <+: lit ∧ ename ≠ lit) ∨ lit ++ [0] <+: ename

theorem zero_notMem_statusName : 0 ∉ statusName := by decide

theorem zero_notMem_clientmodName : 0 ∉ clientmodName := by decide

omit [DecidableEq ι] in
/-- A name that is not misread goes where it should. -/
theorem codeDest_of_not_misread {drivers : List (EventEntry ι)}
    (hnames : ((mocStart drivers).2.map EventEntry.name).Nodup) {ename : List UInt8}
    (h : ¬ Misread (mocStart drivers).2 ename) :
    codeDest (mocStart drivers).1 ename = exactDest (mocStart drivers).2 ename := by
  unfold codeDest exactDest
  rw [findEntryInTable_mocStart hnames]
  cases hfind : (mocStart drivers).2.find? fun e => ename = e.name with
  | some entry => rfl
  | none =>
    have hnone : ∀ e ∈ (mocStart drivers).2, e.name ≠ ename :=
      fun e he heq => by simpa [heq] using List.find?_eq_none.mp hfind e he
    -- A reserved name is matched by itself and, as the name is not misread, by no other.
    have hexact : ∀ lit ∈ [statusName, clientmodName], 0 ∉ lit →
        (strncmpEq ename (lit ++ [0]) = true ↔ ename = lit) := by
      intro lit hlit hnul
      rw [strncmpEq_iff hnul]
      constructor
      · rintro (hpre | hpast)
        · by_contra hne
          exact h ⟨hnone, lit, hlit, .inl ⟨hpre, hne⟩⟩
        · exact absurd ⟨hnone, lit, hlit, .inr hpast⟩ h
      · rintro rfl
        exact .inl (List.prefix_refl _)
    dsimp only
    simp only [hexact statusName (by simp) zero_notMem_statusName,
      hexact clientmodName (by simp) zero_notMem_clientmodName]

omit [DecidableEq ι] in
/-- A misread name should be unknown, and is taken for a reserved one. -/
theorem codeDest_of_misread {drivers : List (EventEntry ι)}
    (hnames : ((mocStart drivers).2.map EventEntry.name).Nodup) {ename : List UInt8}
    (h : Misread (mocStart drivers).2 ename) :
    exactDest (mocStart drivers).2 ename = .unknown ∧
      (codeDest (mocStart drivers).1 ename = .status ∨
        codeDest (mocStart drivers).1 ename = .clientmod) := by
  obtain ⟨hnone, lit, hlit, hmisread⟩ := h
  have hfind : ((mocStart drivers).2.find? fun e => ename = e.name) = none :=
    List.find?_eq_none.mpr fun e he => by simpa using (hnone e he).symm
  have hne : ename ≠ statusName ∧ ename ≠ clientmodName := by
    simp only [List.mem_cons, List.not_mem_nil, or_false] at hlit
    constructor <;> rintro rfl <;> rcases hlit with rfl | rfl <;> revert hmisread <;> decide
  have hmatch : strncmpEq ename (lit ++ [0]) = true := by
    have hnul : 0 ∉ lit := by
      simp only [List.mem_cons, List.not_mem_nil, or_false] at hlit
      rcases hlit with rfl | rfl
      · exact zero_notMem_statusName
      · exact zero_notMem_clientmodName
    exact (strncmpEq_iff hnul ename).mpr (hmisread.imp_left And.left)
  unfold codeDest exactDest
  rw [findEntryInTable_mocStart hnames, hfind]
  dsimp only
  refine ⟨by rw [if_neg hne.1, if_neg hne.2], ?_⟩
  by_cases hstatus : strncmpEq ename (statusName ++ [0]) = true
  · exact .inl (if_pos hstatus)
  · simp only [List.mem_cons, List.not_mem_nil, or_false] at hlit
    rcases hlit with rfl | rfl
    · exact absurd hmatch hstatus
    · exact .inr (by rw [if_neg hstatus, if_pos hmatch])

/-- The handlers of the reserved names are such handlers. -/
theorem handOn_reserved {H : HdfLib HDF} {m : Allocs} {w w' : World ι HDF} {req : ReqInfo}
    {sync rv : Bool} {ename : List UInt8} {hdfrcv : HDF} {dest : Dest ι}
    (hdest : dest = .status ∨ dest = .clientmod)
    (h : handOn H m w req sync ename hdfrcv dest = .ok (w', rv)) :
    w.SameRest w' ∨ ∃ w₁ r code frame, w.SameRest w₁ ∧ r.id = req.id ∧
      AnswerFrame req.id code frame ∧ (repSend w₁ r frame).SameRest w' := by
  rcases hdest with rfl | rfl
  · exact reserved_cases (parseStats_sends H m) h
  · exact reserved_cases (parseClientmod_sends H m) h

/-- The two handlers of reserved names leave the counters alone. -/
theorem handOn_reserved_stat {H : HdfLib HDF} {m : Allocs} {w : World ι HDF} {req : ReqInfo}
    {sync : Bool} {ename : List UInt8} {hdfrcv : HDF} {dest : Dest ι} {r : World ι HDF × Bool}
    (hdest : dest = .status ∨ dest = .clientmod)
    (h : handOn H m w req sync ename hdfrcv dest = .ok r) : r.1.stat = w.stat := by
  rcases handOn_reserved hdest h with hrest | ⟨w₁, _, _, _, hrest, -, -, hsent⟩
  · exact hrest.stat
  · exact hsent.stat.trans hrest.stat

/-- A request goes where its exact name leads exactly when the name is not misread. -/
theorem putInQueueLong_eq_handOn_iff (H : HdfLib HDF) (m : Allocs) {drivers : List (EventEntry ι)}
    (hnames : ((mocStart drivers).2.map EventEntry.name).Nodup) {w : World ι HDF}
    (hw : w.gMoc = (mocStart drivers).1) (req : ReqInfo) (sync : Bool) (ename : List UInt8)
    (hdfrcv : HDF) :
    putInQueueLong H m w req sync ename hdfrcv =
        handOn H m w req sync ename hdfrcv (exactDest (mocStart drivers).2 ename) ↔
      ¬ Misread (mocStart drivers).2 ename := by
  rw [putInQueueLong_eq_codeDest, hw]
  constructor
  · intro heq hmisread
    obtain ⟨hunknown, hreserved⟩ := codeDest_of_misread hnames hmisread
    rw [hunknown] at heq
    -- Only an unknown name is counted.
    have hstat := handOn_reserved_stat hreserved heq
    have hcount : ∀ b : Bool, (if b = true then tcpReplyMini
        { w with stat := { w.stat with netUnkReq := w.stat.netUnkReq + 1 } } req repErrUnkreq
      else { w with stat := { w.stat with netUnkReq := w.stat.netUnkReq + 1 } }).stat.netUnkReq =
        w.stat.netUnkReq + 1 := by
      intro b
      cases b <;> rfl
    have hnet := hcount sync
    dsimp only at hstat
    rw [hstat] at hnet
    omega
  · intro h
    rw [codeDest_of_not_misread hnames h]

/-- Two plugins. -/
def twoDrivers : List (EventEntry Bool) := [⟨ascii "base", false⟩, ⟨ascii "chat", true⟩]

/-- A server with the two plugins and a connection. -/
def dispatchWorld : World Bool (List UInt8) :=
  { World.start [] (mocStart twoDrivers).1 with
    socks := Function.update (fun _ => none) 0 (some ⟨1, 5, true, none⟩) }

/-- A request for the second plugin reaches it. -/
theorem putInQueueLong_eq_handOn_chat :
    putInQueueLong textHdf .granted dispatchWorld (.fresh 5 0) true (ascii "chat") [] =
      handOn textHdf .granted dispatchWorld (.fresh 5 0) true (ascii "chat") []
        (exactDest (mocStart twoDrivers).2 (ascii "chat")) := by
  refine (putInQueueLong_eq_handOn_iff textHdf .granted (by decide +kernel) rfl _ _ _ _).mpr ?_
  have hstarted : ∃ e ∈ (mocStart twoDrivers).2, e.name = ascii "chat" := by decide +kernel
  obtain ⟨e, he, hname⟩ := hstarted
  exact fun h => h.1 e he hname

/-- A request with an empty name is not counted as unknown: the status handler answers it. -/
theorem putInQueueLong_ne_handOn_empty :
    ((mocStart twoDrivers).2.map EventEntry.name).Nodup ∧
      dispatchWorld.gMoc = (mocStart twoDrivers).1 ∧
      putInQueueLong textHdf .granted dispatchWorld (.fresh 5 0) true [] [] ≠
        handOn textHdf .granted dispatchWorld (.fresh 5 0) true [] []
          (exactDest (mocStart twoDrivers).2 []) := by
  refine ⟨by decide +kernel, rfl, fun h => ?_⟩
  have hcount := congrArg (Except.map fun r => r.1.stat.netUnkReq) h
  revert hcount
  decide +kernel

end Moc
