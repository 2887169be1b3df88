import Moc.Server.Delivery
import Moc.Server.Join

/-!
# What every step keeps

A property of sockets, users and descriptors is kept by every step when the operations on sockets and
users keep it: `Server.Keeps` lists them, and `Server.Effect.keeps` is the rule. With it: who owns a
descriptor, which descriptors are closed with their socket, and which user goes with it. -/

open Bytes Memory Runs

namespace Moc

variable {ι HDF : Type} [DecidableEq ι] {w w' : World ι HDF} {s s₀ : ℕ} {p : ι} {uid : Uid}

/-! ## The operations -/

/-- A socket without its count. -/
def TcpSocket.named (sock : TcpSocket ι) : ℤ × Bool × Option (ι × Uid) :=
  (sock.fd, sock.evt, sock.appdata)

/-- The same sockets, but for their counts, and the same users and descriptors. -/
structure World.SameNamed (w w' : World ι HDF) : Prop where
  socks : ∀ s, (w'.socks s).map TcpSocket.named = (w.socks s).map TcpSocket.named
  userh : w'.userh = w.userh
  files : w'.files = w.files
  freed : w'.freed = w.freed

omit [DecidableEq ι] in
theorem World.SameNamed.socket (h : w.SameNamed w') {sock' : TcpSocket ι}
    (hs : w'.socks s = some sock') : ∃ sock, w.socks s = some sock ∧ sock'.named = sock.named := by
  have hsame := h.socks s
  rw [hs, Option.map_some, eq_comm, Option.map_eq_some_iff] at hsame
  obtain ⟨sock, hsock, heq⟩ := hsame
  exact ⟨sock, hsock, heq.symm⟩

omit [DecidableEq ι] in
theorem World.SameNamed.none_iff (h : w.SameNamed w') : w'.socks s = none ↔ w.socks s = none := by
  rw [← Option.map_eq_none_iff, h.socks, Option.map_eq_none_iff]

omit [DecidableEq ι] in
theorem World.SameNamed.unused_iff (h : w.SameNamed w') : w'.Unused s ↔ w.Unused s := by
  unfold World.Unused
  rw [h.none_iff, h.freed]

omit [DecidableEq ι] in
theorem World.SameNamed.of_eq (hsocks : w'.socks = w.socks) (huserh : w'.userh = w.userh)
    (hfiles : w'.files = w.files) (hfreed : w'.freed = w.freed) : w.SameNamed w' :=
  ⟨fun s => by rw [hsocks], huserh, hfiles, hfreed⟩

omit [DecidableEq ι] in
/-- A count changes. -/
theorem World.SameNamed.update {sock sock' : TcpSocket ι} (hs : w.socks s = some sock)
    (hnamed : sock'.named = sock.named) (hsocks : w'.socks = Function.update w.socks s (some sock'))
    (huserh : w'.userh = w.userh) (hfiles : w'.files = w.files) (hfreed : w'.freed = w.freed) :
    w.SameNamed w' := by
  refine ⟨fun s' => ?_, huserh, hfiles, hfreed⟩
  rw [hsocks]
  by_cases hne : s' = s
  · rw [hne, Function.update_self, hs, Option.map_some, Option.map_some, hnamed]
  · rw [Function.update_of_ne hne]

/-- A freed socket was used, and no other becomes unused. -/
theorem World.Frees.unused {sock : TcpSocket ι} (h : w.Frees s₀ sock w') (hs : w'.Unused s) :
    w.Unused s := by
  obtain ⟨hnone, hfreed⟩ := hs
  rw [h.freed, List.map_append, List.mem_append, not_or] at hfreed
  have hne : s ≠ s₀ := fun heq => hfreed.2 (by rw [heq]; exact List.mem_cons_self)
  rw [h.socks, Function.update_of_ne hne] at hnone
  exact ⟨hnone, hfreed.1⟩

theorem World.Frees.socket {sock sock' : TcpSocket ι} (h : w.Frees s₀ sock w')
    (hs : w'.socks s = some sock') : s ≠ s₀ ∧ w.socks s = some sock' := by
  rw [h.socks] at hs
  exact (update_eq_some.mp hs).resolve_left (by simp)

/-- The descriptors that are open after a socket was freed were open before. -/
theorem World.Frees.open {sock : TcpSocket ι} {fd : ℤ} (h : w.Frees s₀ sock w')
    (hs : w'.files fd = some s) : w.files fd = some s ∧ ¬(0 < sock.fd ∧ fd = sock.fd) := by
  rw [h.files] at hs
  split_ifs at hs with hpos
  · obtain ⟨hne, hold⟩ := (update_eq_some.mp hs).resolve_left (by simp)
    exact ⟨hold, fun hboth => hne hboth.2⟩
  · exact ⟨hs, fun hboth => hpos hboth.1⟩

/-- What a dropped reference keeps. -/
structure World.Stays (Q : World ι HDF → Prop) : Prop where
  same : ∀ {w w' : World ι HDF}, w.SameNamed w' → Q w → Q w'
  free : ∀ {w w' : World ι HDF} {s sock}, w.Sound → w.socks s = some sock → w.Frees s sock w' →
    Q w → Q w'

theorem World.Stays.removeRef {Q : World ι HDF → Prop} (hstays : World.Stays Q) (hsound : w.Sound)
    (hw : tcpSocketRemoveRef w s = .ok w') (h : Q w) : Q w' := by
  obtain ⟨sock, hsock, ⟨-, rfl⟩ | ⟨-, hfrees⟩⟩ := tcpSocketRemoveRef_counts hsound.counts hw
  · have hnamed : TcpSocket.named { sock with refcount := sock.refcount - 1 } = sock.named := rfl
    exact hstays.same (.update hsock hnamed rfl rfl rfl rfl) h
  · exact hstays.free hsound hsock hfrees h

theorem World.Stays.baseUserQuit {Q : World ι HDF → Prop} (hstays : World.Stays Q)
    (hsound : w.Sound) {req : Option ReqInfo} {r : World ι HDF × Bool}
    (hr : baseUserQuit w p uid req = .ok r) (h : Q w) : Q r.1 := by
  rcases baseUserQuit_cases hr with ⟨heq, -⟩ | ⟨u, -, hw⟩
  · rwa [heq]
  · exact hstays.removeRef hsound hw h

/-- What the operations on sockets and users keep, in the state `sv` and for the step `i`. -/
structure Server.Keeps (H : PushLib HDF) (sv : Server ι HDF) (i : ServerStep ι HDF)
    (Q : World ι HDF → Prop) : Prop extends World.Stays Q where
  accept : ∀ {w : World ι HDF} {s fd}, 0 ≤ fd → w.files fd = none → w.Unused s → Q w →
    Q (w.withSocket s fd)
  unlisten : ∀ {s sock}, i = .close s → registered sv.world s = some sock → Q sv.world →
    Q (sv.world.unlisten s sock)
  user : ∀ {p e uid w r sock}, sv.runs i = some (p, e) → i = .process p true → Joins H e uid →
    baseUserQuit sv.world p uid (some e.req) = .ok (w, r) → baseUserFind w p uid = none →
    w.socks e.req.tcpsock = some sock → Q w → Q (w.withUser p uid e.req sock)

/-- What the user commands keep: a QUIT drops a reference, and a JOIN may also file a user. -/
theorem Server.Keeps.userCommand {Q : World ι HDF → Prop} {H : PushLib HDF} {sv : Server ι HDF}
    {user : Bool} {e : QueueEntry HDF} (hkeeps : sv.Keeps H (.process p user) Q)
    (hsound : sv.world.Sound) (hrun : sv.runs (.process p user) = some (p, e))
    (hw : userCommand H user p sv.world e = .ok w') (h : Q sv.world) : Q w' := by
  have hquit : ∀ {uid req r}, baseUserQuit sv.world p uid req = .ok r → Q r.1 :=
    fun hr => hkeeps.baseUserQuit hsound hr h
  rcases userCommand_cases hw with ⟨uid, w₁, r, _, hjoin, h₁, h₂⟩ | ⟨uid, _, -, h₁⟩ | ⟨-, rfl⟩
  · rcases baseUserNew_cases h₂ with ⟨heq, -⟩ | ⟨sock, rfl, hnew, hs, heq⟩ <;> dsimp only at heq
    · rw [heq]
      exact hquit h₁
    · rw [heq]
      exact hkeeps.user hrun rfl hjoin h₁ hnew hs (hquit h₁)
  · exact hquit h₁
  · exact h

theorem Server.Effect.keeps {Q : World ι HDF → Prop} {H : PushLib HDF} {sv : Server ι HDF}
    {i : ServerStep ι HDF} (hsound : sv.world.Sound) (heffect : sv.Effect H i w')
    (hkeeps : sv.Keeps H i Q) (h : Q sv.world) : Q w' := by
  have hsame : ∀ {w' : World ι HDF}, w'.socks = sv.world.socks → w'.userh = sv.world.userh →
      w'.files = sv.world.files → w'.freed = sv.world.freed → Q w' :=
    fun hsocks huserh hfiles hfreed => hkeeps.same (.of_eq hsocks huserh hfiles hfreed) h
  cases heffect with
  | idle _ _ _ => exact h
  | accept hfd hfree hs => exact hkeeps.accept hfd hfree hs h
  | @request s₀ id cmd flags ename hdfrcv sock w' hs hw =>
    have hput := hw.put
    cases hentry : putEntry H.toHdfLib sv.world (requestOf s₀ sock id cmd flags) ename hdfrcv with
    | none =>
      rw [hentry] at hput
      exact hsame hput.1 hw.userh hw.files hw.freed
    | some x =>
      rw [hentry] at hput
      obtain ⟨-, sock', hs', hsocks⟩ := hput
      have hnamed : TcpSocket.named { sock' with refcount := sock'.refcount + 1 } = sock'.named := rfl
      exact hkeeps.same (.update hs' hnamed hsocks hw.userh hw.files hw.freed) h
  | refuse _ => exact hsame rfl rfl rfl rfl
  | close hs hw =>
    obtain ⟨hsock, hevt⟩ := registered_eq_some.mp hs
    exact hkeeps.removeRef (hsound.unlisten hsock hevt) hw (hkeeps.unlisten rfl hs h)
  | take _ _ => exact hsame rfl rfl rfl rfl
  | process hrun hp hw => exact hkeeps.userCommand hsound (Server.runs_process _ hrun hp) hw h
  | reply _ => exact hsame rfl rfl rfl rfl
  | push _ _ => exact hsame rfl rfl rfl rfl
  | @free p e w' _ _ hw =>
    have hsound' : (sv.world.withoutEntry p).Sound := hsound.congr rfl rfl rfl rfl
    exact hkeeps.removeRef hsound' hw (hsame rfl rfl rfl rfl)

omit [DecidableEq ι] in
theorem World.unlisten_none {sock : TcpSocket ι} (hnone : (w.unlisten s₀ sock).socks s = none) :
    w.socks s = none := by
  by_cases hne : s = s₀
  · have hself : (w.unlisten s₀ sock).socks s₀ = _ := Function.update_self ..
    rw [hne, hself] at hnone
    cases hnone
  · exact (Function.update_of_ne hne ..).symm.trans hnone

theorem World.withUser_none {req : ReqInfo} {sock : TcpSocket ι}
    (hs : w.socks req.tcpsock = some sock) :
    (w.withUser p uid req sock).socks s = none ↔ w.socks s = none := by
  unfold World.withUser
  dsimp only
  by_cases hne : s = req.tcpsock
  · rw [hne, Function.update_self, hs]
    exact iff_of_false nofun nofun
  · rw [Function.update_of_ne hne]

/-- A number that was used stays used, whoever joins or goes. -/
theorem World.withUser_unused_iff {req : ReqInfo} {sock : TcpSocket ι}
    (hs : w.socks req.tcpsock = some sock) :
    (w.withUser p uid req sock).Unused s ↔ w.Unused s :=
  and_congr_left fun _ => World.withUser_none hs

omit [DecidableEq ι] in
theorem World.withSocket_of_ne (w : World ι HDF) {fd : ℤ} (hne : s ≠ s₀) :
    (w.withSocket s₀ fd).socks s = w.socks s := Function.update_of_ne hne ..

omit [DecidableEq ι] in
/-- A used number is not that of a new connection. -/
theorem World.Unused.ne (hs : w.Unused s₀) (hused : ¬w.Unused s) : s ≠ s₀ :=
  fun heq => hused (heq ▸ hs)

/-- The users' sockets are the same, but for the one that the record went to. -/
theorem World.withUser_socket {req : ReqInfo} {sock sock' : TcpSocket ι}
    (hs : w.socks req.tcpsock = some sock)
    (hs' : (w.withUser p uid req sock).socks s = some sock') :
    ∃ sock, w.socks s = some sock ∧ sock'.fd = sock.fd ∧
      sock'.appdata = if s = req.tcpsock then some (p, uid) else sock.appdata := by
  rcases update_eq_some.mp hs' with ⟨rfl, heq⟩ | ⟨hne, hold⟩
  · exact ⟨sock, hs, by rw [← Option.some.inj heq], by rw [← Option.some.inj heq, if_pos rfl]⟩
  · exact ⟨sock', hold, rfl, by rw [if_neg hne]⟩

section Kept

variable (H : PushLib HDF) (sv : Server ι HDF) (i : ServerStep ι HDF)

theorem Server.keeps_used : sv.Keeps H i (fun w => ¬w.Unused s) where
  same hsame hused := mt hsame.unused_iff.mp hused
  accept _ _ hs hused hunused :=
    hused ⟨(World.withSocket_of_ne _ (hs.ne hused)).symm.trans hunused.1, hunused.2⟩
  unlisten {_ sock} _ _ hused hunused := hused ((World.Shrinks.unlisten sock).unused s hunused)
  free _ _ hfrees hused hunused := hused (hfrees.unused hunused)
  user _ _ _ _ _ hs hused := mt (World.withUser_unused_iff hs).mp hused

/-! ## Descriptors -/

/-- An open descriptor that belongs to an allocated socket is the socket's, and the number of its
socket was used. -/
def World.Owns (w : World ι HDF) : Prop :=
  ∀ fd s, w.files fd = some s → 0 ≤ fd ∧ ¬w.Unused s ∧ ∀ sock, w.socks s = some sock → sock.fd = fd

omit [DecidableEq ι] in
/-- Nothing is opened, and the sockets keep their descriptors. -/
theorem World.Owns.shrinks (h : w.Owns)
    (hfiles : ∀ fd s, w'.files fd = some s → w.files fd = some s)
    (hunused : ∀ s, w'.Unused s → w.Unused s)
    (hfd : ∀ s sock', w'.socks s = some sock' →
      ∃ sock, w.socks s = some sock ∧ sock'.fd = sock.fd) : w'.Owns := by
  intro fd s hopen
  obtain ⟨hpos, hused, hown⟩ := h fd s (hfiles fd s hopen)
  refine ⟨hpos, mt (hunused s) hused, fun sock' hs' => ?_⟩
  obtain ⟨sock, hs, heq⟩ := hfd s sock' hs'
  exact heq.trans (hown sock hs)

theorem Server.keeps_owns : sv.Keeps H i World.Owns where
  same {w w'} hsame howns := by
    refine howns.shrinks (fun fd s => by rw [hsame.files]; exact id)
      (fun s => hsame.unused_iff.mp) fun s sock' hs' => ?_
    obtain ⟨sock, hs, heq⟩ := hsame.socket hs'
    exact ⟨sock, hs, congrArg Prod.fst heq⟩
  accept {w s₀ fd} hfd _ hs howns fd' s hopen := by
    rcases update_eq_some.mp hopen with ⟨rfl, heq⟩ | ⟨-, hold⟩
    · obtain rfl := Option.some.inj heq
      have hself : (w.withSocket s₀ fd').socks s₀ = some (newSocket ι fd') :=
        Function.update_self ..
      refine ⟨hfd, fun hunused => ?_, fun sock hsock => ?_⟩
      · exact absurd (hself.symm.trans hunused.1) (Option.some_ne_none _)
      · rw [← Option.some.inj (hself.symm.trans hsock)]
        rfl
    · -- The number of the new socket did not have a descriptor.
      obtain ⟨hfd', hused, hown⟩ := howns fd' s hold
      have hsame : (w.withSocket s₀ fd).socks s = w.socks s := w.withSocket_of_ne (hs.ne hused)
      exact ⟨hfd', fun hunused => hused ⟨hsame.symm.trans hunused.1, hunused.2⟩,
        fun sock hsock => hown sock (hsame.symm.trans hsock)⟩
  unlisten {s₀ sock} _ hs howns fd s hopen := by
    obtain ⟨hne, hold⟩ := (update_eq_some.mp hopen).resolve_left (by simp)
    obtain ⟨hfd, hused, hown⟩ := howns fd s hold
    refine ⟨hfd, mt ((World.Shrinks.unlisten sock).unused s) hused, fun sock' hsock' => ?_⟩
    rcases update_eq_some.mp hsock' with ⟨rfl, -⟩ | ⟨-, hsock'⟩
    · exact absurd (hown sock (registered_eq_some.mp hs).1) (Ne.symm hne)
    · exact hown sock' hsock'
  free _ _ hfrees howns := howns.shrinks (fun fd s hopen => (hfrees.open hopen).1)
    (fun s => hfrees.unused) fun s sock' hs' => ⟨sock', (hfrees.socket hs').2, rfl⟩
  user _ _ _ _ _ hs howns := by
    refine howns.shrinks (fun _ _ => id) (fun s => (World.withUser_unused_iff hs).mp) ?_
    intro s sock' hs'
    obtain ⟨sock, hsock, heq, -⟩ := World.withUser_socket hs hs'
    exact ⟨sock, hsock, heq⟩

/-- When the socket `s` is freed its descriptor will be closed, or it was. -/
structure World.Closes (w : World ι HDF) (s : ℕ) : Prop where
  owns : w.Owns
  used : ¬w.Unused s
  closes : ∀ sock, w.socks s = some sock → sock.fd ≠ 0
  closed : w.socks s = none → ∀ fd, w.files fd ≠ some s

theorem Server.keeps_closes : sv.Keeps H i (fun w => w.Closes s) where
  same {w w'} hsame h := by
    refine ⟨(keeps_owns H sv i).same hsame h.owns, (keeps_used H sv i).same hsame h.used,
      fun sock' hs' => ?_, fun hnone fd => ?_⟩
    · obtain ⟨sock, hs, heq⟩ := hsame.socket hs'
      have hfd : sock'.fd = sock.fd := congrArg Prod.fst heq
      rw [hfd]
      exact h.closes sock hs
    · rw [hsame.files]
      exact h.closed (hsame.none_iff.mp hnone) fd
  accept {w s₀ fd} hfd hfree hs h := by
    have hsame : (w.withSocket s₀ fd).socks s = w.socks s := w.withSocket_of_ne (hs.ne h.used)
    refine ⟨(keeps_owns H sv i).accept hfd hfree hs h.owns,
      (keeps_used H sv i).accept hfd hfree hs h.used,
      fun sock hsock => h.closes sock (hsame.symm.trans hsock), fun hnone fd' hopen => ?_⟩
    rcases update_eq_some.mp hopen with ⟨-, heq⟩ | ⟨-, hold⟩
    · exact hs.ne h.used (Option.some.inj heq).symm
    · exact h.closed (hsame.symm.trans hnone) fd' hold
  unlisten {s₀ sock} hi hs h := by
    refine ⟨(keeps_owns H sv i).unlisten hi hs h.owns, (keeps_used H sv i).unlisten hi hs h.used,
      fun sock' hs' => ?_, fun hnone fd hopen => ?_⟩
    · rcases update_eq_some.mp hs' with ⟨-, heq⟩ | ⟨-, hold⟩
      · rw [← Option.some.inj heq]
        show (-1 : ℤ) ≠ 0
        decide
      · exact h.closes sock' hold
    · have hold := ((World.Shrinks.unlisten sock).files fd).resolve_right (by rw [hopen]; nofun)
      exact h.closed (World.unlisten_none hnone) fd (hold.symm.trans hopen)
  free {w w' s₀ sock} hsound hs hfrees h := by
    refine ⟨(keeps_owns H sv i).free hsound hs hfrees h.owns,
      (keeps_used H sv i).free hsound hs hfrees h.used,
      fun sock' hs' => h.closes sock' (hfrees.socket hs').2, fun hnone fd hopen => ?_⟩
    obtain ⟨hold, hclose⟩ := hfrees.open hopen
    by_cases hne : s = s₀
    · -- The descriptor of the freed socket is not 0, so it is closed.
      subst hne
      obtain ⟨hpos, -, hown⟩ := h.owns fd s hold
      have hfd := hown sock hs
      have hclose' := h.closes sock hs
      exact hclose ⟨by omega, hfd.symm⟩
    · rw [hfrees.socks, Function.update_of_ne hne] at hnone
      exact h.closed hnone fd hold
  user {p e uid w r sock} hrun hi hjoin hquit hnew hs h := by
    refine ⟨(keeps_owns H sv i).user hrun hi hjoin hquit hnew hs h.owns,
      (keeps_used H sv i).user hrun hi hjoin hquit hnew hs h.used,
      fun sock' hs' => ?_, fun hnone fd => ?_⟩
    · obtain ⟨sock₀, hs₀, hfd, -⟩ := World.withUser_socket hs hs'
      rw [hfd]
      exact h.closes sock₀ hs₀
    · exact h.closed ((World.withUser_none hs).mp hnone) fd

/-! ## The user that goes with a socket -/

/-- The user `uid` goes when the socket `s` is freed, or it went. -/
structure World.GoesWith (w : World ι HDF) (p : ι) (uid : Uid) (s : ℕ) : Prop where
  used : ¬w.Unused s
  names : ∀ sock, w.socks s = some sock → sock.appdata = some (p, uid)
  gone : w.socks s = none → ∀ u, baseUserFind w p uid = some u → u.tcpsock ≠ s

/-- The user `uid` is registered on the socket `s`, which does not name it. -/
def World.LeftBehind (w : World ι HDF) (p : ι) (uid : Uid) (s : ℕ) : Prop :=
  (∃ u, baseUserFind w p uid = some u ∧ u.tcpsock = s) ∧
    ∀ sock, w.socks s = some sock → sock.appdata ≠ some (p, uid)

/-- The step runs a JOIN that makes a record of the user `uid` on the connection `s`. -/
def Server.FilesOn (p : ι) (uid : Uid) (s : ℕ) :
    Except Fault (Server ι HDF) → ServerStep ι HDF → Prop
  | .ok sv, i => ∃ e, i = .process p true ∧ sv.runs i = some (p, e) ∧ Joins H e uid ∧
      sv.world.FilesUser p uid e.req ∧ e.req.tcpsock = s
  | .error _, _ => False

/-- No JOIN makes a record on the connection `s`. -/
def Server.FilesNone (s : ℕ) (x : Except Fault (Server ι HDF)) (i : ServerStep ι HDF) : Prop :=
  ∀ p uid, ¬Server.FilesOn H p uid s x i

omit [DecidableEq ι] in
theorem World.SameNamed.find (h : w.SameNamed w') : baseUserFind w' p uid = baseUserFind w p uid := by
  unfold baseUserFind
  rw [h.userh]

/-- A freed socket takes the user along that it names. -/
theorem World.stays_goesWith : World.Stays (fun w : World ι HDF => w.GoesWith p uid s) where
  same hsame h := by
    refine ⟨mt hsame.unused_iff.mp h.used, fun sock' hs' => ?_, fun hnone u hu => ?_⟩
    · obtain ⟨sock, hs, heq⟩ := hsame.socket hs'
      exact (congrArg (fun x => x.2.2) heq).trans (h.names sock hs)
    · exact h.gone (hsame.none_iff.mp hnone) u (hsame.find.symm.trans hu)
  free {w w' s₀ sock} _ hs hfrees h := by
    refine ⟨fun hunused => h.used (hfrees.unused hunused),
      fun sock' hs' => h.names sock' (hfrees.socket hs').2, fun hnone u hu => ?_⟩
    rw [hfrees.find] at hu
    split_ifs at hu with happ
    by_cases hne : s = s₀
    · exact absurd (h.names sock (hne ▸ hs)) happ
    · rw [hfrees.socks, Function.update_of_ne hne] at hnone
      exact h.gone hnone u hu

theorem World.stays_leftBehind : World.Stays (fun w : World ι HDF => w.LeftBehind p uid s) where
  same hsame := by
    rintro ⟨⟨u, hu, hus⟩, happ⟩
    refine ⟨⟨u, hsame.find.trans hu, hus⟩, fun sock' hs' => ?_⟩
    obtain ⟨sock, hs, heq⟩ := hsame.socket hs'
    have happdata : sock'.appdata = sock.appdata := congrArg (fun x => x.2.2) heq
    rw [happdata]
    exact happ sock hs
  free {w w' s₀ sock} hsound hs hfrees := by
    rintro ⟨⟨u, hu, hus⟩, happ⟩
    refine ⟨⟨u, ?_, hus⟩, fun sock' hs' => happ sock' (hfrees.socket hs').2⟩
    rw [hfrees.find, if_neg, hu]
    -- The freed socket does not name the user, whose socket is `s`.
    intro happ₀
    obtain ⟨u', hu', hus'⟩ := hsound.appdata s₀ sock p uid hs happ₀
    obtain rfl := Option.some.inj (hu.symm.trans hu')
    exact happ sock (by rw [← hus, hus']; exact hs) happ₀

omit [DecidableEq ι] in
theorem World.unlisten_socket {sock sock' : TcpSocket ι} (hs : w.socks s₀ = some sock)
    (hs' : (w.unlisten s₀ sock).socks s = some sock') :
    ∃ sock, w.socks s = some sock ∧ sock'.appdata = sock.appdata := by
  rcases update_eq_some.mp hs' with ⟨rfl, heq⟩ | ⟨-, hold⟩
  · exact ⟨sock, hs, by rw [← Option.some.inj heq]⟩
  · exact ⟨sock', hold, rfl⟩

/-- A step leaves the user with the socket, unless a JOIN makes a record there. -/
theorem Server.keeps_goesWith (hsound : sv.world.Sound) (hi : Server.FilesNone H s (.ok sv) i) :
    sv.Keeps H i (fun w => w.GoesWith p uid s) where
  toStays := World.stays_goesWith
  accept {w s₀ fd} hfd hfree hs h := by
    have hsame : (w.withSocket s₀ fd).socks s = w.socks s := w.withSocket_of_ne (hs.ne h.used)
    exact ⟨(keeps_used H sv i).accept hfd hfree hs h.used,
      fun sock hsock => h.names sock (hsame.symm.trans hsock),
      fun hnone u hu => h.gone (hsame.symm.trans hnone) u hu⟩
  unlisten {s₀ sock} heq hs h := by
    refine ⟨(keeps_used H sv i).unlisten heq hs h.used, fun sock' hs' => ?_, fun hnone u hu => ?_⟩
    · obtain ⟨sock₀, hs₀, happ⟩ := World.unlisten_socket (registered_eq_some.mp hs).1 hs'
      exact happ.trans (h.names sock₀ hs₀)
    · exact h.gone (World.unlisten_none hnone) u hu
  user {p' e uid' w r sock} hrun heq hjoin hquit hnew hs h := by
    have hne : e.req.tcpsock ≠ s := fun hsame => by
      have hfiles := (baseUserFind_baseUserQuit_iff hsound.counts hquit).mp hnew
      exact hi p' uid' ⟨e, heq, hrun, hjoin, hfiles, hsame⟩
    have hsame : (w.withUser p' uid' e.req sock).socks s = w.socks s :=
      Function.update_of_ne hne.symm ..
    refine ⟨mt (World.withUser_unused_iff hs).mp h.used,
      fun sock hsock => h.names sock (hsame.symm.trans hsock), fun hnone u hu => ?_⟩
    rw [baseUserFind_withUser] at hu
    split_ifs at hu
    · rw [← Option.some.inj hu]
      exact hne
    · exact h.gone (hsame.symm.trans hnone) u hu

theorem Server.keeps_leftBehind : sv.Keeps H i (fun w => w.LeftBehind p uid s) where
  toStays := World.stays_leftBehind
  accept {w s₀ fd} _ _ _ := by
    rintro ⟨hu, happ⟩
    refine ⟨hu, fun sock hs => ?_⟩
    rcases update_eq_some.mp hs with ⟨-, heq⟩ | ⟨-, hold⟩
    · rw [← Option.some.inj heq]
      nofun
    · exact happ sock hold
  unlisten {s₀ sock} _ hs := by
    rintro ⟨hu, happ⟩
    refine ⟨hu, fun sock' hs' => ?_⟩
    obtain ⟨sock₀, hs₀, heq⟩ := World.unlisten_socket (registered_eq_some.mp hs).1 hs'
    rw [heq]
    exact happ sock₀ hs₀
  user {p' e uid' w r sock} _ _ _ _ hnew hs := by
    rintro ⟨⟨u, hu, hus⟩, happ⟩
    have hne : (p, uid) ≠ (p', uid') := fun heq => by
      obtain ⟨rfl, rfl⟩ := Prod.mk.inj heq
      rw [hnew] at hu
      cases hu
    refine ⟨⟨u, by rw [baseUserFind_withUser, if_neg hne, hu], hus⟩, fun sock' hs' => ?_⟩
    obtain ⟨sock₀, hs₀, -, heq⟩ := World.withUser_socket hs hs'
    rw [heq]
    split_ifs
    · exact fun heq => hne (Option.some.inj heq).symm
    · exact happ sock₀ hs₀

/-- A JOIN that makes a record on the socket of a user leaves the user behind. -/
theorem Server.leftBehind_of_filesOn {sv' : Server ι HDF} (hsound : sv.world.Sound)
    (h : sv.world.GoesWith p uid s) {p' : ι} {uid' : Uid}
    (hi : Server.FilesOn H p' uid' s (.ok sv) i) (hstep : sv.step H i = .ok sv') :
    sv'.world.LeftBehind p uid s := by
  obtain ⟨e, rfl, hruns, hjoin, hfiles, rfl⟩ := hi
  obtain ⟨-, hrun, hp⟩ := Server.runs_eq_some hruns
  simp only [Server.step, hrun, hp, Bool.false_eq_true, if_false] at hstep
  obtain ⟨w', hw, hsv⟩ := bind_eq_ok.mp hstep
  obtain ⟨w₁, r, _, hquit, hnew⟩ := hjoin.userCommand_iff.mp hw
  have hfind : baseUserFind w₁ p' uid' = none :=
    (baseUserFind_baseUserQuit_iff hsound.counts hquit).mpr hfiles
  rcases baseUserNew_cases hnew with ⟨-, ⟨u, hu⟩ | hno⟩ | ⟨sock, -, -, hs, heq⟩
  · rw [hfind] at hu
    cases hu
  · cases hno
  · -- The socket named the user, who is registered there, until the record was made.
    have happ := (World.stays_goesWith.baseUserQuit hsound hquit h).names sock hs
    obtain ⟨u, hu, hus⟩ := (hsound.baseUserQuit hquit).appdata _ sock p uid hs happ
    have hne : (p, uid) ≠ (p', uid') := fun heq => by
      obtain ⟨rfl, rfl⟩ := Prod.mk.inj heq
      rw [hfind] at hu
      cases hu
    rw [← Except.ok.inj hsv]
    dsimp only at heq ⊢
    rw [heq]
    refine ⟨⟨u, by rw [baseUserFind_withUser, if_neg hne, hu], hus⟩, fun sock' hs' => ?_⟩
    obtain ⟨sock₀, -, -, happ'⟩ := World.withUser_socket hs hs'
    rw [happ', if_pos rfl]
    exact fun heq => hne (Option.some.inj heq).symm

end Kept

/-! ## Runs -/

section Runs

variable {H : PushLib HDF} {sv sv' : Server ι HDF} {i : ServerStep ι HDF}
  {js : List (ServerStep ι HDF)}

/-- What a step keeps that meets `G` and does not fault, a run keeps. -/
theorem Server.run_of_effect {I : World ι HDF → Prop}
    {G : Except Fault (Server ι HDF) → ServerStep ι HDF → Prop}
    (keep : ∀ (sv : Server ι HDF) i w', sv.world.Sound → I sv.world → G (.ok sv) i →
      sv.Effect H i w' → I w')
    (hsound : sv.world.Sound) (h : I sv.world) (hG : EachStep (Server.next H) G (.ok sv) js)
    (hrun : js.foldl (Server.next H) (.ok sv) = .ok sv') : I sv'.world := by
  induction js generalizing sv with
  | nil =>
    rw [← Except.ok.inj hrun]
    exact h
  | cons i js ih =>
    obtain ⟨sv₁, hstep, hrest⟩ := foldl_next_cons hrun
    have heffect := Server.step_effect hsound.counts hstep
    have hnext : Server.next H (.ok sv) i = .ok sv₁ := hstep
    refine ih (heffect.sound hsound) (keep sv i _ hsound h hG.1 heffect) ?_ hrest
    rw [← hnext]
    exact hG.2

theorem Server.run_keeps {Q : World ι HDF → Prop} (hkeeps : ∀ (sv : Server ι HDF) i, sv.Keeps H i Q)
    (hsound : sv.world.Sound) (h : Q sv.world)
    (hrun : js.foldl (Server.next H) (.ok sv) = .ok sv') : Q sv'.world :=
  Server.run_of_effect (G := fun _ _ => True)
    (fun sv i _ hsound h _ heffect => heffect.keeps hsound (hkeeps sv i) h) hsound h
    (eachStep_of_forall (fun _ _ => trivial) _ _) hrun

/-- The user is gone with its socket at the end of a run without a JOIN there. -/
theorem Server.run_goesWith (hsound : sv.world.Sound) (h : sv.world.GoesWith p uid s)
    (hG : EachStep (Server.next H) (Server.FilesNone H s) (.ok sv) js)
    (hrun : js.foldl (Server.next H) (.ok sv) = .ok sv') : sv'.world.GoesWith p uid s :=
  Server.run_of_effect (fun sv i _ hsound h hi heffect =>
    heffect.keeps hsound (keeps_goesWith H sv i hsound hi) h) hsound h hG hrun

/-- A JOIN in a run leaves the user of its socket behind. -/
theorem Server.run_leftBehind (hsound : sv.world.Sound) (h : sv.world.GoesWith p uid s)
    (hG : ¬EachStep (Server.next H) (Server.FilesNone H s) (.ok sv) js)
    (hrun : js.foldl (Server.next H) (.ok sv) = .ok sv') : sv'.world.LeftBehind p uid s := by
  induction js generalizing sv with
  | nil => exact absurd trivial hG
  | cons i js ih =>
    obtain ⟨sv₁, hstep, hrest⟩ := foldl_next_cons hrun
    have heffect := Server.step_effect hsound.counts hstep
    have hnext : Server.next H (.ok sv) i = .ok sv₁ := hstep
    by_cases hi : ∃ p' uid', Server.FilesOn H p' uid' s (.ok sv) i
    · obtain ⟨p', uid', hi⟩ := hi
      have hleft := Server.leftBehind_of_filesOn H sv i hsound h hi hstep
      exact Server.run_keeps (fun sv i => keeps_leftBehind H sv i) (heffect.sound hsound) hleft hrest
    · have hi : Server.FilesNone H s (.ok sv) i := fun p' uid' hfiles => hi ⟨p', uid', hfiles⟩
      refine ih (heffect.sound hsound) (heffect.keeps hsound (keeps_goesWith H sv i hsound hi) h)
        (fun hrest => hG ⟨hi, ?_⟩) hrest
      rw [hnext]
      exact hrest

end Runs

end Moc
