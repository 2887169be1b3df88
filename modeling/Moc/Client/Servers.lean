import Moc.Client.Checksum
import Moc.Lib.Qsort
import Moc.Lib.Runs
import Mathlib.Data.Prod.Lex

/-!
# The servers of a module

`moc_add_tcp_server` and `add_tcp_server_addr` of `client/tcp.c`, `compare_servers` and `select_srv`
of `client/internal.c`. A new server is appended to the array, which is sorted again when the server
could be connected and cut back to its old length otherwise. What the client finds under a key
depends on the servers that were connected, not on the order in which they were added
(`selectSrv_order_irrelevant`).
-/

open Memory Runs Sorting

namespace Moc

/-- A `moc_srv`, without its receive buffer. The address and the port are the words that a
little-endian host finds in `srvsa`; `tv` is not written when the caller gives none. -/
structure TcpSrv where
  fd : ℤ
  sAddr : ℕ
  sinPort : ℕ
  nblock : Bool
  tv : Option (ℤ × ℤ)
  deriving DecidableEq

/-- The part of a `moc_t` that keeps the servers. -/
structure MocServers where
  nservers : ℕ
  servers : List TcpSrv
  deriving DecidableEq

/-- A new `moc_t`, from `calloc`. -/
def MocServers.init : MocServers := ⟨0, []⟩

/-- What the calls outside return while a server is added. -/
structure AddOutcome where
  /-- The address that `inet_pton` or `gethostbyname` finds. -/
  inetaddr : Option ℕ
  /-- `socket()` -/
  fd : ℤ
  /-- The `realloc` to one server more succeeds. -/
  grows : Bool
  /-- `connect()` -/
  connect : ℤ
  /-- `setsockopt()` -/
  setsockopt : ℤ
  /-- The `realloc` back to the old size returns a block. -/
  shrinks : Bool

/-- A call of `moc_add_tcp_server`. -/
structure AddCall where
  port : ℤ
  nblock : Bool
  tv : Option (ℤ × ℤ)
  outcome : AddOutcome

/-- `htons`, on a little-endian host. -/
def htons (port : ℤ) : ℕ := (port % 2^8 * 2^8 + port / 2^8 % 2^8).toNat

/-- `compare_servers` -/
def compareServers (srv1 srv2 : TcpSrv) : ℤ :=
  let a1 := srv1.sAddr
  let a2 := srv2.sAddr
  if a1 < a2 then -1
  else if a1 = a2 then
    let p1 := srv1.sinPort
    let p2 := srv2.sinPort
    if p1 < p2 then -1 else if p1 = p2 then 0 else 1
  else 1

/-- `add_tcp_server_addr`: the return value and the servers afterwards. -/
def addTcpServerAddr (qsort : Qsort TcpSrv) (evt : MocServers) (inetaddr : ℕ) (c : AddCall) :
    ℤ × MocServers :=
  if c.outcome.fd < 0 then (0, evt)
  else if ¬ c.outcome.grows then (0, evt)
  else
    let newsrv : TcpSrv := ⟨c.outcome.fd, inetaddr, htons c.port, c.nblock, c.tv⟩
    let evt : MocServers := ⟨evt.nservers + 1, evt.servers ++ [newsrv]⟩
    if c.outcome.connect < 0 ∨ c.outcome.setsockopt < 0 then
      if ¬ c.outcome.shrinks then (0, ⟨0, []⟩)
      else (0, ⟨evt.nservers - 1, evt.servers.take (evt.nservers - 1)⟩)
    else (1, { evt with servers := qsort.sort compareServers evt.servers })

/-- `moc_add_tcp_server` -/
def mocAddTcpServer (qsort : Qsort TcpSrv) (evt : MocServers) (c : AddCall) : ℤ × MocServers :=
  match c.outcome.inetaddr with
  | none => (0, evt)
  | some inetaddr => addTcpServerAddr qsort evt inetaddr c

/-- `select_srv` -/
def selectSrv (evt : MocServers) (key : List UInt8) : Except Fault (Option TcpSrv) :=
  if evt.nservers = 0 then .ok none
  else do
    let n ← checksum key
    match evt.servers[n % evt.nservers]? with
    | none => .error .outOfBounds
    | some srv => return some srv

/-! ## The comparison -/

/-- What a server is compared by. -/
def TcpSrv.ident (srv : TcpSrv) : ℕ ×ₗ ℕ := toLex (srv.sAddr, srv.sinPort)

theorem compareServers_le (a b : TcpSrv) : compareServers a b ≤ 0 ↔ a.ident ≤ b.ident := by
  simp only [compareServers, TcpSrv.ident, Prod.Lex.toLex_le_toLex]
  split_ifs <;> omega

theorem compareServers_lt (a b : TcpSrv) : compareServers a b < 0 ↔ a.ident < b.ident := by
  simp only [compareServers, TcpSrv.ident, Prod.Lex.toLex_lt_toLex]
  split_ifs <;> omega

theorem consistent_compareServers : Consistent compareServers :=
  .of_key compareServers_le compareServers_lt

/-! ## Adding one after another -/

/-- The server that a call asks for, once its address is found. -/
def AddCall.newsrv (c : AddCall) : Option TcpSrv :=
  c.outcome.inetaddr.map fun inetaddr => ⟨c.outcome.fd, inetaddr, htons c.port, c.nblock, c.tv⟩

/-- The calls one after another, with what each returns. -/
def addServers (qsort : Qsort TcpSrv) (evt : MocServers) (calls : List AddCall) :
    Except Fault (List ℤ × MocServers) :=
  run (fun evt c => .ok (mocAddTcpServer qsort evt c)) evt calls

/-- The servers whose calls returned 1. -/
def connected (calls : List AddCall) (rvs : List ℤ) : List TcpSrv :=
  (calls.zip rvs).filterMap fun p => if p.2 = 1 then p.1.newsrv else none

/-- A `realloc` to a size other than 0 that makes a block smaller succeeds. -/
def ShrinksInPlace (evt : MocServers) (c : AddCall) : Prop :=
  0 < evt.nservers → c.outcome.shrinks = true

/-- The array is sorted and holds the servers `srvs`. -/
structure HoldsServers (evt : MocServers) (srvs : List TcpSrv) : Prop where
  count : evt.nservers = evt.servers.length
  sorted : evt.servers.Pairwise fun a b => a.ident ≤ b.ident
  perm : evt.servers.Perm srvs

/-- What one call does: it adds its server, or leaves the array as it was. -/
theorem mocAddTcpServer_cases (qsort : Qsort TcpSrv) {evt : MocServers} {c : AddCall}
    (hcount : evt.nservers = evt.servers.length) (hshrink : ShrinksInPlace evt c) :
    mocAddTcpServer qsort evt c = (0, evt) ∨
      ∃ srv, c.newsrv = some srv ∧ mocAddTcpServer qsort evt c =
        (1, ⟨evt.nservers + 1, qsort.sort compareServers (evt.servers ++ [srv])⟩) := by
  unfold mocAddTcpServer
  cases haddr : c.outcome.inetaddr with
  | none => exact .inl rfl
  | some inetaddr =>
    dsimp only
    unfold addTcpServerAddr
    split_ifs with hfd hgrow hfail hkept
    · exact .inl rfl
    · left
      simp only [hcount, Nat.add_sub_cancel, List.take_left]
      rw [← hcount]
    · -- A block that was lost was one of no server.
      have hzero : evt.nservers = 0 := by
        by_contra hpos
        exact hkept (hshrink (Nat.pos_of_ne_zero hpos))
      have hnil : evt.servers = [] := List.eq_nil_of_length_eq_zero (hcount ▸ hzero)
      obtain ⟨n, servers⟩ := evt
      dsimp only at hzero hnil
      rw [hzero, hnil]
      exact .inl rfl
    · exact .inr ⟨_, by rw [AddCall.newsrv, haddr]; rfl, rfl⟩
    · exact .inl rfl

/-- The array after any calls: sorted, and exactly the servers whose calls returned 1. -/
theorem holdsServers_of_addServers {qsort : Qsort TcpSrv} {evt evt' : MocServers}
    {srvs : List TcpSrv} (h : HoldsServers evt srvs) {calls : List AddCall} {rvs : List ℤ}
    (hshrink : EachStep (fun evt c => (mocAddTcpServer qsort evt c).2) ShrinksInPlace evt calls)
    (hrun : addServers qsort evt calls = .ok (rvs, evt')) :
    HoldsServers evt' (srvs ++ connected calls rvs) := by
  induction calls generalizing evt srvs rvs with
  | nil =>
    obtain ⟨rfl, rfl⟩ := Prod.mk.inj (Except.ok.inj hrun)
    simpa [connected] using h
  | cons c calls ih =>
    obtain ⟨⟨rv, evt₁⟩, hstep, hrun⟩ := bind_eq_ok.mp hrun
    obtain ⟨⟨rvs', evt₂⟩, hrest, hend⟩ := bind_eq_ok.mp hrun
    obtain ⟨rfl, rfl⟩ := Prod.mk.inj (Except.ok.inj hend)
    have hstep : mocAddTcpServer qsort evt c = (rv, evt₁) := Except.ok.inj hstep
    have hnext := hshrink.2
    simp only [hstep] at hnext
    rcases mocAddTcpServer_cases qsort h.count hshrink.1 with hsame | ⟨srv, hsrv, hadd⟩
    · obtain ⟨rfl, rfl⟩ := Prod.mk.inj (hsame.symm.trans hstep)
      simpa [connected] using ih h hnext hrest
    · obtain ⟨rfl, rfl⟩ := Prod.mk.inj (hadd.symm.trans hstep)
      have hperm := qsort.perm consistent_compareServers (evt.servers ++ [srv])
      have hholds : HoldsServers
          ⟨evt.nservers + 1, qsort.sort compareServers (evt.servers ++ [srv])⟩ (srvs ++ [srv]) := by
        refine ⟨?_, ?_, hperm.trans (h.perm.append_right _)⟩
        · rw [hperm.length_eq, List.length_append, h.count]
          rfl
        · exact (qsort.sorted consistent_compareServers _).imp fun hle =>
            (compareServers_le _ _).mp hle
      simpa [connected, hsrv] using ih hholds hnext hrest

/-! ## Selecting -/

/-- The server found under a key is the one at a place that depends on the key and their number. -/
theorem selectSrv_eq {evt : MocServers} (hcount : evt.nservers = evt.servers.length)
    {key : List UInt8} {n : ℕ} (hn : checksum key = .ok n) :
    selectSrv evt key = .ok evt.servers[n % evt.servers.length]? := by
  unfold selectSrv
  split_ifs with hzero
  · have hnil : evt.servers = [] := List.eq_nil_of_length_eq_zero (hcount ▸ hzero)
    rw [hnil]
    rfl
  · have hlt : n % evt.servers.length < evt.servers.length :=
      Nat.mod_lt _ (Nat.pos_of_ne_zero (hcount ▸ hzero))
    rw [hn, ok_bind, hcount, List.getElem?_eq_getElem hlt]
    rfl

/-- Two runs that connect the same servers, in any order and with any failed calls between, leave
sorted arrays of them, and every key selects the same address and port in both. -/
theorem selectSrv_order_irrelevant {qsort qsort' : Qsort TcpSrv} {calls calls' : List AddCall}
    {rvs rvs' : List ℤ} {evt evt' : MocServers}
    (hrun : addServers qsort .init calls = .ok (rvs, evt))
    (hrun' : addServers qsort' .init calls' = .ok (rvs', evt'))
    (hshrink : EachStep (fun evt c => (mocAddTcpServer qsort evt c).2) ShrinksInPlace .init calls)
    (hshrink' : EachStep (fun evt c => (mocAddTcpServer qsort' evt c).2) ShrinksInPlace .init calls')
    (hsame : ((connected calls rvs).map TcpSrv.ident).Perm
      ((connected calls' rvs').map TcpSrv.ident)) :
    HoldsServers evt (connected calls rvs) ∧ HoldsServers evt' (connected calls' rvs') ∧
      ∀ key, ∃ srv srv', selectSrv evt key = .ok srv ∧ selectSrv evt' key = .ok srv' ∧
        srv.map TcpSrv.ident = srv'.map TcpSrv.ident := by
  have hinit : HoldsServers .init [] := ⟨rfl, List.Pairwise.nil, List.Perm.refl _⟩
  have h := holdsServers_of_addServers hinit hshrink hrun
  have h' := holdsServers_of_addServers hinit hshrink' hrun'
  rw [List.nil_append] at h h'
  refine ⟨h, h', fun key => ?_⟩
  have hperm : (evt.servers.map TcpSrv.ident).Perm (evt'.servers.map TcpSrv.ident) :=
    calc evt.servers.map TcpSrv.ident
      List.Perm _ ((connected calls rvs).map TcpSrv.ident) := h.perm.map _
      List.Perm _ ((connected calls' rvs').map TcpSrv.ident) := hsame
      List.Perm _ (evt'.servers.map TcpSrv.ident) := (h'.perm.map _).symm
  have hidents : evt.servers.map TcpSrv.ident = evt'.servers.map TcpSrv.ident :=
    map_key_eq h.sorted h'.sorted hperm
  have hlen : evt.servers.length = evt'.servers.length := by
    simpa using congrArg List.length hidents
  refine ⟨_, _, selectSrv_eq h.count (checksum_eq key), selectSrv_eq h'.count (checksum_eq key), ?_⟩
  rw [← List.getElem?_map, ← List.getElem?_map, hidents, hlen]

/-- A call that adds a server, when `connect` returns `rv`. -/
def sampleAdd (inetaddr : ℕ) (port rv : ℤ) : AddCall :=
  ⟨port, false, none, ⟨some inetaddr, 3, true, rv, 0, true⟩⟩

/-- Two servers, with a failed attempt between. -/
def oneOrder : List AddCall := [sampleAdd 2 80 0, sampleAdd 9 80 (-1), sampleAdd 1 81 0]

/-- The same servers the other way round. -/
def otherOrder : List AddCall := [sampleAdd 1 81 0, sampleAdd 2 80 0]

/-- The array that both orders leave. -/
def twoServers : MocServers :=
  ⟨2, [⟨3, 1, htons 81, false, none⟩, ⟨3, 2, htons 80, false, none⟩]⟩

theorem selectSrv_oneOrder_otherOrder :
    addServers .insertion .init oneOrder = .ok ([1, 0, 1], twoServers) ∧
      addServers .insertion .init otherOrder = .ok ([1, 1], twoServers) ∧
      ∀ key, ∃ srv srv', selectSrv twoServers key = .ok srv ∧ selectSrv twoServers key = .ok srv' ∧
        srv.map TcpSrv.ident = srv'.map TcpSrv.ident := by
  have hrun : addServers .insertion .init oneOrder = .ok ([1, 0, 1], twoServers) := rfl
  have hrun' : addServers .insertion .init otherOrder = .ok ([1, 1], twoServers) := rfl
  have hshrink : ∀ calls : List AddCall, (∀ c ∈ calls, c.outcome.shrinks = true) →
      EachStep (fun evt c => (mocAddTcpServer .insertion evt c).2) ShrinksInPlace .init calls :=
    fun _ hcalls => eachStep_of_mem (G := ShrinksInPlace) (fun c hc _ _ => hcalls c hc) _
  exact ⟨hrun, hrun', (selectSrv_order_irrelevant hrun hrun' (hshrink oneOrder (by decide))
    (hshrink otherOrder (by decide)) (by decide)).2.2⟩

end Moc
