import Moc.Lib.Links
import Moc.Server.Timers
import Mathlib.Data.List.AList

/-!
# The timers in memory

A `struct timer_entry` is a cell of a singly linked list that starts at `e->timers`. The loop of
`time_up` takes a timer that does not repeat out of the list while it walks it, and the pointer `p`
to the cell before may be one to a cell that was freed. `timerLoop_spec` carries the two pointers
through the loop; so the memory keeps standing for the lists that `walkTimers` computes, and no
pointer to a freed cell is followed.
-/

open Links Memory

namespace Moc

/-- A `struct timer_entry`. -/
structure TimerCell where
  timeout : ℤ
  rep : Bool
  timer : ℕ
  data : ℕ
  next : Option ℕ
  deriving DecidableEq

/-- The allocated timers, by address. -/
abbrev TimerCells := AList fun _ : ℕ => TimerCell

/-- The timer that lies at an address. -/
def TimerCell.entry (c : TimerCell) (addr : ℕ) : TimerEntry :=
  ⟨addr, c.timeout, c.rep, c.timer, c.data⟩

/-- The cell of a timer. -/
def TimerEntry.cell (t : TimerEntry) (next : Option ℕ) : TimerCell :=
  ⟨t.timeout, t.rep, t.timer, t.data, next⟩

@[simp] theorem TimerEntry.cell_timeout (t : TimerEntry) (next : Option ℕ) :
    (t.cell next).timeout = t.timeout := rfl

@[simp] theorem TimerEntry.cell_rep (t : TimerEntry) (next : Option ℕ) :
    (t.cell next).rep = t.rep := rfl

@[simp] theorem TimerEntry.cell_next (t : TimerEntry) (next : Option ℕ) :
    (t.cell next).next = next := rfl

@[simp] theorem TimerEntry.entry_cell (t : TimerEntry) (next : Option ℕ) :
    (t.cell next).entry t.addr = t := rfl

/-- The cell at a pointer. -/
def TimerCells.deref (cells : TimerCells) : Option ℕ → Except Fault TimerCell
  | none => .error .nullPointer
  | some a =>
    match cells.lookup a with
    | none => .error .useAfterFree
    | some c => .ok c

/-- `p->next = q` -/
def TimerCells.setNext (cells : TimerCells) (p q : Option ℕ) : Except Fault TimerCells :=
  match p with
  | none => .error .nullPointer
  | some a =>
    match cells.lookup a with
    | none => .error .useAfterFree
    | some c => .ok (cells.insert a { c with next := q })

/-- `free(p)` -/
def TimerCells.free (cells : TimerCells) (p : Option ℕ) : Except Fault TimerCells :=
  match p with
  | none => .ok cells
  | some a =>
    match cells.lookup a with
    | none => .error .useAfterFree
    | some _ => .ok (cells.erase a)

/-- What the loop over the timers of one plugin works on: the memory, `e->timers`, the pointers `p` and
`t`, and the timers called so far. -/
structure TimerLoop where
  cells : TimerCells
  timers : Option ℕ
  p : Option ℕ
  t : Option ℕ
  called : List TimerEntry

/-- The loop of `time_up` over the timers of one plugin. A callback does not touch the list. The loop
runs once for each cell, unless the cells form a cycle. -/
def timerLoop (upsec : ℤ) : ℕ → TimerLoop → Except Fault TimerLoop
  | fuel, s =>
    match s.t with
    | none => .ok s
    | some addr =>
      match fuel with
      | 0 => .error .diverges
      | fuel + 1 => do
        let c ← s.cells.deref s.t
        if 0 < c.timeout then
          if upsec.tmod c.timeout = 0 then
            let s := { s with called := s.called ++ [c.entry addr] }
            if ¬ c.rep then
              let s ← if s.t = s.timers then pure { s with timers := c.next }
                else do
                  let cells ← s.cells.setNext s.p c.next
                  pure { s with cells }
              let c ← s.cells.deref s.t
              let n := c.next
              let cells ← s.cells.free s.t
              timerLoop upsec fuel { s with cells, t := n }
            else timerLoop upsec fuel { s with p := s.t, t := c.next }
          else timerLoop upsec fuel { s with p := s.t, t := c.next }
        else return s

/-- The memory, and `e->timers` of every plugin in the order of the table. -/
structure TimerMem where
  cells : TimerCells
  timers : List (Option ℕ)

/-- The loop of `time_up` over the plugins: the memory afterwards, and for each plugin the timers
called. -/
def walkEntries (upsec : ℤ) (cells : TimerCells) :
    List (Option ℕ) → Except Fault (TimerMem × List (List TimerEntry))
  | [] => .ok (⟨cells, []⟩, [])
  | head :: heads => do
    let s ← timerLoop upsec cells.keys.length ⟨cells, head, head, head, []⟩
    let (m, called) ← walkEntries upsec s.cells heads
    return (⟨m.cells, s.timers :: m.timers⟩, s.called :: called)

/-- What `time_up` keeps between two calls. -/
structure ClockMem where
  upsec : ℤ
  ctime : ℤ
  mem : TimerMem

/-- `time_up` at the time `now`. -/
def ClockMem.timeUp (s : ClockMem) (now : ℤ) : Except Fault (ClockMem × List (List TimerEntry)) :=
  if 1 ≤ now - s.ctime then do
    let upsec := (s.upsec + (now - s.ctime)).bmod (2^32)
    let (mem, called) ← walkEntries upsec s.mem.cells s.mem.timers
    return (⟨upsec, now, mem⟩, called)
  else .ok ({ s with ctime := now }, s.mem.timers.map fun _ => [])

/-- `calloc` for a timer: a free address, or `NULL`. -/
structure CellCalloc where
  pick : TimerCells → Option ℕ
  fresh : ∀ cells a, pick cells = some a → cells.lookup a = none

/-- `moc_add_timer` on `e->timers` of the plugin `i`. -/
def TimerMem.mocAddTimer (calloc : CellCalloc) (m : TimerMem) (i : ℕ) (t : TimerArgs) : TimerMem :=
  match m.timers[i]?, t.timer with
  | none, _ => m
  | _, none => m
  | some head, some timer =>
    match calloc.pick m.cells with
    | none => m
    | some addr =>
      ⟨m.cells.insert addr ⟨t.timeout, t.rep, timer, t.data, head⟩, m.timers.set i (some addr)⟩

/-! ## Lists in memory -/

/-- The pointers from cell to cell. -/
def TimerCells.nextOf (cells : TimerCells) (addr : ℕ) : Option ℕ :=
  (cells.lookup addr).bind TimerCell.next

/-- From the pointer `head` exactly the timers `ts` are reached, in order, and all of them are
allocated. -/
structure TimerCells.Holds (cells : TimerCells) (head : Option ℕ) (ts : List TimerEntry) : Prop where
  follows : Links.Follows cells.nextOf head (ts.map TimerEntry.addr)
  holds : ∀ t ∈ ts, ∃ next, cells.lookup t.addr = some (t.cell next)

section Cells

variable {cells cells' : TimerCells} {head : Option ℕ} {ts : List TimerEntry} {t : TimerEntry}
  {c : TimerCell} {a : ℕ}

theorem TimerCells.deref_some (ha : cells.lookup a = some c) : cells.deref (some a) = .ok c := by
  simp only [deref, ha]

theorem TimerCells.setNext_some (q : Option ℕ) (ha : cells.lookup a = some c) :
    cells.setNext (some a) q = .ok (cells.insert a { c with next := q }) := by
  simp only [setNext, ha]

theorem TimerCells.free_some (ha : cells.lookup a = some c) :
    cells.free (some a) = .ok (cells.erase a) := by
  simp only [free, ha]

/-- A list is as it was when its cells are. -/
theorem TimerCells.Holds.congr (h : cells.Holds head ts)
    (hsame : ∀ t ∈ ts, cells'.lookup t.addr = cells.lookup t.addr) : cells'.Holds head ts := by
  refine ⟨(follows_congr fun a ha => ?_).mpr h.follows, fun t ht => ?_⟩
  · obtain ⟨t, ht, rfl⟩ := List.mem_map.mp ha
    rw [nextOf, nextOf, hsame t ht]
  · rw [hsame t ht]
    exact h.holds t ht

/-- No address is in a list twice. -/
theorem TimerCells.Holds.nodup (h : cells.Holds head ts) : (ts.map TimerEntry.addr).Nodup :=
  h.follows.nodup

/-- A list is not longer than what is allocated. -/
theorem TimerCells.Holds.length_le (h : cells.Holds head ts) : ts.length ≤ cells.keys.length := by
  have hsub : ts.map TimerEntry.addr ⊆ cells.keys := by
    intro a ha
    obtain ⟨t, ht, rfl⟩ := List.mem_map.mp ha
    obtain ⟨next, hc⟩ := h.holds t ht
    exact AList.mem_keys.mp (AList.lookup_isSome.mp (by rw [hc]; rfl))
  have hle := (h.nodup.subperm hsub).length_le
  rwa [List.length_map] at hle

/-- A cell that is not in a list can be freed. -/
theorem TimerCells.Holds.erase (h : cells.Holds head ts) (ha : a ∉ ts.map TimerEntry.addr) :
    TimerCells.Holds (cells.erase a) head ts :=
  h.congr fun _ ht => AList.lookup_erase_ne (ne_of_mem_of_not_mem (List.mem_map_of_mem ht) ha)

/-- A cell of a list points to the one behind it. -/
theorem TimerCells.Holds.next_eq {front rest : List TimerEntry} {next : Option ℕ}
    (h : cells.Holds head (front ++ t :: rest)) (ht : cells.lookup t.addr = some (t.cell next)) :
    next = (rest.map TimerEntry.addr).head? := by
  have hfollows := h.follows
  rw [List.map_append, List.map_cons] at hfollows
  rw [← hfollows.of_append.2.head?_eq, nextOf, ht]
  rfl

/-- A cell of a list is not among the others. -/
theorem TimerCells.Holds.notMem_mid {front rest : List TimerEntry}
    (h : cells.Holds head (front ++ t :: rest)) : t.addr ∉ (front ++ rest).map TimerEntry.addr := by
  have hnodup := h.nodup
  rw [List.map_append, List.map_cons, List.nodup_middle, ← List.map_append] at hnodup
  exact (List.nodup_cons.mp hnodup).1

/-- A new cell before the first one. -/
theorem TimerCells.Holds.push (h : cells.Holds head ts) (hfree : cells.lookup t.addr = none) :
    TimerCells.Holds (cells.insert t.addr (t.cell head)) (some t.addr) (t :: ts) := by
  have hout : ∀ x ∈ ts, x.addr ≠ t.addr := by
    intro x hx heq
    obtain ⟨next, hc⟩ := h.holds x hx
    rw [heq, hfree] at hc
    cases hc
  have hts : TimerCells.Holds (cells.insert t.addr (t.cell head)) head ts :=
    h.congr fun x hx => AList.lookup_insert_ne (hout x hx)
  refine ⟨⟨rfl, ?_⟩, fun x hx => ?_⟩
  · rw [nextOf, AList.lookup_insert]
    exact hts.follows
  · rcases List.mem_cons.mp hx with rfl | hx
    · exact ⟨head, AList.lookup_insert _⟩
    · exact hts.holds x hx

/-- The timer behind another one is taken out. -/
theorem TimerCells.Holds.bypass {front rest : List TimerEntry} {x y : TimerEntry} {q : Option ℕ}
    (h : cells.Holds head (front ++ x :: y :: rest)) (hx : cells.lookup x.addr = some c)
    (hq : cells.nextOf y.addr = q) :
    TimerCells.Holds (cells.insert x.addr { c with next := q }) head (front ++ x :: rest) := by
  have hnext : TimerCells.nextOf (cells.insert x.addr { c with next := q }) =
      Function.update cells.nextOf x.addr (cells.nextOf y.addr) := by
    funext a
    by_cases ha : a = x.addr
    · rw [ha, Function.update_self, nextOf, AList.lookup_insert, hq]
      rfl
    · rw [Function.update_of_ne ha, nextOf, nextOf, AList.lookup_insert_ne ha]
  constructor
  · have hfollows := h.follows
    rw [List.map_append, List.map_cons, List.map_cons] at hfollows
    rw [hnext, List.map_append, List.map_cons]
    exact hfollows.bypass
  · intro t ht
    have hmem : t ∈ front ++ x :: y :: rest := by
      simp only [List.mem_append, List.mem_cons] at ht ⊢
      tauto
    obtain ⟨next, hc⟩ := h.holds t hmem
    by_cases ha : t.addr = x.addr
    · rw [ha, hx] at hc
      exact ⟨q, by rw [ha, AList.lookup_insert, Option.some.inj hc]; rfl⟩
    · exact ⟨next, by rw [AList.lookup_insert_ne ha, hc]⟩

end Cells

/-! ## The loop -/

section Loop

variable {cells : TimerCells} {head p : Option ℕ} {upsec : ℤ} {fuel : ℕ} {t : TimerEntry}
  {next : Option ℕ} {called : List TimerEntry}

/-- The loop ends at a timeout that is not positive. -/
theorem timerLoop_stop (ht : cells.lookup t.addr = some (t.cell next)) (hpos : ¬0 < t.timeout) :
    timerLoop upsec (fuel + 1) ⟨cells, head, p, some t.addr, called⟩ =
      .ok ⟨cells, head, p, some t.addr, called⟩ := by
  rw [timerLoop]
  dsimp only
  rw [TimerCells.deref_some ht, ok_bind, TimerEntry.cell_timeout, if_neg hpos, pure_eq_ok]

/-- A timer that stays in the list is left behind, with `p` at it. -/
theorem timerLoop_pass (ht : cells.lookup t.addr = some (t.cell next)) (hpos : 0 < t.timeout)
    (hstay : upsec.tmod t.timeout = 0 → t.rep = true) :
    timerLoop upsec (fuel + 1) ⟨cells, head, p, some t.addr, called⟩ =
      timerLoop upsec fuel ⟨cells, head, some t.addr, next,
        called ++ if upsec.tmod t.timeout = 0 then [t] else []⟩ := by
  conv_lhs => rw [timerLoop]
  dsimp only
  rw [TimerCells.deref_some ht, ok_bind, TimerEntry.cell_timeout, TimerEntry.cell_rep,
    TimerEntry.cell_next, TimerEntry.entry_cell, if_pos hpos]
  by_cases hdue : upsec.tmod t.timeout = 0
  · rw [if_pos hdue, if_neg (not_not.mpr (hstay hdue)), if_pos hdue]
  · rw [if_neg hdue, if_neg hdue, List.append_nil]

/-- The first timer of the list is dropped. -/
theorem timerLoop_dropHead (ht : cells.lookup t.addr = some (t.cell next)) (hpos : 0 < t.timeout)
    (hdue : upsec.tmod t.timeout = 0) (hrep : ¬t.rep = true) :
    timerLoop upsec (fuel + 1) ⟨cells, some t.addr, p, some t.addr, called⟩ =
      timerLoop upsec fuel ⟨cells.erase t.addr, next, p, next, called ++ [t]⟩ := by
  conv_lhs => rw [timerLoop]
  dsimp only
  rw [TimerCells.deref_some ht, ok_bind, TimerEntry.cell_timeout, TimerEntry.cell_rep,
    TimerEntry.cell_next, TimerEntry.entry_cell, if_pos hpos, if_pos hdue, if_pos hrep, if_pos rfl]
  simp only [pure_eq_ok, ok_bind, TimerCells.deref_some ht, TimerCells.free_some ht,
    TimerEntry.cell_next]

/-- A timer behind `x` is dropped. -/
theorem timerLoop_drop {x : TimerEntry} {c : TimerCell}
    (ht : cells.lookup t.addr = some (t.cell next)) (hpos : 0 < t.timeout)
    (hdue : upsec.tmod t.timeout = 0) (hrep : ¬t.rep = true) (hhead : some t.addr ≠ head)
    (hx : cells.lookup x.addr = some c) (hne : t.addr ≠ x.addr) :
    timerLoop upsec (fuel + 1) ⟨cells, head, some x.addr, some t.addr, called⟩ =
      timerLoop upsec fuel ⟨AList.erase t.addr (cells.insert x.addr { c with next }), head,
        some x.addr, next, called ++ [t]⟩ := by
  have ht' : (cells.insert x.addr { c with next }).lookup t.addr = some (t.cell next) := by
    rw [AList.lookup_insert_ne hne, ht]
  conv_lhs => rw [timerLoop]
  dsimp only
  rw [TimerCells.deref_some ht, ok_bind, TimerEntry.cell_timeout, TimerEntry.cell_rep,
    TimerEntry.cell_next, TimerEntry.entry_cell, if_pos hpos, if_pos hdue, if_pos hrep,
    if_neg hhead]
  simp only [pure_eq_ok, ok_bind, TimerCells.setNext_some _ hx, TimerCells.deref_some ht',
    TimerCells.free_some ht', TimerEntry.cell_next]

/-- A timer that is not to be kept is unlinked and freed, wherever in the list it is. -/
theorem timerLoop_unlink {front rest : List TimerEntry} (h : cells.Holds head (front ++ t :: rest))
    (hp : ∀ x ∈ front.getLast?, p = some x.addr) (hpos : 0 < t.timeout)
    (hdue : upsec.tmod t.timeout = 0) (hrep : ¬t.rep = true) :
    ∃ cells' : TimerCells, ∃ head',
      timerLoop upsec (fuel + 1) ⟨cells, head, p, some t.addr, called⟩ =
        timerLoop upsec fuel ⟨cells', head', p, (rest.map TimerEntry.addr).head?, called ++ [t]⟩ ∧
      cells'.Holds head' (front ++ rest) ∧ cells'.lookup t.addr = none ∧
      ∀ a ∉ (front ++ t :: rest).map TimerEntry.addr, cells'.lookup a = cells.lookup a := by
  obtain ⟨next, ht⟩ := h.holds t (by simp)
  obtain rfl := h.next_eq ht
  have hnext : cells.nextOf t.addr = (rest.map TimerEntry.addr).head? := by
    rw [TimerCells.nextOf, ht]
    rfl
  have hout := h.notMem_mid
  rcases List.eq_nil_or_concat front with rfl | ⟨front, x, rfl⟩
  · obtain rfl : head = some t.addr := h.follows.1
    refine ⟨cells.erase t.addr, _, timerLoop_dropHead ht hpos hdue hrep, ?_,
      AList.lookup_erase t.addr cells, fun a ha => ?_⟩
    · have hbehind : cells.Holds (rest.map TimerEntry.addr).head? rest :=
        ⟨hnext ▸ h.follows.2, fun x hx => h.holds x (List.mem_cons_of_mem t hx)⟩
      exact hbehind.erase hout
    · exact AList.lookup_erase_ne fun heq => ha (by simp [heq])
  · rw [List.concat_eq_append] at *
    obtain rfl := hp x (by simp)
    obtain ⟨q, hx⟩ := h.holds x (by simp)
    have hne : t.addr ≠ x.addr := fun heq => hout (by simp [heq])
    have hhead : some t.addr ≠ head := by
      rw [h.follows.head?_eq, List.map_append, List.head?_append_of_ne_nil _ (by simp)]
      intro heq
      rw [List.map_append] at hout
      exact hout (List.mem_append_left _ (List.mem_of_mem_head? heq.symm))
    refine ⟨_, head, timerLoop_drop ht hpos hdue hrep hhead hx hne, ?_,
      AList.lookup_erase t.addr _, fun a ha => ?_⟩
    · rw [List.append_assoc] at h hout ⊢
      exact (h.bypass hx hnext).erase hout
    · rw [AList.lookup_erase_ne fun heq => ha (by simp [heq]),
        AList.lookup_insert_ne fun heq => ha (by simp [heq])]

/-- What the loop leaves of the part `rest` of a list, when `front` is behind it. -/
structure Walked (upsec : ℤ) (cells : TimerCells) (front rest called : List TimerEntry)
    (s : TimerLoop) : Prop where
  holds : s.cells.Holds s.timers (front ++ (walkTimers upsec rest).1)
  called_eq : s.called = called ++ (walkTimers upsec rest).2
  /-- No cell outside the list is touched. -/
  frame : ∀ a ∉ (front ++ rest).map TimerEntry.addr, s.cells.lookup a = cells.lookup a
  /-- The timers that are not left are freed. -/
  freed : ∀ x ∈ rest, x ∉ (walkTimers upsec rest).1 → s.cells.lookup x.addr = none

theorem walkTimers_stay (rest : List TimerEntry) (hpos : 0 < t.timeout)
    (hstay : upsec.tmod t.timeout = 0 → t.rep = true) :
    walkTimers upsec (t :: rest) = (t :: (walkTimers upsec rest).1,
      (if upsec.tmod t.timeout = 0 then [t] else []) ++ (walkTimers upsec rest).2) := by
  rw [walkTimers, if_pos hpos]
  by_cases hdue : upsec.tmod t.timeout = 0
  · simp only [if_pos hdue, hstay hdue, if_true, List.singleton_append]
  · simp only [if_neg hdue, List.nil_append]

theorem walkTimers_drop (rest : List TimerEntry) (hpos : 0 < t.timeout)
    (hdue : upsec.tmod t.timeout = 0) (hrep : ¬t.rep = true) :
    walkTimers upsec (t :: rest) =
      ((walkTimers upsec rest).1, t :: (walkTimers upsec rest).2) := by
  rw [walkTimers, if_pos hpos]
  simp only [if_pos hdue, if_neg hrep]

theorem walkTimers_sublist (upsec : ℤ) (ts : List TimerEntry) :
    (walkTimers upsec ts).1.Sublist ts := by
  have hsub := (List.filter_sublist (p := fun t : TimerEntry =>
    decide (upsec.tmod t.timeout = 0 → t.rep = true))
    (l := ts.takeWhile fun t => 0 < t.timeout)).append_right (ts.dropWhile fun t => 0 < t.timeout)
  rwa [List.takeWhile_append_dropWhile, ← walkTimers_fst] at hsub

theorem Walked.stay {s : TimerLoop} {front rest : List TimerEntry} (hpos : 0 < t.timeout)
    (hstay : upsec.tmod t.timeout = 0 → t.rep = true)
    (h : Walked upsec cells (front ++ [t]) rest
      (called ++ if upsec.tmod t.timeout = 0 then [t] else []) s) :
    Walked upsec cells front (t :: rest) called s := by
  have hwalk := walkTimers_stay rest hpos hstay
  have hlist : front ++ [t] ++ rest = front ++ t :: rest := by simp
  refine ⟨?_, ?_, hlist ▸ h.frame, fun x hx hnot => ?_⟩
  · rw [hwalk]
    simpa using h.holds
  · rw [hwalk, h.called_eq, List.append_assoc]
  · rw [hwalk] at hnot
    have hmem := (List.mem_cons.mp hx).resolve_left fun heq => hnot (by simp [heq])
    exact h.freed x hmem fun hleft => hnot (List.mem_cons_of_mem t hleft)

/-- The walk goes on in `cells'`, without the cell of `t`. -/
theorem Walked.drop {s : TimerLoop} {cells' : TimerCells} {front rest : List TimerEntry}
    (hpos : 0 < t.timeout) (hdue : upsec.tmod t.timeout = 0) (hrep : ¬t.rep = true)
    (hout : t.addr ∉ (front ++ rest).map TimerEntry.addr) (hfreed : cells'.lookup t.addr = none)
    (hframe : ∀ a ∉ (front ++ t :: rest).map TimerEntry.addr, cells'.lookup a = cells.lookup a)
    (h : Walked upsec cells' front rest (called ++ [t]) s) :
    Walked upsec cells front (t :: rest) called s := by
  have hwalk := walkTimers_drop rest hpos hdue hrep
  have hsub : (front ++ rest).map TimerEntry.addr ⊆ (front ++ t :: rest).map TimerEntry.addr :=
    (((List.sublist_cons_self t rest).append_left front).map TimerEntry.addr).subset
  refine ⟨?_, ?_, fun a ha => ?_, fun x hx hnot => ?_⟩
  · rw [hwalk]
    exact h.holds
  · rw [hwalk, h.called_eq, List.append_assoc, List.singleton_append]
  · rw [h.frame a fun hmem => ha (hsub hmem), hframe a ha]
  · rw [hwalk] at hnot
    rcases List.mem_cons.mp hx with rfl | hmem
    · rw [h.frame x.addr hout, hfreed]
    · exact h.freed x hmem hnot

/-- The loop comes to the end of the list, with `walkTimers` saying what it does. -/
theorem timerLoop_spec {front rest : List TimerEntry} (h : cells.Holds head (front ++ rest))
    (hp : ∀ x ∈ front.getLast?, p = some x.addr) (hfuel : rest.length ≤ fuel) :
    ∃ s, timerLoop upsec fuel ⟨cells, head, p, (rest.map TimerEntry.addr).head?, called⟩ = .ok s ∧
      Walked upsec cells front rest called s := by
  induction rest generalizing cells head front p called fuel with
  | nil =>
    refine ⟨_, by rw [timerLoop]; rfl, h, (List.append_nil called).symm, fun _ _ => rfl, ?_⟩
    rintro x ⟨⟩
  | cons t rest ih =>
    obtain ⟨fuel, rfl⟩ : ∃ n, fuel = n + 1 := ⟨fuel - 1, by simp at hfuel; omega⟩
    have hfuel' : rest.length ≤ fuel := by simpa using hfuel
    obtain ⟨next, ht⟩ := h.holds t (by simp)
    rw [List.map_cons, List.head?_cons]
    by_cases hpos : 0 < t.timeout
    · by_cases hstay : upsec.tmod t.timeout = 0 → t.rep = true
      · have hlist : front ++ t :: rest = front ++ [t] ++ rest := by simp
        have hnext : next = (rest.map TimerEntry.addr).head? := h.next_eq ht
        have hp' : ∀ x ∈ (front ++ [t]).getLast?, some t.addr = some x.addr := by simp
        rw [timerLoop_pass ht hpos hstay, hnext]
        obtain ⟨s, hs, hwalked⟩ := ih (hlist ▸ h) hp' hfuel'
        exact ⟨s, hs, hwalked.stay hpos hstay⟩
      · obtain ⟨hdue, hrep⟩ := Classical.not_imp.mp hstay
        obtain ⟨cells', head', hstep, hholds, hfreed, hframe⟩ := timerLoop_unlink h hp hpos hdue hrep
        obtain ⟨s, hs, hwalked⟩ := ih hholds hp hfuel'
        exact ⟨s, hstep.trans hs, hwalked.drop hpos hdue hrep h.notMem_mid hfreed hframe⟩
    · have hwalk : walkTimers upsec (t :: rest) = (t :: rest, []) := by rw [walkTimers, if_neg hpos]
      refine ⟨_, timerLoop_stop ht hpos, ?_, ?_, fun _ _ => rfl, ?_⟩
      · rwa [hwalk]
      · rw [hwalk, List.append_nil]
      · rw [hwalk]
        exact fun x hx hnot => absurd hx hnot

/-- The loop over a whole list. -/
theorem timerLoop_all (upsec : ℤ) {ts : List TimerEntry} (h : cells.Holds head ts) :
    ∃ s, timerLoop upsec cells.keys.length ⟨cells, head, head, head, []⟩ = .ok s ∧
      Walked upsec cells [] ts [] s := by
  have hp : ∀ x ∈ ([] : List TimerEntry).getLast?, head = some x.addr := by simp
  obtain ⟨s, hs, hwalked⟩ := timerLoop_spec (show cells.Holds head ([] ++ ts) from h) hp h.length_le
  rw [← h.follows.head?_eq] at hs
  exact ⟨s, hs, hwalked⟩

end Loop

/-! ## One tick -/

/-- What `walkEntries` leaves of the lists `entries`. -/
structure WalkedAll (upsec : ℤ) (cells : TimerCells) (entries : List (List TimerEntry)) (m : TimerMem) :
    Prop where
  holds : List.Forall₂ m.cells.Holds m.timers (entries.map fun ts => (walkTimers upsec ts).1)
  frame : ∀ a ∉ entries.flatten.map TimerEntry.addr, m.cells.lookup a = cells.lookup a
  freed : ∀ ts ∈ entries, ∀ t ∈ ts, t ∉ (walkTimers upsec ts).1 → m.cells.lookup t.addr = none

/-- Lists are as they were when their cells are. -/
theorem forall₂_holds_congr {cells cells' : TimerCells} {heads : List (Option ℕ)}
    {entries : List (List TimerEntry)} (h : List.Forall₂ cells.Holds heads entries)
    (hsame : ∀ a ∈ entries.flatten.map TimerEntry.addr, cells'.lookup a = cells.lookup a) :
    List.Forall₂ cells'.Holds heads entries := by
  induction h with
  | nil => exact .nil
  | cons hhead _ ih =>
    rw [List.flatten_cons, List.map_append] at hsame
    refine .cons (hhead.congr fun t ht => ?_) (ih fun a ha => ?_)
    · exact hsame t.addr (List.mem_append_left _ (List.mem_map_of_mem ht))
    · exact hsame a (List.mem_append_right _ ha)

theorem exists_cell_of_mem {cells : TimerCells} {heads : List (Option ℕ)}
    {entries : List (List TimerEntry)} (h : List.Forall₂ cells.Holds heads entries) {t : TimerEntry}
    (ht : t ∈ entries.flatten) : ∃ next, cells.lookup t.addr = some (t.cell next) := by
  induction h with
  | nil => cases ht
  | cons hhead _ ih =>
    rcases List.mem_append.mp ht with ht | ht
    · exact hhead.holds t ht
    · exact ih ht

/-- The loops over the lists of all plugins, when no cell is in two of them. -/
theorem walkEntries_spec (upsec : ℤ) {cells : TimerCells} {heads : List (Option ℕ)}
    {entries : List (List TimerEntry)} (h : List.Forall₂ cells.Holds heads entries)
    (hnodup : (entries.flatten.map TimerEntry.addr).Nodup) :
    ∃ m, walkEntries upsec cells heads = .ok (m, entries.map fun ts => (walkTimers upsec ts).2) ∧
      WalkedAll upsec cells entries m := by
  induction entries generalizing cells heads with
  | nil =>
    cases h
    exact ⟨⟨cells, []⟩, rfl, .nil, fun _ _ => rfl, by simp⟩
  | cons ts entries ih =>
    obtain _ | ⟨hhead, hheads⟩ := h
    rename_i head heads
    rw [List.flatten_cons, List.map_append, List.nodup_append'] at hnodup
    obtain ⟨-, hnodup, hdisj⟩ := hnodup
    obtain ⟨s, hs, hwalked⟩ := timerLoop_all upsec hhead
    have hframe : ∀ a ∈ entries.flatten.map TimerEntry.addr, s.cells.lookup a = cells.lookup a :=
      fun a ha => hwalked.frame a fun hmem => hdisj hmem ha
    obtain ⟨m, hm, hall⟩ := ih (forall₂_holds_congr hheads hframe) hnodup
    have hframe' : ∀ t ∈ ts, m.cells.lookup t.addr = s.cells.lookup t.addr :=
      fun t ht => hall.frame t.addr (hdisj (List.mem_map_of_mem ht))
    refine ⟨⟨m.cells, s.timers :: m.timers⟩, ?_, ⟨.cons ?_ hall.holds, fun a ha => ?_, ?_⟩⟩
    · rw [walkEntries, hs, ok_bind, hm, ok_bind, List.map_cons, hwalked.called_eq]
      rfl
    · exact hwalked.holds.congr fun t ht => hframe' t ((walkTimers_sublist upsec ts).subset ht)
    · rw [List.flatten_cons, List.map_append, List.mem_append, not_or] at ha
      exact (hall.frame a ha.2).trans (hwalked.frame a ha.1)
    · intro ts' hts' t ht hleft
      rcases List.mem_cons.mp hts' with rfl | hmem
      · exact (hframe' t ht).trans (hwalked.freed t ht hleft)
      · exact hall.freed ts' hmem t ht hleft

section Tick

variable {s : ClockMem} {c : Clock} {m : TimerMem} {entries : List (List TimerEntry)}

/-- The memory stands for the timers of the plugins: it holds the list of each, and no cell is in two
of them. -/
structure TimerMem.Stands (m : TimerMem) (entries : List (List TimerEntry)) : Prop where
  holds : List.Forall₂ m.cells.Holds m.timers entries
  nodup : (entries.flatten.map TimerEntry.addr).Nodup

/-- What `time_up` keeps in memory stands for a clock. -/
structure ClockMem.Stands (s : ClockMem) (c : Clock) : Prop where
  upsec : s.upsec = c.upsec
  ctime : s.ctime = c.ctime
  mem : s.mem.Stands c.entries

theorem flatten_map_walkTimers_sublist (upsec : ℤ) (entries : List (List TimerEntry)) :
    (entries.map fun ts => (walkTimers upsec ts).1).flatten.Sublist entries.flatten := by
  induction entries with
  | nil => exact .slnil
  | cons ts entries ih => exact (walkTimers_sublist upsec ts).append ih

/-- The loops over all plugins, from a memory that stands for their timers. -/
theorem TimerMem.Stands.walkEntries (h : m.Stands entries) (upsec : ℤ) :
    ∃ m', Moc.walkEntries upsec m.cells m.timers =
        .ok (m', entries.map fun ts => (walkTimers upsec ts).2) ∧
      WalkedAll upsec m.cells entries m' ∧
      m'.Stands (entries.map fun ts => (walkTimers upsec ts).1) := by
  obtain ⟨m', hm, hall⟩ := walkEntries_spec upsec h.holds h.nodup
  have hsub := flatten_map_walkTimers_sublist upsec entries
  exact ⟨m', hm, hall, hall.holds, (hsub.map TimerEntry.addr).nodup h.nodup⟩

/-- The count of seconds after a tick in which the clock moved on. -/
def ClockMem.nextUpsec (s : ClockMem) (now : ℤ) : ℤ := (s.upsec + (now - s.ctime)).bmod (2^32)

theorem ClockMem.timeUp_eq {now : ℤ} (hstep : 1 ≤ now - s.ctime) {called : List (List TimerEntry)}
    (hm : Moc.walkEntries (s.nextUpsec now) s.mem.cells s.mem.timers = .ok (m, called)) :
    s.timeUp now = .ok (⟨s.nextUpsec now, now, m⟩, called) := by
  unfold nextUpsec at hm
  rw [timeUp, if_pos hstep]
  dsimp only
  rw [hm, ok_bind, nextUpsec]
  rfl

/-- A tick in memory does what the tick of the clock does. -/
theorem ClockMem.Stands.timeUp (h : s.Stands c) (now : ℤ) :
    ∃ s', s.timeUp now = .ok (s', (Moc.timeUp c now).2) ∧ s'.Stands (Moc.timeUp c now).1 := by
  by_cases hstep : 1 ≤ now - s.ctime
  · have hcount : Moc.nextUpsec c now = s.nextUpsec now := by
      rw [Moc.nextUpsec, ← h.upsec, ← h.ctime, if_pos hstep, nextUpsec]
    obtain ⟨m, hm, -, hstands⟩ := h.mem.walkEntries (s.nextUpsec now)
    rw [ClockMem.timeUp_eq hstep hm, Moc.timeUp, hcount, ← h.ctime, if_pos hstep]
    dsimp only
    rw [List.map_map, List.map_map]
    exact ⟨_, rfl, rfl, rfl, hstands⟩
  · rw [ClockMem.timeUp, if_neg hstep, Moc.timeUp, ← h.ctime, if_neg hstep, List.map_const',
      List.map_const', h.mem.holds.length_eq]
    exact ⟨_, rfl, h.upsec, rfl, h.mem⟩

theorem perm_flatten_set {i : ℕ} {ts : List TimerEntry} (t : TimerEntry)
    (hi : entries[i]? = some ts) :
    (entries.set i (t :: ts)).flatten.Perm (t :: entries.flatten) := by
  induction entries generalizing i with
  | nil => cases hi
  | cons ts' entries ih =>
    cases i with
    | zero =>
      obtain rfl := Option.some.inj hi
      exact .refl _
    | succ i => exact ((ih hi).append_left ts').trans List.perm_middle

theorem forall₂_set {α β : Type} {R : α → β → Prop} {l : List α} {l' : List β} {a : α} {b : β}
    (h : List.Forall₂ R l l') (hab : R a b) (i : ℕ) : List.Forall₂ R (l.set i a) (l'.set i b) := by
  induction h generalizing i with
  | nil => exact .nil
  | cons hhead hrest ih =>
    cases i with
    | zero => exact .cons hab hrest
    | succ i => exact .cons hhead (ih i)

theorem getElem?_of_forall₂ {α β : Type} {R : α → β → Prop} {l : List α} {l' : List β}
    (h : List.Forall₂ R l l') {i : ℕ} {a : α} (hi : l[i]? = some a) :
    ∃ b, l'[i]? = some b ∧ R a b := by
  induction h generalizing i with
  | nil => cases hi
  | cons hab _ ih =>
    cases i with
    | zero => exact ⟨_, rfl, Option.some.inj hi ▸ hab⟩
    | succ i => exact ih hi

theorem modify_mocAddTimer_none {t : TimerArgs} (i : ℕ) :
    entries.modify i (fun ts => Moc.mocAddTimer ⟨fun _ => none, by simp⟩ ts t) = entries := by
  have hid : (fun ts => Moc.mocAddTimer ⟨fun _ => none, by simp⟩ ts t) = id := by
    funext ts
    unfold Moc.mocAddTimer
    split <;> rfl
  rw [hid, List.modify_id]

/-- A registered timer is the first of its list. -/
theorem TimerMem.Stands.mocAddTimer (h : m.Stands entries) (calloc : CellCalloc) (i : ℕ)
    (t : TimerArgs) : ∃ calloc' : TimerCalloc,
      (m.mocAddTimer calloc i t).Stands (entries.modify i fun ts => Moc.mocAddTimer calloc' ts t) := by
  unfold TimerMem.mocAddTimer
  split
  · exact ⟨_, by rwa [modify_mocAddTimer_none]⟩
  · exact ⟨_, by rwa [modify_mocAddTimer_none]⟩
  · rename_i head timer hhead htimer
    split
    · exact ⟨_, by rwa [modify_mocAddTimer_none]⟩
    · rename_i addr hpick
      have hfree := calloc.fresh m.cells addr hpick
      have hout : addr ∉ entries.flatten.map TimerEntry.addr := by
        intro hmem
        obtain ⟨x, hx, rfl⟩ := List.mem_map.mp hmem
        obtain ⟨next, hcell⟩ := exists_cell_of_mem h.holds hx
        rw [hfree] at hcell
        cases hcell
      obtain ⟨ts, hts, hholds⟩ := getElem?_of_forall₂ h.holds hhead
      have hout' : ∀ x ∈ ts, x.addr ≠ addr := fun x hx heq =>
        hout (heq ▸ List.mem_map_of_mem (List.mem_flatten_of_mem (List.mem_of_getElem? hts) hx))
      refine ⟨⟨fun ts => if ∀ x ∈ ts, x.addr ≠ addr then some addr else none, ?_⟩, ?_⟩
      · intro ts a hpick
        split_ifs at hpick with hfresh
        exact Option.some.inj hpick ▸ hfresh
      · rw [List.modify_eq_set_getElem?, hts, Option.map_eq_map, Option.map_some, Option.getD_some,
          Moc.mocAddTimer, htimer]
        dsimp only
        rw [if_pos hout']
        dsimp only
        constructor
        · refine forall₂_set (forall₂_holds_congr h.holds fun a ha => ?_) ?_ i
          · exact AList.lookup_insert_ne (ne_of_mem_of_not_mem ha hout)
          · exact hholds.push (t := ⟨addr, t.timeout, t.rep, timer, t.data⟩) hfree
        · refine (((perm_flatten_set _ hts).map TimerEntry.addr).nodup_iff).mpr ?_
          exact List.nodup_cons.mpr ⟨hout, h.nodup⟩

/-- An input of the clock: a registration, or a tick. -/
inductive TimerOp where
  | add (i : ℕ) (t : TimerArgs)
  | tick (now : ℤ)

/-- One input, and the timers called at it. -/
def ClockMem.step (calloc : CellCalloc) (s : ClockMem) :
    TimerOp → Except Fault (List (List TimerEntry) × ClockMem)
  | .add i t => .ok ([], { s with mem := s.mem.mocAddTimer calloc i t })
  | .tick now => do
    let (s, called) ← s.timeUp now
    return (called, s)

/-- No timers are registered. -/
theorem forall₂_replicate (n : ℕ) : List.Forall₂ (TimerCells.Holds ∅) (List.replicate n none)
    (List.replicate n []) := by
  induction n with
  | zero => exact .nil
  | succ n ih => exact .cons ⟨rfl, by simp⟩ ih

/-- The clock of a server with `n` plugins before the first tick. -/
def ClockMem.start (n : ℕ) : ClockMem := ⟨0, 0, ∅, List.replicate n none⟩

theorem ClockMem.stands_start (n : ℕ) : (start n).Stands (.start (List.replicate n [])) := by
  refine ⟨rfl, rfl, ?_, ?_⟩
  · exact forall₂_replicate n
  · simp [Clock.start]

/-- No run faults, and the memory always stands for a clock. -/
theorem ClockMem.Stands.run (calloc : CellCalloc) (h : s.Stands c) (ops : List TimerOp) :
    ∃ called s' c', Runs.run (ClockMem.step calloc) s ops = .ok (called, s') ∧
      ClockMem.Stands s' c' := by
  induction ops generalizing s c with
  | nil => exact ⟨[], s, c, rfl, h⟩
  | cons op ops ih =>
    obtain ⟨called, s₁, c₁, hstep, h₁⟩ : ∃ called s₁ c₁,
        ClockMem.step calloc s op = .ok (called, s₁) ∧ ClockMem.Stands s₁ c₁ := by
      cases op with
      | add i t =>
        obtain ⟨calloc', hadd⟩ := h.mem.mocAddTimer calloc i t
        let entries := c.entries.modify i fun ts => Moc.mocAddTimer calloc' ts t
        exact ⟨_, _, { c with entries }, rfl, h.upsec, h.ctime, hadd⟩
      | tick now =>
        obtain ⟨s₁, hs₁, h₁⟩ := h.timeUp now
        exact ⟨_, s₁, _, by rw [ClockMem.step, hs₁]; rfl, h₁⟩
    obtain ⟨calleds, s₂, c₂, hrun, h₂⟩ := ih h₁
    exact ⟨called :: calleds, s₂, c₂, by
      rw [Runs.run, hstep, ok_bind]
      dsimp only
      rw [hrun, ok_bind]
      rfl, h₂⟩

/-- A tick calls the timers of a plugin that are due, and takes those of them that do not repeat out of
the list. -/
theorem ClockMem.timeUp_plugin (h : s.mem.Stands entries) {now : ℤ} (hstep : 1 ≤ now - s.ctime)
    {i : ℕ} {ts : List TimerEntry} (hi : entries[i]? = some ts) (hpos : ∀ t ∈ ts, 0 < t.timeout) :
    let due := fun t : TimerEntry => (s.nextUpsec now).tmod t.timeout = 0
    ∃ s' called, s.timeUp now = .ok (s', called) ∧
      called[i]? = some (ts.filter due) ∧ (ts.filter due).Nodup ∧
      (∃ head, s'.mem.timers[i]? = some head ∧
        s'.mem.cells.Holds head (ts.filter fun t => ¬(due t ∧ ¬t.rep = true))) ∧
      ∀ t ∈ ts, due t → ¬t.rep = true → s'.mem.cells.lookup t.addr = none := by
  intro due
  obtain ⟨m, hm, hall, -⟩ := h.walkEntries (s.nextUpsec now)
  have htake : (ts.takeWhile fun t => 0 < t.timeout) = ts :=
    List.takeWhile_eq_self_iff.mpr fun t ht => decide_eq_true (hpos t ht)
  have hdrop : (ts.dropWhile fun t => 0 < t.timeout) = [] :=
    List.dropWhile_eq_nil_iff.mpr fun t ht => decide_eq_true (hpos t ht)
  have hcalled : (walkTimers (s.nextUpsec now) ts).2 = ts.filter due := by
    rw [walkTimers_snd, htake]
  have hleft : (walkTimers (s.nextUpsec now) ts).1 =
      ts.filter fun t => ¬(due t ∧ ¬t.rep = true) := by
    rw [walkTimers_fst, htake, hdrop, List.append_nil]
    exact List.filter_congr fun t _ => by simp [due]
  have hmem := List.mem_of_getElem? hi
  have hnodup : ts.Nodup := (List.Nodup.of_map TimerEntry.addr
    (h.nodup.sublist ((List.sublist_flatten_of_mem hmem).map TimerEntry.addr)))
  refine ⟨_, _, timeUp_eq hstep hm, ?_, hnodup.filter _, ?_, ?_⟩
  · rw [List.getElem?_map, hi, Option.map_some, hcalled]
  · have hi' : (entries.map fun ts => (walkTimers (s.nextUpsec now) ts).1)[i]? =
        some (walkTimers (s.nextUpsec now) ts).1 := by rw [List.getElem?_map, hi, Option.map_some]
    have hflip : List.Forall₂ (flip m.cells.Holds) _ m.timers := List.Forall₂.flip hall.holds
    obtain ⟨head, hhead, hholds⟩ := getElem?_of_forall₂ hflip hi'
    exact ⟨head, hhead, hleft ▸ hholds⟩
  · intro t ht hdue hrep
    refine hall.freed ts hmem t ht ?_
    rw [hleft]
    simp [hdue, hrep]

end Tick

/-- A timer of one second that does not repeat. -/
def onceOne : TimerEntry := ⟨2, 1, false, 8, 0⟩

/-- Another timer of two seconds. -/
def alsoTwo : TimerEntry := ⟨3, 2, true, 7, 0⟩

/-- A clock after one second, with `onceOne` between two timers of two seconds. -/
def threeTimers : ClockMem where
  upsec := 1
  ctime := 1
  mem :=
    { cells := AList.insert 1 (everyTwo.cell (some 2)) (AList.insert 2 (onceOne.cell (some 3))
        (AList.insert 3 (alsoTwo.cell none) ∅))
      timers := [some 1] }

theorem stands_threeTimers : threeTimers.mem.Stands [[everyTwo, onceOne, alsoTwo]] := by
  refine ⟨.cons ⟨⟨rfl, rfl, rfl, rfl⟩, fun t ht => ?_⟩ .nil, by decide⟩
  simp only [List.mem_cons, List.not_mem_nil, or_false] at ht
  rcases ht with rfl | rfl | rfl
  · exact ⟨some 2, rfl⟩
  · exact ⟨some 3, rfl⟩
  · exact ⟨none, rfl⟩

/-- A tick that takes the timer in the middle out. -/
theorem timeUp_threeTimers : ∃ s' called, threeTimers.timeUp 2 = .ok (s', called) ∧
    called[0]? = some [everyTwo, onceOne, alsoTwo] ∧
    (∃ head, s'.mem.timers[0]? = some head ∧ s'.mem.cells.Holds head [everyTwo, alsoTwo]) ∧
    s'.mem.cells.lookup onceOne.addr = none := by
  obtain ⟨s', called, hs, hcalled, -, hleft, hfreed⟩ :=
    ClockMem.timeUp_plugin stands_threeTimers (show 1 ≤ 2 - threeTimers.ctime by decide)
      (show [[everyTwo, onceOne, alsoTwo]][0]? = some [everyTwo, onceOne, alsoTwo] from rfl)
      (by decide)
  exact ⟨s', called, hs, hcalled, hleft, hfreed onceOne (by decide) (by decide) (by decide)⟩

end Moc
