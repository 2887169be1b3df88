import Moc.Lib.Runs
import Mathlib.Data.Int.ModEq
import Mathlib.Data.List.TakeWhile
import Mathlib.Tactic.Positivity

/-!
# Timers

`moc_add_timer` of `server/mocd.c` and `time_up` of `server/net.c`, which the event loop calls every
tenth of a second. A tick in which the clock moved on by a second or more calls the timers whose
timeout divides the seconds counted so far. `KeepsPeriod` says that a timer is not called late;
`keepsPeriod_iff` says what it takes: the count never passes a multiple of the timeout without
stopping there.
-/

open Runs

namespace Moc

/-- A `struct timer_entry`, with the address it lies at. -/
structure TimerEntry where
  addr : ℕ
  timeout : ℤ
  rep : Bool
  timer : ℕ
  data : ℕ
  deriving DecidableEq

/-- `calloc` for a timer: an address that no timer of the list has, or `NULL`. -/
structure TimerCalloc where
  pick : List TimerEntry → Option ℕ
  fresh : ∀ timers a, pick timers = some a → ∀ t ∈ timers, t.addr ≠ a

/-- The arguments of `moc_add_timer`; the function may be `NULL`. -/
structure TimerArgs where
  timeout : ℤ
  rep : Bool
  timer : Option ℕ
  data : ℕ

/-- `moc_add_timer` -/
def mocAddTimer (calloc : TimerCalloc) (timers : List TimerEntry) (t : TimerArgs) : List TimerEntry :=
  match t.timer with
  | none => timers
  | some timer =>
    match calloc.pick timers with
    | none => timers
    | some addr => ⟨addr, t.timeout, t.rep, timer, t.data⟩ :: timers

/-- The timers of a plugin after some calls of `moc_add_timer`. -/
def addTimers (calloc : TimerCalloc) (args : List TimerArgs) : List TimerEntry :=
  args.foldl (mocAddTimer calloc) []

/-- What `time_up` keeps: its count of seconds, the global clock, and the timers of every plugin in the
order of the table. -/
structure Clock where
  upsec : ℤ
  ctime : ℤ
  entries : List (List TimerEntry)
  deriving DecidableEq

/-- The clock before the first tick. -/
def Clock.start (entries : List (List TimerEntry)) : Clock := ⟨0, 0, entries⟩

/-- The loop over the timers of one plugin: the timers left, and those called. A timer that does not
repeat is dropped when it is called; the loop ends at a timeout that is not positive. -/
def walkTimers (upsec : ℤ) : List TimerEntry → List TimerEntry × List TimerEntry
  | [] => ([], [])
  | t :: ts =>
    if 0 < t.timeout then
      let (left, called) := walkTimers upsec ts
      if upsec.tmod t.timeout = 0 then
        if t.rep then (t :: left, t :: called) else (left, t :: called)
      else (t :: left, called)
    else (t :: ts, [])

/-- The count of seconds after a tick at the time `now`. It is an `int`. -/
def nextUpsec (s : Clock) (now : ℤ) : ℤ :=
  if 1 ≤ now - s.ctime then (s.upsec + (now - s.ctime)).bmod (2^32) else s.upsec

/-- `time_up` at the time `now`: the clock afterwards, and for each plugin the timers called. A
callback does not change the timers. -/
def timeUp (s : Clock) (now : ℤ) : Clock × List (List TimerEntry) :=
  if 1 ≤ now - s.ctime then
    let walked := s.entries.map (walkTimers (nextUpsec s now))
    (⟨nextUpsec s now, now, walked.map Prod.fst⟩, walked.map Prod.snd)
  else ({ s with ctime := now }, s.entries.map fun _ => [])

/-- The clock after a tick. -/
def Clock.next (s : Clock) (now : ℤ) : Clock := (timeUp s now).1

/-- The tick calls the timer `t` of the plugin `i`. -/
def CalledAt (i : ℕ) (t : TimerEntry) (s : Clock) (now : ℤ) : Prop :=
  ∃ called ∈ (timeUp s now).2[i]?, t ∈ called

/-- One of the ticks calls the timer. -/
def CalledIn (i : ℕ) (t : TimerEntry) : Clock → List ℤ → Prop
  | _, [] => False
  | s, now :: ticks => CalledAt i t s now ∨ CalledIn i t (s.next now) ticks

/-- The timer is called in every stretch of ticks in which the count grows by its timeout. -/
def KeepsPeriod (i : ℕ) (t : TimerEntry) (s : Clock) (ticks : List ℤ) : Prop :=
  ∀ before stretch after, ticks = before ++ stretch ++ after →
    (before.foldl Clock.next s).upsec + t.timeout ≤ ((before ++ stretch).foldl Clock.next s).upsec →
    CalledIn i t (before.foldl Clock.next s) stretch

/-- The loop over `timers` gets to `t`: no timer before it has a timeout that is not positive. -/
def Reaches (timers : List TimerEntry) (t : TimerEntry) : Prop :=
  t ∈ timers.takeWhile fun x => 0 < x.timeout

/-- A tick that takes the count past a multiple of the timeout stops at one, and the loop over the
timers gets to the timer. -/
def StopsAt (timers : List TimerEntry) (t : TimerEntry) (s : Clock) (now : ℤ) : Prop :=
  s.upsec / t.timeout < nextUpsec s now / t.timeout →
    t.timeout ∣ nextUpsec s now ∧ Reaches timers t

instance (timers : List TimerEntry) (t : TimerEntry) (s : Clock) (now : ℤ) :
    Decidable (StopsAt timers t s now) :=
  inferInstanceAs (Decidable (_ → _ ∧ _ ∈ _))

/-- The count still fits an `int` after the tick. -/
def FitsInt (s : Clock) (now : ℤ) : Prop := s.upsec + (now - s.ctime) < 2^31

/-- Timers that were registered are told apart by their addresses. -/
theorem nodup_addr_addTimers (calloc : TimerCalloc) (args : List TimerArgs) :
    ((addTimers calloc args).map TimerEntry.addr).Nodup := by
  refine foldl_keeps (I := fun ts : List TimerEntry => (ts.map TimerEntry.addr).Nodup)
    (fun timers a h => ?_) (show ([].map TimerEntry.addr).Nodup from List.nodup_nil) args
  unfold mocAddTimer
  split
  · exact h
  · split
    · exact h
    · rename_i addr hpick
      refine List.nodup_cons.mpr ⟨fun hmem => ?_, h⟩
      obtain ⟨t, ht, haddr⟩ := List.mem_map.mp hmem
      exact calloc.fresh timers addr hpick t ht haddr

/-! ## One tick -/

/-- The timers called are those whose timeout divides the count, up to a timeout that is not
positive. -/
theorem walkTimers_snd (upsec : ℤ) (timers : List TimerEntry) :
    (walkTimers upsec timers).2 =
      (timers.takeWhile fun t => 0 < t.timeout).filter fun t => upsec.tmod t.timeout = 0 := by
  induction timers with
  | nil => rfl
  | cons t ts ih =>
    rw [walkTimers]
    split_ifs <;> simp [*]

/-- The timers left are all but those called that do not repeat. -/
theorem walkTimers_fst (upsec : ℤ) (timers : List TimerEntry) :
    (walkTimers upsec timers).1 =
      ((timers.takeWhile fun t => 0 < t.timeout).filter fun t =>
        upsec.tmod t.timeout = 0 → t.rep = true) ++ timers.dropWhile fun t => 0 < t.timeout := by
  induction timers with
  | nil => rfl
  | cons t ts ih =>
    rw [walkTimers]
    split_ifs <;> simp [*]

theorem mem_called {upsec : ℤ} {timers : List TimerEntry} {t : TimerEntry} :
    t ∈ (walkTimers upsec timers).2 ↔ Reaches timers t ∧ t.timeout ∣ upsec := by
  rw [walkTimers_snd, List.mem_filter, Reaches, decide_eq_true_iff, ← Int.dvd_iff_tmod_eq_zero]

/-- The loop gets to a repeating timer after it ran exactly when it did before. -/
theorem reaches_left {upsec : ℤ} {timers : List TimerEntry} {t : TimerEntry} (hrep : t.rep = true) :
    Reaches (walkTimers upsec timers).1 t ↔ Reaches timers t := by
  have hpos : ∀ x ∈ (timers.takeWhile fun t => 0 < t.timeout).filter fun t =>
      upsec.tmod t.timeout = 0 → t.rep = true, decide (0 < x.timeout) = true := by
    intro x hx
    have hmem := List.mem_of_mem_filter hx
    exact List.mem_takeWhile_imp (p := fun t : TimerEntry => decide (0 < t.timeout)) hmem
  have hstop : (timers.dropWhile fun t => 0 < t.timeout).takeWhile (fun t => 0 < t.timeout) = [] := by
    exact List.takeWhile_eq_nil_iff.mpr fun hl => List.dropWhile_get_zero_not _ _ hl
  rw [Reaches, walkTimers_fst, List.takeWhile_append_of_pos hpos, hstop, List.append_nil,
    List.mem_filter, Reaches]
  simp [hrep]

@[simp] theorem upsec_next (s : Clock) (now : ℤ) : (s.next now).upsec = nextUpsec s now := by
  unfold Clock.next timeUp nextUpsec
  split_ifs <;> rfl

/-- The plugin `i` has timers, and its loop gets to `t` when that over `timers` does. -/
def Follows (timers : List TimerEntry) (i : ℕ) (t : TimerEntry) (s : Clock) : Prop :=
  ∃ ts ∈ s.entries[i]?, Reaches ts t ↔ Reaches timers t

section
variable {timers : List TimerEntry} {i : ℕ} {t : TimerEntry}

theorem Follows.next (hrep : t.rep = true) {s : Clock} (h : Follows timers i t s) (now : ℤ) :
    Follows timers i t (s.next now) := by
  obtain ⟨ts, hts, hreach⟩ := h
  unfold Clock.next timeUp
  split_ifs
  · refine ⟨(walkTimers (nextUpsec s now) ts).1, ?_, (reaches_left hrep).trans hreach⟩
    simp [Option.mem_def.mp hts]
  · exact ⟨ts, hts, hreach⟩

/-- When a tick calls the timer. -/
theorem Follows.calledAt_iff {s : Clock} (h : Follows timers i t s) {now : ℤ} :
    CalledAt i t s now ↔
      1 ≤ now - s.ctime ∧ Reaches timers t ∧ t.timeout ∣ nextUpsec s now := by
  obtain ⟨ts, hts, hreach⟩ := h
  rw [← hreach, ← mem_called]
  unfold CalledAt timeUp
  split_ifs with hstep
  · simp [Option.mem_def.mp hts, hstep]
  · constructor
    · rintro ⟨called, hcalled, hmem⟩
      simp only [List.getElem?_map, Option.mem_def.mp hts, Option.map_some, Option.mem_def,
        Option.some.injEq] at hcalled
      rw [← hcalled] at hmem
      cases hmem
    · exact fun h => absurd h.1 hstep

theorem calledIn_append {s : Clock} {ticks ticks' : List ℤ} :
    CalledIn i t s (ticks ++ ticks') ↔
      CalledIn i t s ticks ∨ CalledIn i t (ticks.foldl Clock.next s) ticks' := by
  induction ticks generalizing s with
  | nil => exact (iff_of_eq (false_or _)).symm
  | cons now ticks ih => exact (or_congr_right ih).trans or_assoc.symm

/-! ## Runs -/

/-- A stretch in which the count comes to another multiple of the timeout calls the timer. -/
theorem calledIn_of_stopsAt (hrep : t.rep = true) {s : Clock} (hs : Follows timers i t s)
    {ticks : List ℤ} (hstops : EachStep Clock.next (StopsAt timers t) s ticks)
    (hgrow : s.upsec / t.timeout < (ticks.foldl Clock.next s).upsec / t.timeout) :
    CalledIn i t s ticks := by
  induction ticks generalizing s with
  | nil => exact absurd hgrow (lt_irrefl _)
  | cons now ticks ih =>
    by_cases hcross : s.upsec / t.timeout < nextUpsec s now / t.timeout
    · obtain ⟨hdvd, hreach⟩ := hstops.1 hcross
      refine .inl (hs.calledAt_iff.mpr ⟨?_, hreach, hdvd⟩)
      -- A tick within the same second does not count.
      by_contra hstep
      rw [nextUpsec, if_neg hstep] at hcross
      exact lt_irrefl _ hcross
    · refine .inr (ih (hs.next hrep now) hstops.2 (lt_of_le_of_lt ?_ hgrow))
      rw [upsec_next]
      exact not_lt.mp hcross

/-- While the count fits an `int`, it is the seconds that went by. -/
theorem nextUpsec_of_fits {s : Clock} {now : ℤ} (h0 : 0 ≤ s.upsec) (hfits : FitsInt s now) :
    nextUpsec s now = s.upsec + max 0 (now - s.ctime) := by
  unfold FitsInt at hfits
  unfold nextUpsec
  split_ifs with hstep
  · rw [Int.bmod_def]
    split_ifs <;> omega
  · omega

/-- In a run that keeps the period, each tick stops where it must. `before` ends where the count was
last at a multiple of the timeout, and `mid` are the ticks since, which do not call the timer. -/
theorem stopsAt_of_keepsPeriod (hrep : t.rep = true) (hT : 0 < t.timeout) {start : Clock}
    {before mid ticks : List ℤ} (hkeeps : KeepsPeriod i t start (before ++ mid ++ ticks))
    (hfollows : Follows timers i t ((before ++ mid).foldl Clock.next start))
    (h0 : 0 ≤ ((before ++ mid).foldl Clock.next start).upsec)
    (hbefore : (before.foldl Clock.next start).upsec ≤
      t.timeout * (((before ++ mid).foldl Clock.next start).upsec / t.timeout))
    (hmid : ¬CalledIn i t (before.foldl Clock.next start) mid)
    (hfits : EachStep Clock.next FitsInt ((before ++ mid).foldl Clock.next start) ticks) :
    EachStep Clock.next (StopsAt timers t) ((before ++ mid).foldl Clock.next start) ticks := by
  induction ticks generalizing before mid with
  | nil => trivial
  | cons now ticks ih =>
    have hnext := nextUpsec_of_fits h0 hfits.1
    generalize hs : (before ++ mid).foldl Clock.next start = s at *
    have hs' : (before ++ (mid ++ [now])).foldl Clock.next start = s.next now := by
      rw [← List.append_assoc, List.foldl_concat, hs]
    have hkeeps' : KeepsPeriod i t start (before ++ (mid ++ [now]) ++ ticks) := by simpa using hkeeps
    have hcalled : CalledAt i t s now ↔ _ := hfollows.calledAt_iff
    have hfollows' := hfollows.next hrep now
    have hstop : StopsAt timers t s now := by
      intro hcross
      -- From the last multiple on, the count has grown by the timeout.
      have hgrow : (before.foldl Clock.next start).upsec + t.timeout ≤ (s.next now).upsec := by
        have hstep := mul_le_mul_of_nonneg_left (Int.add_one_le_iff.mpr hcross) hT.le
        have hle := Int.mul_ediv_self_le (x := nextUpsec s now) hT.ne'
        rw [mul_add, mul_one] at hstep
        rw [upsec_next]
        linarith
      have hin := hkeeps' before (mid ++ [now]) ticks rfl (by rw [hs']; exact hgrow)
      rcases calledIn_append.mp hin with h | h
      · exact absurd h hmid
      · rw [← List.foldl_append, hs] at h
        have hnow := hcalled.mp (h.resolve_right id)
        exact ⟨hnow.2.2, hnow.2.1⟩
    refine ⟨hstop, ?_⟩
    by_cases hcross : s.upsec / t.timeout < nextUpsec s now / t.timeout
    · -- The tick stopped at a multiple, where a new stretch begins.
      have hat : t.timeout * (nextUpsec s now / t.timeout) = nextUpsec s now :=
        Int.mul_ediv_cancel' (hstop hcross).1
      have hrest := ih (show KeepsPeriod i t start (before ++ (mid ++ [now]) ++ [] ++ ticks) by
        simpa using hkeeps)
      simp only [List.append_nil, hs', upsec_next, hat] at hrest
      exact hrest hfollows' (by omega) le_rfl id hfits.2
    · have hsame := not_lt.mp hcross
      have hmono := Int.ediv_le_ediv hT (show s.upsec ≤ nextUpsec s now by omega)
      have hrest := ih hkeeps'
      simp only [hs', upsec_next] at hrest
      refine hrest hfollows' (by omega) (by rwa [le_antisymm hsame hmono]) (fun hin => ?_) hfits.2
      rcases calledIn_append.mp hin with h | h
      · exact hmid h
      · -- A count that grew without coming to another multiple is at none.
        rw [← List.foldl_append, hs] at h
        obtain ⟨hstep, -, hdvd⟩ := hcalled.mp (h.resolve_right id)
        have hat : t.timeout * (nextUpsec s now / t.timeout) = nextUpsec s now :=
          Int.mul_ediv_cancel' hdvd
        have hle := Int.mul_ediv_self_le (x := s.upsec) hT.ne'
        rw [le_antisymm hsame hmono] at hat
        omega

end

/-! ## The exact condition -/

/-- A repeating timer of a plugin keeps its period in every run whose ticks all stop where they must.
While the count fits an `int`, it does so in no other run. -/
theorem keepsPeriod_iff {calloc : TimerCalloc} {plugins : List (List TimerArgs)} {i : ℕ}
    {args : List TimerArgs} (hi : plugins[i]? = some args) {t : TimerEntry} (hrep : t.rep = true)
    (hT : 0 < t.timeout) (ticks : List ℤ) :
    let start := Clock.start (plugins.map (addTimers calloc))
    (EachStep Clock.next (StopsAt (addTimers calloc args) t) start ticks →
      KeepsPeriod i t start ticks) ∧
    (EachStep Clock.next FitsInt start ticks → KeepsPeriod i t start ticks →
      EachStep Clock.next (StopsAt (addTimers calloc args) t) start ticks) := by
  intro start
  have hstart : Follows (addTimers calloc args) i t start :=
    ⟨addTimers calloc args, by simp [start, Clock.start, hi], Iff.rfl⟩
  constructor
  · rintro hstops before stretch after rfl hgrow
    rw [List.append_assoc, eachStep_append, eachStep_append] at hstops
    have hbefore : Follows _ i t (before.foldl Clock.next start) :=
      foldl_keeps (fun s now h => h.next hrep now) hstart before
    refine calledIn_of_stopsAt hrep hbefore hstops.2.1 ?_
    rw [← List.foldl_append]
    -- The count has passed a multiple of the timeout.
    have hmono := Int.ediv_le_ediv hT hgrow
    rw [Int.add_ediv_of_dvd_right (dvd_refl _), Int.ediv_self hT.ne'] at hmono
    omega
  · intro hfits hkeeps
    exact stopsAt_of_keepsPeriod hrep hT (show KeepsPeriod i t start ([] ++ [] ++ ticks) from hkeeps)
      hstart le_rfl (by simp [start, Clock.start]) id hfits

/-- An allocator that takes the address after all others. -/
def nextAddr : TimerCalloc where
  pick timers := some ((timers.map TimerEntry.addr).sum + 1)
  fresh timers a h t ht := by
    have hle := List.single_le_sum (fun _ _ => Nat.zero_le _) t.addr (List.mem_map_of_mem ht)
    have ha := Option.some.inj h
    omega

/-- A timer of two seconds. -/
def everyTwo : TimerEntry := ⟨1, 2, true, 7, 0⟩

/-- The arguments it is registered with. -/
def everyTwoArgs : TimerArgs := ⟨2, true, some 7, 0⟩

/-- Ticks at which the timer is called once. -/
theorem keepsPeriod_everyTwo :
    everyTwo ∈ addTimers nextAddr [everyTwoArgs] ∧
      KeepsPeriod 0 everyTwo (.start [addTimers nextAddr [everyTwoArgs]]) [1, 1, 2, 3] := by
  have hi : [[everyTwoArgs]][0]? = some [everyTwoArgs] := rfl
  exact ⟨by decide, (keepsPeriod_iff hi rfl (by decide) _).1 (by decide)⟩

/-- A tick that comes two seconds after the one before, at an odd count, and a timer behind one whose
timeout is 0. -/
theorem not_keepsPeriod :
    ¬KeepsPeriod 0 everyTwo (.start [addTimers nextAddr [everyTwoArgs]]) [1, 3] ∧
      ¬KeepsPeriod 0 everyTwo (.start [addTimers nextAddr [everyTwoArgs, ⟨0, true, some 7, 0⟩]])
        [1, 2] := by
  constructor
  · intro h
    rcases h [1] [3] [] rfl (by decide) with ⟨called, hcalled, hmem⟩ | hnone
    · obtain rfl : [] = called := Option.some.inj hcalled
      cases hmem
    · exact hnone
  · intro h
    rcases h [] [1, 2] [] rfl (by decide) with ⟨called, hcalled, hmem⟩ | ⟨called, hcalled, hmem⟩ | hnone
    · obtain rfl : [] = called := Option.some.inj hcalled
      cases hmem
    · obtain rfl : [] = called := Option.some.inj hcalled
      cases hmem
    · exact hnone

end Moc
