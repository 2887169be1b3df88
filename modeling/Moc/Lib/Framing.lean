import Moc.Lib.Memory

/-!
# Length-delimited streams

A framer looks at the front of a stream and says whether a whole frame lies there, whether more has
to arrive first, or whether the stream is illegal from here on. What it says once it has seen enough
does not change when more arrives, and that alone makes splitting a stream independent of how the
stream was cut (`split_append`). The instance is a framer that finds the size of a frame in its
first four bytes (`wordFramer`).
-/

open Bytes Memory

namespace Framing

/-- What lies at the front of a stream. -/
inductive Front where
  /-- Not enough to tell, or not yet a whole frame. -/
  | incomplete
  /-- No frame can start here. -/
  | illegal
  /-- A frame of this size. -/
  | frame (n : ℕ)
  deriving DecidableEq

/-- A rule that finds the frames of a stream. -/
structure Framer (α : Type) where
  next : List α → Front
  /-- A frame is not empty and lies in what has arrived. -/
  frame_le : ∀ s n, next s = .frame n → 0 < n ∧ n ≤ s.length
  /-- A frame is found again when more has arrived. -/
  frame_append : ∀ s t n, next s = .frame n → next (s ++ t) = .frame n
  /-- So is an illegal front. -/
  illegal_append : ∀ s t, next s = .illegal → next (s ++ t) = .illegal

variable {α : Type} (F : Framer α) (accept : List α → Bool)

/-- The frames at the front of a stream, each given to `accept`, and what is left behind them: the
incomplete rest, or none when the stream ends at an illegal front or at a rejected frame. -/
def split (s : List α) : List (List α) × Option (List α) :=
  match _hnext : F.next s with
  | .incomplete => ([], some s)
  | .illegal => ([], none)
  | .frame n =>
    if accept (s.take n) then (s.take n :: (split (s.drop n)).1, (split (s.drop n)).2)
    else ([s.take n], none)
termination_by s.length
decreasing_by
  all_goals
    have := F.frame_le s n ‹F.next s = .frame n›
    simp only [List.length_drop]
    omega

variable {F accept}

theorem split_incomplete {s : List α} (h : F.next s = .incomplete) :
    split F accept s = ([], some s) := by
  rw [split]
  split <;> simp_all

theorem split_illegal {s : List α} (h : F.next s = .illegal) : split F accept s = ([], none) := by
  rw [split]
  split <;> simp_all

theorem split_frame {s : List α} {n : ℕ} (h : F.next s = .frame n) :
    split F accept s =
      if accept (s.take n) then
        (s.take n :: (split F accept (s.drop n)).1, (split F accept (s.drop n)).2)
      else ([s.take n], none) := by
  rw [split]
  split <;> simp_all

/-- A stream whose front is a frame has a next one that is shorter. -/
theorem length_drop_lt {s : List α} {n : ℕ} (h : F.next s = .frame n) :
    (s.drop n).length < s.length := by
  have := F.frame_le s n h
  rw [List.length_drop]
  omega

/-- The rest that a split leaves is incomplete. -/
theorem next_rest {s rest : List α} (h : (split F accept s).2 = some rest) :
    F.next rest = .incomplete := by
  induction hn : s.length using Nat.strong_induction_on generalizing s with
  | _ len ih =>
    subst hn
    cases hnext : F.next s with
    | incomplete =>
      rw [split_incomplete hnext] at h
      rwa [← Option.some.inj h]
    | illegal => simp [split_illegal hnext] at h
    | frame n =>
      rw [split_frame hnext] at h
      split_ifs at h
      exact ih _ (length_drop_lt hnext) h rfl

/-- What is left of a stream behind the frames at its front. -/
def remain (F : Framer α) (s : List α) : List α :=
  match _hnext : F.next s with
  | .incomplete => s
  | .illegal => s
  | .frame n => remain F (s.drop n)
termination_by s.length
decreasing_by exact length_drop_lt ‹F.next s = .frame n›

theorem remain_incomplete {s : List α} (h : F.next s = .incomplete) : remain F s = s := by
  rw [remain]
  split <;> simp_all

theorem remain_illegal {s : List α} (h : F.next s = .illegal) : remain F s = s := by
  rw [remain]
  split <;> simp_all

theorem remain_frame {s : List α} {n : ℕ} (h : F.next s = .frame n) :
    remain F s = remain F (s.drop n) := by
  rw [remain]
  split <;> simp_all

theorem length_remain_le (s : List α) : (remain F s).length ≤ s.length := by
  induction hn : s.length using Nat.strong_induction_on generalizing s with
  | _ len ih =>
    subst hn
    cases hnext : F.next s with
    | incomplete => rw [remain_incomplete hnext]
    | illegal => rw [remain_illegal hnext]
    | frame n =>
      have hlt := length_drop_lt hnext
      rw [remain_frame hnext]
      exact (ih _ hlt _ rfl).trans hlt.le

/-- A split that accepts every frame leaves what remains, unless no frame can start there. -/
theorem split_all (s : List α) :
    (split F (fun _ => true) s).2 =
      if F.next (remain F s) = .illegal then none else some (remain F s) := by
  induction hn : s.length using Nat.strong_induction_on generalizing s with
  | _ len ih =>
    subst hn
    cases hnext : F.next s with
    | incomplete => rw [split_incomplete hnext, remain_incomplete hnext, hnext, if_neg nofun]
    | illegal => rw [split_illegal hnext, remain_illegal hnext, if_pos hnext]
    | frame n =>
      rw [split_frame hnext, if_pos rfl, remain_frame hnext]
      exact ih _ (length_drop_lt hnext) _ rfl

/-- What arrives behind an illegal or rejected front is not looked at. -/
theorem split_append_of_none {s : List α} (t : List α) (h : (split F accept s).2 = none) :
    split F accept (s ++ t) = split F accept s := by
  induction hn : s.length using Nat.strong_induction_on generalizing s with
  | _ len ih =>
    subst hn
    cases hnext : F.next s with
    | incomplete => simp [split_incomplete hnext] at h
    | illegal => rw [split_illegal hnext, split_illegal (F.illegal_append s t hnext)]
    | frame n =>
      have hle := (F.frame_le s n hnext).2
      rw [split_frame hnext] at h ⊢
      rw [split_frame (F.frame_append s t n hnext), List.take_append_of_le_length hle,
        List.drop_append_of_le_length hle]
      split_ifs with hacc
      · rw [if_pos hacc] at h
        rw [ih _ (length_drop_lt hnext) h rfl]
      · rfl

/-- What arrives behind an incomplete rest continues that rest. -/
theorem split_append_of_some {s rest : List α} (t : List α)
    (h : (split F accept s).2 = some rest) :
    split F accept (s ++ t) =
      ((split F accept s).1 ++ (split F accept (rest ++ t)).1,
        (split F accept (rest ++ t)).2) := by
  induction hn : s.length using Nat.strong_induction_on generalizing s with
  | _ len ih =>
    subst hn
    cases hnext : F.next s with
    | incomplete =>
      rw [split_incomplete hnext] at h ⊢
      rw [Option.some.inj h, List.nil_append]
    | illegal => simp [split_illegal hnext] at h
    | frame n =>
      have hle := (F.frame_le s n hnext).2
      rw [split_frame hnext] at h ⊢
      rw [split_frame (F.frame_append s t n hnext), List.take_append_of_le_length hle,
        List.drop_append_of_le_length hle]
      split_ifs at h ⊢ with hacc
      rw [ih _ (length_drop_lt hnext) h rfl, List.cons_append]

/-! ## Frames that start with their size -/

/-- The framer of frames whose first four bytes hold their whole size in network order. -/
def wordFramer (legal : ℕ → Bool) (hlegal : ∀ n, legal n → 4 ≤ n) : Framer UInt8 where
  next s :=
    if s.length < 4 then .incomplete
    else if ¬ legal (word s 0) then .illegal
    else if s.length < word s 0 then .incomplete
    else .frame (word s 0)
  frame_le s n h := by
    split_ifs at h with h4 hleg hlen
    have := hlegal _ hleg
    cases h
    omega
  frame_append s t n h := by
    split_ifs at h with h4 hleg hlen
    have hword : word (s ++ t) 0 = word s 0 := word_append (by omega)
    rw [hword, List.length_append, if_neg (by omega), if_neg (not_not.mpr hleg),
      if_neg (by omega)]
    exact h
  illegal_append s t h := by
    split_ifs at h with h4 hleg hlen
    have hword : word (s ++ t) 0 = word s 0 := word_append (by omega)
    rw [hword, List.length_append, if_neg (by omega), if_pos hleg]

end Framing
