import Moc.Lib.Decimal
import Mathlib.Data.List.DropRight

/-!
# Scanning text

What C code does to a line of text in the C locale: classes of characters, white space stripped from the
ends, a line copied into a buffer that may be too short for it.
-/

namespace CText

open Decimal (isSpace isDigit)

/-- `isalnum` -/
def isAlnum (b : UInt8) : Bool := isDigit b || 65 ≤ b && b ≤ 90 || 97 ≤ b && b ≤ 122

/-- `isprint` of a `char`, which is signed. -/
def isPrint (b : UInt8) : Bool := 32 ≤ b && b ≤ 126

/-- The text from the first character on that is no white space. -/
def skipWs (s : List UInt8) : List UInt8 := s.dropWhile isSpace

/-- The text without the white space at its end. -/
def rstrip (s : List UInt8) : List UInt8 := s.rdropWhile isSpace

/-- The text without the white space at both ends. -/
def strip (s : List UInt8) : List UInt8 := skipWs (rstrip s)

/-- What fits of the first line in a buffer of `room` characters, with its newline, and the rest. -/
def copyLine : ℕ → List UInt8 → List UInt8 × List UInt8
  | 0, s => ([], s)
  | _ + 1, [] => ([], [])
  | room + 1, c :: s =>
    if c = 10 then ([c], s)
    else
      let r := copyLine room s
      (c :: r.1, r.2)

/-- No white space at either end. -/
def Trimmed (s : List UInt8) : Prop := (∀ c ∈ s.head?, isSpace c = false) ∧ ∀ c ∈ s.getLast?, isSpace c = false

/-- A text taken apart where a class of characters ends. -/
theorem takeWhile_append_head {p : UInt8 → Bool} {s t : List UInt8} (hs : ∀ c ∈ s, p c = true)
    (ht : ∀ c ∈ t.head?, p c = false) : (s ++ t).takeWhile p = s := by
  rw [List.takeWhile_append_of_pos hs]
  cases t with
  | nil => simp
  | cons c t => rw [List.takeWhile_cons_of_neg (by simp [ht c rfl]), List.append_nil]

theorem dropWhile_append_head {p : UInt8 → Bool} {s t : List UInt8} (hs : ∀ c ∈ s, p c = true)
    (ht : ∀ c ∈ t.head?, p c = false) : (s ++ t).dropWhile p = t := by
  rw [List.dropWhile_append_of_pos hs]
  cases t with
  | nil => rfl
  | cons c t => rw [List.dropWhile_cons_of_neg (by simp [ht c rfl])]

theorem skipWs_of_head {s : List UInt8} (h : ∀ c ∈ s.head?, isSpace c = false) : skipWs s = s := by
  cases s with
  | nil => rfl
  | cons c s => exact List.dropWhile_cons_of_neg (by simp [h c rfl])

theorem skipWs_append {ws : List UInt8} (hws : ∀ c ∈ ws, isSpace c = true) (s : List UInt8) :
    skipWs (ws ++ s) = skipWs s :=
  List.dropWhile_append_of_pos hws

theorem head_skipWs (s : List UInt8) : ∀ c ∈ (skipWs s).head?, isSpace c = false := by
  intro c hc
  have h := List.head?_dropWhile_not isSpace s
  rw [skipWs] at hc
  rw [Option.mem_def.mp hc] at h
  exact h

theorem rstrip_of_getLast {s : List UInt8} (h : ∀ c ∈ s.getLast?, isSpace c = false) : rstrip s = s := by
  cases hs : s.getLast? with
  | none => rw [List.getLast?_eq_none_iff.mp hs]; rfl
  | some c =>
    obtain ⟨ys, rfl⟩ := List.getLast?_eq_some_iff.mp hs
    exact List.rdropWhile_concat_neg _ _ _ (by simp [h c hs])

theorem strip_of_trimmed {s : List UInt8} (h : Trimmed s) : strip s = s := by
  rw [strip, rstrip_of_getLast h.2, skipWs_of_head h.1]

theorem rdropWhile_cons {p : UInt8 → Bool} {s : List UInt8} (h : s.rdropWhile p ≠ []) (c : UInt8) :
    (c :: s).rdropWhile p = c :: s.rdropWhile p := by
  have hne : ¬(s.reverse.dropWhile p).isEmpty = true := by
    simpa [List.rdropWhile] using h
  rw [List.rdropWhile, List.reverse_cons, List.dropWhile_append, if_neg hne, List.reverse_append,
    List.rdropWhile]
  rfl

/-- White space in front does not matter. -/
theorem strip_cons {c : UInt8} (hc : isSpace c = true) (s : List UInt8) : strip (c :: s) = strip s := by
  unfold strip rstrip
  by_cases hs : s.rdropWhile isSpace = []
  · have hall := List.rdropWhile_eq_nil_iff.mp hs
    have hnil : (c :: s).rdropWhile isSpace = [] :=
      List.rdropWhile_eq_nil_iff.mpr (List.forall_mem_cons.mpr ⟨hc, hall⟩)
    rw [hs, hnil]
  · rw [rdropWhile_cons hs]
    exact List.dropWhile_cons_of_pos hc

theorem trimmed_strip (s : List UInt8) : Trimmed (strip s) := by
  refine ⟨head_skipWs _, fun c hc => ?_⟩
  have hne : strip s ≠ [] := by
    rintro h
    rw [h] at hc
    exact Option.not_mem_none _ hc
  -- What is stripped in front leaves the last character where it is.
  have hsuffix : strip s <:+ rstrip s := List.dropWhile_suffix _
  have hne' : rstrip s ≠ [] := fun h => hne (List.suffix_nil.mp (h ▸ hsuffix))
  have hlast := List.rdropWhile_last_not isSpace s hne'
  have hget : (rstrip s).getLast? = some c := by
    obtain ⟨ys, hys⟩ := hsuffix
    rw [← hys, List.getLast?_append_of_ne_nil _ hne]
    exact hc
  rw [List.getLast?_eq_some_getLast hne', Option.some.injEq] at hget
  rw [← hget]
  exact Bool.eq_false_iff.mpr hlast

theorem copyLine_append (room : ℕ) (s : List UInt8) : (copyLine room s).1 ++ (copyLine room s).2 = s := by
  fun_induction copyLine room s with
  | case1 s => rfl
  | case2 => rfl
  | case3 room s => rfl
  | case4 room c s hc r ih => simpa using ih

theorem copyLine_eq_nil {room : ℕ} {s : List UInt8} (h : (copyLine (room + 1) s).1 = []) : s = [] := by
  cases s with
  | nil => rfl
  | cons c s =>
    rw [copyLine] at h
    split_ifs at h

theorem length_copyLine_le (room : ℕ) (s : List UInt8) : (copyLine room s).1.length ≤ room := by
  fun_induction copyLine room s with
  | case1 s => exact le_refl _
  | case2 => exact Nat.zero_le _
  | case3 room s => simp
  | case4 room c s hc r ih => simpa using ih

end CText
