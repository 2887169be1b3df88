import Mathlib.Data.Int.Notation
import Mathlib.Data.List.TakeWhile
import Mathlib.Data.Nat.Digits.Lemmas
import Mathlib.Tactic.NormNum

/-!
# Decimal text

The decimal text of an integer as the C library writes and reads it: `print` and `padLeft` are the
conversion `%Nlld`, `strtoll` reads base 10 in the C locale, and `snprintf` cuts a text to the size
of its buffer.
-/

namespace Decimal

/-- The largest 64-bit signed integer. -/
def int64Max : ℤ := 2^63 - 1

/-- The smallest 64-bit signed integer. -/
def int64Min : ℤ := -2^63

/-- `isspace` in the C locale. -/
def isSpace (b : UInt8) : Bool := b = 32 || 9 ≤ b && b ≤ 13

/-- `isdigit`. -/
def isDigit (b : UInt8) : Bool := 48 ≤ b && b ≤ 57

/-- The number that the digits at the start of a text spell, 0 when there is none. -/
def digitsVal (s : List UInt8) : ℕ :=
  (s.takeWhile isDigit).foldl (fun n b => n * 10 + (b.toNat - 48)) 0

/-- `strtoll(s, NULL, 10)`: white space, an optional sign, digits. A number outside the range is
replaced by the nearest one inside. -/
def strtoll (s : List UInt8) : ℤ :=
  let s := s.dropWhile isSpace
  if s.head? = some 45 then max int64Min (-(digitsVal s.tail))
  else if s.head? = some 43 then min int64Max (digitsVal s.tail)
  else min int64Max (digitsVal s)

/-- The digits of a natural number, most significant first. -/
def digits (n : ℕ) : List UInt8 :=
  if n = 0 then [48] else (Nat.digits 10 n).reverse.map fun d => UInt8.ofNat (48 + d)

/-- The text of an integer, as `%lld` writes it. -/
def print (i : ℤ) : List UInt8 := if i < 0 then 45 :: digits i.natAbs else digits i.natAbs

/-- A text in a field of `w` columns, to the right. -/
def padLeft (w : ℕ) (s : List UInt8) : List UInt8 := List.replicate (w - s.length) 32 ++ s

/-- The bytes that `snprintf` writes into a buffer of `size` bytes: what fits, and a NUL. -/
def snprintf (size : ℕ) (s : List UInt8) : List UInt8 :=
  if size = 0 then [] else s.take (size - 1) ++ [0]

/-- A number below `10^k` has at most `k` digits. -/
theorem length_digits_le {n k : ℕ} (hn : n < 10^k) (hk : 0 < k) : (digits n).length ≤ k := by
  unfold digits
  split_ifs with h0
  · simpa using Nat.succ_le_of_lt hk
  · simp only [List.length_map, List.length_reverse]
    exact (Nat.digits_length_le_iff (by norm_num) n).mpr hn

/-- A 64-bit integer in a field of at least 20 columns fills the field. -/
theorem length_padLeft_print {i : ℤ} {w : ℕ} (hw : 20 ≤ w) (hmin : int64Min ≤ i)
    (hmax : i ≤ int64Max) : (padLeft w (print i)).length = w := by
  simp only [int64Min, int64Max] at hmin hmax
  have hdigits : (digits i.natAbs).length ≤ 19 := length_digits_le (by norm_num; omega) (by norm_num)
  have hprint : (print i).length ≤ 20 := by
    unfold print
    split_ifs
    · simpa using Nat.lt_succ_of_le hdigits
    · omega
  simp only [padLeft, List.length_append, List.length_replicate]
  omega

/-- A text that leaves room for the NUL is not cut. -/
theorem snprintf_of_lt {size : ℕ} {s : List UInt8} (h : s.length < size) :
    snprintf size s = s ++ [0] := by
  rw [snprintf, if_neg (by omega), List.take_of_length_le (by omega)]

example : strtoll [32, 45, 49, 50, 0] = -12 := by decide

/-! ## Reading what was printed -/

/-- The byte of a decimal digit. -/
theorem isDigit_ofNat {d : ℕ} (hd : d < 10) : isDigit (UInt8.ofNat (48 + d)) = true := by
  interval_cases d <;> rfl

theorem toNat_digit {d : ℕ} (hd : d < 10) : (UInt8.ofNat (48 + d)).toNat - 48 = d := by
  rw [UInt8.toNat_ofNat_of_lt' (by simp [UInt8.size]; omega)]
  omega

/-- Every byte of the digits of a number is a digit. -/
theorem isDigit_of_mem_digits {n : ℕ} {b : UInt8} (hb : b ∈ digits n) : isDigit b = true := by
  unfold digits at hb
  split_ifs at hb
  · rw [List.mem_singleton.mp hb]
    rfl
  · obtain ⟨d, hd, rfl⟩ := List.mem_map.mp hb
    exact isDigit_ofNat (Nat.digits_lt_base (by norm_num) (List.mem_reverse.mp hd))

/-- Digits read from the most significant one on spell the number that they are the digits of. -/
theorem foldl_digits {ds : List ℕ} (hds : ∀ d ∈ ds, d < 10) :
    ((ds.reverse.map fun d => UInt8.ofNat (48 + d)).foldl
      (fun n b => n * 10 + (b.toNat - 48)) 0) = Nat.ofDigits 10 ds := by
  induction ds with
  | nil => rfl
  | cons d ds ih =>
    have hrest := ih fun d' hd' => hds d' (List.mem_cons_of_mem _ hd')
    rw [List.reverse_cons, List.map_append, List.foldl_append, hrest, Nat.ofDigits_cons]
    simp only [List.map_cons, List.map_nil, List.foldl_cons, List.foldl_nil,
      toNat_digit (hds d List.mem_cons_self)]
    omega

theorem digitsVal_digits (n : ℕ) : digitsVal (digits n) = n := by
  have hall : (digits n).takeWhile isDigit = digits n :=
    List.takeWhile_eq_self_iff.mpr fun b hb => isDigit_of_mem_digits hb
  rw [digitsVal, hall]
  unfold digits
  split_ifs with h0
  · rw [h0]
    rfl
  · rw [foldl_digits fun d hd => Nat.digits_lt_base (by norm_num) hd, Nat.ofDigits_digits]

theorem digits_ne_nil (n : ℕ) : digits n ≠ [] := by
  unfold digits
  split_ifs with h0
  · simp
  · simp [Nat.digits_ne_nil_iff_ne_zero.mpr h0]

/-- The text of an integer has no white space and no NUL. -/
theorem mem_print {i : ℤ} {b : UInt8} (hb : b ∈ print i) : isSpace b = false ∧ b ≠ 0 := by
  have hdigit : ∀ c : UInt8, isDigit c = true → isSpace c = false ∧ c ≠ 0 := by
    intro c hc
    simp only [isDigit, isSpace, Bool.and_eq_true, decide_eq_true_eq, Bool.or_eq_false_iff,
      decide_eq_false_iff_not, Bool.and_eq_false_iff, UInt8.le_iff_toNat_le, ne_eq,
      ← UInt8.toNat_inj, UInt8.reduceToNat] at hc ⊢
    omega
  unfold print at hb
  split_ifs at hb
  · rcases List.mem_cons.mp hb with rfl | hb
    · decide
    · exact hdigit b (isDigit_of_mem_digits hb)
  · exact hdigit b (isDigit_of_mem_digits hb)

/-- A padded text has no NUL either. -/
theorem ne_zero_of_mem_padLeft_print {w : ℕ} {i : ℤ} {b : UInt8} (hb : b ∈ padLeft w (print i)) :
    b ≠ 0 := by
  rcases List.mem_append.mp hb with hb | hb
  · rw [List.eq_of_mem_replicate hb]
    decide
  · exact (mem_print hb).2

/-- White space in front of a number is skipped. -/
theorem strtoll_padLeft (w : ℕ) (s : List UInt8) : strtoll (padLeft w s) = strtoll s := by
  have hskip : (padLeft w s).dropWhile isSpace = s.dropWhile isSpace :=
    List.dropWhile_append_of_pos fun b hb => by rw [List.eq_of_mem_replicate hb]; rfl
  rw [strtoll, strtoll, hskip]

/-- A 64-bit integer that was printed reads as itself. -/
theorem strtoll_print {i : ℤ} (hmin : int64Min ≤ i) (hmax : i ≤ int64Max) :
    strtoll (print i) = i := by
  have hskip : (print i).dropWhile isSpace = print i := by
    cases hp : print i with
    | nil => rfl
    | cons b s => exact List.dropWhile_cons_of_neg (by simp [(mem_print (hp ▸ List.mem_cons_self)).1])
  rw [strtoll, hskip]
  unfold print
  by_cases hneg : i < 0
  · rw [if_pos hneg, List.head?_cons, if_pos rfl, List.tail_cons, digitsVal_digits]
    omega
  · -- The first byte is a digit, so there is no sign.
    obtain ⟨b, s, hbs⟩ := List.exists_cons_of_ne_nil (digits_ne_nil i.natAbs)
    have hb : isDigit b = true := isDigit_of_mem_digits (hbs ▸ List.mem_cons_self)
    have hsign : b ≠ 45 ∧ b ≠ 43 := by
      constructor <;> rintro rfl <;> exact absurd hb (by decide)
    have hval := digitsVal_digits i.natAbs
    rw [if_neg hneg, hval, hbs, List.head?_cons, if_neg (by simpa using hsign.1),
      if_neg (by simpa using hsign.2)]
    omega

end Decimal
