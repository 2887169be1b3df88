import Mathlib.Data.Nat.ModEq
import Mathlib.Tactic.Ring

/-!
# End-around carry

Sums of words of `w` bits in which the carry out of the word is added back in at the other end. Such
a sum is known up to the modulus `2^w - 1`, with one exception: it is 0 only when every word is.
`canon` is the word that stands for a number, so that folding the carries of a large sum and adding
the words one at a time are the same.
-/

namespace EndAround

/-- The number with the part above `w` bits added to the part below. -/
def foldStep (w n : ℕ) : ℕ := n % 2^w + n / 2^w

/-- The sum of two words, with its carry added back in. -/
def add (w a b : ℕ) : ℕ := foldStep w (a + b)

/-- The word for a number under the modulus `m`: 0 for 0, else one of `1 .. m`. -/
def canon (m n : ℕ) : ℕ := if n = 0 then 0 else (n - 1) % m + 1

theorem canon_eq_zero {m n : ℕ} : canon m n = 0 ↔ n = 0 := by
  unfold canon
  split_ifs with h <;> simp [h]

theorem canon_modEq (m n : ℕ) : canon m n ≡ n [MOD m] := by
  unfold canon
  split_ifs with h
  · rw [h]
  · have hpos : n - 1 + 1 = n := Nat.succ_pred_eq_of_pos (Nat.pos_of_ne_zero h)
    calc (n - 1) % m + 1 ≡ n - 1 + 1 [MOD m] := (Nat.mod_modEq _ _).add_right 1
      _ = n := hpos

/-- Two numbers have one word exactly when they agree under the modulus and are both 0 or both
not. -/
theorem canon_eq_iff {m a b : ℕ} : canon m a = canon m b ↔ (a = 0 ↔ b = 0) ∧ a ≡ b [MOD m] := by
  constructor
  · intro h
    refine ⟨?_, (canon_modEq m a).symm.trans (h ▸ canon_modEq m b)⟩
    rw [← @canon_eq_zero m a, h, canon_eq_zero]
  · rintro ⟨hzero, hmod⟩
    by_cases ha : a = 0
    · rw [ha, hzero.mp ha]
    · have hb : b ≠ 0 := fun hb => ha (hzero.mpr hb)
      have hpred : a - 1 ≡ b - 1 [MOD m] := by
        apply Nat.ModEq.add_right_cancel' 1
        rwa [Nat.sub_add_cancel (Nat.pos_of_ne_zero ha), Nat.sub_add_cancel (Nat.pos_of_ne_zero hb)]
      rw [canon, canon, if_neg ha, if_neg hb, hpred]

/-- A word stands for itself. -/
theorem canon_of_le {m n : ℕ} (h : n ≤ m) : canon m n = n := by
  unfold canon
  split_ifs with hn
  · exact hn.symm
  · rw [Nat.mod_eq_of_lt (by omega)]
    omega

theorem canon_le {m : ℕ} (hm : 0 < m) (n : ℕ) : canon m n ≤ m := by
  unfold canon
  split_ifs
  · omega
  · exact Nat.mod_lt _ hm

/-- A word may stand for its number in a sum. -/
theorem canon_add (m a b : ℕ) : canon m (canon m a + b) = canon m (a + b) := by
  rw [canon_eq_iff]
  constructor
  · rw [Nat.add_eq_zero_iff, Nat.add_eq_zero_iff, canon_eq_zero]
  · exact (canon_modEq m a).add_right b

/-- Folding does not change the word. -/
theorem canon_foldStep (w n : ℕ) : canon (2^w - 1) (foldStep w n) = canon (2^w - 1) n := by
  have hdiv : 2^w * (n / 2^w) + n % 2^w = n := Nat.div_add_mod n (2^w)
  have hone : 1 ≤ 2^w := Nat.one_le_two_pow
  rw [canon_eq_iff]
  constructor
  · unfold foldStep
    constructor
    · intro h
      obtain ⟨hmod, hquot⟩ := Nat.add_eq_zero_iff.mp h
      rw [← hdiv, hmod, hquot, mul_zero]
    · rintro rfl
      simp
  · -- The two differ by a multiple of the modulus.
    have hsum : foldStep w n + (2^w - 1) * (n / 2^w) = n := by
      unfold foldStep
      calc n % 2^w + n / 2^w + (2^w - 1) * (n / 2^w)
          = (2^w - 1 + 1) * (n / 2^w) + n % 2^w := by ring
        _ = n := by rw [Nat.sub_add_cancel hone, hdiv]
    calc foldStep w n ≡ foldStep w n + (2^w - 1) * (n / 2^w) [MOD (2^w - 1)] := by
          simp [Nat.ModEq]
      _ = n := hsum

/-- The sum of two words is a word. -/
theorem add_le {w a b : ℕ} (ha : a < 2^w) (hb : b < 2^w) : add w a b ≤ 2^w - 1 := by
  unfold add foldStep
  rcases Nat.lt_or_ge (a + b) (2^w) with h | h
  · rw [Nat.mod_eq_of_lt h, Nat.div_eq_of_lt h]
    omega
  · have hmod : (a + b) % 2^w = a + b - 2^w := by
      rw [Nat.mod_eq_sub_mod h, Nat.mod_eq_of_lt (by omega)]
    have hquot : (a + b) / 2^w = 1 := Nat.div_eq_of_lt_le (by omega) (by omega)
    omega

/-- Words added one at a time sum to the word of their sum. -/
theorem foldl_add {w : ℕ} {ws : List ℕ} (hws : ∀ x ∈ ws, x < 2^w) {a : ℕ} (ha : a < 2^w) :
    ws.foldl (add w) a = canon (2^w - 1) (a + ws.sum) := by
  induction ws generalizing a with
  | nil => exact (canon_of_le (by simp; omega)).symm
  | cons x ws ih =>
    have hx := hws x List.mem_cons_self
    have hle := add_le ha hx
    have hadd : add w a x = canon (2^w - 1) (a + x) := by
      rw [← canon_foldStep, ← add, canon_of_le hle]
    rw [List.foldl_cons, ih (fun y hy => hws y (List.mem_cons_of_mem _ hy)) (by omega), hadd,
      canon_add, List.sum_cons, add_assoc]

end EndAround
