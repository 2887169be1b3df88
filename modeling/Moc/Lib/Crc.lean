import Mathlib.Data.Nat.Notation
import Mathlib.Tactic.Common

/-!
# Cyclic redundancy checks by table

A reflected CRC over words of `w` bits takes its input bit by bit: `step` shifts the register and adds
the polynomial when the bit that leaves is set. The steps are linear (`steps_xor`), so eight of them can be
looked up under the low byte of the register: `byte_eq_table` is the step of the usual table-driven loop,
for any polynomial and any table of the right entries.
-/

namespace Crc

variable {w : ℕ} (poly : BitVec w)

/-- One bit. -/
def step (x : BitVec w) : BitVec w := (x >>> 1) ^^^ if x.getLsbD 0 then poly else 0

/-- Some bits. -/
def steps : ℕ → BitVec w → BitVec w
  | 0, x => x
  | n + 1, x => steps n (step poly x)

/-- A byte taken into the register. -/
def byte (x : BitVec w) (b : BitVec 8) : BitVec w := steps poly 8 (x ^^^ b.setWidth w)

theorem step_xor (x y : BitVec w) : step poly (x ^^^ y) = step poly x ^^^ step poly y := by
  have hpoly : (if (x ^^^ y).getLsbD 0 then poly else 0) =
      (if x.getLsbD 0 then poly else 0) ^^^ if y.getLsbD 0 then poly else 0 := by
    rw [BitVec.getLsbD_xor]
    cases x.getLsbD 0 <;> cases y.getLsbD 0 <;> simp
  rw [step, step, step, hpoly, BitVec.ushiftRight_xor_distrib]
  ac_rfl

theorem steps_xor (n : ℕ) (x y : BitVec w) :
    steps poly n (x ^^^ y) = steps poly n x ^^^ steps poly n y := by
  induction n generalizing x y with
  | zero => rfl
  | succ n ih => rw [steps, step_xor, ih, steps, steps]

/-- While zeros leave the register it is only shifted. -/
theorem steps_of_zeros {n : ℕ} {x : BitVec w} (hx : ∀ i < n, x.getLsbD i = false) :
    steps poly n x = x >>> n := by
  induction n generalizing x with
  | zero => exact (BitVec.ushiftRight_zero x).symm
  | succ n ih =>
    have hstep : step poly x = x >>> 1 := by simp [step, hx 0 (Nat.succ_pos n)]
    have hzeros : ∀ i < n, (x >>> 1).getLsbD i = false := by
      intro i hi
      rw [BitVec.getLsbD_ushiftRight]
      exact hx (1 + i) (by omega)
    rw [steps, hstep, ih hzeros, Nat.add_comm n 1, BitVec.shiftRight_add]

/-- A byte is one lookup, for a table that holds eight steps of every byte. -/
theorem byte_eq_table {table : BitVec 8 → BitVec w} (htable : ∀ i, table i = steps poly 8 (i.setWidth w))
    (x : BitVec w) (b : BitVec 8) :
    byte poly x b = (x >>> 8) ^^^ table ((x ^^^ b.setWidth w).setWidth 8) := by
  rw [byte, htable]
  generalize hy : x ^^^ b.setWidth w = y
  -- The register is its low byte and the rest, which leaves no set bit behind.
  have hhigh : ∀ i < 8, (y ^^^ (y.setWidth 8).setWidth w).getLsbD i = false := by
    intro i hi
    simp only [BitVec.getLsbD_xor, BitVec.getLsbD_setWidth]
    by_cases hiw : i < w
    · simp [hi, hiw]
    · simp [BitVec.getLsbD_of_ge y i (Nat.le_of_not_lt hiw)]
  have hshift : (y ^^^ (y.setWidth 8).setWidth w) >>> 8 = x >>> 8 := by
    rw [← hy]
    ext i hi
    simp [BitVec.getLsbD_of_ge]
  have hsplit : y = (y ^^^ (y.setWidth 8).setWidth w) ^^^ (y.setWidth 8).setWidth w := by
    rw [BitVec.xor_assoc, BitVec.xor_self, BitVec.xor_zero]
  conv_lhs => rw [hsplit, steps_xor, steps_of_zeros poly hhigh, hshift]

end Crc
