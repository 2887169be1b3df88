import Mathlib.Tactic.Linarith
import Mathlib.Tactic.Ring

/-!
# Words and their bytes

Big-endian and little-endian encodings of 16-bit and 32-bit words as lists of bytes, and the value
of a byte list read as one big-endian number. A word is a natural number, so that the size
arithmetic around it is `omega`'s; an encoder drops the bits above the word, as storing to a
fixed-width field does.
-/

namespace Bytes

/-- The value of a list of bytes, most significant byte first. -/
def beNat (bs : List UInt8) : ℕ := bs.foldl (fun acc b => acc * 256 + b.toNat) 0

/-- The four bytes of a 32-bit word, most significant first. -/
def be32 (n : ℕ) : List UInt8 :=
  [UInt8.ofNat (n / 2^24), UInt8.ofNat (n / 2^16), UInt8.ofNat (n / 2^8), UInt8.ofNat n]

/-- The two bytes of a 16-bit word, most significant first. -/
def be16 (n : ℕ) : List UInt8 := [UInt8.ofNat (n / 2^8), UInt8.ofNat n]

/-- The four bytes of a 32-bit word, least significant first. -/
def le32 (n : ℕ) : List UInt8 :=
  [UInt8.ofNat n, UInt8.ofNat (n / 2^8), UInt8.ofNat (n / 2^16), UInt8.ofNat (n / 2^24)]

/-- A 32-bit word with its bytes in the opposite order. -/
def bswap32 (n : ℕ) : ℕ :=
  n % 2^8 * 2^24 + n / 2^8 % 2^8 * 2^16 + n / 2^16 % 2^8 * 2^8 + n / 2^24 % 2^8

@[simp] theorem length_be32 (n : ℕ) : (be32 n).length = 4 := rfl

@[simp] theorem length_be16 (n : ℕ) : (be16 n).length = 2 := rfl

@[simp] theorem length_le32 (n : ℕ) : (le32 n).length = 4 := rfl

/-- Reading back a stored 32-bit word. -/
@[simp] theorem beNat_be32 (n : ℕ) : beNat (be32 n) = n % 2^32 := by
  simp [be32, beNat]
  omega

/-- Reading back a stored 16-bit word. -/
@[simp] theorem beNat_be16 (n : ℕ) : beNat (be16 n) = n % 2^16 := by
  simp [be16, beNat]
  omega

/-- Storing a word in the byte order of a little-endian host after swapping it is storing it in
network order. -/
theorem le32_bswap32 (n : ℕ) : le32 (bswap32 n) = be32 n := by
  have h0 : n % 2^8 < 256 := Nat.mod_lt _ (by norm_num)
  have h1 : n / 2^8 % 2^8 < 256 := Nat.mod_lt _ (by norm_num)
  have h2 : n / 2^16 % 2^8 < 256 := Nat.mod_lt _ (by norm_num)
  have h3 : n / 2^24 % 2^8 < 256 := Nat.mod_lt _ (by norm_num)
  simp only [le32, bswap32, be32, List.cons.injEq, and_true, ← UInt8.toNat_inj,
    UInt8.toNat_ofNat']
  -- Each digit of the swapped word is one of the four digits of `n`.
  generalize n % 2^8 = d0 at *
  generalize n / 2^8 % 2^8 = d1 at *
  generalize n / 2^16 % 2^8 = d2 at *
  generalize n / 2^24 % 2^8 = d3 at *
  refine ⟨?_, ?_, ?_, ?_⟩ <;> omega

/-- The one-at-a-time hash of a byte string. -/
def oneAtATime (key : List UInt8) : UInt32 :=
  let mix (h : UInt32) (b : UInt8) : UInt32 :=
    let h := h + b.toUInt32
    let h := h + h <<< 10
    h ^^^ h >>> 6
  let h := key.foldl mix 0
  let h := h + h <<< 3
  let h := h ^^^ h >>> 11
  h + h <<< 15

end Bytes
